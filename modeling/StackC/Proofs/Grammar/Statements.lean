import StackC.Proofs.Grammar.Expressions

namespace StackC

open View

namespace Node

variable {S : Names} {b : Bool}

theorem shaped_store {target value : Node} {p : Location} (ht : Shaped S .expression b target)
    (hx : Shaped S .expression b value) : Shaped S .statement b (target.store value p) :=
  .exprStmt (.assign ht hx)

theorem shaped_element {target : Node} {i : Nat} {p : Location}
    (ht : Shaped S .expression b target) : Shaped S .expression b (target.element i p) :=
  .deref (.binary ht .num)

mutual

/-- The stores that clear a target are well formed if the target is. -/
theorem shaped_clear {target : Node} (t : CType) (ht : Shaped S .expression b target) :
    ∀ n ∈ target.clear t, Shaped S .statement b n := by
  match t with
  | .array base len _ =>
    intro n hn
    rw [clear, List.mem_flatMap] at hn
    obtain ⟨i, -, hn⟩ := hn
    exact shaped_clear base (shaped_element ht) n hn
  | .struct ⟨_, _, members⟩ _ =>
    rw [clear]
    exact shaped_clearMembers target.place members ht
  | .primitive _ _ | .pointer _ _ =>
    intro n hn
    rw [clear, List.mem_singleton] at hn
    subst hn
    exact shaped_store ht .num

theorem shaped_clearMembers {target : Node} (p : Location) (members : List (Member CType))
    (ht : Shaped S .expression b target) :
    ∀ n ∈ target.clearMembers p members, Shaped S .statement b n := by
  match members with
  | [] =>
    rw [clearMembers]
    exact fun n hn => nomatch hn
  | ⟨name, t, _⟩ :: members =>
    intro n hn
    rw [clearMembers, List.mem_append] at hn
    rcases hn with hn | hn
    · exact shaped_clear t (.member ht) n hn
    · exact shaped_clearMembers p members ht n hn

end

theorem shaped_storeElements {target : Node} (p : Location) (values : List Int64)
    (ht : Shaped S .expression b target) :
    ∀ n ∈ target.storeElements p values, Shaped S .statement b n := by
  intro n hn
  obtain ⟨i, hi, rfl⟩ := List.mem_mapIdx.mp hn
  exact shaped_store (shaped_element ht) .num

end Node

namespace Initializer

open Parse

abbrev Stores (ns : List Node) (w : View) : Prop := ∀ n ∈ ns, Reads .statement n w

def Storable (v : View) (init : Initializer) : Prop :=
  ∀ w target t, v.Leads w → w.Shapes .expression target →
    Keeps Leads (init.stores target t) w Stores

variable {v : View}

theorem keeps_elementStores {items : List Initializer} (hs : ∀ i ∈ items, Storable v i)
    (base : CType) (p : Location) (k : Nat) {w : View} {target : Node} (hw : v.Leads w)
    (ht : w.Shapes .expression target) :
    Keeps Leads (elementStores target base p k items) w Stores := by
  induction items generalizing k w with
  | nil =>
    rw [elementStores]
    exact .pure (.refl hw.valid) fun n hn => nomatch hn
  | cons item items ih =>
    obtain ⟨hi, hs⟩ := List.forall_mem_cons.mp hs
    rw [elementStores]
    refine .bind evolution_leads (hi w _ base hw (Node.shaped_element ht)) fun front u hu hf => ?_
    refine .bind evolution_leads (ih hs (k + 1) (hw.trans hu) (hu.shapes ht)) fun ns x hx hn => ?_
    exact .pure (.refl hx.valid) (List.forall_mem_append.mpr ⟨fun n h => hx.shapes (hf n h), hn⟩)

theorem keeps_memberStores {items : List Initializer} (hs : ∀ i ∈ items, Storable v i)
    (p : Location) (members : List (Member CType)) {w : View} {target : Node} (hw : v.Leads w)
    (ht : w.Shapes .expression target) :
    Keeps Leads (memberStores target p members items) w Stores := by
  induction items generalizing members w with
  | nil =>
    rw [memberStores]
    exact .pure (.refl hw.valid) (Node.shaped_clearMembers p members ht)
  | cons item items ih =>
    obtain ⟨hi, hs⟩ := List.forall_mem_cons.mp hs
    cases members with
    | nil =>
      rw [memberStores]
      exact .pure (.refl hw.valid) fun n hn => nomatch hn
    | cons m members =>
      rw [memberStores]
      refine .bind evolution_leads (hi w _ m.type hw (.member ht)) fun front u hu hf => ?_
      refine .bind evolution_leads (ih hs members (hw.trans hu) (hu.shapes ht)) fun ns x hx hn => ?_
      exact .pure (.refl hx.valid) (List.forall_mem_append.mpr ⟨fun n h => hx.shapes (hf n h), hn⟩)

/-- Every initializer with well-formed expressions has well-formed stores. -/
theorem storable {init : Initializer} (h : init.All (v.Shapes .expression)) : Storable v init := by
  induction h with
  | @expr e he =>
    intro w target t hw ht
    unfold stores
    split
    · exact keeps_declarationFault _ _
    · exact keeps_declarationFault _ _
    · refine .pure (.refl hw.valid) (List.forall_mem_singleton.mpr ?_)
      exact Node.shaped_store ht (hw.shapes he)
  | @str bytes p =>
    intro w target t hw ht
    unfold stores
    dsimp only
    split
    · split
      · exact keeps_declarationFault _ _
      · split
        · exact keeps_declarationFault _ _
        · exact .pure (.refl hw.valid) (Node.shaped_storeElements p _ ht)
    · exact keeps_declarationFault _ _
    · refine .bind evolution_leads (keeps_literal_variable hw.valid bytes) fun id u hu hid => ?_
      refine .pure (.refl hu.valid) (List.forall_mem_singleton.mpr ?_)
      exact Node.shaped_store (hu.shapes ht) (.var hid)
  | @list items p hs ih =>
    intro w target t hw ht
    unfold stores
    dsimp only
    split
    · split
      · exact keeps_declarationFault _ _
      · refine .bind evolution_leads (keeps_elementStores ih _ p 0 hw ht) fun front u hu hf => ?_
        refine .pure (.refl hu.valid) (List.forall_mem_append.mpr ⟨hf, fun n hn => ?_⟩)
        obtain ⟨i, -, hn⟩ := List.mem_flatMap.mp hn
        exact Node.shaped_clear _ (Node.shaped_element (hu.shapes ht)) n hn
    · split
      · exact keeps_declarationFault _ _
      · exact keeps_memberStores ih p _ hw ht
    · split
      · exact ih _ List.mem_cons_self w target t hw ht
      · exact keeps_declarationFault _ _

end Initializer

namespace Parse

variable {g : Grammar} {v : View}

theorem keeps_listItemsWithin (hg : g.Sound) (hv : v.Valid) (ts : List Token) :
    Keeps Leads (listItemsWithin g ts) v fun is w => ∀ i ∈ is, i.All (w.Shapes .expression) := by
  induction ts generalizing v with
  | nil => exact .pure (.refl hv) (by simp)
  | cons t ts ih =>
    refine .calm_bind (calm_accept _) fun b _ => ?_
    split
    · exact .pure (.refl hv) (by simp)
    · refine .bind evolution_leads (hg.initializer v hv) fun i w hw hi => ?_
      refine .calm_bind (calm_accept _) fun b _ => ?_
      split
      · refine .bind evolution_leads (ih hw.valid) fun is u hu his => .pure (.refl hu.valid) ?_
        exact List.forall_mem_cons.mpr ⟨hi.mono fun _ => hu.shapes, his⟩
      · exact .calm_bind (calm_expect _ _) fun _ _ =>
          .pure (.refl hw.valid) (List.forall_mem_singleton.mpr hi)

/-- The expressions of an initializer are well formed. -/
theorem keeps_initializer (hg : g.Sound) (hv : v.Valid) :
    Keeps Leads (initializer g) v fun i w => i.All (w.Shapes .expression) := by
  have hexpr : Keeps Leads (do return Initializer.expr (← assignment g)) v
      fun i w => i.All (w.Shapes .expression) :=
    .bind evolution_leads (keeps_assignment hg hv) fun e w hw he =>
      .pure (.refl hw.valid) (.expr he)
  refine .calm_bind calm_next fun t _ => .calm_bind (calm_accept _) fun b _ => ?_
  split
  · refine .calm_bind calm_rounds fun ts _ => ?_
    exact .bind evolution_leads (keeps_listItemsWithin hg hv ts) fun is w hw his =>
      .pure (.refl hw.valid) (.list his)
  · split
    · refine .calm_bind calm_endsSecond fun b _ => ?_
      split
      · exact .calm_bind calm_advance fun _ _ => .pure (.refl hv) .str
      · exact hexpr
    · exact hexpr

/-- A frame that passes the check fits. -/
theorem calm_checkFrame (p : Location) (v : View) :
    Keeps (· = ·) (checkFrame p) v fun _ w => w.Fits := by
  refine .get_bind fun s hs => ?_
  dsimp only
  split
  · exact keeps_declarationFault _ _
  · next h =>
    refine .pure rfl ?_
    subst hs
    have hm : maxFrameSize < maxCount := by decide
    unfold Fits
    rw [Nat.not_lt, Nat.min_def] at h
    split at h
    · exact h
    · omega

end Parse

namespace View

theorem getElem?_setType (p : Program) (id : VarId) (t : CType) (j : VarId) :
    (p.setType id t).vars[j]? =
      if id = j then p.vars[j]?.map ({ · with type := t }) else p.vars[j]? := by
  rw [Program.setType, Program.modifyVar, Array.getElem?_modify]

/-- A local declared since `v` may still take its final type. -/
theorem Grows.setType {v w : View} (h : v.Grows w) {id : VarId} (hid : v.vars.size ≤ id)
    (hlocal : id ∈ w.localIds) {t : CType} (ht : t.Formed) :
    v.Grows { w with program := w.program.setType id t } := by
  have hget (j : VarId) (x : Var) (hx : w.vars[j]? = some x) :
      ∃ y : Var, (w.program.setType id t).vars[j]? = some y ∧ y.isLocal = x.isLocal := by
    rw [getElem?_setType]
    split
    · exact ⟨{ x with type := t }, by rw [show w.program.vars[j]? = some x from hx]; rfl, rfl⟩
    · exact ⟨x, hx, rfl⟩
  have hv := h.valid
  have hother (j : VarId) (hne : id ≠ j) : (w.program.setType id t).vars[j]? = w.vars[j]? := by
    rw [getElem?_setType, if_neg hne]
    rfl
  refine ⟨{ hv with formed := ?_, filled := ?_, measured := ?_, globals := ?_, locals := ?_ },
    h.functions, h.fileVars, fun j x hx => ?_, ?_, h.locals, h.fresh, h.isSome, h.depth,
    h.loopDepth⟩
  · intro j x hx
    rw [show View.vars _ = (w.program.setType id t).vars from rfl, getElem?_setType] at hx
    split at hx
    · obtain ⟨y, -, rfl⟩ := Option.map_eq_some_iff.mp hx
      exact ht
    · exact hv.formed j x hx
  · intro j x hx
    by_cases hj : id = j
    · -- Locals have no initial bytes.
      subst hj
      obtain ⟨y, hy, hl⟩ := hv.locals id hlocal
      obtain ⟨z, hz, he⟩ := hget id y hy
      cases hz.symm.trans hx
      exact .of_isLocal (he.trans hl)
    · exact hv.filled j x ((hother j hj).symm.trans hx)
  · intro j x hx
    by_cases hj : id = j
    · exact Or.inr (hj ▸ hlocal)
    · exact hv.measured j x ((hother j hj).symm.trans hx)
  · intro j hj
    obtain ⟨x, hx, hl⟩ := hv.globals j hj
    obtain ⟨y, hy, he⟩ := hget j x hx
    exact ⟨y, hy, he.trans hl⟩
  · intro j hj
    obtain ⟨x, hx, hl⟩ := hv.locals j hj
    obtain ⟨y, hy, he⟩ := hget j x hx
    exact ⟨y, hy, he.trans hl⟩
  · have hlt : j < v.vars.size := lt_of_var hx
    have hne : id ≠ j := Nat.ne_of_gt (Nat.lt_of_lt_of_le hlt hid)
    exact (hother j hne).trans (h.vars j x hx)
  · -- A string literal is no local, so it is another variable.
    obtain ⟨ids, hids, hcount, hnew⟩ := h.literals
    refine ⟨ids, hids, hcount, fun i j hi => ?_⟩
    obtain ⟨bytes, hx⟩ := hnew i j hi
    obtain ⟨y, hy, hl⟩ := hv.locals id hlocal
    have hne : id ≠ j := by
      rintro rfl
      rw [← Option.some.inj (hx.symm.trans hy), isLocal_literal] at hl
      cases hl
    exact ⟨bytes, (hother j hne).trans hx⟩

end View

namespace Parse

variable {g : Grammar} {v : View}

theorem Keeps.forget {α : Type} {R : View → View → Prop} {m : Parse α} {Q : α → View → Prop}
    (h : Keeps R m v Q) : Keeps Anyhow m v fun a w => R v w ∧ Q a w :=
  h.weaken fun _ _ hr hq => ⟨trivial, hr, hq⟩

theorem keeps_declared {name : String} {t : CType} (ht : t.Formed) (p : Location) (hv : v.Valid) :
    Keeps Grows (declareLocal name t p) v fun id w =>
      id = v.vars.size ∧ w.localIds = v.localIds ++ [id] ∧
        w.vars = v.vars.push ⟨name, t, .onFrame⟩ := by
  refine (keeps_declareLocal name t p v).weaken fun id w _ hw => ?_
  obtain ⟨rfl, scopes, ids, hd, hl, rfl⟩ := hw
  refine ⟨hv.declareLocal ht hd hl, rfl, ?_, rfl⟩
  rw [localIds, localIds, hl]
  rfl

/-- Behind its declaration a local is part of a frame of bounded size. -/
theorem keeps_localVariable (hg : g.Sound) (hv : v.Valid) {base : CType} (hb : base.Built) :
    Keeps Leads (localVariable g base) v Initializer.Stores := by
  refine .calm_bind (calm_declarator hb) fun d hd => .calm_bind (calm_checkObject d) fun _ _ => ?_
  refine .calm_bind (calm_accept "=") fun b _ => ?_
  refine Keeps.weaken (R := Anyhow) (Q := fun ns w => v.Grows w ∧ w.Fits ∧
    Initializer.Stores ns w) ?_ fun ns w _ hw => ⟨⟨hw.1, fun _ => hw.2.1⟩, hw.2.2⟩
  split
  · refine .bind evolution_anyhow (keeps_declared (.inl hd.type) d.place hv).forget
      fun id w₁ _ h₁ => ?_
    obtain ⟨h₁, rfl, hl, -⟩ := h₁
    refine .bind evolution_anyhow (keeps_initializer hg h₁.valid).forget fun init w₂ _ h₂ => ?_
    obtain ⟨h₂, hi⟩ := h₂
    have ht := CType.formed_complete hd.type init
    refine .bind evolution_anyhow (keeps_update (fun w => { w with
      program := w.program.setType v.vars.size (init.complete d.type) }) (fun _ => rfl) w₂)
      fun _ w₃ _ hw => ?_
    subst hw
    have hlocal : v.vars.size ∈ w₂.localIds :=
      h₂.locals.subset (by rw [hl]; exact List.mem_append_right _ List.mem_cons_self)
    have h₃ := (h₁.trans h₂.toGrows).setType (Nat.le_refl _) hlocal ht
    have hvar : w₂.names.vars v.vars.size := Or.inl hlocal
    have hstores := Initializer.storable (v := { w₂ with
      program := w₂.program.setType v.vars.size (init.complete d.type) }) hi _ (.var (.bare d.place)
        v.vars.size) (init.complete d.type) (.refl h₃.valid) (.var hvar)
    refine .bind evolution_anyhow hstores.forget fun ns w₄ _ h₄ => ?_
    refine .bind evolution_anyhow (calm_checkFrame d.place w₄).forget fun _ w₅ _ h₅ => ?_
    obtain ⟨rfl, hf⟩ := h₅
    exact .pure trivial ⟨h₃.trans h₄.1.toGrows, hf, h₄.2⟩
  · split
    · exact keeps_declarationFault _ _
    · refine .bind evolution_anyhow (keeps_declared (.inl hd.type) d.place hv).forget
        fun id w₁ _ h₁ => ?_
      refine .bind evolution_anyhow (calm_checkFrame d.place w₁).forget fun _ w₂ _ h₂ => ?_
      obtain ⟨rfl, hf⟩ := h₂
      exact .pure trivial ⟨h₁.1, hf, fun n hn => nomatch hn⟩

theorem keeps_localDeclaration (hg : g.Sound) (hv : v.Valid) :
    Keeps Leads (localDeclaration g) v (Reads .statement) := by
  refine .calm_bind calm_here fun p _ => ?_
  refine .bind evolution_leads (keeps_baseType hg.baseType hv).leads fun base w hw hb => ?_
  refine .calm_bind (calm_accept _) fun b _ => ?_
  split
  · exact .pure (.refl hw.valid) (.block (by simp))
  · refine .bind evolution_leads (keeps_separated (Q := Initializer.Stores) evolution_leads
      (fun ns _ _ hw h n hn => hw.shapes (h n hn)) (.refl hw.valid)
      fun u hu => keeps_localVariable hg hu.valid hb) fun nss u hu hs => ?_
    refine .calm_bind (calm_expect _ _) fun _ _ => .pure (.refl hu.valid) (.block fun n hn => ?_)
    obtain ⟨ns, hns, hn⟩ := List.mem_flatten.mp hn
    exact hs ns hns n hn

theorem keeps_returnStatement (hg : g.Sound) (hv : v.Valid) (p : Location) :
    Keeps Leads (returnStatement g p) v (Reads .statement) := by
  refine .calm_bind (calm_check _) fun b _ => ?_
  split
  · exact .calm_bind (calm_expect _ _) fun _ _ => .pure (.refl hv) (.ret (by simp))
  · refine .bind evolution_leads (keeps_assignment hg hv) fun e w hw he => ?_
    exact .calm_bind (calm_expect _ _) fun _ _ =>
      .pure (.refl hw.valid) (.ret (by rintro _ ⟨⟩; exact he))

theorem keeps_ifStatement (hg : g.Sound) (hv : v.Valid) (p : Location) :
    Keeps Leads (ifStatement g p) v (Reads .statement) := by
  refine .calm_bind (calm_expect _ _) fun _ _ => ?_
  refine .bind evolution_leads (keeps_assignment hg hv) fun e w hw he => ?_
  refine .calm_bind (calm_expect _ _) fun _ _ => ?_
  refine .bind evolution_leads (hg.statement w hw.valid) fun x u hu hx => ?_
  refine .calm_bind (calm_accept _) fun b _ => ?_
  split
  · refine .bind evolution_leads (hg.statement u hu.valid) fun y z hz hy => ?_
    exact .pure (.refl hz.valid) (.ifElse ((hu.trans hz).shapes he) (hz.shapes hx) hy)
  · exact .calm_bind calm_lastPlace fun q _ =>
      .pure (.refl hu.valid) (.ifElse (hu.shapes he) hx .empty)

/-- The body of a loop may jump out of it. -/
theorem keeps_loopBody (hg : g.Sound) (hv : v.Valid) :
    Keeps Leads (inLoop g.statement) v fun x w => Shaped w.names .statement true x := by
  refine keeps_inLoop (hg.statement v.looped { hv with }) fun x w hw hx => ?_
  have hd : decide (0 < w.loopDepth) = true := by
    rw [hw.loopDepth]
    exact decide_eq_true (Nat.succ_pos _)
  exact hd ▸ hx

theorem keeps_whileStatement (hg : g.Sound) (hv : v.Valid) (p : Location) :
    Keeps Leads (whileStatement g p) v (Reads .statement) := by
  refine .calm_bind (calm_expect _ _) fun _ _ => ?_
  refine .bind evolution_leads (keeps_assignment hg hv) fun e w hw he => ?_
  refine .calm_bind (calm_expect _ _) fun _ _ => ?_
  refine .bind evolution_leads (keeps_loopBody hg hw.valid) fun x u hu hx => ?_
  exact .pure (.refl hu.valid) (.whileLoop (hu.shapes he) hx)

theorem keeps_forInit (hg : g.Sound) (hv : v.Valid) :
    Keeps Leads (forInit g) v fun o w => ∀ n ∈ o, Reads .statement n w := by
  refine .calm_bind (calm_accept _) fun b _ => ?_
  split
  · exact .pure (.refl hv) (by simp)
  · refine .calm_bind calm_atType fun b _ => ?_
    split
    · exact .bind evolution_leads (keeps_localDeclaration hg hv) fun n w hw hn =>
        .pure (.refl hw.valid) (by rintro _ ⟨⟩; exact hn)
    · refine .bind evolution_leads (keeps_assignment hg hv) fun e w hw he => ?_
      exact .calm_bind (calm_expect _ _) fun _ _ =>
        .pure (.refl hw.valid) (by rintro _ ⟨⟩; exact .exprStmt he)

theorem keeps_forCondition (hg : g.Sound) (hv : v.Valid) :
    Keeps Leads (forCondition g) v (Reads .expression) := by
  refine .calm_bind calm_here fun p _ => .calm_bind (calm_check _) fun b _ => ?_
  split
  · exact .pure (.refl hv) .num
  · exact keeps_assignment hg hv

theorem keeps_forUpdate (hg : g.Sound) (hv : v.Valid) :
    Keeps Leads (forUpdate g) v fun o w => ∀ n ∈ o, Reads .statement n w := by
  refine .calm_bind (calm_check _) fun b _ => ?_
  split
  · exact .pure (.refl hv) (by simp)
  · exact .bind evolution_leads (keeps_assignment hg hv) fun e w hw he =>
      .pure (.refl hw.valid) (by rintro _ ⟨⟩; exact .exprStmt he)

/-- The clauses and the body share a scope. -/
theorem keeps_forStatement (hg : g.Sound) (hv : v.Valid) (p : Location) :
    Keeps Leads (forStatement g p) v (Reads .statement) := by
  refine keeps_inScope (Q := Reads .statement) hv ?_ fun n w _ h => shapes_left h
  refine .calm_bind (calm_expect _ _) fun _ _ => ?_
  refine .bind evolution_leads (keeps_forInit hg hv.entered) fun init w hw hi => ?_
  refine .bind evolution_leads (keeps_forCondition hg hw.valid) fun e u hu he => ?_
  refine .calm_bind (calm_expect _ _) fun _ _ => ?_
  refine .bind evolution_leads (keeps_forUpdate hg hu.valid) fun update x hx hup => ?_
  refine .calm_bind (calm_expect _ _) fun _ _ => ?_
  refine .bind evolution_leads (keeps_loopBody hg hx.valid) fun body y hy hb => ?_
  refine .pure (.refl hy.valid) (.forLoop ?_ ((hx.trans hy).shapes he) ?_ hb)
  · exact fun n hn => ((hu.trans hx).trans hy).shapes (hi n hn)
  · exact fun n hn => hy.shapes (hup n hn)

/-- A jump stands inside of a loop. -/
theorem keeps_jumpStatement (hv : v.Valid) (jump : LoopJump) (p : Location) :
    Keeps Leads (jumpStatement jump p) v (Reads .statement) := by
  refine .get_bind fun s hs => ?_
  have hd (h : 0 < s.loopDepth) : decide (0 < v.loopDepth) = true := by
    rw [← hs]
    exact decide_eq_true h
  cases jump with
  | leave =>
    dsimp only
    split
    · next h =>
      refine .calm_bind (calm_expect _ _) fun _ _ => .pure (.refl hv) ?_
      rw [Reads, Shapes, hd h]
      exact .breakLoop
    · exact .throw (located_grammar _ _)
  | next =>
    dsimp only
    split
    · next h =>
      refine .calm_bind (calm_expect _ _) fun _ _ => .pure (.refl hv) ?_
      rw [Reads, Shapes, hd h]
      exact .continueLoop
    · exact .throw (located_grammar _ _)

/-- Statements of every kind are well formed. -/
theorem keeps_statement (hg : g.Sound) (hv : v.Valid) :
    Keeps Leads (statement g) v (Reads .statement) := by
  refine .calm_bind (calm_acceptOne _) fun o _ => ?_
  split
  · refine .bind evolution_leads (keeps_assignment hg hv) fun e w hw he => ?_
    exact .calm_bind (calm_expect _ _) fun _ _ => .pure (.refl hw.valid) (.exprStmt he)
  · exact keeps_returnStatement hg hv _
  · exact keeps_ifStatement hg hv _
  · exact keeps_whileStatement hg hv _
  · exact keeps_forStatement hg hv _
  · exact keeps_jumpStatement hv _ _
  · refine .bind evolution_leads (Q := Initializer.Stores) (keeps_inScope hv
      (hg.items _ hv.entered) fun ns w _ h n hn => shapes_left (h n hn)) fun items w hw hi => ?_
    exact .pure (.refl hw.valid) (.block hi)
  · exact .pure (.refl hv) .empty

/-- So are the items of a block. -/
theorem keeps_items (hg : g.Sound) (hv : v.Valid) :
    Keeps Leads (items g) v fun ns w => ∀ n ∈ ns, Reads .statement n w := by
  refine keeps_collect evolution_leads reads_mono (.refl hv) fun w hw => ?_
  refine .calm_bind (calm_accept _) fun b _ => ?_
  split
  · exact .pure (.refl hw.valid) (by simp)
  · refine .calm_bind calm_atEnd fun b _ => ?_
    split
    · exact keeps_grammarFault _
    · refine .calm_bind calm_atType fun b _ => ?_
      split
      · exact .bind evolution_leads (keeps_localDeclaration hg hw.valid) fun n u hu hn =>
          .pure (.refl hu.valid) (by rintro _ ⟨⟩; exact hn)
      · exact .bind evolution_leads (keeps_statement hg hw.valid) fun n u hu hn =>
          .pure (.refl hu.valid) (by rintro _ ⟨⟩; exact hn)

end Parse

namespace Grammar

/-- Readers one level above sound ones are sound. -/
theorem Sound.step {g : Grammar} (hg : g.Sound) : g.step.Sound where
  baseType _ hv := Parse.keeps_baseType hg.baseType hv
  assignment _ hv := Parse.keeps_assignment hg hv
  ternary _ hv := Parse.keeps_ternary hg hv
  unary _ hv := Parse.keeps_unary hg hv
  initializer _ hv := Parse.keeps_initializer hg hv
  statement _ hv := Parse.keeps_statement hg hv
  items _ hv := Parse.keeps_items hg hv

/-- The readers keep the invariant at every depth of the grammar. -/
theorem sound_ofDepth (n : Nat) : (ofDepth n).Sound := by
  induction n with
  | zero => exact sound_exhausted
  | succ n ih => exact ih.step

end Grammar

end StackC
