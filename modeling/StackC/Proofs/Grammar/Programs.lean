import StackC.Proofs.Grammar.Symbols
import StackC.Proofs.Initializer.Length

namespace StackC

open View

namespace View

structure Top (v : View) : Prop where
  valid : v.Valid
  locals : v.locals = none
  atFile : v.scopes.vars.length = 1
  loopDepth : v.loopDepth = 0
  program : v.program.Valid
  symbols : v.Symbols

def TopLeads (_ w : View) : Prop := w.Top

theorem evolution_topLeads : Parse.Evolution TopLeads := ⟨id, fun _ h => h⟩

theorem Grows.extends {v w : View} (h : v.Grows w) : w.program.Extends v.program where
  vars id x hx := ⟨x, h.vars id x hx, rfl, rfl⟩
  globals := h.globals.subset
  functions _ hn := h.function hn

theorem Grows.program {v w : View} (h : v.Grows w) (hp : v.program.Valid) : w.program.Valid :=
  hp.extend h.functions h.extends h.valid.types h.valid.globals h.valid.globalsNodup

/-- What readers inside of a declaration do keeps the invariant of the file. -/
theorem Top.grows {v w : View} (hv : v.Top) (h : v.Grows w) : w.Top where
  valid := h.valid
  locals := by
    have he := h.isSome
    rw [hv.locals] at he
    exact Option.isNone_iff_eq_none.mp (by simpa using he)
  atFile := h.depth.trans hv.atFile
  loopDepth := h.loopDepth.trans hv.loopDepth
  program := h.program hv.program
  symbols := hv.symbols.grows h

end View

namespace Parse

variable {g : Grammar} {v : View}

theorem Keeps.top {α : Type} {m : Parse α} {Q : α → View → Prop} (h : Keeps Leads m v Q)
    (hv : v.Top) : Keeps TopLeads m v Q :=
  h.weaken fun _ _ hl hq => ⟨hv.grows hl.toGrows, hq⟩

theorem keeps_optionalInitializer (hg : g.Sound) (hv : v.Valid) :
    Keeps Leads (optionalInitializer g) v fun o w => ∀ i ∈ o, i.All (w.Shapes .expression) := by
  refine .calm_bind (calm_accept _) fun b _ => ?_
  split
  · exact .bind evolution_leads (keeps_initializer hg hv) fun i w hw hi =>
      .pure (.refl hw.valid) (by rintro _ ⟨⟩; exact hi)
  · exact .pure (.refl hv) (by simp)

end Parse

namespace Initializer

theorem yields_elementData {base : CType} {items : List Initializer}
    (h : ∀ i ∈ items, ∀ t, Yields (i.data t) fun _ => True) :
    Yields (elementData base items) fun _ => True := by
  induction items with
  | nil => exact .ok trivial
  | cons i items ih =>
    obtain ⟨hi, hs⟩ := List.forall_mem_cons.mp h
    rw [elementData]
    exact .bind (hi base) fun _ _ => .bind (ih hs) fun _ _ => .pure trivial

theorem yields_memberData {members : List (Member CType)} {items : List Initializer}
    (h : ∀ i ∈ items, ∀ t, Yields (i.data t) fun _ => True) :
    Yields (memberData members items) fun _ => True := by
  induction items generalizing members with
  | nil => exact .ok trivial
  | cons i items ih =>
    obtain ⟨hi, hs⟩ := List.forall_mem_cons.mp h
    cases members with
    | nil => exact .ok trivial
    | cons m members =>
      rw [memberData]
      exact .bind (hi m.type) fun _ _ => .bind (ih hs) fun _ _ => .pure trivial

/-- Initial bytes are refused only for a fault of the source text. -/
theorem yields_data {P : Node → Prop} {init : Initializer} (h : init.All P) (t : CType) :
    Yields (init.data t) fun _ => True := by
  induction h generalizing t with
  | expr he =>
    unfold data
    split
    · split
      · exact .ok trivial
      · exact .error (located_declaration _ _)
    · exact .error (located_declaration _ _)
  | str =>
    unfold data
    split
    · split
      · split
        · exact .error (located_declaration _ _)
        · exact .ok trivial
      · exact .error (located_declaration _ _)
    · exact .error (located_declaration _ _)
  | list hs ih =>
    unfold data
    split
    · split
      · exact .error (located_declaration _ _)
      · exact .bind (yields_elementData ih) fun _ _ => .pure trivial
    · split
      · exact .error (located_declaration _ _)
      · exact yields_memberData ih
    · exact .error (located_declaration _ _)
    · exact .error (located_declaration _ _)
    · split
      · exact ih _ List.mem_cons_self _
      · exact .error (located_declaration _ _)

end Initializer

namespace View

/-- A new global variable whose name is bound in the file scope. -/
theorem Top.bindNew {v : View} (hv : v.Top) {x : Var} (ht : x.type.Formed) (hm : x.Measured)
    (hglobal : x.isLocal = false) (hword : IsWord x.name) (hfilled : x.Filled)
    (hfun : ∀ f ∈ v.program.functions, x.name ≠ f.name) {scopes : Scopes}
    (hd : v.scopes.declareVar? x.name v.vars.size = some scopes) :
    Top { v with
      scopes := scopes, program := (v.program.addVar x).1.addGlobal v.vars.size } := by
  have hg := hv.valid.addGlobalVar ht hfilled hm hglobal v.strings
  obtain ⟨htags, hfile, hfree⟩ := Scopes.file_declareVar hv.atFile hd
  have hlength : scopes.vars.length = 1 := (Scopes.length_declareVar hd).trans hv.atFile
  have hp : ((v.program.addVar x).1.addGlobal v.vars.size).Valid := by
    refine hv.program.extend rfl ⟨?_, fun _ => List.mem_append_left _, fun _ h => h⟩
      hg.types hg.globals hg.globalsNodup
    exact fun id y hy => ⟨y, getElem?_addVar hy, rfl, rfl⟩
  refine ⟨{ hg with
    tags := htags ▸ hv.valid.tags, fileVars := ?_, innerVars := ?_, inside := ?_
    chained := List.ne_nil_of_length_eq_add_one hlength }, hv.locals, hlength, hv.loopDepth, hp,
    hv.symbols.bindNew hword hfree hfun hfile⟩
  · intro b hb
    rw [hfile] at hb
    rcases List.mem_cons.mp hb with rfl | hb
    · exact List.mem_append_right _ List.mem_cons_self
    · exact List.mem_append_left _ (hv.valid.fileVars b hb)
  · rw [Chain.inner_eq_nil hlength]
    exact fun link hs => nomatch hs
  · rw [hv.locals]
    exact fun h => nomatch h

/-- A global variable that is declared again takes its initial bytes. -/
theorem Top.setBytes {v : View} (hv : v.Top) {id : VarId} (hid : id ∈ v.program.globals) {x : Var}
    (hx : v.vars[id]? = some x) {bytes : List UInt8} (hlen : bytes.length = x.type.size) :
    Top { v with
      program := v.program.modifyVar id ({ · with storage := .global (some bytes) }) } := by
  have hget (j : VarId) :
      (v.program.modifyVar id ({ · with storage := .global (some bytes) })).vars[j]? =
        if id = j then v.vars[j]?.map ({ · with storage := .global (some bytes) })
        else v.vars[j]? := by
    rw [Program.modifyVar, Array.getElem?_modify]
    rfl
  have hl : x.isLocal = false := by
    obtain ⟨y, hy, hl⟩ := hv.valid.globals id hid
    cases hy.symm.trans hx
    exact hl
  have hold (j : VarId) (y : Var) (hy : v.vars[j]? = some y) :
      ∃ z : Var, (v.program.modifyVar id ({ · with storage := .global (some bytes) })).vars[j]? =
        some z ∧ z.type = y.type ∧ z.isLocal = y.isLocal := by
    rw [hget, hy]
    split
    · next he =>
      subst he
      cases hx.symm.trans hy
      exact ⟨_, rfl, rfl, hl.symm⟩
    · exact ⟨y, rfl, rfl, rfl⟩
  have hnew (j : VarId) (y : Var)
      (hy : (v.program.modifyVar id ({ · with storage := .global (some bytes) })).vars[j]? =
        some y) :
      y.type.Formed ∧ y.Filled ∧ (y.Measured ∨ j ∈ v.localIds) := by
    rw [hget] at hy
    split at hy
    · next he =>
      subst he
      obtain ⟨z, hz, rfl⟩ := Option.map_eq_some_iff.mp hy
      cases hx.symm.trans hz
      refine ⟨hv.valid.formed id x hx, fun b hb => ?_, Or.inl (Or.inr (Or.inl ⟨bytes, rfl⟩))⟩
      cases hb
      exact hlen
    · exact ⟨hv.valid.formed j y hy, hv.valid.filled j y hy, hv.valid.measured j y hy⟩
  have hkept (j : VarId) (b : Bool) (hj : ∃ y, v.vars[j]? = some y ∧ y.isLocal = b) :
      ∃ y : Var, (v.program.modifyVar id ({ · with storage := .global (some bytes) })).vars[j]? =
        some y ∧ y.isLocal = b := by
    obtain ⟨y, hy, hyl⟩ := hj
    obtain ⟨z, hz, -, he⟩ := hold j y hy
    exact ⟨z, hz, he.trans hyl⟩
  have htypes := fun j y hy => (hnew j y hy).1.sound
  have hglobals := fun j hj => hkept j false (hv.valid.globals j hj)
  refine ⟨{ hv.valid with
      formed := fun j y hy => (hnew j y hy).1
      filled := fun j y hy => (hnew j y hy).2.1
      measured := fun j y hy => (hnew j y hy).2.2
      globals := hglobals
      locals := fun j hj => hkept j true (hv.valid.locals j hj) },
    hv.locals, hv.atFile, hv.loopDepth, ?_, hv.symbols.setBytes id bytes⟩
  exact hv.program.extend rfl ⟨hold, fun _ h => h, fun _ h => h⟩ htypes hglobals
    hv.program.globalsNodup

end View

namespace Parse

variable {g : Grammar} {v : View}

theorem keeps_set {R : View → View → Prop} {w : View} {s : ParseState} {Q : Unit → View → Prop}
    (hw : Worded s.ahead) (hs : s.view = w) (hr : R v w) (hq : Q () w) : Keeps R (set s) v Q := by
  intro _ _ _
  exact ⟨hw, hs ▸ hr, hs ▸ hq⟩

/-- A global variable that is accepted agrees with all its declarations, and has its bytes if they
were given. -/
theorem keeps_bindGlobal (hv : v.Top) {d : Declarator} (hword : IsWord d.name) {t : CType}
    (ht : t.Formed) {bytes : Option (List UInt8)} (hlen : ∀ b ∈ bytes, b.length = t.size)
    (hm : t.Built ∨ bytes.isSome = true) (hfun : v.program.function? d.name = none) :
    Keeps TopLeads (bindGlobal d t bytes) v fun _ _ => True := by
  refine .state_bind fun s hs hw => ?_
  subst hs
  cases hid : s.scopes.innermostVar? d.name with
  | some id =>
    have hglobal : id ∈ s.program.globals := by
      have hatFile : s.scopes.vars.length = 1 := hv.atFile
      rw [Scopes.innermostVar?, Chain.innermost?_eq_file hatFile] at hid
      exact hv.valid.fileVars _ (Lists.mem_of_lookup hid)
    dsimp only
    split
    · exact .pure hv trivial
    · next x hx =>
      split
      · exact keeps_declarationFault _ _
      · next htype =>
        cases bytes with
        | none => exact .pure hv trivial
        | some b =>
          have hb : b.length = x.type.size := by
            rw [not_not.mp htype]
            exact hlen b rfl
          cases hstorage : x.storage with
          | onFrame => exact keeps_set hw rfl (hv.setBytes hglobal hx hb) trivial
          | global init =>
            cases init with
            | none => exact keeps_set hw rfl (hv.setBytes hglobal hx hb) trivial
            | some earlier => exact keeps_declarationFault _ _
  | none =>
    refine Keeps.weaken (R := Anyhow) (Q := fun _ w => w.Top) ?_ fun _ w _ hw => ⟨hw, trivial⟩
    refine .bind evolution_anyhow (keeps_newVar _ _) fun id w _ hw => ?_
    obtain ⟨rfl, rfl⟩ := hw
    refine .get_bind fun s' hs' => ?_
    cases hd : s'.scopes.declareVar? d.name s.view.vars.size with
    | none => exact keeps_declarationFault _ _
    | some scopes =>
      rw [show s'.scopes = s.scopes from congrArg View.scopes hs'] at hd
      refine (keeps_update (fun w => { w with
        scopes := scopes, program := w.program.addGlobal s.view.vars.size }) (fun _ => rfl) _).mono
        fun _ w _ hw => ?_
      subst hw
      refine hv.bindNew (x := ⟨d.name, t, .global bytes⟩) ht ?_ rfl hword ?_ ?_ hd
      · refine hm.imp_right fun hsome => Or.inl ?_
        obtain ⟨b, rfl⟩ := Option.isSome_iff_exists.mp hsome
        exact ⟨b, rfl⟩
      · intro b hb
        cases hb
        exact hlen b rfl
      · intro f hf hname
        have hsome := Program.function?_isSome.mpr ⟨f, hf, hname.symm⟩
        rw [hfun] at hsome
        cases hsome

theorem calm_initialBytes {P : Node → Prop} {t : CType} (ht : t.Sound) {init : Option Initializer}
    (h : ∀ i ∈ init, i.All P) : Calm (initialBytes t init) fun o =>
      (∀ b ∈ o, b.length = t.size) ∧ o.isSome = init.isSome := by
  cases init with
  | none => exact .pure ⟨by simp, rfl⟩
  | some i =>
    rw [initialBytes]
    cases hd : i.data t with
    | ok bytes =>
      refine .pure ⟨?_, rfl⟩
      rintro _ ⟨⟩
      exact Initializer.length_data i t bytes ht hd
    | error e => exact .throw ((Initializer.yields_data (h i rfl) t).of_error hd)

/-- A global variable is entered with the bytes of its initializer, if it has one. -/
theorem keeps_globalVariable (hg : g.Sound) (hv : v.Top) {d : Declarator} (hd : Spelled d) :
    Keeps TopLeads (globalVariable g d) v fun _ _ => True := by
  refine .calm_bind (calm_checkObject d) fun _ _ => .get_bind fun s hs => ?_
  subst hs
  split
  · exact keeps_declarationFault _ _
  · next hfun =>
    have hinit : Keeps TopLeads (optionalInitializer g) s.view fun o w =>
        (∀ i ∈ o, i.All (w.Shapes .expression)) ∧ w.program.functions = s.program.functions :=
      (keeps_optionalInitializer hg hv.valid).weaken fun _ _ hl hi =>
        ⟨hv.grows hl.toGrows, hi, hl.functions⟩
    refine .bind evolution_topLeads hinit fun init w hw hi => ?_
    obtain ⟨hi, hfs⟩ := hi
    have ht : (init.elim d.type (·.complete d.type)).Formed := by
      cases init with
      | none => exact Or.inl hd.type
      | some i => exact CType.formed_complete hd.type i
    dsimp only
    split
    · exact keeps_declarationFault _ _
    · refine .calm_bind (calm_initialBytes ht.sound hi) fun bytes hbytes => ?_
      refine keeps_bindGlobal hw hd.name ht hbytes.1 ?_ ?_
      · -- A type that is not as it was written has been completed by an initializer.
        cases init with
        | none => exact Or.inl hd.type
        | some i => exact Or.inr hbytes.2
      · rw [Program.function?, hfs]
        exact Option.not_isSome_iff_eq_none.mp hfun

def Passable (d : Declarator) : Prop := d.type.Built ∧ d.type.isScalar = true

/-- A parameter has a scalar type. -/
theorem keeps_parameter (hg : g.Sound) (hv : v.Valid) :
    Keeps Retags (parameter g) v fun d _ => Passable d := by
  refine .bind evolution_retags (keeps_baseType hg.baseType hv) fun base w hw hb => ?_
  refine .calm_bind (calm_declarator hb) fun d hd => .calm_bind (calm_checkObject d)
    fun _ hvoid => ?_
  split
  · exact keeps_declarationFault _ _
  · next he =>
    have hbuilt := hd.type
    rw [he] at hbuilt
    exact .pure (.refl hw.valid) ⟨.pointer hbuilt.element.1, rfl⟩
  · next hstruct harray =>
    refine .pure (.refl hw.valid) ⟨hd.type, ?_⟩
    cases ht : d.type with
    | primitive k n =>
      rw [ht] at hvoid
      cases k <;> first | rfl | exact nomatch hvoid
    | pointer b n => rfl
    | array b len n => exact absurd ht (harray _ _ _)
    | struct l n => exact absurd ht (hstruct _ _)

theorem keeps_parametersWithin (hg : g.Sound) (hv : v.Valid) (ts : List Token) :
    Keeps Retags (parametersWithin g ts) v fun r _ => ∀ d ∈ r.1, Passable d := by
  induction ts generalizing v with
  | nil => exact .pure (.refl hv) (by simp)
  | cons t ts ih =>
    refine .calm_bind (calm_accept _) fun b _ => ?_
    split
    · exact .pure (.refl hv) (by simp)
    · refine .bind evolution_retags (keeps_parameter hg hv) fun d w hw hd => ?_
      refine .calm_bind (calm_accept _) fun b _ => ?_
      split
      · refine .bind evolution_retags (ih hw.valid) fun r u hu hr => ?_
        exact .pure (.refl hu.valid) (List.forall_mem_cons.mpr ⟨hd, hr⟩)
      · exact .pure (.refl hw.valid) (List.forall_mem_singleton.mpr hd)

theorem keeps_parameterList (hg : g.Sound) (hv : v.Valid) :
    Keeps Retags (parameterList g) v fun r _ => ∀ d ∈ r.1, Passable d := by
  refine .calm_bind (calm_accept _) fun b _ => ?_
  split
  · exact .pure (.refl hv) (by simp)
  · refine .calm_bind (calm_check _) fun b _ => .calm_bind (calm_checkSecond _) fun b' _ => ?_
    split
    · refine .calm_bind calm_advance fun _ _ => .calm_bind calm_advance fun _ _ => ?_
      exact .pure (.refl hv) (by simp)
    · refine .calm_bind calm_rounds fun ts _ => ?_
      refine .bind evolution_retags (keeps_parametersWithin hg hv ts) fun r w hw hr => ?_
      exact .calm_bind (calm_expect _ _) fun _ _ => .pure (.refl hw.valid) hr

/-- The parameters become the next locals. -/
theorem keeps_declareParams {ds : List Declarator} (hds : ∀ d ∈ ds, Passable d) (hv : v.Valid) :
    Keeps Grows (declareParams ds) v fun ids w => w.localIds = v.localIds ++ ids ∧
      ∀ id ∈ ids, ∃ x, w.vars[id]? = some x ∧ x.type.isScalar = true := by
  induction ds generalizing v with
  | nil => exact .pure (.refl hv) ⟨(List.append_nil _).symm, by simp⟩
  | cons d ds ih =>
    obtain ⟨hd, hds⟩ := List.forall_mem_cons.mp hds
    refine .bind evolution_grows (keeps_declared (.inl hd.1) d.place hv) fun id w hw hid => ?_
    obtain ⟨rfl, hl, hx⟩ := hid
    refine .bind evolution_grows (ih hds hw.valid) fun ids u hu hids => ?_
    refine .pure (.refl hu.valid) ⟨?_, List.forall_mem_cons.mpr ⟨?_, hids.2⟩⟩
    · rw [hids.1, hl, List.append_assoc]
      rfl
    · refine ⟨⟨d.name, d.type, .onFrame⟩, hu.vars v.vars.size _ ?_, hd.2⟩
      rw [hx]
      exact Array.getElem?_push_size

structure Registered (w : View) (f : Function) (isDefinition : Bool) (u : View) : Prop where
  rest : ∃ fs, u = { w with program := { w.program with functions := fs } }
  free : ∀ b ∈ w.scopes.vars.file, b.1 ≠ f.name
  named : ∀ e ∈ u.program.functions, (∃ e' ∈ w.program.functions, e'.name = e.name) ∨
    e.name = f.name
  others : ∀ e ∈ u.program.functions, e.name ≠ f.name → e ∈ w.program.functions
  announced : isDefinition = false → u.program.Valid
  opened : isDefinition = true → u.program.Pending f.name f.params

/-- An announced function has its parameters; of a defined one the body is still missing. -/
theorem keeps_registerFunction {f : Function} (hp : v.program.Valid) (hr : f.returnType.Sound)
    (hb : f.body = none) (hl : ∀ id ∈ f.params, ∃ x, v.vars[id]? = some x ∧ x.isLocal = true)
    (isDefinition : Bool) :
    Keeps Anyhow (registerFunction f isDefinition) v fun _ u => Registered v f isDefinition u := by
  refine .state_bind fun s hs hw => ?_
  subst hs
  split
  · exact keeps_declarationFault _ _
  · next hfree =>
    have hfree : ∀ b ∈ s.scopes.vars.file, b.1 ≠ f.name := by
      rw [Scopes.fileVar?, Chain.outermost?_eq] at hfree
      exact Chain.ne_of_lookup (Option.not_isSome_iff_eq_none.mp hfree)
    cases hf : s.program.function? f.name with
    | none =>
      have hothers (h : Function) (hname : h.name = f.name) :
          ∀ e ∈ (s.program.addFunction h).functions, e ∈ s.program.functions ∨ e.name = f.name := by
        intro e he
        rcases List.mem_append.mp he with he | he
        · exact Or.inl he
        · exact Or.inr ((congrArg Function.name (List.mem_singleton.mp he)).trans hname)
      have hnamed (h : Function) (hname : h.name = f.name) (e : Function)
          (he : e ∈ (s.program.addFunction h).functions) :
          (∃ e' ∈ s.program.functions, e'.name = e.name) ∨ e.name = f.name :=
        (hothers h hname e he).imp_left fun he => ⟨e, he, rfl⟩
      dsimp only
      split
      · next hd =>
        refine keeps_set hw rfl trivial ⟨⟨_, rfl⟩, hfree, hnamed f rfl,
          fun e he hne => (hothers f rfl e he).resolve_right hne, fun h => ?_,
          fun _ => hp.addPending hf hr⟩
        exact absurd hd (Bool.eq_false_iff.mp h)
      · next hd =>
        have hadd := hp.announce (f := { f with locals := [] }) hf hr hb ⟨rfl, hl⟩
        exact keeps_set hw rfl trivial ⟨⟨_, rfl⟩, hfree, hnamed { f with locals := [] } rfl,
          fun e he hne => (hothers { f with locals := [] } rfl e he).resolve_right hne,
          fun _ => hadd, fun h => absurd h hd⟩
    | some earlier =>
      dsimp only
      split
      · exact keeps_declarationFault _ _
      · split
        · next hd =>
          refine .pure trivial ⟨⟨_, rfl⟩, hfree, fun e he => Or.inl ⟨e, he, rfl⟩, fun _ he _ => he,
            fun _ => hp, fun h => ?_⟩
          rw [h] at hd
          exact nomatch hd
        · next hd =>
          split
          · exact keeps_declarationFault _ _
          · have hopen := hp.reopen f.name (g := fun e => { e with
              params := f.params, place := f.place, body := some (.block (.bare f.place) []) })
              (fun _ => rfl) (fun _ => rfl) (fun _ => rfl)
            refine keeps_set hw rfl trivial ⟨⟨_, rfl⟩, hfree, fun e he => ?_, fun e he hne => ?_,
              fun h => ?_, fun _ => hopen⟩
            · rcases Program.mem_modifyFunction hp.names he with ⟨e, -, hname, rfl⟩ | ⟨he, -⟩
              · exact Or.inr hname
              · exact Or.inl ⟨e, he, rfl⟩
            · rcases Program.mem_modifyFunction hp.names he with ⟨e, -, hname, rfl⟩ | ⟨he, -⟩
              · exact absurd hname hne
              · exact he
            · rw [h] at hd
              exact absurd rfl hd

def opened (v : View) : View := { v with scopes := v.scopes.enter, locals := some [] }

def closed (v : View) : View := { v with scopes := v.scopes.leave, locals := none }

/-- The invariant holds where the reading of a function begins. -/
theorem valid_opened (hv : v.Top) : (opened v).Valid :=
  { hv.valid.entered with
    measured := by
      intro id x hx
      rcases hv.valid.measured id x hx with hm | hid
      · exact Or.inl hm
      · rw [View.localIds, hv.locals] at hid
        exact absurd hid List.not_mem_nil
    locals := fun id hid => absurd hid List.not_mem_nil
    localsNodup := List.nodup_nil
    innerVars := by
      intro link hs b hb
      rw [show (opened v).scopes.vars.inner = [] :: v.scopes.vars.inner from
        Chain.inner_cons hv.valid.chained [], Chain.inner_eq_nil hv.atFile,
        List.mem_singleton] at hs
      rw [hs] at hb
      exact absurd hb List.not_mem_nil
    inside := fun _ => by
      rw [show (opened v).scopes.vars.inner = [] :: v.scopes.vars.inner from
        Chain.inner_cons hv.valid.chained []]
      exact List.cons_ne_nil _ _ }

/-- A local of a frame that fits is bounded by the frame. -/
theorem measured_of_fits {w : View} (hw : w.Valid) (hfits : w.Fits) {id : VarId} {x : Var}
    (hx : w.vars[id]? = some x) : x.Measured := by
  rcases hw.measured id x hx with hm | hid
  · exact hm
  · have hsize : Frame.varSize w.vars id = x.type.size := by rw [Frame.varSize, hx]
    have hle : x.type.size ≤ Frame.total w.vars w.localIds := hsize ▸ Frame.varSize_le_total hid
    exact Or.inr (Or.inr (Nat.le_trans hle hfits))

/-- Behind a function its scope is closed, and the program is what has become of it. -/
theorem top_closed {w : View} (hw : w.Valid) (hfits : w.Fits) (hd : w.scopes.vars.length = 2)
    (hl : w.loopDepth = 0) (hp : w.program.Valid) (hs : w.Symbols) : (closed w).Top := by
  have hopen : 1 < w.scopes.vars.length := by omega
  have hleave : (closed w).scopes = ⟨w.scopes.vars.tail, w.scopes.tags.tail⟩ :=
    Scopes.leave_of_lt hopen
  have hfile : (closed w).scopes.vars.file = w.scopes.vars.file := w.scopes.file_leave
  have hlength : (closed w).scopes.vars.length = 1 := by
    rw [hleave, List.length_tail, hd]
  refine ⟨⟨hw.formed, hw.filled, fun id x hx => Or.inl (measured_of_fits hw hfits hx),
    fun link hs => ?_, hw.globals, nofun, hw.globalsNodup, List.nodup_nil, hfile ▸ hw.fileVars,
    fun link hs => ?_, nofun,
    List.ne_nil_of_length_eq_add_one hlength⟩, rfl, hlength, hl, hp, hs.rescope hfile none⟩
  · rw [hleave] at hs
    exact hw.tags link (List.mem_of_mem_tail hs)
  · rw [Chain.inner_eq_nil hlength] at hs
    exact nomatch hs

structure AtBody (name : String) (params : List VarId) (w : View) : Prop where
  valid : w.Valid
  symbols : w.Symbols
  fits : w.Fits
  depth : w.scopes.vars.length = 2
  loopDepth : w.loopDepth = 0
  pending : w.program.Pending name params
  starts : params <+: w.localIds
  scalars : ∀ id ∈ params, ∃ x, w.vars[id]? = some x ∧ x.type.isScalar = true
  apart : ∀ f ∈ w.program.functions, f.name ≠ name → w.localIds.Disjoint f.locals

/-- Readers inside of the body do not touch the function that it belongs to. -/
theorem AtBody.leads {name : String} {params : List VarId} {w u : View} (h : AtBody name params w)
    (hl : w.Leads u) : AtBody name params u where
  valid := hl.valid
  symbols := h.symbols.grows hl.toGrows
  fits := hl.fits h.fits
  depth := hl.depth.trans h.depth
  loopDepth := hl.loopDepth.trans h.loopDepth
  pending :=
    { names := hl.functions ▸ h.pending.names
      returns := hl.functions ▸ h.pending.returns
      others := by
        rw [hl.functions]
        exact fun f hf hne body hb => (h.pending.others f hf hne body hb).extend hl.extends
      params := hl.functions ▸ h.pending.params
      announced := by
        rw [hl.functions]
        exact fun f hf hne hb => (h.pending.announced f hf hne hb).extend hl.extends
      apart := hl.functions ▸ h.pending.apart }
  starts := h.starts.trans hl.locals
  scalars id hid := by
    obtain ⟨x, hx, hs⟩ := h.scalars id hid
    exact ⟨x, hl.vars id x hx, hs⟩
  apart f hf hne id hid hfid := by
    rw [hl.functions] at hf
    rcases hl.fresh id hid with hid | hnew
    · exact h.apart f hf hne hid hfid
    · -- A local that is new since `w` has a number that was not in use there.
      obtain ⟨x, hx, -⟩ := Program.mem_locals (h.pending.others f hf hne)
        (h.pending.announced f hf hne) hfid
      exact absurd (lt_of_var hx) (Nat.not_lt.mpr hnew)

/-- A body that has been read makes its function complete. -/
theorem AtBody.close {name : String} {params : List VarId} {w : View} (h : AtBody name params w)
    {items : List Node} (hi : ∀ n ∈ items, w.Shapes .statement n) (p : Location) :
    (w.program.modifyFunction name ({ · with
      locals := w.localIds, body := some (.block (.bare p) items) })).Valid := by
  refine h.pending.close h.valid.types h.valid.globals h.valid.globalsNodup (fun _ => rfl)
    (fun _ => rfl) (fun _ => rfl) (fun f body hf hb => ?_) fun _ => h.apart
  cases hb
  have hd : decide (0 < w.loopDepth) = false := by
    rw [h.loopDepth]
    rfl
  have hshaped : Shaped w.names .statement false (.block (.bare p) items) :=
    .block fun n hn => hd ▸ hi n hn
  refine ⟨hshaped, ?_, h.valid.localsNodup, h.valid.locals, ?_, h.fits⟩
  · exact hf ▸ h.starts
  · exact hf ▸ h.scalars

/-- Behind its body a function is defined. -/
theorem keeps_functionBody (hg : g.Sound) {name : String} {params : List VarId}
    (hv : AtBody name params v) :
    Keeps Anyhow (functionBody g name) v fun _ w => (closed w).Top := by
  refine .calm_bind (calm_expect _ _) fun _ _ => .calm_bind calm_lastPlace fun p _ => ?_
  refine .bind evolution_anyhow (keeps_items hg hv.valid).forget fun items w _ hw => ?_
  have hb := hv.leads hw.1
  refine (keeps_update (fun w => { w with program := w.program.modifyFunction name ({ · with
    locals := w.localIds, body := some (.block (.bare p) items) }) }) (fun _ => rfl) w).mono
    fun _ u _ hu => ?_
  subst hu
  refine top_closed { hb.valid with } hb.fits hb.depth hb.loopDepth (hb.close hw.2 p)
    (hb.symbols.setFunctions fun f hf => Or.inl ?_)
  rcases Program.mem_modifyFunction hb.pending.names hf with ⟨e, he, -, rfl⟩ | ⟨he, -⟩
  · exact ⟨e, he, rfl⟩
  · exact ⟨f, he, rfl⟩

/-- A function keeps the invariant of the file. -/
theorem keeps_function (hg : g.Sound) (hv : v.Top) {d : Declarator} (hd : Spelled d) :
    Keeps TopLeads (function g d) v fun _ _ => True := by
  unfold function
  split
  · exact keeps_declarationFault _ _
  · refine Keeps.between (T := Anyhow) (w := opened v) (Q := fun _ w => (closed w).Top)
      (fun _ => rfl) (fun _ => rfl) (fun s hs => by rw [← hs]; rfl) ?_ fun _ s _ h => ⟨h, trivial⟩
    have hvalid := valid_opened hv
    refine .calm_bind (calm_expect _ _) fun _ _ => ?_
    refine .bind evolution_anyhow (keeps_parameterList hg hvalid).forget fun r w₁ _ h₁ => ?_
    obtain ⟨h₁, hds⟩ := h₁
    refine .bind evolution_anyhow (keeps_declareParams hds h₁.valid).forget fun params w₂ _ h₂ => ?_
    obtain ⟨h₂, hl, hs⟩ := h₂
    refine .bind evolution_anyhow (calm_checkFrame d.place w₂).forget fun _ w₃ _ h₃ => ?_
    obtain ⟨rfl, hfits⟩ := h₃
    have hgrows := h₁.toGrows.trans h₂
    have hprog := hgrows.program hv.program
    have hdepth : w₂.scopes.vars.length = 2 := by
      rw [hgrows.depth]
      exact congrArg (· + 1) hv.atFile
    refine .calm_bind (calm_accept _) fun b _ => ?_
    have hstart : params <+: w₂.localIds := by
      rw [hl, View.localIds, h₁.sameLocals]
      exact List.prefix_refl params
    have hlocals := fun id hid => hgrows.valid.locals id (hstart.subset hid)
    refine .bind evolution_anyhow (keeps_registerFunction hprog hd.type.sound rfl hlocals _)
      fun _ w₄ _ h₄ => ?_
    obtain ⟨⟨fs, rfl⟩, hfree, hnamed, hothers, hann, hopen⟩ := h₄
    have hopened : (opened v).Symbols :=
      hv.symbols.rescope (Chain.file_cons hv.valid.chained []) (some [])
    have hsymbols : Symbols { w₂ with program := { w₂.program with functions := fs } } := by
      refine (hopened.grows hgrows).setFunctions fun e he => ?_
      rcases hnamed e he with he | hname
      · exact Or.inl he
      · rw [hname]
        exact Or.inr ⟨hd.name, hfree⟩
    have hloop : w₂.loopDepth = 0 := hgrows.loopDepth.trans hv.loopDepth
    split
    · next hdef =>
      refine keeps_functionBody hg ⟨{ hgrows.valid with }, hsymbols, hfits, hdepth, hloop,
        hopen hdef, hstart, hs, fun f hf hne id hid hfid => ?_⟩
      -- The parameters are younger than every other function.
      have hf : f ∈ v.program.functions := hgrows.functions ▸ hothers f hf hne
      obtain ⟨x, hx, -⟩ := Program.mem_locals (hv.program.bodies f hf)
        (hv.program.announced f hf) hfid
      rcases hgrows.fresh id hid with hid | hnew
      · exact absurd hid List.not_mem_nil
      · exact absurd (lt_of_var hx) (Nat.not_lt.mpr hnew)
    · next hdef =>
      exact .pure trivial (top_closed { hgrows.valid with } hfits hdepth hloop
        (hann (Bool.eq_false_iff.mpr hdef)) hsymbols)

/-- So does every declaration. -/
theorem keeps_topLevel (hg : g.Sound) (hv : v.Top) :
    Keeps TopLeads (topLevel g) v fun _ _ => True := by
  refine .bind evolution_topLeads ((keeps_baseType hg.baseType hv.valid).leads.top hv)
    fun base w hw hb => ?_
  refine .calm_bind (calm_accept _) fun b _ => ?_
  split
  · exact .pure hw trivial
  · refine .calm_bind (calm_declarator hb) fun d hd => .calm_bind (calm_check _) fun b _ => ?_
    split
    · exact keeps_function hg hw hd
    · refine .bind evolution_topLeads (keeps_globalVariable hg hw hd) fun _ u hu _ => ?_
      refine .bind evolution_topLeads (keeps_collect (Q := fun _ _ => True) evolution_topLeads
        (fun _ _ _ _ h => h) hu fun z hz => ?_) fun _ z hz _ => .of_calm hz (calm_expect _ _)
      refine .calm_bind (calm_accept _) fun b _ => ?_
      split
      · refine .calm_bind (calm_declarator hb) fun d hd => ?_
        exact .bind evolution_topLeads (keeps_globalVariable hg hz hd) fun _ x hx _ =>
          .pure hx fun _ _ => trivial
      · exact .pure hz fun _ _ => trivial

theorem keeps_topLevelsWithin (hg : g.Sound) (n : Nat) (hv : v.Top) :
    Keeps TopLeads (topLevelsWithin g n) v fun _ _ => True := by
  induction n generalizing v with
  | zero => exact .pure hv trivial
  | succ n ih =>
    refine .calm_bind calm_atEnd fun b _ => ?_
    split
    · exact .pure hv trivial
    · exact .bind evolution_topLeads (keeps_topLevel hg hv) fun _ w hw _ => ih hw

/-- The invariant holds before the first token. -/
theorem top_ofTokens (tokens : List Token) : (ParseState.ofTokens tokens).view.Top := by
  have htags : ∀ link ∈ [([] : List (String × CType))], ∀ b ∈ link, b.2.Built := by simp
  refine ⟨⟨by simp [View.vars, ParseState.view, ParseState.ofTokens],
    by simp [View.vars, ParseState.view, ParseState.ofTokens],
    by simp [View.vars, ParseState.view, ParseState.ofTokens], htags, nofun, nofun,
    List.nodup_nil, List.nodup_nil, nofun, nofun, nofun, List.cons_ne_nil _ _⟩, rfl, rfl, rfl,
    ⟨by simp [ParseState.view, ParseState.ofTokens], nofun, List.nodup_nil, List.nodup_nil,
      nofun, nofun, nofun, .nil⟩, ⟨nofun, .nil, nofun, nofun⟩⟩

/-- A program that is read to its end satisfies the invariant. -/
theorem keeps_program (hv : v.Top) :
    Keeps Anyhow program v fun p _ => ∃ w : View, w.Top ∧ w.program = p := by
  refine .get_bind fun s _ => ?_
  refine .bind evolution_anyhow
    (keeps_topLevelsWithin (Grammar.sound_ofDepth _) s.ahead.length hv).forget fun _ w _ hw => ?_
  rintro s rfl hwords
  exact ⟨hwords, trivial, s.view, hw.1, rfl⟩

theorem worded_ofTokens {tokens : List Token} (h : Worded tokens) :
    Worded (ParseState.ofTokens tokens).ahead :=
  fun t ht => h t ((List.takeWhile_prefix _).subset ht)

end Parse

theorem Scanner.yields_tokensWithin (budget : Nat) (s : Scanner) :
    Yields (s.tokensWithin budget).1 fun _ => True := by
  induction budget generalizing s with
  | zero => exact .ok trivial
  | succ budget ih =>
    unfold tokensWithin
    split
    · exact .error (located_lexical _ _)
    · split
      · exact .ok trivial
      · split
        · split
          · exact ih _
          · exact .error (located_lexical _ _)
        · dsimp only
          split
          · exact .error (located_lexical _ _)
          · exact (ih _).map fun _ _ => trivial

/-- A program that is read from a source text is that of a reading which has come to the end of the
file, and a text is refused only for a fault of its own. -/
theorem parse_top (source : String) :
    (∃ v : View, parse source = .ok v.program ∧ v.Top) ∨ ∃ e, parse source = .error e ∧
      e.Located := by
  unfold parse ParseState.ofSource
  cases ht : tokenize source with
  | error e => exact Or.inr ⟨e, rfl, (Scanner.yields_tokensWithin _ _).of_error ht⟩
  | ok tokens =>
    have h := Parse.keeps_program (Parse.top_ofTokens tokens) _ rfl
      (Parse.worded_ofTokens (worded_tokenize ht))
    simp only [ParseState.readProgram, bind, Except.bind, pure, Except.pure]
    cases hp : Parse.program (.ofTokens tokens) with
    | ok p s =>
      rw [hp] at h
      obtain ⟨-, -, w, hw, rfl⟩ := h
      exact Or.inl ⟨w, rfl, hw⟩
    | error e s =>
      rw [hp] at h
      exact Or.inr ⟨e, rfl, h⟩

/-- What is read from a source text is well formed, and a text is refused only for a fault of its
own. -/
theorem parse_cases (source : String) :
    (∃ p, parse source = .ok p ∧ p.Valid) ∨ ∃ e, parse source = .error e ∧ e.Located :=
  (parse_top source).imp_left fun ⟨v, hp, hv⟩ => ⟨v.program, hp, hv.program⟩

end StackC
