import StackC.Proofs.Grammar.Valid
import StackC.Proofs.Lists

namespace StackC

/-- A name found along a chain is bound by one of the scopes. -/
theorem Chain.mem_of_find? {α : Type} {c : Chain α} {name : String} {a : α}
    (h : c.find? name = some a) : ∃ link ∈ c, (name, a) ∈ link := by
  obtain ⟨link, hlink, hl⟩ := List.exists_of_findSome?_eq_some h
  exact ⟨link, hlink, Lists.mem_of_lookup hl⟩

namespace View

/-- A variable found in the scopes is a local of the function being read or a global. -/
theorem Valid.var_of_find {v : View} (hv : v.Valid) {name : String} {id : VarId}
    (h : v.scopes.var? name = some id) : v.names.vars id := by
  obtain ⟨link, hlink, hb⟩ := Chain.mem_of_find? h
  rw [Chain.eq_inner_append hv.chained, List.mem_append, List.mem_singleton] at hlink
  rcases hlink with hlink | rfl
  · exact Or.inl (hv.innerVars link hlink _ hb)
  · exact Or.inr (hv.fileVars _ hb)

/-- Binding a tag changes no variable. -/
theorem Valid.declareTag {v : View} (hv : v.Valid) {name : String} {t : CType} (ht : t.Built)
    {scopes : Scopes} (hd : v.scopes.declareTag? name t = some scopes) :
    v.Retags { v with scopes := scopes } := by
  obtain ⟨link, outer, htags, -, rfl⟩ := Scopes.declareTag?_eq_some.mp hd
  refine ⟨⟨⟨{ hv with tags := fun scope hs b hb => ?_ }, rfl, rfl, fun _ _ => id,
    numbers_of_eq rfl rfl, List.prefix_refl _, fun _ => Or.inl, rfl, rfl, rfl⟩, id⟩, rfl, rfl⟩
  have hold (scope : List (String × CType)) (hs : scope ∈ link :: outer) :=
    hv.tags scope (htags ▸ hs)
  rcases List.mem_cons.mp hs with rfl | hs
  · rcases List.mem_cons.mp hb with rfl | hb
    · exact ht
    · exact hold link List.mem_cons_self b hb
  · exact hold scope (List.mem_cons_of_mem link hs) b hb

end View

namespace Parse

open View

variable {g : Grammar} {v : View}

/-- Pointers to a type that is built up are built up. -/
theorem calm_stars {t : CType} (ht : t.Built) : Calm (stars t) CType.Built := by
  intro v
  unfold stars
  refine keeps_grow (Q := fun t _ => t.Built) evolution_eq (fun _ _ _ _ h => h) rfl
    (fun a w _ ha => ?_) t ht
  refine .calm_bind (calm_accept "*") fun b _ => ?_
  split
  · exact .pure rfl (by rintro _ ⟨⟩; exact .pointer ha)
  · exact .pure rfl (by simp)

theorem calm_dimension : Calm dimension fun _ => True := by
  refine .bind (calm_acceptOne _) fun o _ => ?_
  split
  · exact .pure trivial
  · refine .bind (calm_accept "]") fun b _ => ?_
    split
    · exact .pure trivial
    · refine .bind calm_number fun n _ => ?_
      split
      · exact fun _ => keeps_declarationFault _ _
      · exact .bind (calm_expect _ _) fun _ _ => .pure trivial

/-- An array is built up if its elements are and its size is allowed. -/
theorem calm_applyDimensions {t : CType} (ht : t.Built) (dims : List (Option Nat × Location))
    (outermost : Bool) : Calm (applyDimensions outermost t dims) CType.Built := by
  induction dims generalizing outermost with
  | nil => exact .pure ht
  | cons d dims ih =>
    refine .bind (ih false) fun element he => ?_
    split
    · exact fun _ => keeps_declarationFault _ _
    · next hvoid =>
      split
      · exact fun _ => keeps_declarationFault _ _
      · split
        · exact fun _ => keeps_declarationFault _ _
        · next hsize =>
          exact .pure (.array he (Bool.eq_false_iff.mpr hvoid) (Nat.le_of_not_lt hsize))

theorem calm_dimensions {t : CType} (ht : t.Built) : Calm (dimensions t) CType.Built := by
  have hc : Calm (collect dimension) fun _ => True := fun v =>
    (keeps_collect (Q := fun _ _ => True) evolution_eq (fun _ _ _ _ h => h) rfl fun w _ =>
      (calm_dimension w).mono fun _ _ _ _ _ _ => trivial).mono fun _ _ _ _ => trivial
  exact .bind hc fun dims _ => calm_applyDimensions ht dims true

structure Spelled (d : Declarator) : Prop where
  name : IsWord d.name
  type : d.type.Built

theorem calm_declarator {base : CType} (hb : base.Built) : Calm (declarator base) Spelled := by
  refine .bind (calm_stars hb) fun t ht => ?_
  exact .bind calm_identifier fun _ hn => .bind (calm_dimensions ht) fun t ht => .pure ⟨hn, ht⟩

theorem calm_checkObject (d : Declarator) :
    Calm (checkObject d) fun _ => d.type.isVoid = false := by
  unfold checkObject
  split
  · exact fun _ => keeps_declarationFault _ _
  · next h => exact .pure (Bool.eq_false_iff.mpr h)

theorem calm_structTag : Calm structTag fun _ => True := by
  refine .bind calm_next fun t _ => ?_
  split
  · exact .bind calm_advance fun _ _ => .pure trivial
  · exact .pure trivial

def Storable (t : CType) : Prop := t.Built ∧ t.isVoid = false

/-- A struct has the layout of its fields, none of which is `void`. -/
theorem keeps_declareStruct (hv : v.Valid) (tag : Option String) {fields : List (String × CType)}
    (hf : ∀ f ∈ fields, Storable f.2) (p : Location) :
    Keeps Retags (declareStruct tag fields p) v fun t _ => t.Built := by
  have hcount : Calm (modify fun s => { s with structCount := s.structCount + 1 }) fun _ => True :=
    fun v => keeps_modify (fun _ hw => hw) (fun s hs => hs) rfl trivial
  refine .calm_bind hcount fun _ _ => .get_bind fun s hs => ?_
  cases hl : Layout.ofFields s.structCount tag fields with
  | error name => exact keeps_declarationFault _ _
  | ok l =>
    have ht : (CType.structOf l).Built :=
      .struct hl (fun f h => (hf f h).1) fun f h => (hf f h).2
    cases tag with
    | none => exact .pure (.refl hv) ht
    | some name =>
      cases hd : s.scopes.declareTag? name (CType.structOf l) with
      | none => simpa only [hd] using keeps_declarationFault _ _
      | some scopes =>
        simp only [hd]
        rw [show s.scopes = v.scopes from congrArg View.scopes hs] at hd
        have hlead := hv.declareTag ht hd
        refine .bind evolution_retags (Q := fun _ _ => True)
          (keeps_modify (fun _ hw => hw) (fun s hs => ?_) hlead trivial)
          fun _ w hw _ => .pure (.refl hw.valid) ht
        rw [← hs]
        rfl

theorem keeps_memberGroup (hb : ∀ w : View, w.Valid → Keeps Retags g.baseType w fun t _ => t.Built)
    (hv : v.Valid) : Keeps Retags (memberGroup g) v fun o _ => ∀ fs ∈ o, ∀ f ∈ fs,
      Storable f.2 := by
  refine .calm_bind (calm_accept _) fun b _ => ?_
  split
  · exact .pure (.refl hv) (by simp)
  · refine .calm_bind calm_atEnd fun b _ => ?_
    split
    · exact keeps_grammarFault _
    · refine .bind evolution_retags (hb v hv) fun base w hw hbase => ?_
      have hfields : Calm (do
          let d ← declarator base
          checkObject d
          return (d.name, d.type)) fun f => Storable f.2 :=
        .bind (calm_declarator hbase) fun d hd =>
          .bind (calm_checkObject d) fun _ hvoid => .pure ⟨hd.type, hvoid⟩
      refine .bind evolution_retags (keeps_separated evolution_retags (fun _ _ _ _ h => h)
        (.refl hw.valid) fun u hu => .of_calm (.refl hu.valid) hfields) fun fs u hu hfs => ?_
      refine .calm_bind (calm_expect _ _) fun _ _ => .pure (.refl hu.valid) ?_
      rintro _ ⟨⟩
      exact hfs

/-- A struct type is built up, be it declared here or found by its tag. -/
theorem keeps_structType (hb : ∀ w : View, w.Valid → Keeps Retags g.baseType w fun t _ => t.Built)
    (hv : v.Valid) (p : Location) : Keeps Retags (structType g p) v fun t _ => t.Built := by
  refine .calm_bind calm_structTag fun tag _ => .calm_bind (calm_accept _) fun b _ => ?_
  split
  · refine .bind evolution_retags (keeps_collect evolution_retags (fun _ _ _ _ h => h) (.refl hv)
      fun w hw => keeps_memberGroup hb hw.valid) fun groups w hw hgs => ?_
    refine keeps_declareStruct hw.valid tag (fun f hf => ?_) p
    obtain ⟨fs, hfs, hf⟩ := List.mem_flatten.mp hf
    exact hgs fs hfs f hf
  · cases tag with
    | none => exact keeps_grammarFault _
    | some name =>
      refine .get_bind fun s hs => ?_
      cases ht : s.scopes.tag? name with
      | none => exact keeps_declarationFault _ _
      | some t =>
        rw [show s.scopes = v.scopes from congrArg View.scopes hs] at ht
        obtain ⟨scope, hmem, hb⟩ := Chain.mem_of_find? ht
        exact .pure (.refl hv) (hv.tags scope hmem _ hb)

theorem keeps_baseType (hb : ∀ w : View, w.Valid → Keeps Retags g.baseType w fun t _ => t.Built)
    (hv : v.Valid) : Keeps Retags (baseType g) v fun t _ => t.Built := by
  refine .calm_bind (calm_acceptOne _) fun o _ => ?_
  split
  · exact .pure (.refl hv) (.primitive _)
  · exact keeps_structType hb hv _
  · exact .calm_bind calm_next fun _ _ => keeps_grammarFault _

theorem keeps_typeName (hb : ∀ w : View, w.Valid → Keeps Retags g.baseType w fun t _ => t.Built)
    (hv : v.Valid) : Keeps Retags (typeName g) v fun t _ => t.Built := by
  refine .bind evolution_retags (keeps_baseType hb hv) fun base w hw hbase => ?_
  exact .calm_bind (calm_stars hbase) fun t ht =>
    .of_calm (.refl hw.valid) (calm_dimensions ht)

/-- A reader of a type is a reader like any other. -/
theorem Keeps.leads {α : Type} {m : Parse α} {Q : α → View → Prop} (h : Keeps Retags m v Q) :
    Keeps Leads m v Q :=
  h.weaken fun _ _ hr hq => ⟨hr.toLeads, hq⟩

end Parse

end StackC
