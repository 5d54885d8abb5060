import StackC.Grammar.Function
import StackC.Proofs.Chains
import StackC.Proofs.Program.Valid

/-!
Declarations at file level and what a program shows of them: the signature of each function, whether
it is defined, and the type and the initial bytes of each global variable. A list of declarations is
compatible when no two of them contradict each other.
-/

namespace StackC

structure Signature where
  returnType : CType
  params : List (Option CType)
  variadic : Bool
deriving DecidableEq

inductive Declaration where
  | function (name : String) (signature : Signature) (isDefinition : Bool)
  | global (name : String) (type : CType) (bytes : Option (List UInt8))
deriving DecidableEq

def Function.signature (p : Program) (f : Function) : Signature :=
  ⟨f.returnType, Parse.varTypes p f.params, f.variadic⟩

def Var.object? (v : Var) : Option (CType × Option (List UInt8)) :=
  match v.storage with
  | .global bytes => some (v.type, bytes)
  | .onFrame => none

namespace Program

def signature? (p : Program) (name : String) : Option Signature :=
  (p.function? name).map (·.signature p)

def defines (p : Program) (name : String) : Bool :=
  (p.function? name).any (·.body.isSome)

def object? (p : Program) (scopes : Scopes) (name : String) :
    Option (CType × Option (List UInt8)) :=
  (scopes.fileVar? name).bind fun id =>
    if id ∈ p.globals then (p.var? id).bind Var.object? else none

theorem function?_congr {p p' : Program} (h : p'.functions = p.functions) (name : String) :
    p'.function? name = p.function? name := by
  rw [function?, h, function?]

/-- A function that is added is the one that its name finds. -/
theorem function?_addFunction (p : Program) (f : Function) (name : String) :
    (p.addFunction f).function? name = if f.name = name then some f else p.function? name := by
  unfold function? addFunction
  rw [List.reverse_append, List.reverse_singleton, List.singleton_append, List.find?_cons]
  by_cases h : f.name = name
  · rw [if_pos h, beq_iff_eq.mpr h]
  · rw [if_neg h, beq_eq_false_iff_ne.mpr h]

theorem find?_modifyFirst {g : Function → Function} (hg : ∀ f, (g f).name = f.name)
    (name other : String) (l : List Function) :
    (modifyFirst (·.name == name) g l).find? (·.name == other) =
      if other = name then (l.find? (·.name == name)).map g else l.find? (·.name == other) := by
  induction l with
  | nil => simp [modifyFirst]
  | cons f l ih =>
    rw [modifyFirst]
    by_cases hf : f.name = name
    · subst hf
      by_cases ho : other = f.name
      · subst ho
        simp [hg]
      · have hne : (f.name == other) = false := beq_eq_false_iff_ne.mpr (Ne.symm ho)
        simp [hg, ho, hne]
    · have hne : (f.name == name) = false := beq_eq_false_iff_ne.mpr hf
      by_cases ho : other = name
      · subst ho
        simp_all
      · simp_all [List.find?_cons]

theorem function?_modifyFunction {g : Function → Function} (hg : ∀ f, (g f).name = f.name)
    (p : Program) (name other : String) : (p.modifyFunction name g).function? other =
      if other = name then (p.function? name).map g else p.function? other := by
  unfold function? modifyFunction
  rw [List.reverse_reverse]
  exact find?_modifyFirst hg name other _

end Program

theorem Scopes.fileVar?_congr {scopes scopes' : Scopes} (h : scopes'.vars.file = scopes.vars.file)
    (name : String) : scopes'.fileVar? name = scopes.fileVar? name := by
  rw [fileVar?, fileVar?, Chain.outermost?_eq, Chain.outermost?_eq, h]

namespace Declaration

def defines (name : String) : Declaration → Bool
  | .function n _ isDefinition => n == name && isDefinition
  | .global .. => false

def initializes (name : String) : Declaration → Bool
  | .function .. => false
  | .global n _ bytes => n == name && bytes.isSome

def Fits : Declaration → Declaration → Prop
  | .function n σ i, .function m τ j => n = m → σ = τ ∧ ¬(i = true ∧ j = true)
  | .global n t x, .global m u y => n = m → t = u ∧ ¬(x.isSome = true ∧ y.isSome = true)
  | .function n _ _, .global m _ _ | .global n _ _, .function m _ _ => n ≠ m

end Declaration

/-- No name is that of a function and of a global variable; all declarations of a function agree
and at most one of them is its definition; all declarations of a global variable have one type and
at most one of them has an initializer. -/
structure Compatible (ds : List Declaration) : Prop where
  kinds : ∀ name σ i t x, .function name σ i ∈ ds → Declaration.global name t x ∉ ds
  signatures : ∀ name σ τ i j, .function name σ i ∈ ds → .function name τ j ∈ ds → σ = τ
  definitions : ∀ name, ds.countP (·.defines name) ≤ 1
  types : ∀ name t u x y, .global name t x ∈ ds → .global name u y ∈ ds → t = u
  initializers : ∀ name, ds.countP (·.initializes name) ≤ 1

namespace Compatible

theorem nil : Compatible [] where
  kinds _ _ _ _ _ h := absurd h List.not_mem_nil
  signatures _ _ _ _ _ h := absurd h List.not_mem_nil
  definitions _ := Nat.zero_le 1
  types _ _ _ _ _ h := absurd h List.not_mem_nil
  initializers _ := Nat.zero_le 1

/-- The order of declarations does not count. -/
theorem perm {ds ds' : List Declaration} (h : Compatible ds) (hp : ds'.Perm ds) :
    Compatible ds' where
  kinds name σ i t x hf hx := h.kinds name σ i t x (hp.mem_iff.mp hf) (hp.mem_iff.mp hx)
  signatures name σ τ i j hf hf' := h.signatures name σ τ i j (hp.mem_iff.mp hf) (hp.mem_iff.mp hf')
  definitions name := (hp.countP_eq _).trans_le (h.definitions name)
  types name t u x y hx hy := h.types name t u x y (hp.mem_iff.mp hx) (hp.mem_iff.mp hy)
  initializers name := (hp.countP_eq _).trans_le (h.initializers name)

end Compatible

/-- The last element is the only one to pass a test that it passes. -/
theorem countP_concat_le_one {α : Type} {test : α → Bool} {l : List α} {a : α} :
    (l ++ [a]).countP test ≤ 1 ↔ l.countP test ≤ 1 ∧ (test a = true → ∀ b ∈ l, test b = false) := by
  rw [List.countP_append, List.countP_singleton]
  cases test a with
  | false => simp
  | true =>
    have hzero : l.countP test = 0 ↔ ∀ b ∈ l, test b = false := by simp [List.countP_eq_zero]
    constructor
    · intro h
      exact ⟨by omega, fun _ => hzero.mp (by simpa using h)⟩
    · rintro ⟨-, h⟩
      rw [hzero.mpr (h rfl)]
      exact Nat.le_refl 1

namespace Declaration

/-- A definition fits to no other definition of the function. -/
theorem Fits.defines {a d : Declaration} (h : a.Fits d) {name : String}
    (hd : d.defines name = true) :
    a.defines name = false := by
  cases d with
  | global => cases hd
  | function m τ j =>
    cases a with
    | global => rfl
    | function n σ i =>
      by_contra ha
      simp only [Declaration.defines, Bool.and_eq_true, beq_iff_eq, Bool.not_eq_false] at ha hd
      exact (h (ha.1.trans hd.1.symm)).2 ⟨ha.2, hd.2⟩

/-- An initializer fits to no other initializer of the variable. -/
theorem Fits.initializes {a d : Declaration} (h : a.Fits d) {name : String}
    (hd : d.initializes name = true) : a.initializes name = false := by
  cases d with
  | function => cases hd
  | global m u y =>
    cases a with
    | function => rfl
    | global n t x =>
      by_contra ha
      simp only [Declaration.initializes, Bool.and_eq_true, beq_iff_eq, Bool.not_eq_false] at ha hd
      exact (h (ha.1.trans hd.1.symm)).2 ⟨ha.2, hd.2⟩

end Declaration

namespace Compatible

variable {ds : List Declaration} {d : Declaration}

theorem sublist {ds' : List Declaration} (h : Compatible ds) (hs : ds'.Sublist ds) :
    Compatible ds' where
  kinds name σ i t x hf hx := h.kinds name σ i t x (hs.subset hf) (hs.subset hx)
  signatures name σ τ i j hf hf' := h.signatures name σ τ i j (hs.subset hf) (hs.subset hf')
  definitions name := hs.countP_le.trans (h.definitions name)
  types name t u x y hx hy := h.types name t u x y (hs.subset hx) (hs.subset hy)
  initializers name := hs.countP_le.trans (h.initializers name)

/-- The last of compatible declarations fits to all the others. -/
theorem fits_last (h : Compatible (ds ++ [d])) {a : Declaration} (ha : a ∈ ds) : a.Fits d := by
  have hleft : a ∈ ds ++ [d] := List.mem_append_left _ ha
  have hright : d ∈ ds ++ [d] := List.mem_append_right _ (List.mem_singleton_self d)
  cases a with
  | function n σ i =>
    cases d with
    | function m τ j =>
      rintro rfl
      refine ⟨h.signatures n σ τ i j hleft hright, ?_⟩
      rintro ⟨hi, hj⟩
      have hlast := (countP_concat_le_one.mp (h.definitions n)).2
        (by simp [Declaration.defines, hj]) _ ha
      simp [Declaration.defines, hi] at hlast
    | global m u y =>
      rintro rfl
      exact h.kinds n σ i u y hleft hright
  | global n t x =>
    cases d with
    | function m τ j =>
      rintro rfl
      exact h.kinds n τ j t x hright hleft
    | global m u y =>
      rintro rfl
      refine ⟨h.types n t u x y hleft hright, ?_⟩
      rintro ⟨hx, hy⟩
      have hlast := (countP_concat_le_one.mp (h.initializers n)).2
        (by simp [Declaration.initializes, hy]) _ ha
      simp [Declaration.initializes, hx] at hlast

/-- A declaration that fits to all the others may follow them. -/
theorem concat (h : Compatible ds) (hd : ∀ a ∈ ds, a.Fits d) : Compatible (ds ++ [d]) where
  kinds name σ i t x hf hx := by
    rw [List.mem_append, List.mem_singleton] at hf hx
    rcases hf with hf | rfl <;> rcases hx with hx | hx
    · exact h.kinds name σ i t x hf hx
    · subst hx
      exact hd _ hf rfl
    · exact hd _ hx rfl
    · cases hx
  signatures name σ τ i j hf hf' := by
    rw [List.mem_append, List.mem_singleton] at hf hf'
    rcases hf with hf | rfl <;> rcases hf' with hf' | hf'
    · exact h.signatures name σ τ i j hf hf'
    · subst hf'
      exact (hd _ hf rfl).1
    · exact (hd _ hf' rfl).1.symm
    · cases hf'
      rfl
  definitions name :=
    countP_concat_le_one.mpr ⟨h.definitions name, fun hn a ha => (hd a ha).defines hn⟩
  types name t u x y hx hy := by
    rw [List.mem_append, List.mem_singleton] at hx hy
    rcases hx with hx | rfl <;> rcases hy with hy | hy
    · exact h.types name t u x y hx hy
    · subst hy
      exact (hd _ hx rfl).1
    · exact (hd _ hy rfl).1.symm
    · cases hy
      rfl
  initializers name :=
    countP_concat_le_one.mpr ⟨h.initializers name, fun hn a ha => (hd a ha).initializes hn⟩

end Compatible

/-- The program shows what the declarations say, and nothing else. -/
structure Declares (ds : List Declaration) (p : Program) (scopes : Scopes) : Prop where
  signature : ∀ name σ, p.signature? name = some σ ↔ ∃ i, .function name σ i ∈ ds
  defines : ∀ name, p.defines name = true ↔ ∃ σ, .function name σ true ∈ ds
  type : ∀ name t, (p.object? scopes name).map Prod.fst = some t ↔ ∃ x, .global name t x ∈ ds
  bytes : ∀ name b, (p.object? scopes name).bind Prod.snd = some b ↔
    ∃ t, .global name t (some b) ∈ ds

structure Program.SameInterface (p : Program) (scopes : Scopes) (p' : Program) (scopes' : Scopes) :
    Prop where
  signature : ∀ name, p'.signature? name = p.signature? name
  defines : ∀ name, p'.defines name = p.defines name
  object : ∀ name, p'.object? scopes' name = p.object? scopes name

/-- The order of the declarations does not show. -/
theorem Declares.sameInterface {ds ds' : List Declaration} {p p' : Program}
    {scopes scopes' : Scopes} (h : Declares ds p scopes) (h' : Declares ds' p' scopes')
    (hmem : ∀ d, d ∈ ds' ↔ d ∈ ds) :
    p.SameInterface scopes p' scopes' where
  signature name := by
    ext σ
    simp only [h.signature, h'.signature, hmem]
  defines name := by
    rw [Bool.eq_iff_iff, h.defines, h'.defines]
    simp only [hmem]
  object name := by
    have htype : (p'.object? scopes' name).map Prod.fst = (p.object? scopes name).map Prod.fst := by
      ext t
      simp only [h.type, h'.type, hmem]
    have hbytes : (p'.object? scopes' name).bind Prod.snd =
        (p.object? scopes name).bind Prod.snd := by
      ext b
      simp only [h.bytes, h'.bytes, hmem]
    cases ho : p.object? scopes name <;> cases ho' : p'.object? scopes' name
    all_goals simp_all [Prod.ext_iff]

structure Program.Keeps (p p' : Program) : Prop where
  vars : ∀ i, i < p.vars.size → p'.vars[i]? = p.vars[i]?
  size : p.vars.size ≤ p'.vars.size
  globals : ∀ id ∈ p.globals, id ∈ p'.globals

/-- The program shows what the declarations say, where parameters are variables of the program and
the file scope binds names to global variables of these names. -/
structure Known (ds : List Declaration) (p : Program) (scopes : Scopes) : Prop
    extends Declares ds p scopes where
  params : ∀ name f, p.function? name = some f → ∀ id ∈ f.params, id < p.vars.size
  bound : ∀ name id, scopes.fileVar? name = some id →
    ∃ v, p.var? id = some v ∧ v.name = name ∧ v.object?.isSome = true ∧ id ∈ p.globals

/-- The empty program shows nothing. -/
theorem known_nil : Known [] {} {} where
  signature _ _ := by simp [Program.signature?, Program.function?]
  defines _ := by simp [Program.defines, Program.function?]
  type _ _ := by simp [Program.object?, Scopes.fileVar?]
  bytes _ _ := by simp [Program.object?, Scopes.fileVar?]
  params _ _ h := by cases h
  bound _ _ h := by cases h

namespace Known

variable {ds : List Declaration} {p p' : Program} {scopes scopes' : Scopes} {name : String}

theorem object?_of_bound (h : Known ds p scopes) {id : VarId}
    (hid : scopes.fileVar? name = some id) :
    ∃ v, p.var? id = some v ∧ v.name = name ∧ p.object? scopes name = v.object? ∧
      v.object?.isSome = true := by
  obtain ⟨v, hv, hname, hsome, hglobal⟩ := h.bound name id hid
  refine ⟨v, hv, hname, ?_, hsome⟩
  rw [Program.object?, hid, Option.bind_some, if_pos hglobal, hv, Option.bind_some]

theorem exists_function (h : Known ds p scopes) {f : Function} (hf : p.function? name = some f) :
    ∃ i, .function name (f.signature p) i ∈ ds := by
  refine (h.signature name (f.signature p)).mp ?_
  rw [Program.signature?, hf, Option.map_some]

theorem exists_global (h : Known ds p scopes) {id : VarId} (hid : scopes.fileVar? name = some id) :
    ∃ t x, .global name t x ∈ ds := by
  obtain ⟨v, -, -, hobject, hsome⟩ := h.object?_of_bound hid
  obtain ⟨o, ho⟩ := Option.isSome_iff_exists.mp hsome
  refine ⟨o.1, (h.type name o.1).mp ?_⟩
  rw [hobject, ho, Option.map_some]

/-- A name to which a global variable fits is not that of a function. -/
theorem function?_eq_none (h : Known ds p scopes) {t : CType} {bytes : Option (List UInt8)}
    (hfits : ∀ a ∈ ds, a.Fits (.global name t bytes)) : p.function? name = none := by
  cases hf : p.function? name with
  | none => rfl
  | some f =>
    obtain ⟨i, hi⟩ := h.exists_function hf
    exact absurd rfl (hfits _ hi)

/-- A name to which a function fits is not that of a global variable. -/
theorem fileVar?_eq_none (h : Known ds p scopes) {σ : Signature} {isDefinition : Bool}
    (hfits : ∀ a ∈ ds, a.Fits (.function name σ isDefinition)) : scopes.fileVar? name = none := by
  cases hid : scopes.fileVar? name with
  | none => rfl
  | some id =>
    obtain ⟨t, x, hx⟩ := h.exists_global hid
    exact absurd rfl (hfits _ hx)

theorem lt_size {id : VarId} {v : Var} (h : p.var? id = some v) : id < p.vars.size :=
  (Array.getElem?_eq_some_iff.mp h).1

/-- A signature depends on the types of the variables only. -/
theorem signature?_eq (h : Known ds p scopes)
    (ht : ∀ i, i < p.vars.size → (p'.var? i).map (·.type) = (p.var? i).map (·.type))
    (hf : p'.function? name = p.function? name) : p'.signature? name = p.signature? name := by
  unfold Program.signature?
  rw [hf]
  cases he : p.function? name with
  | none => rfl
  | some f =>
    have hparams : Parse.varTypes p' f.params = Parse.varTypes p f.params :=
      List.map_congr_left fun id hid => ht id (h.params name f he id hid)
    rw [Option.map_some, Option.map_some, Function.signature, Function.signature, hparams]

/-- What is added to the program does not change what a bound name stands for. -/
theorem object?_eq (h : Known ds p scopes) (hk : p.Keeps p')
    (hfile : scopes'.fileVar? name = scopes.fileVar? name) :
    p'.object? scopes' name = p.object? scopes name := by
  unfold Program.object?
  rw [hfile]
  cases hid : scopes.fileVar? name with
  | none => rfl
  | some id =>
    obtain ⟨v, hv, -, -, hglobal⟩ := h.bound name id hid
    have hv' : p'.var? id = p.var? id := hk.vars id (lt_size hv)
    rw [Option.bind_some, Option.bind_some, if_pos hglobal, if_pos (hk.globals id hglobal), hv']

theorem bound_of_keeps (h : Known ds p scopes) (hk : p.Keeps p') {id : VarId}
    (hid : scopes.fileVar? name = some id) :
    ∃ v, p'.var? id = some v ∧ v.name = name ∧ v.object?.isSome = true ∧ id ∈ p'.globals := by
  obtain ⟨v, hv, hname, hsome, hglobal⟩ := h.bound name id hid
  exact ⟨v, (hk.vars id (lt_size hv)).trans hv, hname, hsome, hk.globals id hglobal⟩

/-- More variables change nothing. -/
theorem keeps (h : Known ds p scopes) (hk : p.Keeps p') (hf : p'.functions = p.functions)
    (hfile : scopes'.vars.file = scopes.vars.file) : Known ds p' scopes' := by
  have hfunction := Program.function?_congr hf
  have hvar := Scopes.fileVar?_congr hfile
  have ht (i : Nat) (hi : i < p.vars.size) : (p'.var? i).map (·.type) = (p.var? i).map (·.type) :=
    congrArg (Option.map (·.type)) (hk.vars i hi)
  constructor
  case toDeclares =>
    constructor
    case signature =>
      intro name σ
      rw [h.signature?_eq ht (hfunction name), h.signature]
    case defines =>
      intro name
      rw [Program.defines, hfunction name]
      exact h.defines name
    case type =>
      intro name t
      rw [h.object?_eq hk (hvar name), h.type]
    case bytes =>
      intro name b
      rw [h.object?_eq hk (hvar name), h.bytes]
  case params =>
    intro name f hfun id hid
    exact Nat.lt_of_lt_of_le (h.params name f (hfunction name ▸ hfun) id hid) hk.size
  case bound =>
    intro name id hid
    exact h.bound_of_keeps hk (hvar name ▸ hid)

/-- A function has been declared once more. -/
theorem function (h : Known ds p scopes) (hk : p.Keeps p')
    (hfile : scopes'.vars.file = scopes.vars.file)
    (hothers : ∀ other, other ≠ name → p'.function? other = p.function? other) {e : Function}
    (he : p'.function? name = some e) (hparams : ∀ id ∈ e.params, id < p'.vars.size)
    {isDefinition : Bool}
    (hbody : e.body.isSome = (isDefinition || p.defines name))
    (hfits : ∀ a ∈ ds, a.Fits (.function name (e.signature p') isDefinition)) :
    Known (ds ++ [.function name (e.signature p') isDefinition]) p' scopes' := by
  have hvar := Scopes.fileVar?_congr hfile
  have ht (i : Nat) (hi : i < p.vars.size) : (p'.var? i).map (·.type) = (p.var? i).map (·.type) :=
    congrArg (Option.map (·.type)) (hk.vars i hi)
  constructor
  case toDeclares =>
    constructor
    case signature =>
      intro other σ
      by_cases ho : other = name
      · subst ho
        rw [Program.signature?, he, Option.map_some, Option.some_inj]
        constructor
        · rintro rfl
          exact ⟨isDefinition, List.mem_append_right _ (List.mem_singleton_self _)⟩
        · rintro ⟨i, hmem⟩
          -- An earlier declaration of the same name fits, so it has this signature.
          rcases List.mem_append.mp hmem with hmem | hmem
          · exact (hfits _ hmem rfl).1.symm
          · cases List.mem_singleton.mp hmem
            rfl
      · rw [h.signature?_eq ht (hothers other ho), h.signature]
        simp [ho]
    case defines =>
      intro other
      by_cases ho : other = name
      · subst ho
        rw [Program.defines, he, Option.any_some, hbody, Bool.or_eq_true, h.defines]
        constructor
        · rintro (rfl | ⟨σ, hmem⟩)
          · exact ⟨_, List.mem_append_right _ (List.mem_singleton_self _)⟩
          · exact ⟨σ, List.mem_append_left _ hmem⟩
        · rintro ⟨σ, hmem⟩
          rcases List.mem_append.mp hmem with hmem | hmem
          · exact Or.inr ⟨σ, hmem⟩
          · cases List.mem_singleton.mp hmem
            exact Or.inl rfl
      · rw [Program.defines, hothers other ho]
        refine (h.defines other).trans ?_
        simp [ho]
    case type =>
      intro other t
      rw [h.object?_eq hk (hvar other), h.type]
      simp
    case bytes =>
      intro other b
      rw [h.object?_eq hk (hvar other), h.bytes]
      simp
  case params =>
    intro other f hf id hid
    by_cases ho : other = name
    · subst ho
      cases he.symm.trans hf
      exact hparams id hid
    · exact Nat.lt_of_lt_of_le (h.params other f (hothers other ho ▸ hf) id hid) hk.size
  case bound =>
    intro other id hid
    exact h.bound_of_keeps hk (hvar other ▸ hid)

/-- A global variable has been declared once more. -/
theorem global (h : Known ds p scopes)
    (ht : ∀ i, i < p.vars.size → (p'.var? i).map (·.type) = (p.var? i).map (·.type))
    (hsize : p.vars.size ≤ p'.vars.size) (hf : p'.functions = p.functions)
    (hothers : ∀ other, other ≠ name → p'.object? scopes' other = p.object? scopes other)
    {t : CType}
    {bytes : Option (List UInt8)}
    (hobject : p'.object? scopes' name = some (t, bytes <|> (p.object? scopes name).bind Prod.snd))
    (hbound : ∀ other id, scopes'.fileVar? other = some id →
      ∃ v, p'.var? id = some v ∧ v.name = other ∧ v.object?.isSome = true ∧ id ∈ p'.globals)
    (hfits : ∀ a ∈ ds, a.Fits (.global name t bytes)) :
    Known (ds ++ [.global name t bytes]) p' scopes' := by
  have hfunction := Program.function?_congr hf
  constructor
  case toDeclares =>
    constructor
    case signature =>
      intro other σ
      rw [h.signature?_eq ht (hfunction other), h.signature]
      simp
    case defines =>
      intro other
      rw [Program.defines, hfunction other]
      refine (h.defines other).trans ?_
      simp
    case type =>
      intro other u
      by_cases ho : other = name
      · subst ho
        rw [hobject, Option.map_some, Option.some_inj]
        constructor
        · rintro rfl
          exact ⟨bytes, List.mem_append_right _ (List.mem_singleton_self _)⟩
        · rintro ⟨x, hmem⟩
          rcases List.mem_append.mp hmem with hmem | hmem
          · exact (hfits _ hmem rfl).1.symm
          · cases List.mem_singleton.mp hmem
            rfl
      · rw [hothers other ho, h.type]
        simp [ho]
    case bytes =>
      intro other b
      by_cases ho : other = name
      · subst ho
        rw [hobject, Option.bind_some]
        cases bytes with
        | none =>
          refine (h.bytes other b).trans ?_
          simp
        | some c =>
          constructor
          · intro hb
            cases hb
            exact ⟨t, List.mem_append_right _ (List.mem_singleton_self _)⟩
          · rintro ⟨u, hmem⟩
            -- No earlier declaration of the name has bytes.
            rcases List.mem_append.mp hmem with hmem | hmem
            · exact absurd ⟨rfl, rfl⟩ (hfits _ hmem rfl).2
            · cases List.mem_singleton.mp hmem
              rfl
      · rw [hothers other ho, h.bytes]
        simp [ho]
  case params =>
    intro other f hfun id hid
    exact Nat.lt_of_lt_of_le (h.params other f (hfunction other ▸ hfun) id hid) hsize
  case bound => exact hbound

end Known

def Program.withGlobal (p : Program) (v : Var) : Program := (p.addVar v).1.addGlobal p.vars.size

def Scopes.withFileVar (scopes : Scopes) (name : String) (id : VarId) : Scopes :=
  { scopes with vars := scopes.vars.inner ++ [(name, id) :: scopes.vars.file] }

def Program.withBytes (p : Program) (id : VarId) (bytes : Option (List UInt8)) : Program :=
  if bytes.isSome then p.modifyVar id ({ · with storage := .global bytes }) else p

namespace Known

variable {ds : List Declaration} {p : Program} {scopes : Scopes} {name : String} {t : CType}
  {bytes : Option (List UInt8)}

theorem keeps_withGlobal (p : Program) (v : Var) : p.Keeps (p.withGlobal v) where
  vars i hi := by
    rw [Program.withGlobal, Program.addGlobal, Program.addVar, Array.getElem?_push,
      if_neg (Nat.ne_of_lt hi)]
  size := by
    rw [Program.withGlobal, Program.addGlobal, Program.addVar, Array.size_push]
    exact Nat.le_succ _
  globals _ hid := List.mem_append_left _ hid

theorem var?_withGlobal (p : Program) (v : Var) : (p.withGlobal v).var? p.vars.size = some v :=
  Array.getElem?_push_size

theorem file_withFileVar (scopes : Scopes) (name : String) (id : VarId) :
    (scopes.withFileVar name id).vars.file = (name, id) :: scopes.vars.file := by
  rw [Scopes.withFileVar, Chain.file, List.getLast?_concat]
  rfl

theorem fileVar?_withFileVar (scopes : Scopes) (name : String) (id : VarId) :
    (scopes.withFileVar name id).fileVar? name = some id := by
  rw [Scopes.fileVar?, Chain.outermost?_eq, file_withFileVar, List.lookup_cons, beq_self_eq_true]

theorem fileVar?_withFileVar_of_ne (scopes : Scopes) (id : VarId) {other : String}
    (h : other ≠ name) :
    (scopes.withFileVar name id).fileVar? other = scopes.fileVar? other := by
  rw [Scopes.fileVar?, Chain.outermost?_eq, file_withFileVar, List.lookup_cons,
    beq_eq_false_iff_ne.mpr h, Scopes.fileVar?, Chain.outermost?_eq]

/-- A global variable has been declared for the first time. -/
theorem withGlobal (h : Known ds p scopes) (hfree : scopes.fileVar? name = none)
    (hfits : ∀ a ∈ ds, a.Fits (.global name t bytes)) : Known (ds ++ [.global name t bytes])
      (p.withGlobal ⟨name, t, .global bytes⟩) (scopes.withFileVar name p.vars.size) := by
  have hk := keeps_withGlobal p ⟨name, t, .global bytes⟩
  have hglobal : p.vars.size ∈ (p.withGlobal ⟨name, t, .global bytes⟩).globals :=
    List.mem_append_right _ (List.mem_singleton_self _)
  refine h.global (fun i hi => congrArg (Option.map (·.type)) (hk.vars i hi)) hk.size rfl
    (fun other ho => h.object?_eq hk (fileVar?_withFileVar_of_ne scopes _ ho)) ?_
      (fun other id hid => ?_) hfits
  · have hbefore : p.object? scopes name = none := by
      rw [Program.object?, hfree]
      rfl
    rw [hbefore, Program.object?, fileVar?_withFileVar, Option.bind_some, if_pos hglobal,
      var?_withGlobal]
    cases bytes <;> rfl
  · by_cases ho : other = name
    · subst ho
      rw [fileVar?_withFileVar] at hid
      cases hid
      exact ⟨_, var?_withGlobal p _, rfl, rfl, hglobal⟩
    · rw [fileVar?_withFileVar_of_ne scopes _ ho] at hid
      exact h.bound_of_keeps hk hid

theorem var?_withBytes (p : Program) (id j : VarId) (b : List UInt8) :
    (p.withBytes id (some b)).var? j =
      if id = j then (p.var? j).map ({ · with storage := .global (some b) }) else p.var? j := by
  rw [Program.withBytes, if_pos Option.isSome_some, Program.var?, Program.modifyVar,
    Array.getElem?_modify, Program.var?]

theorem object?_of_isSome {v : Var} (h : v.object?.isSome = true) :
    v.object? = some (v.type, v.object?.bind Prod.snd) := by
  unfold Var.object? at h ⊢
  cases hs : v.storage with
  | onFrame =>
    rw [hs] at h
    cases h
  | global init => rfl

/-- Two names are not bound to one variable. -/
theorem eq_of_bound (h : Known ds p scopes) {other : String} {id : VarId}
    (hid : scopes.fileVar? name = some id) (ho : scopes.fileVar? other = some id) :
    other = name := by
  obtain ⟨v, hv, hname, -⟩ := h.bound name id hid
  obtain ⟨v', hv', hother, -⟩ := h.bound other id ho
  cases hv.symm.trans hv'
  exact hother.symm.trans hname

/-- A global variable has been declared again. -/
theorem withBytes (h : Known ds p scopes) {id : VarId} {v : Var}
    (hid : scopes.fileVar? name = some id) (hv : p.var? id = some v) (htype : v.type = t)
    (hfits : ∀ a ∈ ds, a.Fits (.global name t bytes)) :
    Known (ds ++ [.global name t bytes]) (p.withBytes id bytes) scopes := by
  obtain ⟨v', hv', hname, hobject, hsome⟩ := h.object?_of_bound hid
  cases hv.symm.trans hv'
  obtain ⟨-, -, -, -, hglobal⟩ := h.bound name id hid
  cases bytes with
  | none =>
    refine h.global (fun _ _ => rfl) (Nat.le_refl _) rfl (fun _ _ => rfl) ?_ h.bound hfits
    rw [hobject, ← htype]
    exact object?_of_isSome hsome
  | some b =>
    have hsize : (p.withBytes id (some b)).vars.size = p.vars.size := Array.size_modify
    have hglobals : (p.withBytes id (some b)).globals = p.globals := rfl
    refine h.global (fun i _ => ?_) (Nat.le_of_eq hsize.symm) rfl (fun other ho => ?_) ?_
      (fun other j hj => ?_) hfits
    · rw [var?_withBytes]
      split
      · cases p.var? i <;> rfl
      · rfl
    · rw [Program.object?, Program.object?, hglobals]
      cases hj : scopes.fileVar? other with
      | none => rfl
      | some j =>
        -- The variable that changes goes by one name only.
        have hne : id ≠ j := fun he => ho (h.eq_of_bound hid (he ▸ hj))
        rw [Option.bind_some, Option.bind_some, var?_withBytes, if_neg hne]
    · rw [Program.object?, hid, Option.bind_some, hglobals, if_pos hglobal, var?_withBytes,
        if_pos rfl, hv, ← htype]
      rfl
    · obtain ⟨x, hx, hxname, hxsome, hxglobal⟩ := h.bound other j hj
      rw [var?_withBytes, hx]
      split
      · exact ⟨_, rfl, hxname, rfl, hxglobal⟩
      · exact ⟨x, rfl, hxname, hxsome, hxglobal⟩

end Known

end StackC
