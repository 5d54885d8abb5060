import Mathlib.Data.List.Infix
import Mathlib.Data.List.Nodup
import StackC.Grammar.Variable
import StackC.Proofs.Program.Layout

namespace StackC

/-- The size of the variable is bounded: its type is as it was written, its initial bytes were
written out, or it has found its place in a frame. -/
def Var.Measured (x : Var) : Prop :=
  x.type.Built ∨ (∃ bytes, x.storage = .global (some bytes)) ∨ x.type.size ≤ maxFrameSize

def Var.Filled (x : Var) : Prop :=
  ∀ bytes, x.storage = .global (some bytes) → bytes.length = x.type.size

theorem Var.Filled.of_isLocal {x : Var} (h : x.isLocal = true) : x.Filled := by
  intro bytes hb
  rw [isLocal, hb] at h
  exact absurd h (by simp)

def Function.names (p : Program) (f : Function) : Names where
  vars id := id ∈ f.locals ∨ id ∈ p.globals
  functions name := (p.function? name).isSome = true

structure Function.Defined (p : Program) (f : Function) (body : Node) : Prop where
  shaped : Shaped (f.names p) .statement false body
  params : f.params <+: f.locals
  nodup : f.locals.Nodup
  locals : ∀ id ∈ f.locals, ∃ x, p.vars[id]? = some x ∧ x.isLocal = true
  scalars : ∀ id ∈ f.params, ∃ x, p.vars[id]? = some x ∧ x.type.isScalar = true
  fits : Frame.total p.vars f.locals ≤ maxFrameSize

/-- What is known of a function without a body: it has parameters, but no frame. -/
structure Function.Announced (p : Program) (f : Function) : Prop where
  locals : f.locals = []
  params : ∀ id ∈ f.params, ∃ x, p.vars[id]? = some x ∧ x.isLocal = true

def Function.Apart (f h : Function) : Prop := f.locals.Disjoint h.locals

structure Program.Valid (p : Program) : Prop where
  types : ∀ (id : VarId) (x : Var), p.vars[id]? = some x → x.type.Sound
  globals : ∀ id ∈ p.globals, ∃ x, p.vars[id]? = some x ∧ x.isLocal = false
  globalsNodup : p.globals.Nodup
  names : (p.functions.map (·.name)).Nodup
  returns : ∀ f ∈ p.functions, f.returnType.Sound
  bodies : ∀ f ∈ p.functions, ∀ body, f.body = some body → f.Defined p body
  announced : ∀ f ∈ p.functions, f.body = none → f.Announced p
  apart : p.functions.Pairwise Function.Apart

/-- A change of a program that keeps the types and places of its variables and forgets no name. -/
structure Program.Extends (q p : Program) : Prop where
  vars : ∀ (id : VarId) (x : Var), p.vars[id]? = some x →
    ∃ y, q.vars[id]? = some y ∧ y.type = x.type ∧ y.isLocal = x.isLocal
  globals : p.globals ⊆ q.globals
  functions : ∀ name, (p.function? name).isSome = true → (q.function? name).isSome = true

theorem Frame.total_congr {vars vars' : Array Var} {ids : List VarId}
    (h : ∀ id ∈ ids, varSize vars' id = varSize vars id) : total vars' ids = total vars ids := by
  induction ids with
  | nil => rfl
  | cons id ids ih =>
    rw [total, List.foldr_cons, h id List.mem_cons_self]
    exact congrArg _ (ih fun x hx => h x (List.mem_cons_of_mem _ hx))

/-- No local is larger than its frame. -/
theorem Frame.varSize_le_total {vars : Array Var} {ids : List VarId} {id : VarId} (h : id ∈ ids) :
    varSize vars id ≤ total vars ids := by
  induction ids with
  | nil => exact absurd h List.not_mem_nil
  | cons k ids ih =>
    rw [total, List.foldr_cons]
    rcases List.mem_cons.mp h with rfl | h
    · exact Nat.le_add_right _ _
    · exact Nat.le_trans (ih h) (Nat.le_add_left _ _)

/-- A defined function stays so when the program is extended. -/
theorem Function.Defined.extend {p q : Program} {f : Function} {body : Node}
    (h : f.Defined p body) (hq : q.Extends p) : f.Defined q body where
  shaped := h.shaped.mono (fun _ => Or.imp_right fun hg => hq.globals hg) hq.functions
  params := h.params
  nodup := h.nodup
  locals id hid := by
    obtain ⟨x, hx, hl⟩ := h.locals id hid
    obtain ⟨y, hy, -, he⟩ := hq.vars id x hx
    exact ⟨y, hy, he.trans hl⟩
  scalars id hid := by
    obtain ⟨x, hx, hs⟩ := h.scalars id hid
    obtain ⟨y, hy, he, -⟩ := hq.vars id x hx
    exact ⟨y, hy, he ▸ hs⟩
  fits := by
    rw [Frame.total_congr fun id hid => ?_]
    · exact h.fits
    · obtain ⟨x, hx, -⟩ := h.locals id hid
      obtain ⟨y, hy, he, -⟩ := hq.vars id x hx
      simp only [Frame.varSize, hx, hy, he]

theorem Function.Announced.extend {p q : Program} {f : Function} (h : f.Announced p)
    (hq : q.Extends p) : f.Announced q where
  locals := h.locals
  params id hid := by
    obtain ⟨x, hx, hl⟩ := h.params id hid
    obtain ⟨y, hy, -, he⟩ := hq.vars id x hx
    exact ⟨y, hy, he.trans hl⟩

namespace Program

/-- A change of the variables that no function notices. -/
theorem Valid.extend {p q : Program} (hp : p.Valid) (hf : q.functions = p.functions)
    (hq : q.Extends p) (ht : ∀ (id : VarId) (x : Var), q.vars[id]? = some x → x.type.Sound)
    (hg : ∀ id ∈ q.globals, ∃ x, q.vars[id]? = some x ∧ x.isLocal = false)
    (hn : q.globals.Nodup) : q.Valid where
  types := ht
  globals := hg
  globalsNodup := hn
  names := hf ▸ hp.names
  returns := hf ▸ hp.returns
  bodies := by
    rw [hf]
    exact fun f hmem body hb => (hp.bodies f hmem body hb).extend hq
  announced := by
    rw [hf]
    exact fun f hmem hb => (hp.announced f hmem hb).extend hq
  apart := hf ▸ hp.apart

theorem function?_isSome {p : Program} {name : String} :
    (p.function? name).isSome = true ↔ ∃ f ∈ p.functions, f.name = name := by
  rw [function?, List.find?_isSome]
  simp

theorem function?_eq_some {p : Program} {name : String} {f : Function}
    (h : p.function? name = some f) : f ∈ p.functions ∧ f.name = name :=
  ⟨List.mem_reverse.mp (List.mem_of_find?_eq_some h), by simpa using List.find?_some h⟩

/-- Where names differ, the first function of a name is the only one. -/
theorem modifyFirst_eq_map {l : List Function} {name : String} {g : Function → Function}
    (h : (l.map (·.name)).Nodup) : modifyFirst (·.name == name) g l =
      l.map fun f => if f.name = name then g f else f := by
  induction l with
  | nil => rfl
  | cons f l ih =>
    obtain ⟨hf, hl⟩ := List.nodup_cons.mp h
    by_cases he : f.name = name
    · have hrest : l.map (fun x => if x.name = name then g x else x) = l := by
        refine (List.map_congr_left fun x hx => if_neg fun hn => hf ?_).trans (List.map_id' l)
        exact List.mem_map.mpr ⟨x, hx, hn.trans he.symm⟩
      simp [modifyFirst, he, hrest]
    · simp [modifyFirst, he, ih hl]

/-- With distinct names, a change of one function leaves the others alone. -/
theorem functions_modifyFunction {p : Program} {name : String} {g : Function → Function}
    (h : (p.functions.map (·.name)).Nodup) : (p.modifyFunction name g).functions =
      p.functions.map fun f => if f.name = name then g f else f := by
  have hr : (p.functions.reverse.map (·.name)).Nodup := by
    rw [List.map_reverse]
    exact List.nodup_reverse.mpr h
  rw [modifyFunction, modifyFirst_eq_map hr, List.map_reverse, List.reverse_reverse]

theorem names_modifyFunction {p : Program} {name : String} {g : Function → Function}
    (h : (p.functions.map (·.name)).Nodup) (hg : ∀ f, (g f).name = f.name) :
    (p.modifyFunction name g).functions.map (·.name) = p.functions.map (·.name) := by
  rw [functions_modifyFunction h, List.map_map]
  refine List.map_congr_left fun f _ => ?_
  simp only [Function.comp_apply]
  split
  · exact hg f
  · rfl

theorem mem_modifyFunction {p : Program} {name : String} {g : Function → Function}
    (h : (p.functions.map (·.name)).Nodup) {f : Function}
    (hf : f ∈ (p.modifyFunction name g).functions) :
    (∃ e ∈ p.functions, e.name = name ∧ f = g e) ∨ f ∈ p.functions ∧ f.name ≠ name := by
  rw [functions_modifyFunction h, List.mem_map] at hf
  obtain ⟨e, he, rfl⟩ := hf
  split
  · next hn => exact Or.inl ⟨e, he, hn, rfl⟩
  · next hn => exact Or.inr ⟨he, hn⟩

/-- The locals of a function are in use, whether it has a body or not. -/
theorem mem_locals {p : Program} {f : Function}
    (hb : ∀ body, f.body = some body → f.Defined p body) (ha : f.body = none → f.Announced p)
    {id : VarId} (hid : id ∈ f.locals) : ∃ x, p.vars[id]? = some x ∧ x.isLocal = true := by
  cases hbody : f.body with
  | some body => exact (hb body hbody).locals id hid
  | none =>
    rw [(ha hbody).locals] at hid
    exact absurd hid List.not_mem_nil

/-- A program one of whose functions is being read: it has its parameters, but not yet its body. -/
structure Pending (p : Program) (name : String) (params : List VarId) : Prop where
  names : (p.functions.map (·.name)).Nodup
  returns : ∀ f ∈ p.functions, f.returnType.Sound
  others : ∀ f ∈ p.functions, f.name ≠ name → ∀ body, f.body = some body → f.Defined p body
  params : ∀ f ∈ p.functions, f.name = name → f.params = params
  announced : ∀ f ∈ p.functions, f.name ≠ name → f.body = none → f.Announced p
  apart : p.functions.Pairwise fun f h => f.name ≠ name → h.name ≠ name → f.Apart h

/-- Only the names of functions count for the trees that use them. -/
theorem extends_of_names {p : Program} {fs : List Function}
    (h : ∀ name, (∃ f ∈ p.functions, f.name = name) → ∃ f ∈ fs, f.name = name) :
    Extends { p with functions := fs } p where
  vars _ x hx := ⟨x, hx, rfl, rfl⟩
  globals := fun _ => id
  functions name hn := function?_isSome.mpr (h name (function?_isSome.mp hn))

/-- Changing a function forgets no variable and no name. -/
theorem extends_modifyFunction {p : Program} (name : String) {g : Function → Function}
    (hn : (p.functions.map (·.name)).Nodup) (hg : ∀ f, (g f).name = f.name) :
    (p.modifyFunction name g).Extends p := by
  refine extends_of_names fun k ⟨f, hf, hk⟩ => ?_
  have hm : k ∈ (p.modifyFunction name g).functions.map (·.name) := by
    rw [names_modifyFunction hn hg]
    exact List.mem_map.mpr ⟨f, hf, hk⟩
  obtain ⟨e, he, hek⟩ := List.mem_map.mp hm
  exact ⟨e, he, hek⟩

theorem nodup_addFunction {p : Program} {f : Function} (hp : p.Valid)
    (hf : p.function? f.name = none) : ((p.functions ++ [f]).map (·.name)).Nodup := by
  rw [List.map_append]
  refine List.nodup_append.mpr ⟨hp.names, List.nodup_singleton _, ?_⟩
  intro a ha b hb
  obtain rfl := List.mem_singleton.mp hb
  obtain ⟨e, he, rfl⟩ := List.mem_map.mp ha
  intro hn
  have hs := function?_isSome.mpr ⟨e, he, hn⟩
  rw [hf] at hs
  exact nomatch hs

theorem extends_addFunction (p : Program) (f : Function) : (p.addFunction f).Extends p :=
  extends_of_names fun _ ⟨e, he, hk⟩ => ⟨e, List.mem_append_left _ he, hk⟩

/-- A function that is announced for the first time. -/
theorem Valid.announce {p : Program} (hp : p.Valid) {f : Function}
    (hf : p.function? f.name = none) (hr : f.returnType.Sound) (hb : f.body = none)
    (ha : f.Announced p) : (p.addFunction f).Valid where
  types := hp.types
  globals := hp.globals
  globalsNodup := hp.globalsNodup
  names := nodup_addFunction hp hf
  returns := List.forall_mem_append.mpr ⟨hp.returns, List.forall_mem_singleton.mpr hr⟩
  bodies := by
    refine List.forall_mem_append.mpr ⟨fun e he body hbody => ?_, List.forall_mem_singleton.mpr ?_⟩
    · exact (hp.bodies e he body hbody).extend (extends_addFunction p f)
    · intro body hbody
      rw [hb] at hbody
      exact nomatch hbody
  announced := by
    refine List.forall_mem_append.mpr
      ⟨fun e he hbody => ?_, List.forall_mem_singleton.mpr fun _ => ?_⟩
    · exact (hp.announced e he hbody).extend (extends_addFunction p f)
    · exact ha.extend (extends_addFunction p f)
  apart := by
    refine List.pairwise_append.mpr ⟨hp.apart, List.pairwise_singleton _ _, fun e _ h hh => ?_⟩
    obtain rfl := List.mem_singleton.mp hh
    rw [Function.Apart, ha.locals]
    exact List.disjoint_nil_right _

/-- A function whose first declaration is its definition. -/
theorem Valid.addPending {p : Program} (hp : p.Valid) {f : Function}
    (hf : p.function? f.name = none) (hr : f.returnType.Sound) :
    (p.addFunction f).Pending f.name f.params := by
  have hother : ∀ e ∈ (p.addFunction f).functions, e.name ≠ f.name → e ∈ p.functions := by
    intro e he hne
    rcases List.mem_append.mp he with he | he
    · exact he
    · exact absurd (congrArg Function.name (List.mem_singleton.mp he)) hne
  refine ⟨nodup_addFunction hp hf, ?_, fun e he hne body hbody => ?_, ?_,
    fun e he hne hbody => ?_, ?_⟩
  · exact List.forall_mem_append.mpr ⟨hp.returns, List.forall_mem_singleton.mpr hr⟩
  · exact (hp.bodies e (hother e he hne) body hbody).extend (extends_addFunction p f)
  · refine List.forall_mem_append.mpr
      ⟨fun e he hn => ?_, List.forall_mem_singleton.mpr fun _ => rfl⟩
    have hs := function?_isSome.mpr ⟨e, he, hn⟩
    rw [hf] at hs
    exact nomatch hs
  · exact (hp.announced e (hother e he hne) hbody).extend (extends_addFunction p f)
  · refine List.pairwise_append.mpr ⟨hp.apart.imp fun h _ _ => h, List.pairwise_singleton _ _, ?_⟩
    intro e _ h hh _ hne
    exact absurd (congrArg Function.name (List.mem_singleton.mp hh)) hne

/-- A function that was announced before and is now being defined. -/
theorem Valid.reopen {p : Program} (hp : p.Valid) (name : String) {g : Function → Function}
    (hn : ∀ f, (g f).name = f.name) (hr : ∀ f, (g f).returnType = f.returnType)
    {params : List VarId} (hps : ∀ f, (g f).params = params) :
    (p.modifyFunction name g).Pending name params where
  names := by
    rw [names_modifyFunction hp.names hn]
    exact hp.names
  returns f hf := by
    rcases mem_modifyFunction hp.names hf with ⟨e, he, -, rfl⟩ | ⟨hf, -⟩
    · rw [hr]
      exact hp.returns e he
    · exact hp.returns f hf
  others f hf hne body hb := by
    rcases mem_modifyFunction hp.names hf with ⟨e, -, he, rfl⟩ | ⟨hf, -⟩
    · exact absurd ((hn e).trans he) hne
    · exact (hp.bodies f hf body hb).extend (extends_modifyFunction name hp.names hn)
  params f hf hfn := by
    rcases mem_modifyFunction hp.names hf with ⟨e, -, -, rfl⟩ | ⟨-, hne⟩
    · exact hps e
    · exact absurd hfn hne
  announced f hf hne hb := by
    rcases mem_modifyFunction hp.names hf with ⟨e, -, he, rfl⟩ | ⟨hf, -⟩
    · exact absurd ((hn e).trans he) hne
    · exact (hp.announced f hf hb).extend (extends_modifyFunction name hp.names hn)
  apart := by
    rw [functions_modifyFunction hp.names, List.pairwise_map]
    refine hp.apart.imp fun {e h} hapart he hh => ?_
    have hkeep (x : Function) (hx : (if x.name = name then g x else x).name ≠ name) :
        (if x.name = name then g x else x) = x := by
      refine if_neg fun hname => hx ?_
      rw [if_pos hname, hn, hname]
    rw [hkeep e he, hkeep h hh]
    exact hapart

/-- A function whose body has been read. -/
theorem Pending.close {p : Program} {name : String} {params : List VarId}
    (h : p.Pending name params) (ht : ∀ (id : VarId) (x : Var), p.vars[id]? = some x → x.type.Sound)
    (hg : ∀ id ∈ p.globals, ∃ x, p.vars[id]? = some x ∧ x.isLocal = false) (hgn : p.globals.Nodup)
    {g : Function → Function} (hn : ∀ f, (g f).name = f.name)
    (hr : ∀ f, (g f).returnType = f.returnType) (hb : ∀ f, (g f).body.isSome = true)
    (hd : ∀ f body, f.params = params → (g f).body = some body → (g f).Defined p body)
    (ha : ∀ f, ∀ e ∈ p.functions, e.name ≠ name → (g f).Apart e) :
    (p.modifyFunction name g).Valid where
  types := ht
  globals := hg
  globalsNodup := hgn
  names := by
    rw [names_modifyFunction h.names hn]
    exact h.names
  returns f hf := by
    rcases mem_modifyFunction h.names hf with ⟨e, he, -, rfl⟩ | ⟨hf, -⟩
    · rw [hr]
      exact h.returns e he
    · exact h.returns f hf
  bodies f hf body hb := by
    have hext := extends_modifyFunction name h.names hn
    rcases mem_modifyFunction h.names hf with ⟨e, he, hen, rfl⟩ | ⟨hf, hne⟩
    · exact (hd e body (h.params e he hen) hb).extend hext
    · exact (h.others f hf hne body hb).extend hext
  announced f hf hnone := by
    rcases mem_modifyFunction h.names hf with ⟨e, -, -, rfl⟩ | ⟨hf, hne⟩
    · have hsome := hb e
      rw [hnone] at hsome
      exact nomatch hsome
    · exact (h.announced f hf hne hnone).extend (extends_modifyFunction name h.names hn)
  apart := by
    rw [functions_modifyFunction h.names, List.pairwise_map]
    have hnames : p.functions.Pairwise fun e f => e.name ≠ f.name := List.pairwise_map.mp h.names
    refine (h.apart.and hnames).imp_of_mem fun {e f} he hf hef => ?_
    obtain ⟨hapart, hne⟩ := hef
    by_cases hename : e.name = name
    · -- The names are distinct, so only one of the two is the function that was read.
      have hfname : f.name ≠ name := fun hfn => hne (hename.trans hfn.symm)
      rw [if_pos hename, if_neg hfname]
      exact ha e f hf hfname
    · rw [if_neg hename]
      by_cases hfname : f.name = name
      · rw [if_pos hfname]
        exact fun id hid hid' => ha f e he hename hid' hid
      · rw [if_neg hfname]
        exact hapart hename hfname

end Program

end StackC
