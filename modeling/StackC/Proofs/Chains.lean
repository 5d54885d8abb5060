import StackC.Scope

namespace StackC

namespace Chain

variable {α : Type} {c : Chain α} {link : List (String × α)} {name : String} {a b : α}

def file (c : Chain α) : List (String × α) := c.getLast?.getD []

def inner (c : Chain α) : Chain α := c.dropLast

theorem outermost?_eq (c : Chain α) (name : String) : c.outermost? name = c.file.lookup name := by
  unfold outermost? file
  cases c.getLast? <;> rfl

theorem file_cons (hc : c ≠ []) (link : List (String × α)) : Chain.file (link :: c) = c.file := by
  rw [file, file, List.getLast?_cons_of_ne_nil hc]

theorem inner_cons (hc : c ≠ []) (link : List (String × α)) :
    Chain.inner (link :: c) = link :: c.inner := List.dropLast_cons_of_ne_nil hc

/-- A chain that is not empty is what lies inside of the file scope, and the file scope. -/
theorem eq_inner_append (hc : c ≠ []) : c = c.inner ++ [c.file] := by
  rw [inner, file, List.getLast?_eq_some_getLast hc]
  exact (List.dropLast_concat_getLast hc).symm

@[simp] theorem length_inner (c : Chain α) : c.inner.length = c.length - 1 := List.length_dropLast

/-- A chain of one link is the file scope. -/
theorem eq_file_of_length (h : c.length = 1) : c = [c.file] := by
  obtain ⟨link, rfl⟩ := List.length_eq_one_iff.mp h
  rfl

theorem inner_eq_nil (h : c.length = 1) : c.inner = [] := by
  rw [eq_file_of_length h]
  rfl

/-- With no scope open inside of it, the file scope is the innermost one. -/
theorem innermost?_eq_file (h : c.length = 1) : c.innermost? name = c.file.lookup name := by
  rw [eq_file_of_length h]
  rfl

/-- Where there are scopes inside of the file scope, the innermost one can be left. -/
theorem tail_ne_nil (h : 1 < c.length) : c.tail ≠ [] := by
  intro hnil
  have hlength := congrArg List.length hnil
  rw [List.length_tail, List.length_nil] at hlength
  omega

/-- Leaving an inner scope does not touch the file scope. -/
theorem file_tail (h : 1 < c.length) : Chain.file c.tail = c.file := by
  have htail := tail_ne_nil h
  cases c with
  | nil => cases h
  | cons link outer => exact (file_cons htail link).symm

theorem inner_tail (h : 1 < c.length) : Chain.inner c.tail = c.inner.tail := by
  have htail := tail_ne_nil h
  cases c with
  | nil => cases h
  | cons link outer => exact (congrArg List.tail (inner_cons htail link)).symm

/-- A declaration is accepted if the innermost scope does not bind the name, and then binds it
there. -/
theorem declare_eq_true {c' : Chain α} : c.declare name a = (true, c') ↔
    ∃ link outer, c = link :: outer ∧ link.lookup name = none ∧
    c' = ((name, a) :: link) :: outer := by
  cases c with
  | nil => simp [declare]
  | cons link outer =>
    rw [declare]
    cases h : link.lookup name with
    | none =>
      constructor
      · intro he
        exact ⟨link, outer, rfl, h, (congrArg Prod.snd he).symm⟩
      · rintro ⟨link', outer', hc, -, rfl⟩
        cases hc
        rfl
    | some b =>
      constructor
      · intro he
        cases he
      · rintro ⟨link', outer', hc, hfree, -⟩
        cases hc
        cases h.symm.trans hfree

/-- What holds behind an accepted declaration holds with the name in the innermost scope. -/
theorem exists_declared (P : Chain α → Prop) :
    (∃ c', c.declare name a = (true, c') ∧ P c') ↔
      ∃ link outer, c = link :: outer ∧ link.lookup name = none ∧
        P (((name, a) :: link) :: outer) := by
  simp only [declare_eq_true]
  constructor
  · rintro ⟨_, ⟨link, outer, hc, hfree, rfl⟩, hp⟩
    exact ⟨link, outer, hc, hfree, hp⟩
  · rintro ⟨link, outer, hc, hfree, hp⟩
    exact ⟨_, ⟨link, outer, hc, hfree, rfl⟩, hp⟩

/-- A declaration that is refused changes nothing. -/
theorem declare_of_false (h : (c.declare name a).1 = false) : c.declare name a = (false, c) := by
  cases c with
  | nil => rfl
  | cons link outer =>
    by_cases hbound : (link.lookup name).isSome = true
    · exact if_pos hbound
    · rw [declare, if_neg hbound] at h
      cases h

/-- A new name hides no other one. -/
theorem lookup_cons_of_none (hn : link.lookup name = none) {other : String}
    (h : link.lookup other = some a) : ((name, b) :: link).lookup other = some a := by
  have hne : other ≠ name := by
    rintro rfl
    rw [hn] at h
    cases h
  rw [List.lookup_cons, beq_eq_false_iff_ne.mpr hne]
  exact h

theorem ne_of_lookup (h : link.lookup name = none) : ∀ b ∈ link, b.1 ≠ name := by
  intro b hb he
  have hne := List.lookup_eq_none_iff.mp h b hb
  rw [he, bne_self_eq_false] at hne
  cases hne

end Chain

namespace Scopes

variable {s s' : Scopes} {name : String}

/-- A scope inside of the file scope is left on both chains. -/
theorem leave_of_lt (h : 1 < s.vars.length) : s.leave = ⟨s.vars.tail, s.tags.tail⟩ := if_pos h

/-- To leave a scope does not touch the file scope. -/
theorem file_leave (s : Scopes) : s.leave.vars.file = s.vars.file := by
  unfold leave
  split
  · next h => exact Chain.file_tail h
  · rfl

/-- A variable can be declared exactly if the innermost scope does not bind its name, and this is
the only link that changes. -/
theorem declareVar?_eq_some {id : VarId} : s.declareVar? name id = some s' ↔
    ∃ link outer, s.vars = link :: outer ∧ link.lookup name = none ∧
      s' = { s with vars := ((name, id) :: link) :: outer } := by
  rw [← Chain.exists_declared fun vars => s' = { s with vars := vars }]
  unfold declareVar? declareVar
  rcases s.vars.declare name id with ⟨_ | _, vars⟩ <;> simp [eq_comm]

/-- The same of struct tags, on the chain of tags. -/
theorem declareTag?_eq_some {t : CType} : s.declareTag? name t = some s' ↔
    ∃ link outer, s.tags = link :: outer ∧ link.lookup name = none ∧
      s' = { s with tags := ((name, t) :: link) :: outer } := by
  rw [← Chain.exists_declared fun tags => s' = { s with tags := tags }]
  unfold declareTag? declareTag
  rcases s.tags.declare name t with ⟨_ | _, tags⟩ <;> simp [eq_comm]

end Scopes

end StackC
