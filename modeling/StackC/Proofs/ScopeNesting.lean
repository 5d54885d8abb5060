import Mathlib.Data.List.Induction
import Mathlib.Data.List.Infix
import StackC.Proofs.Chains

/-!
Histories of scopes. Scopes nest like brackets, and what a name stands for after any sequence of
operations can be told from the sequence alone: it is what the innermost scope that is still open
and has a declaration of the name was told first.
-/

namespace StackC

inductive NameKind where
  | vars
  | tags

abbrev NameKind.Value : NameKind → Type
  | vars => VarId
  | tags => CType

namespace Scopes

def chain (s : Scopes) : (k : NameKind) → Chain k.Value
  | .vars => s.vars
  | .tags => s.tags

def find? (s : Scopes) : (k : NameKind) → String → Option k.Value
  | .vars => s.var?
  | .tags => s.tag?

def declare (s : Scopes) : (k : NameKind) → String → k.Value → Bool × Scopes
  | .vars => s.declareVar
  | .tags => s.declareTag

/-- What the scope with `i` scopes around it binds a name to. -/
def bound (s : Scopes) (k : NameKind) (i : Nat) (name : String) : Option k.Value :=
  (s.chain k).reverse[i]?.bind (·.lookup name)

inductive Operation where
  | enter
  | leave
  | declare (k : NameKind) (name : String) (value : k.Value)
  | find (k : NameKind) (name : String)
  | findInnermost (name : String)
  | findInFile (name : String)

namespace Operation

def isEnter : Operation → Bool
  | enter => true
  | _ => false

def isLeave : Operation → Bool
  | leave => true
  | _ => false

def apply (s : Scopes) : Operation → Scopes
  | enter => s.enter
  | leave => s.leave
  | declare k name a => (s.declare k name a).2
  | find .. | findInnermost .. | findInFile .. => s

def count (n : Nat) : Operation → Nat
  | enter => n + 1
  | leave => n - 1
  | declare .. | find .. | findInnermost .. | findInFile .. => n

/-- An operation changes the number of open scopes by one at most. -/
theorem count_succ (op : Operation) (n : Nat) :
    op.count (n + 1) + (if op.isLeave then 1 else 0) = n + 1 + if op.isEnter then 1 else 0 := by
  cases op <;> rfl

end Operation

def behind (ops : List Operation) : Scopes := ops.foldl Operation.apply {}

def openScopes (ops : List Operation) : Nat := ops.foldl Operation.count 0

/-- Every scope that is left was entered in the sequence, and every scope that was entered is
left. -/
def Balanced (ops : List Operation) : Prop :=
  (∀ before, before <+: ops →
    before.countP Operation.isLeave ≤ before.countP Operation.isEnter) ∧
  ops.countP Operation.isLeave = ops.countP Operation.isEnter

/-- The sequence has, right behind `before`, a declaration of the name that was accepted, and the
scope it was made in has not been left since. -/
structure Stands (ops : List Operation) (k : NameKind) (name : String) (a : k.Value)
    (before after : List Operation) : Prop where
  split : ops = before ++ .declare k name a :: after
  accepted : ((behind before).declare k name a).1 = true
  isOpen : ∀ next, next <+: after →
    openScopes before ≤ openScopes (before ++ .declare k name a :: next)

variable {s : Scopes} {k k' : NameKind} {name n : String} {i d : Nat}

/-- Both chains have links for the file scope and `d` scopes inside of it. -/
def InStep (s : Scopes) (d : Nat) : Prop := ∀ k, (s.chain k).length = d + 1

@[simp] theorem behind_append (ops : List Operation) (op : Operation) :
    behind (ops ++ [op]) = op.apply (behind ops) := by
  simp [behind]

@[simp] theorem openScopes_append (ops : List Operation) (op : Operation) :
    openScopes (ops ++ [op]) = op.count (openScopes ops) := by
  simp [openScopes]

@[simp] theorem chain_enter (s : Scopes) (k : NameKind) : s.enter.chain k = [] :: s.chain k := by
  cases k <;> rfl

/-- The length of one chain decides whether both are cut. -/
theorem chain_leave (h : s.InStep d) (k : NameKind) :
    s.leave.chain k = if d = 0 then s.chain k else (s.chain k).tail := by
  have hvars : s.vars.length = d + 1 := h .vars
  unfold leave
  rw [hvars]
  by_cases hd : d = 0
  · rw [if_neg (by omega), if_pos hd]
  · rw [if_pos (by omega), if_neg hd]
    cases k <;> rfl

theorem declare_fst (s : Scopes) (k : NameKind) (name : String) (a : k.Value) :
    (s.declare k name a).1 = ((s.chain k).declare name a).1 := by
  cases k <;> rfl

theorem chain_declare (s : Scopes) (k : NameKind) (name : String) (a : k.Value) :
    (s.declare k name a).2.chain k = ((s.chain k).declare name a).2 := by
  cases k <;> rfl

/-- Declaring a variable leaves the tags alone, and declaring a tag leaves the variables alone. -/
theorem chain_declare_of_ne (s : Scopes) (name : String) (a : k.Value) (hk : k' ≠ k) :
    (s.declare k name a).2.chain k' = s.chain k' := by
  cases k <;> cases k' <;> first | rfl | exact absurd rfl hk

theorem eq_of_chains {t : Scopes} (h : ∀ k, s.chain k = t.chain k) : s = t := by
  obtain ⟨vars, tags⟩ := s
  obtain rfl : vars = t.vars := h .vars
  obtain rfl : tags = t.tags := h .tags
  rfl

/-- A declaration is accepted exactly if the innermost scope does not bind the name. -/
theorem declare_accepted (h : s.InStep d) {a : k.Value} :
    (s.declare k name a).1 = true ↔ (s.chain k).innermost? name = none := by
  have hlength := h k
  rw [declare_fst]
  cases hc : s.chain k with
  | nil =>
    rw [hc] at hlength
    cases hlength
  | cons link outer =>
    change (Chain.declare (link :: outer) name a).1 = true ↔ link.lookup name = none
    rw [Chain.declare]
    cases link.lookup name <;> simp

/-- A declaration that is refused has no effect. -/
theorem declare_refused {a : k.Value} (h : (s.declare k name a).1 = false) :
    (s.declare k name a).2 = s := by
  rw [declare_fst] at h
  have hsame := Chain.declare_of_false h
  refine eq_of_chains fun k' => ?_
  by_cases hk : k' = k
  · subst hk
    rw [chain_declare, hsame]
  · exact chain_declare_of_ne s name a hk

/-- A declaration opens and closes no scope. -/
theorem length_declare {α : Type} (c : Chain α) (name : String) (a : α) :
    (c.declare name a).2.length = c.length := by
  cases c with
  | nil => rfl
  | cons link outer =>
    rw [Chain.declare]
    split <;> rfl

/-- No operation brings the chains out of step. -/
theorem InStep.apply (h : s.InStep d) (op : Operation) : (op.apply s).InStep (op.count d) := by
  intro k
  cases op with
  | enter => rw [Operation.apply, chain_enter, List.length_cons, h k, Operation.count]
  | leave =>
    rw [Operation.apply, chain_leave h, Operation.count]
    split
    · next hd => rw [h k, hd]
    · next hd =>
      rw [List.length_tail, h k]
      omega
  | declare k' name a =>
    rw [Operation.apply, Operation.count]
    by_cases hk : k = k'
    · subst hk
      rw [chain_declare, length_declare, h k]
    · rw [chain_declare_of_ne s name a hk, h k]
  | find | findInnermost | findInFile => exact h k

/-- Behind every sequence of operations the two chains are in step. -/
theorem inStep_behind (ops : List Operation) : (behind ops).InStep (openScopes ops) := by
  induction ops using List.reverseRecOn with
  | nil => exact fun k => by cases k <;> rfl
  | append_singleton ops op ih =>
    rw [behind_append, openScopes_append]
    exact ih.apply op

/-- The innermost scope is the one with all others around it. -/
theorem bound_innermost (h : s.InStep d) (k : NameKind) (name : String) :
    s.bound k d name = (s.chain k).innermost? name := by
  have hlength := h k
  cases hc : s.chain k with
  | nil =>
    rw [hc] at hlength
    cases hlength
  | cons link outer =>
    rw [hc, List.length_cons, Nat.add_right_cancel_iff] at hlength
    rw [bound, hc, List.reverse_cons, ← hlength, ← List.length_reverse,
      List.getElem?_append_right (Nat.le_refl _), Nat.sub_self]
    rfl

theorem bound_of_lt (h : s.InStep d) (hi : d < i) : s.bound k i name = none := by
  rw [bound, List.getElem?_eq_none (by rw [List.length_reverse, h k]; exact hi), Option.bind_none]

theorem le_of_bound (h : s.InStep d) {a : k.Value} (hb : s.bound k i name = some a) : i ≤ d := by
  by_contra hlt
  rw [bound_of_lt h (Nat.lt_of_not_le hlt)] at hb
  cases hb

/-- A new link of a chain does not move the others. -/
theorem getElem?_reverse_cons {α : Type} {link : α} {c : List α} (hi : i < c.length) :
    (link :: c).reverse[i]? = c.reverse[i]? := by
  rw [List.reverse_cons, List.getElem?_append_left (by rw [List.length_reverse]; exact hi)]

/-- A new scope binds nothing, and the others bind what they bound. -/
theorem bound_enter (h : s.InStep d) : s.enter.bound k i name = s.bound k i name := by
  have hstep : s.enter.InStep (d + 1) := h.apply .enter
  rcases Nat.lt_trichotomy i (d + 1) with hi | rfl | hi
  · rw [bound, bound, chain_enter, getElem?_reverse_cons (by rw [h k]; exact hi)]
  · rw [bound_innermost hstep, bound_of_lt h (Nat.lt_succ_self d), chain_enter]
    rfl
  · rw [bound_of_lt hstep hi, bound_of_lt h (by omega)]

/-- Where a scope is left, its bindings are gone. -/
theorem bound_leave (h : s.InStep (d + 1)) :
    s.leave.bound k i name = if i = d + 1 then none else s.bound k i name := by
  have hleft : s.leave.InStep d := h.apply .leave
  rcases Nat.lt_trichotomy i (d + 1) with hi | rfl | hi
  · rw [if_neg (Nat.ne_of_lt hi), bound, bound, chain_leave h, if_neg (Nat.succ_ne_zero d)]
    have hlength := h k
    cases hc : s.chain k with
    | nil => rfl
    | cons link outer =>
      rw [hc, List.length_cons, Nat.add_right_cancel_iff] at hlength
      rw [List.tail_cons, getElem?_reverse_cons (by rw [hlength]; exact hi)]
  · rw [if_pos rfl, bound_of_lt hleft (Nat.lt_succ_self d)]
  · rw [if_neg (by omega), bound_of_lt hleft (by omega), bound_of_lt h hi]

/-- The file scope is not left. -/
theorem leave_of_zero (h : s.InStep 0) : s.leave = s :=
  eq_of_chains fun k => by rw [chain_leave h, if_pos rfl]

/-- An accepted declaration binds the name in the innermost scope and nothing else. -/
theorem bound_declare (h : s.InStep d) {a : k.Value} (hacc : (s.declare k n a).1 = true) :
    (s.declare k n a).2.bound k i name =
      if i = d ∧ name = n then some a else s.bound k i name := by
  have hstep : (s.declare k n a).2.InStep d := h.apply (.declare k n a)
  have hdeclare : (s.chain k).declare n a = (true, (s.declare k n a).2.chain k) :=
    Prod.ext (by rw [← declare_fst]; exact hacc) (chain_declare s k n a).symm
  obtain ⟨link, outer, hc, -, hc' : (s.declare k n a).2.chain k = ((n, a) :: link) :: outer⟩ :=
    Chain.declare_eq_true.mp hdeclare
  have hlength := h k
  rw [hc, List.length_cons, Nat.add_right_cancel_iff] at hlength
  rcases Nat.lt_trichotomy i d with hi | rfl | hi
  · rw [if_neg (by omega), bound, bound, hc, hc', getElem?_reverse_cons (by omega),
      getElem?_reverse_cons (by omega)]
  · rw [bound_innermost hstep, bound_innermost h, hc, hc']
    change ((n, a) :: link).lookup name = if i = i ∧ name = n then some a else link.lookup name
    rw [List.lookup_cons]
    by_cases hname : name = n
    · simp [hname]
    · simp [beq_eq_false_iff_ne.mpr hname, hname]
  · rw [if_neg (by omega), bound_of_lt hstep hi, bound_of_lt h hi]

/-- What is still bound where a scope has been left. -/
theorem bound_leave_eq_some (h : s.InStep d) {a : k.Value} :
    s.leave.bound k i name = some a ↔ s.bound k i name = some a ∧ i ≤ d - 1 := by
  cases d with
  | zero =>
    rw [leave_of_zero h]
    exact ⟨fun hb => ⟨hb, le_of_bound h hb⟩, And.left⟩
  | succ d =>
    rw [bound_leave h, Nat.add_sub_cancel]
    split
    · next hi =>
      constructor
      · intro hb
        cases hb
      · intro hb
        omega
    · next hi =>
      constructor
      · intro hb
        have hle := le_of_bound h hb
        exact ⟨hb, by omega⟩
      · exact And.left

/-- Behind an accepted declaration the name it declares is bound too. -/
theorem bound_declare_eq_some (h : s.InStep d) {b : k'.Value} (hacc : (s.declare k' n b).1 = true)
    {a : k.Value} : (s.declare k' n b).2.bound k i name = some a ↔
      (Operation.declare k' n b = .declare k name a ∧ d = i) ∨ s.bound k i name = some a := by
  by_cases hk : k = k'
  · subst hk
    rw [bound_declare h hacc]
    simp only [Operation.declare.injEq, heq_eq_eq, true_and]
    split
    · next hi =>
      obtain ⟨rfl, rfl⟩ := hi
      -- The innermost scope had no such name, or the declaration would have been refused.
      have hfree : s.bound k i name = none := by
        rw [bound_innermost h]
        exact (declare_accepted h).mp hacc
      simp [hfree]
    · next hi =>
      constructor
      · exact .inr
      · rintro (⟨⟨rfl, rfl⟩, rfl⟩ | hb)
        · exact absurd ⟨rfl, rfl⟩ hi
        · exact hb
  · rw [bound, chain_declare_of_ne s n b hk, ← bound]
    constructor
    · exact .inr
    · rintro (⟨hop, -⟩ | hb)
      · cases hop
        exact absurd rfl hk
      · exact hb

/-- What is bound behind an operation: the name it declares, if it is accepted, and all that has
been bound in a scope that stays open. -/
theorem bound_apply (h : s.InStep d) (op : Operation) {k : NameKind} {i : Nat} {name : String}
    {a : k.Value} : (op.apply s).bound k i name = some a ↔
      (op = .declare k name a ∧ (s.declare k name a).1 = true ∧ d = i) ∨
      (s.bound k i name = some a ∧ i ≤ op.count d) := by
  have hkept (hle : d ≤ op.count d) (hb : s.bound k i name = some a) :
      s.bound k i name = some a ∧ i ≤ op.count d :=
    ⟨hb, Nat.le_trans (le_of_bound h hb) hle⟩
  cases op with
  | enter =>
    rw [Operation.apply, bound_enter h]
    simp only [reduceCtorEq, false_and, false_or]
    exact ⟨hkept (Nat.le_succ _), And.left⟩
  | leave =>
    simp only [reduceCtorEq, false_and, false_or]
    exact bound_leave_eq_some h
  | declare k' n b =>
    rw [Operation.apply]
    cases hacc : (s.declare k' n b).1 with
    | false =>
      rw [declare_refused hacc]
      constructor
      · exact fun hb => .inr (hkept (Nat.le_refl _) hb)
      · rintro (⟨hop, hacc', -⟩ | hb)
        · cases hop
          cases hacc.symm.trans hacc'
        · exact hb.1
    | true =>
      rw [bound_declare_eq_some h hacc]
      constructor
      · rintro (⟨hop, rfl⟩ | hb)
        · cases hop
          exact .inl ⟨rfl, hacc, rfl⟩
        · exact .inr (hkept (Nat.le_refl _) hb)
      · rintro (⟨hop, -, rfl⟩ | hb)
        · exact .inl ⟨hop, rfl⟩
        · exact .inr hb.1
  | find | findInnermost | findInFile =>
    simp only [reduceCtorEq, false_and, false_or]
    exact ⟨hkept (Nat.le_refl _), And.left⟩

variable {ops before after : List Operation} {op : Operation} {a : k.Value}

/-- A declaration stands as long as its scope is open. -/
theorem Stands.append (h : Stands ops k name a before after)
    (hop : openScopes before ≤ openScopes (ops ++ [op])) :
    Stands (ops ++ [op]) k name a before (after ++ [op]) where
  split := by rw [h.split, List.append_assoc, List.cons_append]
  accepted := h.accepted
  isOpen next hnext := by
    rcases List.prefix_concat_iff.mp hnext with rfl | hnext
    · rwa [h.split, List.append_assoc, List.cons_append] at hop
    · exact h.isOpen next hnext

/-- A declaration that is accepted stands. -/
theorem stands_last (h : ((behind ops).declare k name a).1 = true) :
    Stands (ops ++ [.declare k name a]) k name a ops [] where
  split := rfl
  accepted := h
  isOpen next hnext := by
    rw [List.prefix_nil.mp hnext, openScopes_append]
    exact Nat.le_refl _

/-- What stands behind one more operation is that operation itself, or has stood before it and is
still in an open scope. -/
theorem Stands.of_append (h : Stands (ops ++ [op]) k name a before after) :
    before = ops ∧ op = .declare k name a ∨
      (∃ after', Stands ops k name a before after') ∧
        openScopes before ≤ openScopes (ops ++ [op]) := by
  have hopen := h.isOpen after List.prefix_rfl
  rw [← h.split] at hopen
  rcases List.eq_nil_or_concat after with rfl | ⟨rest, last, rfl⟩
  · obtain ⟨rfl, hop⟩ := List.append_inj' h.split rfl
    exact .inl ⟨rfl, (List.cons.inj hop).1⟩
  · have hsplit : ops ++ [op] = (before ++ .declare k name a :: rest) ++ [last] := by
      rw [h.split, List.concat_eq_append, List.append_assoc, List.cons_append]
    refine .inr ⟨⟨rest, (List.append_inj' hsplit rfl).1, h.accepted, fun next hnext => ?_⟩, hopen⟩
    exact h.isOpen next (hnext.trans ⟨[last], (List.concat_eq_append).symm⟩)

/-- What the scopes bind is what has been declared and stands. -/
theorem bound_behind (ops : List Operation) {k : NameKind} {i : Nat} {name : String} {a : k.Value} :
    (behind ops).bound k i name = some a ↔
      ∃ before after, Stands ops k name a before after ∧ openScopes before = i := by
  induction ops using List.reverseRecOn generalizing a with
  | nil =>
    constructor
    · intro h
      cases i <;> cases k <;> cases h
    · rintro ⟨before, after, h, -⟩
      exact absurd h.split.symm (by simp)
  | append_singleton ops op ih =>
    rw [behind_append, bound_apply (inStep_behind ops), ← openScopes_append]
    constructor
    · rintro (⟨rfl, haccepted, rfl⟩ | ⟨hbound, hle⟩)
      · exact ⟨ops, [], stands_last haccepted, rfl⟩
      · obtain ⟨before, after, h, rfl⟩ := ih.mp hbound
        exact ⟨before, after ++ [op], h.append hle, rfl⟩
    · rintro ⟨before, after, h, rfl⟩
      rcases h.of_append with ⟨rfl, hop⟩ | ⟨⟨after', h'⟩, hle⟩
      · exact .inl ⟨hop, h.accepted, rfl⟩
      · exact .inr ⟨ih.mpr ⟨before, after', h', rfl⟩, hle⟩

/-- In a scope that is open, a name has one declaration that was accepted. -/
theorem Stands.unique {b : k.Value} {before' after' : List Operation}
    (h : Stands ops k name a before after) (h' : Stands ops k name b before' after')
    (hlevel : openScopes before = openScopes before') : before = before' := by
  -- The later of the two was refused, as the earlier one stood when it was made.
  have hlater {a b : k.Value} {before after before' after' : List Operation}
      (h : Stands ops k name a before after) (h' : Stands ops k name b before' after')
      (hlevel : openScopes before = openScopes before') : ¬before.length < before'.length := by
    intro hlt
    have hsplit := h.split.symm.trans h'.split
    obtain ⟨mid, hmid, hafter⟩ : ∃ mid, before' = before ++ .declare k name a :: mid ∧
        mid <+: after := by
      rcases List.append_eq_append_iff.mp hsplit with ⟨mid, rfl, hmid⟩ | ⟨mid, rfl, -⟩
      · cases mid with
        | nil => simp at hlt
        | cons c mid =>
          obtain ⟨rfl, rfl⟩ := List.cons.inj hmid
          exact ⟨mid, rfl, ⟨_, rfl⟩⟩
      · rw [List.length_append] at hlt
        omega
    have hstood : Stands before' k name a before mid :=
      ⟨hmid, h.accepted, fun next hnext => h.isOpen next (hnext.trans hafter)⟩
    have hbound := (bound_behind before').mpr ⟨before, mid, hstood, hlevel⟩
    have hnone := (declare_accepted (inStep_behind before')).mp h'.accepted
    rw [bound_innermost (inStep_behind before'), hnone] at hbound
    cases hbound
  have hlength : before.length = before'.length :=
    Nat.le_antisymm (Nat.le_of_not_lt (hlater h' h hlevel.symm))
      (Nat.le_of_not_lt (hlater h h' hlevel))
  exact (List.append_inj (h.split.symm.trans h'.split) hlength).1

/-- Of several answers along a list, the search from its end gives the last. -/
theorem findSome?_reverse_eq_some {α β : Type} {f : α → Option β} {l : List α} {b : β} :
    l.reverse.findSome? f = some b ↔
      ∃ i : Nat, l[i]?.bind f = some b ∧ ∀ j, i < j → l[j]?.bind f = none := by
  rw [List.findSome?_eq_some_iff]
  constructor
  · rintro ⟨back, x, front, hsplit, hx, hnone⟩
    obtain rfl : l = front.reverse ++ x :: back.reverse := by
      rw [← List.reverse_reverse l, hsplit]
      simp
    refine ⟨front.length, by simp [hx], fun j hj => Option.bind_eq_none_iff.mpr fun y hy => ?_⟩
    rw [List.getElem?_append_right (by rw [List.length_reverse]; omega), List.length_reverse,
      List.getElem?_cons, if_neg (by omega)] at hy
    exact hnone y (List.mem_reverse.mp (List.mem_of_getElem? hy))
  · rintro ⟨i, hi, hnone⟩
    obtain ⟨x, hx, hb⟩ := Option.bind_eq_some_iff.mp hi
    obtain ⟨hlt, rfl⟩ := List.getElem?_eq_some_iff.mp hx
    refine ⟨(l.drop (i + 1)).reverse, l[i], (l.take i).reverse, ?_, hb, fun y hy => ?_⟩
    · conv_lhs => rw [← List.take_append_drop i l, List.drop_eq_getElem_cons hlt]
      simp
    · obtain ⟨j, hj⟩ := List.mem_iff_getElem?.mp (List.mem_reverse.mp hy)
      rw [List.getElem?_drop] at hj
      have hnot := hnone (i + 1 + j) (by omega)
      rwa [hj] at hnot

/-- A look-up finds what the innermost scope binds that binds the name. -/
theorem find?_eq_some {a : k.Value} : s.find? k name = some a ↔
    ∃ i, s.bound k i name = some a ∧ ∀ j, i < j → s.bound k j name = none := by
  have hfind : s.find? k name = (s.chain k).reverse.reverse.findSome? (·.lookup name) := by
    rw [List.reverse_reverse]
    cases k <;> rfl
  rw [hfind]
  exact findSome?_reverse_eq_some

/-- A look-up finds the declaration that stands in the innermost scope. -/
theorem find?_behind (ops : List Operation) {k : NameKind} {name : String} {a : k.Value} :
    (behind ops).find? k name = some a ↔ ∃ before after, Stands ops k name a before after ∧
      ∀ b before' after', Stands ops k name b before' after' →
        openScopes before' ≤ openScopes before := by
  rw [find?_eq_some]
  constructor
  · rintro ⟨i, hi, hnone⟩
    obtain ⟨before, after, h, rfl⟩ := (bound_behind ops).mp hi
    refine ⟨before, after, h, fun b before' after' h' => ?_⟩
    by_contra hlt
    have hbound := (bound_behind ops).mpr ⟨before', after', h', rfl⟩
    rw [hnone _ (Nat.lt_of_not_le hlt)] at hbound
    cases hbound
  · rintro ⟨before, after, h, hmax⟩
    refine ⟨openScopes before, (bound_behind ops).mpr ⟨before, after, h, rfl⟩, fun j hj => ?_⟩
    by_contra hne
    obtain ⟨b, hb⟩ := Option.ne_none_iff_exists'.mp hne
    obtain ⟨before', after', h', rfl⟩ := (bound_behind ops).mp hb
    exact Nat.not_le_of_lt hj (hmax b before' after' h')

def Above (s : Scopes) (n : Nat) (t : Scopes) : Prop :=
  ∀ k, ∃ top : Chain k.Value, top.length = n ∧ t.chain k = top ++ s.chain k

theorem Above.inStep {t : Scopes} {n : Nat} (hs : s.InStep d) (h : s.Above n t) :
    t.InStep (n + d) := by
  intro k
  obtain ⟨top, rfl, ht⟩ := h k
  rw [ht, List.length_append, hs k, Nat.add_assoc]

/-- As long as there are scopes inside of those of `s`, an operation does not reach the latter. -/
theorem Above.apply {t : Scopes} {n : Nat} (hs : s.InStep d) (h : s.Above (n + 1) t)
    (op : Operation) : s.Above (op.count (n + 1)) (op.apply t) := by
  have hstep := h.inStep hs
  intro k
  obtain ⟨top, htop, ht⟩ := h k
  cases op with
  | enter =>
    refine ⟨[] :: top, congrArg (· + 1) htop, ?_⟩
    rw [Operation.apply, chain_enter, ht, List.cons_append]
  | leave =>
    obtain ⟨link, top, rfl⟩ := List.exists_cons_of_length_eq_add_one htop
    refine ⟨top, Nat.succ.inj htop, ?_⟩
    rw [Operation.apply, chain_leave hstep, if_neg (by omega), ht, List.cons_append,
      List.tail_cons]
  | declare k' name a =>
    rw [Operation.apply]
    by_cases hk : k = k'
    · subst hk
      obtain ⟨link, top, rfl⟩ := List.exists_cons_of_length_eq_add_one htop
      rw [chain_declare, ht, List.cons_append, Chain.declare]
      split
      · exact ⟨link :: top, htop, rfl⟩
      · exact ⟨((name, a) :: link) :: top, htop, rfl⟩
    · exact ⟨top, htop, (chain_declare_of_ne t name a hk).trans ht⟩
  | find | findInnermost | findInFile => exact ⟨top, htop, ht⟩

/-- Operations that leave no more scopes than they enter do not touch the scopes around them. -/
theorem Above.run {t : Scopes} {n : Nat} {inside : List Operation} (hs : s.InStep d)
    (h : s.Above (n + 1) t)
    (hinside : ∀ before, before <+: inside →
      before.countP Operation.isLeave ≤ before.countP Operation.isEnter + n) :
    s.Above (n + 1 + inside.countP Operation.isEnter - inside.countP Operation.isLeave)
      (inside.foldl Operation.apply t) := by
  induction inside generalizing n t with
  | nil => exact h
  | cons op inside ih =>
    have hop := hinside [op] ⟨inside, rfl⟩
    have hrest (before : List Operation) (hbefore : before <+: inside) :=
      hinside (op :: before) (List.cons_prefix_cons.mpr ⟨rfl, hbefore⟩)
    simp only [List.countP_cons, List.countP_nil] at hop hrest ⊢
    have hcount := op.count_succ n
    -- There is a scope above those of `s` behind the operation too.
    obtain ⟨m, hm⟩ : ∃ m, op.count (n + 1) = m + 1 := ⟨op.count (n + 1) - 1, by omega⟩
    have hrun := ih (hm ▸ h.apply hs op) fun before hbefore => by
      have hle := hrest before hbefore
      omega
    have hsum : m + 1 + inside.countP Operation.isEnter - inside.countP Operation.isLeave =
        n + 1 + (inside.countP Operation.isEnter + if op.isEnter then 1 else 0) -
          (inside.countP Operation.isLeave + if op.isLeave then 1 else 0) := by omega
    rw [← hsum]
    exact hrun

/-- What happens between the entering and the leaving of a scope is undone. -/
theorem foldl_balanced (hs : s.InStep d) {inside : List Operation} (h : Balanced inside) :
    (Operation.enter :: inside ++ [Operation.leave]).foldl Operation.apply s = s := by
  have hentered : s.Above (0 + 1) s.enter := fun k => ⟨[[]], rfl, chain_enter s k⟩
  have hrun := hentered.run hs fun before hbefore => h.1 before hbefore
  rw [h.2, Nat.add_sub_cancel] at hrun
  simp only [List.cons_append, List.foldl_cons, List.foldl_append, List.foldl_nil]
  refine eq_of_chains fun k => ?_
  obtain ⟨top, htop, hchain⟩ := hrun.apply hs .leave k
  rw [List.length_eq_zero_iff.mp htop, List.nil_append] at hchain
  exact hchain

/-- Scopes nest. Behind any sequence of operations both chains have a link for the file scope and
one for each scope that has been left open; to leave the file scope has no effect; a scope that is
entered and left again leaves no trace in either chain; a look-up finds the one declaration that
stands in the innermost scope which has one; and a declaration is accepted exactly if the
innermost scope does not bind the name, and has no effect otherwise. -/
theorem behind_nests (ops : List Operation) :
    ((behind ops).vars.length = openScopes ops + 1 ∧
      (behind ops).tags.length = openScopes ops + 1) ∧
    (openScopes ops = 0 → (behind ops).leave = behind ops) ∧
    (∀ inside, Balanced inside → behind (ops ++ (.enter :: inside ++ [.leave])) = behind ops) ∧
    ∀ (k : NameKind) (name : String),
      (∀ a, (behind ops).find? k name = some a ↔ ∃ before after, Stands ops k name a before after ∧
        ∀ b before' after', Stands ops k name b before' after' →
          openScopes before' ≤ openScopes before) ∧
      (∀ a b before after before' after', Stands ops k name a before after →
        Stands ops k name b before' after' → openScopes before = openScopes before' →
        before = before') ∧
      ∀ a, (((behind ops).declare k name a).1 = true ↔
          ((behind ops).chain k).innermost? name = none) ∧
        (((behind ops).declare k name a).1 = false →
          ((behind ops).declare k name a).2 = behind ops) := by
  have hstep := inStep_behind ops
  refine ⟨⟨hstep .vars, hstep .tags⟩, fun hfile => ?_, fun inside h => ?_,
    fun k name => ⟨?_, ?_, ?_⟩⟩
  · rw [hfile] at hstep
    exact leave_of_zero hstep
  · rw [behind, List.foldl_append]
    exact foldl_balanced hstep h
  · exact fun a => find?_behind ops
  · exact fun a b before after before' after' h h' => h.unique h'
  · exact fun a => ⟨declare_accepted hstep, declare_refused⟩

/-- The file scope is not left; `x` is declared three times as a variable, at last in vain, and once
as a tag. -/
def shadowing : List Operation :=
  [.leave, .declare .vars "x" (0 : VarId), .enter, .declare .vars "x" (1 : VarId),
    .declare .vars "x" (2 : VarId), .declare .tags "x" CType.int, .enter]

def nested : List Operation :=
  [.declare .vars "x" (3 : VarId), .enter, .declare .tags "x" CType.char, .find .tags "x", .leave,
    .declare .tags "x" CType.long]

/-- A scope inside of the last one leaves no trace, `x` is the variable of the innermost scope that
has one, and this scope refuses a second one. -/
theorem behind_nests_shadowing :
    (openScopes [.leave] = 0 ∧ (behind [.leave]).leave = behind [.leave]) ∧
    (Balanced nested ∧
      behind (shadowing ++ (.enter :: nested ++ [.leave])) = behind shadowing) ∧
    ((behind shadowing).find? .vars "x" = some (1 : VarId) ∧
      ∃ before after, Stands shadowing .vars "x" (1 : VarId) before after) ∧
    ((behind (shadowing ++ [.leave])).declare .vars "x" (4 : VarId)).1 = false ∧
    ((behind (shadowing ++ [.leave])).declare .vars "x" (4 : VarId)).2 =
      behind (shadowing ++ [.leave]) := by
  have hnested : Balanced nested := by
    refine ⟨fun before h => ?_, rfl⟩
    have hall : ∀ before ∈ nested.inits,
        before.countP Operation.isLeave ≤ before.countP Operation.isEnter := by decide
    exact hall before ((List.mem_inits before nested).mpr h)
  have hfind : (behind shadowing).find? .vars "x" = some (1 : VarId) := rfl
  have hrefused : ((behind (shadowing ++ [.leave])).declare .vars "x" (4 : VarId)).1 = false := rfl
  obtain ⟨-, -, hinside, hnames⟩ := behind_nests shadowing
  obtain ⟨before, after, hstands, -⟩ := ((hnames .vars "x").1 (1 : VarId)).mp hfind
  refine ⟨⟨rfl, (behind_nests [.leave]).2.1 rfl⟩, ⟨hnested, hinside nested hnested⟩,
    ⟨hfind, before, after, hstands⟩, hrefused, ?_⟩
  exact (((behind_nests (shadowing ++ [.leave])).2.2.2 .vars "x").2.2 (4 : VarId)).2 hrefused

end Scopes

end StackC
