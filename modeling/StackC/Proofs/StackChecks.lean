import StackC.Proofs.Emission.Functions
import StackC.Proofs.Emission.Generator

/-!
The checks of the operand stack. Whatever tree it is given, a generator never takes a slot that
was in use when it began, and leaves the loops around it as they were; so the checks that it makes
of its own work cannot fail.
-/

namespace StackC

def EmissionFault.isStackCheck : EmissionFault → Bool
  | stackUnderflow | stackImbalance .. | shallowJump .. => true
  | _ => false

namespace Emission

open Assembly

def Action.isExit : Action → Bool
  | leaveLoop => true
  | _ => false

def exits (as : List Action) : Nat := as.countP Action.isExit

/-- What is to be kept by actions: the slots up to the floor are not touched, and `last` slots are
in use at the end. The loops around the first action may lie deeper than the floor. -/
structure Shelter where
  floor : Nat
  last : Nat
  deep : Prop

/-- `StaysAbove b ds d as`: begun with `d` slots in use, inside of further loops that were entered
with `ds` slots, innermost first, the actions take no slot from below the innermost of these loops,
or from below the floor outside of them all. Behind a fault all that counts is that the loops are
left. -/
inductive StaysAbove (b : Shelter) : List Nat → Nat → List Action → Prop where
  | done : StaysAbove b [] b.last []
  | emit {ds d t as} (h : StaysAbove b ds (d + t.slots) as) : StaysAbove b ds d (.emit t :: as)
  | push {ds d r as} (h : StaysAbove b ds (d + 1) as) : StaysAbove b ds d (.push r :: as)
  | pop {ds d r as} (hd : ds.headD b.floor ≤ d) (h : StaysAbove b ds d as) :
      StaysAbove b ds (d + 1) (.pop r :: as)
  | put {ds d ls as} (h : StaysAbove b ds d as) : StaysAbove b ds d (.put ls :: as)
  | number {ds d as} (h : StaysAbove b ds d as) : StaysAbove b ds d (.number :: as)
  | call {ds d name count as} (h : StaysAbove b ds d as) : StaysAbove b ds d
    (.call name count :: as)
  | jumpOut {ds d target depth as} (hd : depth ≤ d ∨ b.deep) (h : StaysAbove b ds d as) :
      StaysAbove b ds d (.jumpOut target depth :: as)
  | loopBody {ds d n x as} (h : StaysAbove b ds d as) : StaysAbove b ds d (.loopBody n x :: as)
  | leaveLoop {e ds d as} (hd : ds.headD b.floor ≤ d) (h : StaysAbove b ds d as) :
      StaysAbove b (e :: ds) d (.leaveLoop :: as)
  | check {ds d p as} (h : StaysAbove b ds d as) : StaysAbove b ds d (.check p d :: as)
  | fail {ds d e as} (he : e.isStackCheck = false) (h : exits as = ds.length) :
      StaysAbove b ds d (.fail e :: as)

namespace StaysAbove

variable {b : Shelter} {ds : List Nat} {d d' : Nat} {as : List Action}

/-- Actions leave all loops that were entered on the way to them, and no others. -/
theorem exits_eq (h : StaysAbove b ds d as) : exits as = ds.length := by
  induction h with
  | done => rfl
  | leaveLoop hd h ih => exact (List.countP_cons_of_pos rfl).trans (congrArg (· + 1) ih)
  | fail he h => simpa [exits, Action.isExit] using h
  | emit h ih | push h ih | put h ih | number h ih | call h ih | loopBody h ih | check h ih =>
    simpa [exits, Action.isExit] using ih
  | pop hd h ih | jumpOut hd h ih => simpa [exits, Action.isExit] using ih

/-- Behind a fault that is not one of the stack nothing is taken. -/
theorem refuse {e : EmissionFault} (h : StaysAbove b ds d' as) (he : e.isStackCheck = false) :
    StaysAbove b ds d (.fail e :: as) := .fail he h.exits_eq

/-- Leaving the address of a variable takes a new slot. -/
theorem locate (c : Context) (id : VarId) (h : StaysAbove b ds (d + 1) as) :
    StaysAbove b ds d (locateActions c id ++ as) := by
  unfold locateActions
  split
  · exact h.refuse rfl
  · split
    · split
      · exact h.refuse rfl
      · exact .put (.push h)
    · exact .put (.push h)

theorem typed {x : Node} {ts : CType → List Action} (h : StaysAbove b ds d' as)
    (hts : ∀ t, StaysAbove b ds d (ts t ++ as)) : StaysAbove b ds d (typedActions x ts ++ as) := by
  unfold typedActions
  split
  · exact h.refuse rfl
  · exact hts _

theorem member (m : Member CType) (hd : ds.headD b.floor ≤ d) (h : StaysAbove b ds (d + 1) as) :
    StaysAbove b ds (d + 1) (memberActions m ++ as) := .pop hd (.put (.push h))

/-- Loading takes the slot of the address and gives it back. -/
theorem load (x : Node) (hd : ds.headD b.floor ≤ d) (h : StaysAbove b ds (d + 1) as) :
    StaysAbove b ds (d + 1) (typedActions x loadActions ++ as) := by
  refine h.typed fun t => ?_
  unfold loadActions
  split
  · exact h
  · split
    · exact h.refuse rfl
    · exact .pop hd (.put (.push h))

/-- Storing takes the slots of the value and of its address. -/
theorem store (x : Node) (hd : ds.headD b.floor ≤ d) (h : StaysAbove b ds (d + 1) as) :
    StaysAbove b ds (d + 2) (typedActions x storeActions ++ as) := by
  refine h.typed fun t => ?_
  unfold storeActions
  split
  · exact h.refuse rfl
  · exact .pop (Nat.le_succ_of_le hd) (.pop hd (.put (.push h)))

theorem test {cond : Cond} {target : Label} (hd : ds.headD b.floor ≤ d) (h : StaysAbove b ds d as) :
    StaysAbove b ds (d + 1) (testActions cond target ++ as) := .pop hd (.put h)

/-- As many values as registers are taken. -/
theorem pops (rs : List Reg) (hd : ds.headD b.floor ≤ d) (h : StaysAbove b ds d as) :
    StaysAbove b ds (d + rs.length) (rs.map .pop ++ as) := by
  induction rs with
  | nil => exact h
  | cons r rs ih => exact .pop (Nat.le_trans hd (Nat.le_add_right d _)) ih

/-- A call takes the slots of its arguments. -/
theorem callResult {name : String} {count : Nat} {t : CType} (hc : count ≤ argumentRegs.length)
    (hd : ds.headD b.floor ≤ d) (h : StaysAbove b ds (d + 1) as) :
    StaysAbove b ds (d + count) (callActions name count t ++ as) := by
  have hlength : ((argumentRegs.take count).reverse).length = count := by
    rw [List.length_reverse, List.length_take, Nat.min_eq_left hc]
  -- The arguments are taken from the last to the first, down to where the call began.
  have hpops := pops (argumentRegs.take count).reverse hd
    (StaysAbove.call (.put (.push h)) : StaysAbove b ds d
      (.call name count :: .put (extendResult t).lines :: .push .rax :: as))
  rw [hlength] at hpops
  simpa [callActions] using hpops

/-- An expression takes none of the slots before it and leaves its own. -/
theorem value (c : Context) (n : Nat) (x : Node) (hd : ds.headD b.floor ≤ d)
    (h : StaysAbove b ds (d + 1) as) : StaysAbove b ds d (valueActions c n x ++ as) := by
  cases x with
  | num i v => exact .put (.push h)
  | var i id =>
    rw [valueActions, List.append_assoc]
    exact locate c id (load _ hd h)
  | deref i e => exact .emit (load _ hd h)
  | member i e name m =>
    cases m with
    | none => exact h.refuse rfl
    | some m =>
      rw [valueActions, List.cons_append, List.append_assoc]
      exact .emit (member m hd (load _ hd h))
  | addr i e => exact .emit h
  | assign i l r => exact .emit (.emit (store l hd h))
  | binary i op l r =>
    simp only [valueActions]
    split
    · exact .number (.emit (test hd (.emit (test hd (.put (.push h))))))
    · exact .emit (.emit (.pop (Nat.le_succ_of_le hd) (.pop hd (.put (.push h)))))
  | not i e => exact .emit (.pop hd (.put (.push h)))
  | ternary i e x y =>
    exact .number (.emit (test hd (.emit (.pop hd (.put (.emit (.pop hd (.put (.push h)))))))))
  | call i name args =>
    refine h.typed fun t => ?_
    split
    · exact h.refuse rfl
    · next hn => exact .emit (callResult (Nat.le_of_not_lt hn) hd h)
  | stmtExpr i items => exact .emit h
  | sizeof | exprStmt | ret | block | ifElse | whileLoop | forLoop | breakLoop | continueLoop
  | empty => exact h.refuse rfl

theorem address (c : Context) (x : Node) (hd : ds.headD b.floor ≤ d)
    (h : StaysAbove b ds (d + 1) as) : StaysAbove b ds d (addressActions c x ++ as) := by
  cases x with
  | var i id => exact locate c id h
  | deref i e => exact .emit h
  | member i e name m =>
    cases m with
    | none => exact h.refuse rfl
    | some m => exact .emit (member m hd h)
  | num | binary | not | assign | ternary | addr | sizeof | call | stmtExpr | exprStmt | ret
  | block | ifElse | whileLoop | forLoop | breakLoop | continueLoop | empty => exact h.refuse rfl

/-- The last of the items leaves a value, the others leave nothing. -/
theorem items (xs : List Node) (h : StaysAbove b ds (d + 1) as) :
    StaysAbove b ds d (itemsActions xs ++ as) := by
  cases xs with
  | nil => exact h.refuse rfl
  | cons x xs =>
    cases xs with
    | nil =>
      cases x with
      | exprStmt i e => exact .emit h
      | num | var | member | binary | not | assign | ternary | addr | deref | sizeof | call
      | stmtExpr | ret | block | ifElse | whileLoop | forLoop | breakLoop | continueLoop
      | empty => exact h.refuse rfl
    | cons y ys =>
      simp only [itemsActions]
      exact .emit (.emit h)

/-- A statement takes none of the slots before it and leaves none, where the innermost loop does not
lie deeper. -/
theorem body (c : Context) (n : Nat) (x : Node) (hd : ds.headD b.floor ≤ d)
    (hloop : ∀ t ∈ c.loops.head?, t.depth ≤ d ∨ b.deep) (h : StaysAbove b ds d as) :
    StaysAbove b ds d (bodyActions c n x ++ as) := by
  cases x with
  | exprStmt i e => exact .emit (.pop hd h)
  | ret i e =>
    cases e with
    | none => exact .put h
    | some e => exact .emit (.pop hd (.put h))
  | block i items => exact .emit h
  | ifElse i e x y => exact .number (.emit (test hd (.emit (.put (.emit (.put h))))))
  | whileLoop i e x => exact .number (.put (.emit (test hd (.loopBody (.put h)))))
  | forLoop i init e update x =>
    exact .number (.emit (.put (.emit (test hd (.loopBody (.put (.emit (.put h))))))))
  | breakLoop i | continueLoop i =>
    simp only [bodyActions, jumpActions]
    cases hc : c.loops with
    | nil => exact h.refuse rfl
    | cons t ts =>
      rw [hc] at hloop
      exact .jumpOut (hloop t rfl) h
  | empty i => exact h
  | num | var | member | binary | not | assign | ternary | addr | deref | sizeof | call
  | stmtExpr => exact h.refuse rfl

/-- The actions of every task stay above the slots that were in use when it began. -/
theorem actions (c : Context) (k : Counters) (t : Task) (hd : ds.headD b.floor ≤ k.depth)
    (hloop : ∀ t ∈ c.loops.head?, t.depth ≤ k.depth ∨ b.deep)
    (h : StaysAbove b ds (k.depth + t.slots) as) :
    StaysAbove b ds k.depth (t.actions c k ++ as) := by
  cases t with
  | value x => exact value c _ x hd h
  | address x => exact address c x hd h
  | arguments xs =>
    cases xs with
    | nil => exact h
    | cons x xs =>
      -- The slots of the other arguments lie above that of the first.
      have hslots : k.depth + (Task.arguments (x :: xs)).slots =
          k.depth + (Task.value x).slots + (Task.arguments xs).slots := by
        simp only [Task.slots, List.length_cons]
        omega
      rw [hslots] at h
      exact .emit (.emit h)
  | statementValue xs => exact items xs h
  | statement x =>
    rw [Task.actions, List.append_assoc]
    exact body c _ x hd hloop (.check h)
  | statements xs =>
    cases xs with
    | nil => exact h
    | cons x xs => exact .emit (.emit h)
  | optional x =>
    cases x with
    | none => exact h
    | some x => exact .emit h

end StaysAbove

namespace Generator

variable (g : Generator)

def Deep : Prop := ∃ t ∈ g.context.loops.head?, g.depth < t.depth

def shelter (slots : Nat) : Shelter := ⟨g.depth, g.depth + slots, g.Deep⟩

/-- What holds all along the work that the generator begins: apart from loops that have been entered
since, the place is the same, and no slot has been taken that was in use. The actions ahead go on
like this. A fault is not one of the stack, unless the loops around the first place were deeper to
begin with. -/
structure Keeps (slots : Nat) (w : Work) (entered : List Targets) : Prop where
  context : w.generator.context = { g.context with loops := entered ++ g.context.loops }
  floor : ∀ t ∈ entered, g.depth ≤ t.depth
  depth : g.depth ≤ w.generator.depth
  above : w.fault = none → (entered.map Targets.depth).headD g.depth ≤ w.generator.depth
  ahead : w.fault = none →
    StaysAbove (g.shelter slots) (entered.map Targets.depth) w.generator.depth w.pending
  exits : ∀ e, w.fault = some e → exits w.pending = entered.length
  fault : ∀ e, w.fault = some e → e.isStackCheck = true → g.Deep ∧ ∃ target, e = .shallowJump target

variable {g} {slots : Nat} {w w' : Work} {entered : List Targets}

/-- The promise holds before the first step. -/
theorem keeps_start (t : Task) : g.Keeps t.slots (t.start g) [] where
  context := rfl
  floor u hu := absurd hu List.not_mem_nil
  depth := Nat.le_refl _
  above _ := Nat.le_refl _
  ahead _ := .emit .done
  exits _ he := by cases he
  fault _ he := by cases he

namespace Keeps

variable {x x' : Generator} {e : EmissionFault} {as as' : List Action} {ds : List Nat}
  {fault : Option EmissionFault}

/-- The innermost loop is one that has been entered since, or was there to begin with. -/
theorem innermost (h : g.Keeps slots ⟨x, none, as⟩ entered) :
    ∀ t ∈ x.context.loops.head?, t.depth ≤ x.depth ∨ g.Deep := by
  intro t ht
  rw [show x.context = _ from h.context] at ht
  cases entered with
  | cons u us =>
    cases ht
    exact .inl (h.above rfl)
  | nil =>
    rcases Nat.lt_or_ge g.depth t.depth with hlt | hge
    · exact .inr ⟨t, ht, hlt⟩
    · exact .inl (Nat.le_trans hge h.depth)

/-- Above the loops that have been entered is above the floor. -/
theorem floor_le (h : g.Keeps slots w entered) {d : Nat}
    (hd : (entered.map Targets.depth).headD g.depth ≤ d) : g.depth ≤ d := by
  cases entered with
  | nil => exact hd
  | cons t ts => exact Nat.le_trans (h.floor t List.mem_cons_self) hd

/-- The step of an action that stays at its place. -/
theorem advance (h : g.Keeps slots ⟨x, none, as⟩ entered) (hds : entered.map Targets.depth = ds)
    (hcontext : x'.context = x.context) (hd : ds.headD g.depth ≤ x'.depth)
    (hahead : StaysAbove (g.shelter slots) ds x'.depth as') :
    g.Keeps slots ⟨x', none, as'⟩ entered where
  context := hcontext.trans h.context
  floor := h.floor
  depth := h.floor_le (hds ▸ hd)
  above _ := hds ▸ hd
  ahead _ := hds ▸ hahead
  exits _ he := by cases he
  fault _ he := by cases he

/-- The step of an action that fails. -/
theorem fails (h : g.Keeps slots ⟨x, none, as⟩ entered) (hds : entered.map Targets.depth = ds)
    (hexits : Emission.exits as' = ds.length)
    (hfault : e.isStackCheck = true → g.Deep ∧ ∃ target, e = .shallowJump target) :
    g.Keeps slots ⟨x, some e, as'⟩ entered where
  context := h.context
  floor := h.floor
  depth := h.depth
  above hnone := by cases hnone
  ahead hnone := by cases hnone
  exits _ _ := by rw [hexits, ← hds, List.length_map]
  fault e' he' := by
    cases he'
    exact hfault

/-- The step into a loop. -/
theorem enters {n : Nat} {y : Node} (h : g.Keeps slots ⟨x, none, as⟩ entered)
    (hds : entered.map Targets.depth = ds) (hd : ds.headD g.depth ≤ x.depth)
    (hahead : StaysAbove (g.shelter slots) ds x.depth as') :
    ∃ entered', g.Keeps slots ⟨x.enterLoop n, none, .emit (.statement y) :: .leaveLoop :: as'⟩
      entered' := by
  refine ⟨⟨.numbered .finish n, .numbered .again n, x.depth⟩ :: entered, ?_, ?_, h.depth,
    fun _ => Nat.le_refl _, ?_, fun _ he => ?_, fun _ he => ?_⟩
  · change x.context.inLoop n x.depth = _
    rw [show x.context = _ from h.context]
    rfl
  · intro t ht
    rcases List.mem_cons.mp ht with rfl | ht
    · exact h.depth
    · exact h.floor t ht
  · subst hds
    exact fun _ => .emit (.leaveLoop hd hahead)
  · cases he
  · cases he

/-- The context behind a loop that has been entered since. -/
theorem context_leaveLoop {t : Targets} (h : g.Keeps slots w (t :: entered)) :
    w.generator.leaveLoop.context = { g.context with loops := entered ++ g.context.loops } := by
  change { w.generator.context with loops := w.generator.context.loops.tail } = _
  rw [h.context]
  rfl

/-- The step out of a loop. -/
theorem leaves {d : Nat} (h : g.Keeps slots ⟨x, none, as⟩ entered)
    (hds : entered.map Targets.depth = d :: ds) (hd : ds.headD g.depth ≤ x.depth)
    (hahead : StaysAbove (g.shelter slots) ds x.depth as') :
    ∃ entered', g.Keeps slots ⟨x.leaveLoop, none, as'⟩ entered' := by
  cases entered with
  | nil => cases hds
  | cons t ts =>
    obtain rfl := (List.cons.inj hds).2
    exact ⟨ts, h.context_leaveLoop, fun u hu => h.floor u (List.mem_cons_of_mem t hu), h.depth,
      fun _ => hd, fun _ => hahead, fun _ he => (by cases he), fun _ he => (by cases he)⟩

/-- Behind a fault, actions are passed over. -/
theorem skips {a : Action} (h : g.Keeps slots ⟨x, some e, a :: as⟩ entered) :
    ∃ entered', g.Keeps slots ⟨a.skip x, some e, as⟩ entered' := by
  have hexits := h.exits e rfl
  cases a with
  | leaveLoop =>
    -- How deep the loop was does not matter any more, only that it is still to be left.
    have hcount : Emission.exits as + 1 = entered.length :=
      (List.countP_cons_of_pos rfl).symm.trans hexits
    cases entered with
    | nil => cases hcount
    | cons t ts =>
      exact ⟨ts, h.context_leaveLoop, fun u hu => h.floor u (List.mem_cons_of_mem t hu), h.depth,
        fun hnone => (by cases hnone), fun hnone => (by cases hnone),
        fun _ _ => Nat.succ.inj hcount, h.fault⟩
  | emit | push | pop | put | number | call | jumpOut | loopBody | check | fail =>
    exact ⟨entered, h.context, h.floor, h.depth, fun hnone => (by cases hnone),
      fun hnone => (by cases hnone), fun _ _ => hexits, h.fault⟩

/-- A step keeps what is to be kept. -/
theorem next (h : g.Keeps slots w entered) (hnext : w.next = some w') :
    ∃ entered', g.Keeps slots w' entered' := by
  obtain ⟨x, fault, pending⟩ := w
  cases pending with
  | nil => cases hnext
  | cons a as =>
    cases fault with
    | some e =>
      cases hnext
      exact h.skips
    | none =>
      have habove := h.above rfl
      have hahead := h.ahead rfl
      rw [Work.next] at hnext
      -- The loops and the slots become variables, so that the cases of the predicate can fix them.
      generalize hds : entered.map Targets.depth = ds at habove hahead
      change ds.headD g.depth ≤ x.depth at habove
      change StaysAbove _ ds x.depth (a :: as) at hahead
      generalize hd : x.depth = d at hahead
      cases hahead with
      | emit hahead =>
        subst hd
        cases hnext
        exact ⟨entered, h.advance hds rfl habove
          (.actions x.context x.counters _ habove h.innermost hahead)⟩
      | push hahead =>
        subst hd
        cases hnext
        exact ⟨entered, h.advance hds rfl (Nat.le_succ_of_le habove) hahead⟩
      | pop hle hahead =>
        rw [Action.act_pop hd] at hnext
        cases hnext
        exact ⟨entered, h.advance hds rfl hle hahead⟩
      | put hahead | number hahead | call hahead =>
        subst hd
        cases hnext
        exact ⟨entered, h.advance hds rfl habove hahead⟩
      | @jumpOut _ _ target depth _ hle hahead =>
        subst hd
        rcases Nat.lt_or_ge x.depth depth with hlt | hge
        · rw [Action.act_jumpOut_of_lt hlt] at hnext
          cases hnext
          -- A loop that has been entered since is not deeper, so this one was there before.
          have hdeep : g.Deep := hle.resolve_left (Nat.not_le_of_lt hlt)
          exact ⟨entered, h.fails hds hahead.exits_eq fun _ => ⟨hdeep, _, rfl⟩⟩
        · rw [Action.act_jumpOut hge] at hnext
          cases hnext
          exact ⟨entered, h.advance hds rfl habove hahead⟩
      | loopBody hahead =>
        subst hd
        cases hnext
        exact h.enters hds habove hahead
      | leaveLoop hle hahead =>
        subst hd
        cases hnext
        exact h.leaves hds hle hahead
      | check hahead =>
        rw [Action.act_check hd] at hnext
        subst hd
        cases hnext
        exact ⟨entered, h.advance hds rfl habove hahead⟩
      | fail he hexits =>
        cases hnext
        exact ⟨entered, h.fails hds hexits fun hcheck => absurd hcheck (by rw [he]; decide)⟩

/-- So does a run. -/
theorem leads (h : g.Keeps slots w entered) (hw : w.Leads w') :
    ∃ entered', g.Keeps slots w' entered' := by
  induction hw with
  | refl => exact ⟨entered, h⟩
  | tail _ hnext ih =>
    obtain ⟨entered', h'⟩ := ih
    exact h'.next hnext

/-- Where nothing is left to do, the loops that were entered have been left. -/
theorem entered_eq_nil (h : g.Keeps slots ⟨x, fault, []⟩ entered) : entered = [] := by
  cases fault with
  | some e => exact List.length_eq_zero_iff.mp (h.exits e rfl).symm
  | none =>
    have hlength := (h.ahead rfl).exits_eq
    rw [List.length_map] at hlength
    exact List.length_eq_zero_iff.mp hlength.symm

/-- Where all is done, the slots are in use that the task is to leave. -/
theorem depth_eq (h : g.Keeps slots ⟨x, none, []⟩ entered) : x.depth = g.depth + slots := by
  have hahead := h.ahead rfl
  change StaysAbove _ _ x.depth [] at hahead
  generalize x.depth = d at hahead
  generalize entered.map Targets.depth = ds at hahead
  cases hahead
  rfl

end Keeps

end Generator

/-- No action takes a label back. -/
theorem Action.labels_le_act {a : Action} {g g' : Generator} {more : List Action}
    (h : a.act g = .ok (g', more)) : g.labels ≤ g'.labels := by
  cases a with
  | pop r =>
    cases hd : g.depth with
    | zero =>
      rw [act, hd] at h
      cases h
    | succ d =>
      rw [act_pop hd] at h
      cases h
      exact Nat.le_refl _
  | number =>
    cases h
    exact Nat.le_succ _
  | jumpOut target depth =>
    rcases Nat.lt_or_ge g.depth depth with hlt | hge
    · rw [act_jumpOut_of_lt hlt] at h
      cases h
    · rw [act_jumpOut hge] at h
      cases h
      exact Nat.le_refl _
  | check p before =>
    by_cases heq : g.depth = before
    · rw [act_check heq] at h
      cases h
      exact Nat.le_refl _
    · rw [act_check_of_ne heq] at h
      cases h
  | fail e => cases h
  | emit | push | put | call | loopBody | leaveLoop =>
    cases h
    exact Nat.le_refl _

namespace Work

variable {w w' : Work}

/-- No step takes a label back. -/
theorem labels_le_next (hnext : w.next = some w') : w.generator.labels ≤ w'.generator.labels := by
  obtain ⟨g, fault, pending⟩ := w
  cases pending with
  | nil => cases hnext
  | cons a as =>
    cases fault with
    | some e =>
      cases hnext
      cases a <;> exact Nat.le_refl _
    | none =>
      rw [next] at hnext
      cases hact : a.act g with
      | error e =>
        rw [hact] at hnext
        cases hnext
        exact Nat.le_refl _
      | ok r =>
        rw [hact] at hnext
        cases hnext
        exact Action.labels_le_act hact

/-- A label that has been given out is never given out again. -/
theorem Leads.labels_le (h : w.Leads w') : w.generator.labels ≤ w'.generator.labels := by
  induction h with
  | refl => exact Nat.le_refl _
  | tail _ hnext ih => exact Nat.le_trans ih (labels_le_next hnext)

end Work

/-- A generator at work on a task that is to leave some slots. The work comes to an end, and each
of its steps is one of the emission: what is still to be done leads to the same result. All along,
the slots that were in use stay in use, the place is the same but for loops that have been entered
since, and no label is taken back. At the end these loops have been left, and a success leaves
just the slots that it is to leave. Only a jump out of a loop that was deeper from the outset is
stopped by a check of the stack. -/
structure Task.Sheltered (t : Task) (slots : Nat) (g : Generator) : Prop where
  ends : ∃ last, (t.start g).Leads last ∧ last.pending = []
  outcome : ∀ w, (t.start g).Leads w → w.outcome = (t.emit g.context g.counters).map g.behind
  depth : ∀ w, (t.start g).Leads w → g.depth ≤ w.generator.depth
  context : ∀ w, (t.start g).Leads w → ∃ entered,
    w.generator.context = { g.context with loops := entered ++ g.context.loops } ∧
      (w.pending = [] → entered = [])
  labels : ∀ w w', (t.start g).Leads w → w.Leads w' → w.generator.labels ≤ w'.generator.labels
  ok : ∀ code k, t.emit g.context g.counters = .ok (code, k) →
    k.depth = g.depth + slots ∧ g.labels ≤ k.labels
  error : ∀ e, t.emit g.context g.counters = .error e → e.isStackCheck = true →
    g.Deep ∧ ∃ target, e = .shallowJump target

/-- Every task leaves alone what was there before it. -/
theorem Task.sheltered (t : Task) (g : Generator) : t.Sheltered t.slots g where
  ends := (t.start g).exists_end
  outcome _ hw := Task.outcome_eq hw
  depth w hw := by
    obtain ⟨entered, h⟩ := (Generator.keeps_start t).leads hw
    exact h.depth
  context w hw := by
    obtain ⟨entered, h⟩ := (Generator.keeps_start t).leads hw
    refine ⟨entered, h.context, fun hpending => ?_⟩
    obtain ⟨x, fault, pending⟩ := w
    obtain rfl : pending = [] := hpending
    exact h.entered_eq_nil
  labels _ _ _ hw' := hw'.labels_le
  ok code k hok := by
    obtain ⟨⟨x, fault, pending⟩, hleads, rfl, hlast, -⟩ := t.exists_end g
    obtain ⟨rfl, rfl⟩ := hlast _ hok
    obtain ⟨entered, h⟩ := (Generator.keeps_start t).leads hleads
    exact ⟨h.depth_eq, hleads.labels_le⟩
  error e he := by
    obtain ⟨last, hleads, -, -, hlast⟩ := t.exists_end g
    obtain ⟨entered, h⟩ := (Generator.keeps_start t).leads hleads
    exact h.fault e (hlast e he)

def PassesChecks {α : Type} (m : Emit α) : Prop := ∀ k e, m k = .error e → e.isStackCheck = false

namespace PassesChecks

variable {α β : Type} {m : Emit α} {f : α → Emit β}

theorem pure (a : α) : PassesChecks (Pure.pure a : Emit α) := by
  intro k e h
  cases h

theorem throw {e : EmissionFault} (he : e.isStackCheck = false) :
    PassesChecks (MonadExcept.throw e : Emit α) := by
  intro k e' h
  cases h
  exact he

theorem bind (hm : PassesChecks m) (hf : ∀ a, PassesChecks (f a)) : PassesChecks (m >>= f) := by
  intro k e h
  change (m k >>= fun r => f r.1 r.2) = .error e at h
  cases hmk : m k with
  | error e' =>
    rw [hmk] at h
    cases h
    exact hm k e hmk
  | ok r =>
    rw [hmk] at h
    exact hf r.1 r.2 e h

theorem var (c : Context) (id : VarId) : PassesChecks (var c id) := by
  unfold Emission.var
  split
  · exact .pure _
  · exact .throw rfl

theorem slot (c : Context) (id : VarId) (v : Var) : PassesChecks (slot c id v) := by
  unfold Emission.slot
  split
  · exact .pure _
  · exact .throw rfl

theorem spill (c : Context) (index : Nat) (id : VarId) : PassesChecks (spill c index id) := by
  refine (var c id).bind fun v => ?_
  split
  · exact .throw rfl
  · exact .throw rfl
  · exact (slot c id v).bind fun k => .pure _

/-- Storing the arguments pushes nothing. -/
theorem spillAll (c : Context) (ids : List VarId) (index : Nat) :
    PassesChecks (spillAll c index ids) := by
  induction ids generalizing index with
  | nil => exact .pure _
  | cons id ids ih =>
    exact (spill c index id).bind fun first => (ih (index + 1)).bind fun rest => .pure _

/-- No loop is deeper than the place outside of all loops. -/
theorem statement {c : Context} (hc : c.loops = []) (x : Node) : PassesChecks (statement c x) := by
  intro k e h
  cases hcheck : e.isStackCheck with
  | false => rfl
  | true =>
    obtain ⟨⟨t, ht, -⟩, -⟩ := ((Task.statement x).sheltered ⟨c, k, []⟩).error e h hcheck
    change t ∈ c.loops.head? at ht
    rw [hc] at ht
    cases ht

/-- The code of a function is stopped by no check of the stack. -/
theorem functionCode (p : Program) (f : Function) (body : Node) :
    PassesChecks (functionCode p f body) := by
  have hmodify : PassesChecks (modify ({ · with depth := 0 }) : Emit PUnit) := by
    intro k e h
    cases h
  exact hmodify.bind fun _ => (spillAll _ f.params 0).bind fun spilled =>
    (statement rfl body).bind fun code => .pure _

/-- Nor is the code of all functions. -/
theorem functionsCode (p : Program) (fs : List Function) : PassesChecks (functionsCode p fs) := by
  induction fs with
  | nil => exact .pure _
  | cons f fs ih =>
    rw [Emission.functionsCode]
    cases f.body with
    | none => exact ih
    | some body =>
      exact (functionCode p f body).bind fun first => ih.bind fun rest => .pure _

end PassesChecks

/-- Expressions and addresses leave one slot and statements none, whatever the tree and the state of
the generator, and the checks of the stack cannot stop the emission of a program. -/
theorem emission_sheltered :
    (∀ (g : Generator) (x : Node), (Task.value x).Sheltered 1 g ∧ (Task.address x).Sheltered 1 g ∧
      (Task.statement x).Sheltered 0 g) ∧
    ∀ (p : Program) (e : EmissionFault), p.emit = .error e → e.isStackCheck = false := by
  refine ⟨fun g x => ⟨(Task.value x).sheltered g, (Task.address x).sheltered g,
    (Task.statement x).sheltered g⟩, fun p e h => ?_⟩
  have hfunctions := PassesChecks.functionsCode p p.functions {} e
  rw [Program.emit] at h
  cases hcode : (functionsCode p p.functions).run {} with
  | error e' =>
    rw [hcode] at h
    cases h
    exact hfunctions hcode
  | ok r =>
    rw [hcode] at h
    cases h

def breakInOperand : Node :=
  .whileLoop {} (.num {} 1)
    (.exprStmt {} (.binary {} .add (.num {} 1)
      (.stmtExpr {} [.breakLoop {}, .exprStmt {} (.num {} 0)])))

def sunkGenerator : Generator :=
  ⟨⟨#[], {}, "f", [⟨.numbered .finish 1, .numbered .again 1, 5⟩]⟩, ⟨3, 4⟩, []⟩

def bareProgram : Program :=
  { functions := [{ (default : Function) with name := "f", body := some (.num {} 1) }] }

/-- A jump out of the loop around the generator is stopped, one out of a loop of its own is not. -/
theorem emission_sheltered_sunk :
    (∃ code k, statement sunkGenerator.context breakInOperand sunkGenerator.counters =
      .ok (code, k) ∧ k.depth = 3 ∧ 4 ≤ k.labels) ∧
    (∃ e, statement sunkGenerator.context (.breakLoop {}) sunkGenerator.counters = .error e ∧
      sunkGenerator.Deep ∧ ∃ target, e = .shallowJump target) ∧
    ∃ e, bareProgram.emit = .error e ∧ e.isStackCheck = false := by
  obtain ⟨htasks, hprograms⟩ := emission_sheltered
  refine ⟨⟨_, _, rfl, ?_⟩, ⟨_, rfl, ?_⟩, ⟨_, rfl, ?_⟩⟩
  · exact (htasks sunkGenerator breakInOperand).2.2.ok _ _ rfl
  · exact (htasks sunkGenerator (.breakLoop {})).2.2.error _ rfl rfl
  · exact hprograms bareProgram _ rfl

end Emission

end StackC
