import StackC.Proofs.Machine.Memory

/-!
A machine that runs lines of assembly. Its state is the general registers, the memory, the operands
of the last comparison and the index of the next line. What a called function does is left to the
surroundings.
-/

namespace StackC

namespace Machine

open Assembly

/-- The state of the machine. Instructions that leave the flags undefined, or set them from
something else than a comparison, leave `compared` empty. -/
structure State where
  regs : Reg → Word
  mem : Memory
  compared : Option (Word × Word)
  pc : Nat

namespace State

def set (st : State) (r : Reg) (v : Word) : State :=
  { st with regs := fun x => if x = r then v else st.regs x }

def setMem (st : State) (m : Memory) : State := { st with mem := m }

def compare (st : State) (c : Option (Word × Word)) : State := { st with compared := c }

def goto (st : State) (i : Nat) : State := { st with pc := i }

def next (st : State) : State := st.goto (st.pc + 1)

variable (st : State) (r x : Reg) (v : Word) (m : Memory) (c : Option (Word × Word)) (i : Nat)

@[simp] theorem regs_set : (st.set r v).regs x = if x = r then v else st.regs x := rfl
@[simp] theorem mem_set : (st.set r v).mem = st.mem := rfl
@[simp] theorem compared_set : (st.set r v).compared = st.compared := rfl
@[simp] theorem pc_set : (st.set r v).pc = st.pc := rfl
@[simp] theorem regs_setMem : (st.setMem m).regs = st.regs := rfl
@[simp] theorem mem_setMem : (st.setMem m).mem = m := rfl
@[simp] theorem compared_setMem : (st.setMem m).compared = st.compared := rfl
@[simp] theorem pc_setMem : (st.setMem m).pc = st.pc := rfl
@[simp] theorem regs_compare : (st.compare c).regs = st.regs := rfl
@[simp] theorem mem_compare : (st.compare c).mem = st.mem := rfl
@[simp] theorem compared_compare : (st.compare c).compared = c := rfl
@[simp] theorem pc_compare : (st.compare c).pc = st.pc := rfl
@[simp] theorem regs_goto : (st.goto i).regs = st.regs := rfl
@[simp] theorem mem_goto : (st.goto i).mem = st.mem := rfl
@[simp] theorem compared_goto : (st.goto i).compared = st.compared := rfl
@[simp] theorem pc_goto : (st.goto i).pc = i := rfl
@[simp] theorem regs_next : st.next.regs = st.regs := rfl
@[simp] theorem mem_next : st.next.mem = st.mem := rfl
@[simp] theorem compared_next : st.next.compared = st.compared := rfl
@[simp] theorem pc_next : st.next.pc = st.pc + 1 := rfl

end State

def holds : Cond → Word → Word → Bool
  | .equal, a, b => a == b
  | .notEqual, a, b => a != b
  | .less, a, b => a.slt b
  | .lessEqual, a, b => a.sle b
  | .greater, a, b => b.slt a
  | .greaterEqual, a, b => b.sle a

/-- A register after a write to its low part. A write of four bytes clears the upper half. -/
def merge (w : Width) (old v : Word) : Word :=
  match w with
  | .quad => v
  | .long => (v.setWidth 32).setWidth 64
  | .word => (old >>> 16) <<< 16 ||| (v.setWidth 16).setWidth 64
  | .byte => (old >>> 8) <<< 8 ||| (v.setWidth 8).setWidth 64

def arith : Arith → Word → Word → Word
  | .add, a, b => a + b
  | .sub, a, b => a - b
  | .imul, a, b => a * b

/-- The quotient and the remainder of a signed division of two words by one. There is none if the
divisor is zero or the quotient does not fit a word. -/
def divide (high low divisor : Word) : Option (Word × Word) :=
  let dividend := (high ++ low).toInt
  let q := dividend.tdiv divisor.toInt
  if divisor = 0 ∨ q ≠ (BitVec.ofInt 64 q).toInt then none
  else some (BitVec.ofInt 64 q, BitVec.ofInt 64 (dividend.tmod divisor.toInt))

def exec (symbol : String → Word) (st : State) : Instr → Option State
  | .movImm n w r => some (st.set r (merge w (st.regs r) n.toBitVec))
  | .movAbs n r => some (st.set r n.toBitVec)
  | .mov src dst => some (st.set dst (st.regs src))
  | .load w base dst => some (st.set dst (st.mem.load w (st.regs base)))
  | .store w src base => some (st.setMem (st.mem.store w (st.regs base) (st.regs src)))
  | .storeFrame w src k =>
    some (st.setMem (st.mem.store w (st.regs .rbp - BitVec.ofNat 64 k) (st.regs src)))
  | .leaFrame k dst => some (st.set dst (st.regs .rbp - BitVec.ofNat 64 k))
  | .leaSymbol name dst => some (st.set dst (symbol name))
  | .push r =>
    some ((st.setMem (st.mem.store .quad (st.regs .rsp - 8) (st.regs r))).set .rsp
      (st.regs .rsp - 8))
  | .pop r => some ((st.set .rsp (st.regs .rsp + 8)).set r (st.mem.load .quad (st.regs .rsp)))
  | .arith op src dst => some ((st.set dst (arith op (st.regs dst) (st.regs src))).compare none)
  | .addImm n r => some ((st.set r (st.regs r + BitVec.ofNat 64 n)).compare none)
  | .subImm n r => some ((st.set r (st.regs r - BitVec.ofNat 64 n)).compare none)
  | .extend w r => some (st.set r (narrow w (st.regs r)))
  | .extendFlag r => some (st.set r (((st.regs r).setWidth 8).setWidth 64))
  | .signIntoRdx => some (st.set .rdx ((st.regs .rax).sshiftRight 63))
  | .divide r => do
    let (q, rest) ← divide (st.regs .rdx) (st.regs .rax) (st.regs r)
    some (((st.set .rax q).set .rdx rest).compare none)
  | .cmp src dst => some (st.compare (some (st.regs dst, st.regs src)))
  | .cmpZero r => some (st.compare (some (st.regs r, 0)))
  | .setFlag c r => do
    let (a, b) ← st.compared
    some (st.set r (merge .byte (st.regs r) (if holds c a b then 1 else 0)))
  | .jump _ | .jumpIf _ _ | .call _ _ | .ret => none

/-- What lies outside of the lines: the addresses of symbols, and what the functions do that are
called, from the state at the call to the state at the return. -/
structure Surroundings where
  symbol : String → Word
  callee : String → State → State → Prop

/-- One step through the lines of a program. A `ret` has no step: it ends the run. -/
inductive Step (w : Surroundings) (prog : List Line) (st : State) : State → Prop where
  | label {l} (h : prog[st.pc]? = some (.label l)) : Step w prog st st.next
  | plain {i st'} (h : prog[st.pc]? = some (.instr i)) (he : exec w.symbol st i = some st') :
      Step w prog st st'.next
  | jump {l j} (h : prog[st.pc]? = some (.instr (.jump l))) (hj : prog[j]? = some (.label l)) :
      Step w prog st (st.goto j)
  | taken {c l a b j} (h : prog[st.pc]? = some (.instr (.jumpIf c l)))
      (hf : st.compared = some (a, b)) (hc : holds c a b = true) (hj : prog[j]? = some (.label l)) :
      Step w prog st (st.goto j)
  | passed {c l a b} (h : prog[st.pc]? = some (.instr (.jumpIf c l)))
      (hf : st.compared = some (a, b)) (hc : holds c a b = false) : Step w prog st st.next
  | call {name count st'} (h : prog[st.pc]? = some (.instr (.call name count)))
    (he : w.callee name st st') : Step w prog st (st'.goto (st.pc + 1))

/-- Whatever the surroundings do, the run goes on until it comes to a state that satisfies `P`. -/
inductive Reaches (w : Surroundings) (prog : List Line) (P : State → Prop) : State → Prop where
  | here {st} (h : P st) : Reaches w prog P st
  | step {st} (hex : ∃ st', Step w prog st st') (hall : ∀ st', Step w prog st st' →
    Reaches w prog P st') : Reaches w prog P st

structure Marks (prog : List Line) (l : Label) (j : Nat) : Prop where
  stands : prog[j]? = some (.label l)
  only : ∀ k, prog[k]? = some (.label l) → k = j

/-- Labels other than names of functions and data stand at one index at most. -/
def Unambiguous (prog : List Line) : Prop :=
  ∀ (l : Label) (i j : Nat), (∀ name, l ≠ .symbol name) → prog[i]? = some (.label l) →
    prog[j]? = some (.label l) → i = j

theorem Unambiguous.marks {prog : List Line} (h : Unambiguous prog) {l : Label} {j : Nat}
    (hj : prog[j]? = some (.label l)) (hl : ∀ name, l ≠ .symbol name) : Marks prog l j :=
  ⟨hj, fun k hk => h l k j hl hk hj⟩

namespace Reaches

variable {w : Surroundings} {prog : List Line} {P Q : State → Prop} {st : State}

theorem trans (h : Reaches w prog P st) (hpq : ∀ st', P st' → Reaches w prog Q st') :
    Reaches w prog Q st := by
  induction h with
  | here h => exact hpq _ h
  | step hex _ ih => exact .step hex ih

theorem mono (h : Reaches w prog P st) (hpq : ∀ st', P st' → Q st') : Reaches w prog Q st :=
  h.trans fun _ hp => .here (hpq _ hp)

theorem label {l : Label} (h : prog[st.pc]? = some (.label l)) (hr : Reaches w prog P st.next) :
    Reaches w prog P st := by
  refine .step ⟨_, .label h⟩ fun st' hs => ?_
  cases hs with
  | label _ => exact hr
  | plain h' _ | jump h' _ | taken h' _ _ _ | passed h' _ _ | call h' _ => cases h.symm.trans h'

/-- An instruction that goes on to the next line has one way to go. -/
theorem plain {i : Instr} {st' : State} (h : prog[st.pc]? = some (.instr i))
    (he : exec w.symbol st i = some st') (hr : Reaches w prog P st'.next) :
    Reaches w prog P st := by
  refine .step ⟨_, .plain h he⟩ fun st'' hs => ?_
  cases hs with
  | label h' => cases h.symm.trans h'
  | plain h' he' =>
    cases h.symm.trans h'
    cases he.symm.trans he'
    exact hr
  | jump h' _ | taken h' _ _ _ | passed h' _ _ | call h' _ =>
    cases h.symm.trans h'
    cases he

/-- A jump leads to the one line with its label. -/
theorem jump {l : Label} {j : Nat} (h : prog[st.pc]? = some (.instr (.jump l)))
    (hj : Marks prog l j) (hr : Reaches w prog P (st.goto j)) : Reaches w prog P st := by
  refine .step ⟨_, .jump h hj.stands⟩ fun st' hs => ?_
  cases hs with
  | jump h' hj' =>
    cases h.symm.trans h'
    cases hj.only _ hj'
    exact hr
  | plain h' he =>
    cases h.symm.trans h'
    cases he
  | label h' | taken h' _ _ _ | passed h' _ _ | call h' _ => cases h.symm.trans h'

/-- A conditional jump goes to its label or on to the next line. -/
theorem jumpIf {c : Cond} {l : Label} {j : Nat} {a b : Word}
    (h : prog[st.pc]? = some (.instr (.jumpIf c l))) (hj : Marks prog l j)
    (hf : st.compared = some (a, b))
    (hr : Reaches w prog P (if holds c a b then st.goto j else st.next)) : Reaches w prog P st := by
  refine .step ?_ fun st' hs => ?_
  · cases hc : holds c a b with
    | true => exact ⟨_, .taken h hf hc hj.stands⟩
    | false => exact ⟨_, .passed h hf hc⟩
  · cases hs with
    | taken h' hf' hc' hj' =>
      cases h.symm.trans h'
      cases hf.symm.trans hf'
      cases hj.only _ hj'
      rwa [hc'] at hr
    | passed h' hf' hc' =>
      cases h.symm.trans h'
      cases hf.symm.trans hf'
      rwa [hc'] at hr
    | plain h' he =>
      cases h.symm.trans h'
      cases he
    | label h' | jump h' _ | call h' _ => cases h.symm.trans h'

/-- A call leads to every state that the function may leave, and there must be one. -/
theorem call {name : String} {count : Nat} (h : prog[st.pc]? = some (.instr (.call name count)))
    (hex : ∃ st', w.callee name st st')
    (hall : ∀ st', w.callee name st st' → Reaches w prog P (st'.goto (st.pc + 1))) :
    Reaches w prog P st := by
  obtain ⟨st₀, h₀⟩ := hex
  refine .step ⟨_, .call h h₀⟩ fun st' hs => ?_
  cases hs with
  | call h' he =>
    cases h.symm.trans h'
    exact hall _ he
  | plain h' he =>
    cases h.symm.trans h'
    cases he
  | label h' | jump h' _ | taken h' _ _ _ | passed h' _ _ => cases h.symm.trans h'

end Reaches

def CodeAt (prog : List Line) (i : Nat) (ls : List Line) : Prop :=
  ∀ k x, ls[k]? = some x → prog[i + k]? = some x

namespace CodeAt

variable {prog : List Line} {i : Nat} {x : Line} {as bs ls : List Line}

theorem head (h : CodeAt prog i (x :: ls)) : prog[i]? = some x := h 0 x rfl

theorem tail (h : CodeAt prog i (x :: ls)) : CodeAt prog (i + 1) ls := by
  intro k y hy
  have hk := h (k + 1) y hy
  rwa [Nat.add_comm k 1, ← Nat.add_assoc] at hk

theorem left (h : CodeAt prog i (as ++ bs)) : CodeAt prog i as := by
  intro k y hy
  have hlt : k < as.length := (List.getElem?_eq_some_iff.mp hy).1
  apply h
  rw [List.getElem?_append_left hlt, hy]

theorem right (h : CodeAt prog i (as ++ bs)) : CodeAt prog (i + as.length) bs := by
  intro k y hy
  have hk := h (as.length + k) y (by rw [List.getElem?_append_right (by omega)]; simpa using hy)
  rwa [← Nat.add_assoc] at hk

/-- Lines stand where they were put. -/
theorem of_append (as ls bs : List Line) : CodeAt (as ++ (ls ++ bs)) as.length ls := by
  intro k y hy
  have hlt : k < ls.length := (List.getElem?_eq_some_iff.mp hy).1
  rw [List.getElem?_append_right (by omega), Nat.add_sub_cancel_left,
    List.getElem?_append_left hlt, hy]

end CodeAt

end Machine

end StackC
