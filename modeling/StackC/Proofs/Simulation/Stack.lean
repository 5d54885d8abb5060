import StackC.Proofs.Emission.Shape
import StackC.Proofs.Machine.Run
import StackC.Proofs.Semantics.Interpreter

namespace StackC

namespace Simulation

open Assembly Machine Semantics

/-- One slot further below an address. -/
theorem sub_slot_succ (a : Word) (n : Nat) :
    a - BitVec.ofNat 64 (8 * n) - 8 = a - BitVec.ofNat 64 (8 * (n + 1)) := by
  rw [Nat.mul_add, BitVec.ofNat_add]
  bv_omega

/-- What stays the same while the code of a function body runs: the program and its surroundings,
the base pointer, and the bytes below `base` that operands may take. -/
structure Setting where
  world : Surroundings
  prog : List Line
  frame : Word
  base : Word
  room : Nat
  room_lt : room < 0x10000000000000000
  unambiguous : Unambiguous prog

namespace Setting

variable (K : Setting)

def below (x : Word) : Nat := (K.base - 1 - x).toNat

def Own (x : Word) : Prop := K.below x < K.room

def slot (n : Nat) : Word := K.base - BitVec.ofNat 64 (8 * n)

def Stacked (m : Memory) : List Word → Prop
  | [] => True
  | v :: stk => m.load .quad (K.slot (stk.length + 1)) = v ∧ Stacked m stk

variable {K} {n k : Nat} {x : Word} {m m' : Memory} {stk : List Word}

theorem slot_zero : K.slot 0 = K.base := BitVec.sub_zero K.base

theorem slot_succ : K.slot n - 8 = K.slot (n + 1) := sub_slot_succ K.base n

theorem slot_pred : K.slot (n + 1) + 8 = K.slot n := by
  rw [← slot_succ, BitVec.sub_add_cancel]

/-- Slots are dropped by adding to the stack pointer. -/
theorem slot_drop (hk : k ≤ n) : K.slot n + BitVec.ofNat 64 (k * 8) = K.slot (n - k) := by
  unfold slot
  have hsplit : BitVec.ofNat 64 (8 * n) =
      BitVec.ofNat 64 (8 * (n - k)) + BitVec.ofNat 64 (k * 8) := by
    rw [← BitVec.ofNat_add]
    congr 1
    omega
  rw [hsplit]
  bv_omega

theorem below_slot (hn : 8 * (n + 1) ≤ K.room) (hk : k < 8) :
    K.below (K.slot (n + 1) + BitVec.ofNat 64 k) = 8 * n + 7 - k := by
  have hr := K.room_lt
  unfold below slot
  bv_omega

/-- A write to a slot leaves the slots before it and all other memory alone. -/
theorem store_slot (hn : 8 * (n + 1) ≤ K.room) (v : Word)
    (hx : K.below x < 8 * n ∨ K.room ≤ K.below x) : m.store .quad (K.slot (n + 1)) v x = m x := by
  apply Memory.store_of_le
  have hr := K.room_lt
  unfold below at hx
  unfold slot
  simp only [Width.bytes]
  bv_omega

/-- Operands depend on the bytes of their slots only. -/
theorem Stacked.congr (h : K.Stacked m stk) (hs : 8 * stk.length ≤ K.room)
    (hm : ∀ x, K.below x < 8 * stk.length → m' x = m x) : K.Stacked m' stk := by
  induction stk with
  | nil => trivial
  | cons v stk ih =>
    rw [List.length_cons] at hs hm
    obtain ⟨hv, h⟩ := h
    refine ⟨?_, ih h (by omega) fun x hx => hm x (by omega)⟩
    rw [← hv]
    apply Memory.load_congr
    intro k hk
    apply hm
    rw [below_slot hs hk]
    omega

theorem Stacked.drop (h : K.Stacked m stk) (k : Nat) : K.Stacked m (stk.drop k) := by
  induction stk generalizing k with
  | nil => simpa using h
  | cons v stk ih =>
    cases k with
    | zero => exact h
    | succ k => exact ih h.2 k

end Setting

variable {σ ρ : Type}

/-- The machine is about to run the line with index `i`, its memory agrees with the state `s` of the
interpreter, and the operands `stk` are in their slots, the last first. -/
structure At (K : Setting) (R : σ → Memory → Prop) (i : Nat) (s : σ) (stk : List Word)
    (st : State) : Prop where
  pc : st.pc = i
  frame : st.regs .rbp = K.frame
  top : st.regs .rsp = K.slot stk.length
  stacked : K.Stacked st.mem stk
  agrees : R s st.mem

/-- The agreement between states of the interpreter and memory does not depend on operands. -/
def Apart (K : Setting) (R : σ → Memory → Prop) : Prop :=
  ∀ s m m', R s m → (∀ x, ¬K.Own x → m' x = m x) → R s m'

namespace At

variable {K : Setting} {R : σ → Memory → Prop} {P : State → Prop} {i : Nat} {s : σ}
  {stk : List Word} {st : State} {ls : List Line} {v : Word} {r : Reg}

theorem cast (h : At K R i s stk st) {j : Nat} (hi : i = j) : At K R j s stk st := hi ▸ h

theorem next (h : At K R i s stk st) : At K R (i + 1) s stk st.next :=
  { h with pc := congrArg (· + 1) h.pc }

theorem goto (h : At K R i s stk st) (j : Nat) : At K R j s stk (st.goto j) :=
  { h with pc := rfl }

theorem compare (h : At K R i s stk st) (c : Option (Word × Word)) :
    At K R i s stk (st.compare c) :=
  { h with }

theorem set (h : At K R i s stk st) (hr : r ≠ .rsp ∧ r ≠ .rbp) (v : Word) :
    At K R i s stk (st.set r v) where
  pc := h.pc
  frame := by simpa [hr.2.symm] using h.frame
  top := by simpa [hr.1.symm] using h.top
  stacked := h.stacked
  agrees := h.agrees

theorem fetch (h : At K R i s stk st) {x : Line} (hc : CodeAt K.prog i (x :: ls)) :
    K.prog[st.pc]? = some x := by
  rw [h.pc]
  exact hc.head

theorem label (h : At K R i s stk st) {l : Label} (hc : CodeAt K.prog i (.label l :: ls))
    (hk : At K R (i + 1) s stk st.next → Reaches K.world K.prog P st.next) :
    Reaches K.world K.prog P st :=
  .label (h.fetch hc) (hk h.next)

/-- An instruction that sets a register, or only compares. -/
theorem quiet (h : At K R i s stk st) {ins : Instr} {st' : State}
    (hc : CodeAt K.prog i (.instr ins :: ls)) (he : exec K.world.symbol st ins = some st')
    (h' : At K R i s stk st')
    (hk : At K R (i + 1) s stk st'.next → Reaches K.world K.prog P st'.next) :
    Reaches K.world K.prog P st :=
  .plain (h.fetch hc) he (hk h'.next)

theorem jump (h : At K R i s stk st) {l : Label} {j : Nat}
    (hc : CodeAt K.prog i (.instr (.jump l) :: ls)) (hj : Marks K.prog l j)
    (hk : At K R j s stk (st.goto j) → Reaches K.world K.prog P (st.goto j)) :
    Reaches K.world K.prog P st :=
  .jump (h.fetch hc) hj (hk (h.goto j))

/-- A pop takes the last operand into the register. -/
theorem pop (h : At K R i s (v :: stk) st) (hc : CodeAt K.prog i (.instr (.pop r) :: ls))
    (hr : r ≠ .rsp ∧ r ≠ .rbp)
    (hk : ∀ st', At K R (i + 1) s stk st' → st'.regs r = v →
      (∀ x, x ≠ r → x ≠ .rsp → st'.regs x = st.regs x) → Reaches K.world K.prog P st') :
    Reaches K.world K.prog P st := by
  refine .plain (h.fetch hc) rfl (hk _ ?_ ?_ ?_)
  · refine ⟨congrArg (· + 1) h.pc, ?_, ?_, h.stacked.2, h.agrees⟩
    · simpa [hr.2.symm] using h.frame
    · simpa [hr.1.symm, h.top] using Setting.slot_pred
  · have hv := h.stacked.1
    simp only [State.regs_next, State.regs_set, if_true]
    rw [h.top, List.length_cons, hv]
  · intro x hx hsp
    simp [hx, hsp]

/-- A push makes an operand of the register. -/
theorem push (h : At K R i s stk st) (ha : Apart K R)
    (hc : CodeAt K.prog i (.instr (.push r) :: ls)) (hroom : 8 * (stk.length + 1) ≤ K.room)
    (hv : st.regs r = v)
    (hk : ∀ st', At K R (i + 1) s (v :: stk) st' → Reaches K.world K.prog P st') :
    Reaches K.world K.prog P st := by
  refine .plain (h.fetch hc) rfl (hk _ ?_)
  have hslot : st.regs .rsp - 8 = K.slot (stk.length + 1) := by
    rw [h.top, Setting.slot_succ]
  have hpre (x : Word) (hx : K.below x < 8 * stk.length ∨ K.room ≤ K.below x) :
      st.mem.store .quad (st.regs .rsp - 8) (st.regs r) x = st.mem x := by
    rw [hslot, Setting.store_slot hroom _ hx]
  refine ⟨congrArg (· + 1) h.pc, ?_, ?_, ⟨?_, ?_⟩, ?_⟩
  · simpa using h.frame
  · simpa using hslot
  · simp only [State.mem_next, State.mem_set, State.mem_setMem]
    rw [hslot, Memory.load_store_same, Memory.narrow_quad, hv]
  · exact h.stacked.congr (by omega) fun x hx => hpre x (.inl hx)
  · exact ha s st.mem _ h.agrees fun x hx => hpre x (.inr (Nat.le_of_not_lt hx))

end At

end Simulation

end StackC
