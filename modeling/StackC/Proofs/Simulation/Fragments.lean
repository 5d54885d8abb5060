import StackC.Proofs.Emission.Success
import StackC.Proofs.Machine.Arithmetic
import StackC.Proofs.Simulation.Logic

namespace StackC

namespace Simulation

open Assembly Emission Machine Semantics

def Setting.located (K : Setting) : Instr → Option Word
  | .leaFrame k _ => some (K.frame - BitVec.ofNat 64 k)
  | .leaSymbol name _ => some (K.world.symbol name)
  | _ => none

variable {σ ρ : Type}

/-- The objects of the interpreter lie in memory: `R` relates the two, and `addr` tells where an
object begins. -/
structure Represents (K : Setting) (c : Emission.Context) (o : Objects σ ρ)
    (R : σ → Memory → Prop) (addr : ρ → Word) : Prop where
  apart : Apart K R
  named : ∀ id r lea, o.named id = some r → Locates c id lea → K.located lea = some (addr r)
  pointee : ∀ a r, o.pointee a = some r → addr r = a
  member : ∀ r k r', o.member r k = some r' → addr r' = addr r + BitVec.ofNat 64 k
  address : ∀ r a, o.address r = some a → addr r = a
  load : ∀ s m w r v, R s m → o.load w r s = some v → m.load w (addr r) = v
  store : ∀ s m w r v s', R s m → o.store w r v s = some s' →
    R s' (m.store w (addr r) v) ∧ ∀ x, K.Own x → m.store w (addr r) v x = m x
  call : ∀ name args s st v s' n, K.prog[st.pc]? = some (.instr (.call name args.length)) →
    o.call name args s = some (v, s') → R s st.mem →
    st.regs .rbp = K.frame → st.regs .rsp = K.slot n → 8 * n ≤ K.room →
    (argumentRegs.take args.length).map st.regs = args →
    (∃ st', K.world.callee name st st') ∧ ∀ st', K.world.callee name st st' →
      st'.regs .rbp = st.regs .rbp ∧ st'.regs .rsp = st.regs .rsp ∧ st'.regs .rax = v ∧
      R s' st'.mem ∧ ∀ x, K.below x < 8 * n → st'.mem x = st.mem x

variable {K : Setting} {R : σ → Memory → Prop} {P : State → Prop} {i : Nat} {s : σ}
  {stk : List Word} {st : State} {ls : List Line} {a b v : Word}

/-- An instruction that loads a word into `%rax`, and the push of the word. -/
theorem moves_push (ha : Apart K R) {ins : Instr}
    (he : ∀ st, st.regs .rbp = K.frame → exec K.world.symbol st ins = some (st.set .rax a)) :
    Moves K R [.instr ins, .instr (.push .rax)] stk (a :: stk) := by
  intro i s st hc hroom h
  have hone : 8 * (stk.length + 1) ≤ K.room := by
    simp only [pushes_cons, isPush, if_true] at hroom
    omega
  refine h.quiet hc (he st h.frame) (h.set (by decide) _) fun h₁ => ?_
  exact h₁.push ha hc.tail hone (by simp) fun st₂ h₂ => .here h₂

theorem moves_literal (ha : Apart K R) (n : Int64) :
    Moves K R [.instr (literal n), .instr (.push .rax)] stk (n.toBitVec :: stk) := by
  apply moves_push ha
  intro st _
  unfold literal
  split <;> rfl

/-- The address of a variable becomes an operand. -/
theorem moves_lea (ha : Apart K R) {c : Emission.Context} {id : VarId} {lea : Instr}
    (hv : Locates c id lea) (hl : K.located lea = some a) :
    Moves K R [.instr lea, .instr (.push .rax)] stk (a :: stk) := by
  apply moves_push ha
  intro st hframe
  cases hv with
  | onFrame =>
    cases hl
    rw [exec, hframe]
  | inData =>
    cases hl
    rfl

/-- The address of a struct becomes that of its member. -/
theorem moves_memberLines (ha : Apart K R) (m : Member CType) :
    Moves K R (memberLines m) (a :: stk) ((a + BitVec.ofNat 64 m.offset) :: stk) := by
  intro i s st hc hroom h
  have hone : 8 * (stk.length + 1) ≤ K.room := by
    rw [List.length_cons] at hroom
    omega
  refine h.pop hc (by decide) fun st₁ h₁ hr₁ _ => ?_
  refine h₁.quiet hc.tail rfl ((h₁.set (by decide) _).compare none) fun h₂ => ?_
  exact h₂.push ha hc.tail.tail hone (by simp [hr₁]) fun st₃ h₃ => .here h₃

section Objects

variable {c : Emission.Context} {o : Objects σ ρ} {addr : ρ → Word} {E : Handler σ} {r : ρ}
  {t : CType}

/-- The lines of a load read the object. -/
theorem implements_loads (hr : Represents K c o R addr) (hl : Loads t ls) :
    Implements K R E ls (addr r :: stk) (o.read (some t) r) (fun v => v :: stk) := by
  cases hl with
  | aggregate ht =>
    have hread : o.read (some t) r = Run.ofOption (o.address r) := by
      simp only [Objects.read, ht, if_true]
    rw [hread]
    refine .ofOption fun a haddr i s st hc hroom h => .here ?_
    rw [← hr.address r a haddr]
    exact h
  | @scalar w ht hw =>
    have hread : o.read (some t) r = Run.reading (o.load w r) := by
      simp only [Objects.read, ht, hw, Bool.false_eq_true, if_false]
    rw [hread]
    intro i s st x s' hc hroom h hx _
    obtain ⟨v, hv, hx⟩ := Option.map_eq_some_iff.mp hx
    cases hx
    have hone : 8 * (stk.length + 1) ≤ K.room := by
      rw [List.length_cons] at hroom
      omega
    refine h.pop hc (by decide) fun st₁ h₁ hr₁ _ => ?_
    refine h₁.quiet hc.tail rfl (h₁.set (by decide) _) fun h₂ => ?_
    have hval : st₁.mem.load w (st₁.regs .rax) = v := by
      rw [hr₁]
      exact hr.load s st₁.mem w r v h₁.agrees hv
    exact h₂.push hr.apart hc.tail.tail hone (by simp [hval]) fun st₃ h₃ => .here h₃

/-- The lines of a store write the object and leave the value. -/
theorem implements_store (hr : Represents K c o R addr) {w : Width}
    (hw : Width.ofBytes? t.size = some w) :
    Implements K R E [.instr (.pop .rdi), .instr (.pop .rax), .instr (.store w .rdi .rax),
        .instr (.push .rdi)] (v :: addr r :: stk)
      (do o.write (some t) r v; return v) (fun v => v :: stk) := by
  intro i s st x s' hc hroom h hx _
  have hwrite : o.write (some t) r v = Run.changing fun s => (o.store w r v s).map ((), ·) := by
    simp only [Objects.write, Option.bind_some, hw]
  rw [hwrite] at hx
  rcases Run.bind_eq_some.mp hx with ⟨_, s₁, hs, hx⟩ | ⟨e, hs, -⟩
  · obtain ⟨_, hp, he⟩ := Option.map_eq_some_iff.mp hs
    obtain ⟨s₂, hst, rfl⟩ := Option.map_eq_some_iff.mp hp
    cases he
    cases hx
    rw [List.length_cons, List.length_cons] at hroom
    have hone : 8 * (stk.length + 1) ≤ K.room := by omega
    refine h.pop hc (by decide) fun st₁ h₁ hr₁ _ => ?_
    refine h₁.pop hc.tail (by decide) fun st₂ h₂ hr₂ hk₂ => ?_
    have hrdi : st₂.regs .rdi = v := by rw [hk₂ .rdi (by decide) (by decide), hr₁]
    obtain ⟨hrel, hown⟩ := hr.store s st₂.mem w r v s₂ h₂.agrees hst
    refine .plain (h₂.fetch hc.tail.tail) rfl ?_
    rw [hr₂, hrdi]
    have h₃ : At K R (i + 1 + 1 + 1) s₂ stk (st₂.setMem (st₂.mem.store w (addr r) v)).next := by
      refine ⟨congrArg (· + 1) h₂.pc, h₂.frame, h₂.top, ?_, hrel⟩
      exact h₂.stacked.congr (by omega) fun x hx => hown x (Nat.lt_of_lt_of_le hx (by omega))
    exact h₃.push hr.apart hc.tail.tail.tail hone hrdi fun st₄ h₄ => .here h₄
  · obtain ⟨_, -, he⟩ := Option.map_eq_some_iff.mp hs
    exact nomatch he

end Objects

theorem At.comparison (h : At K R i s stk st) {cond : Cond}
    (hc : CodeAt K.prog i ((comparison cond).lines ++ ls)) (hra : st.regs .rax = a)
    (hrd : st.regs .rdi = b)
    (hk : ∀ st', At K R (i + 3) s stk st' → st'.regs .rax = bit (holds cond a b) →
      Reaches K.world K.prog P st') : Reaches K.world K.prog P st := by
  refine h.quiet hc rfl (h.compare _) fun h₁ => ?_
  refine h₁.quiet hc.tail rfl (h₁.set (by decide) _) fun h₂ => ?_
  refine h₂.quiet hc.tail.tail rfl (h₂.set (by decide) _) fun h₃ => hk _ h₃ ?_
  simp only [State.regs_next, State.regs_set, State.regs_compare, if_true, hra, hrd]
  exact extended_flag a (holds cond a b)

/-- The sign of `%rax` is spread over `%rdx`, and the two are divided. -/
theorem At.division (h : At K R i s stk st)
    (hc : CodeAt K.prog i (.instr .signIntoRdx :: .instr (.divide .rdi) :: ls))
    (hra : st.regs .rax = a) (hrd : st.regs .rdi = b)
    (hd : ¬(b = 0 ∨ a = BitVec.intMin 64 ∧ b = -1))
    (hk : ∀ st', At K R (i + 2) s stk st' → st'.regs .rax = a.sdiv b → st'.regs .rdx = a.srem b →
      Reaches K.world K.prog P st') : Reaches K.world K.prog P st := by
  refine h.quiet hc rfl (h.set (by decide) _) fun h₁ => ?_
  have he : exec K.world.symbol (st.set .rdx ((st.regs .rax).sshiftRight 63)).next (.divide .rdi) =
      some ((((st.set .rdx ((st.regs .rax).sshiftRight 63)).next.set .rax (a.sdiv b)).set .rdx
        (a.srem b)).compare none) := by
    simp only [exec, State.regs_next, State.regs_set, if_true, reduceCtorEq, if_false, hra, hrd,
      divide_sign, if_neg hd]
    rfl
  refine h₁.quiet hc.tail he (((h₁.set (by decide) _).set (by decide) _).compare none) fun h₂ => ?_
  exact hk _ h₂ (by simp) (by simp)

/-- The lines of an operator compute what the interpreter computes. -/
theorem At.operation (h : At K R i s stk st) {op : BinaryOp}
    (hc : CodeAt K.prog i ((operation op).lines ++ ls)) (hra : st.regs .rax = a)
    (hrd : st.regs .rdi = b) (hv : apply op a b = some v)
    (hk : ∀ st', At K R (i + (operation op).lines.length) s stk st' → st'.regs .rax = v →
      Reaches K.world K.prog P st') : Reaches K.world K.prog P st := by
  cases op with
  | add | sub | mul =>
    cases hv
    refine h.quiet hc rfl ((h.set (by decide) _).compare none) fun h₁ => hk _ h₁ ?_
    simp [hra, hrd, arith]
  | div =>
    obtain ⟨hd, hv⟩ := Option.ite_none_left_eq_some.mp hv
    cases hv
    exact h.division hc hra hrd hd fun st₁ h₁ hq _ => hk st₁ h₁ hq
  | mod =>
    obtain ⟨hd, hv⟩ := Option.ite_none_left_eq_some.mp hv
    cases hv
    refine h.division hc hra hrd hd fun st₁ h₁ _ hr => ?_
    refine h₁.quiet hc.tail.tail rfl (h₁.set (by decide) _) fun h₂ => hk _ h₂ ?_
    simp [hr]
  | eq | ne | lt | le | gt | ge =>
    cases hv
    exact h.comparison hc hra hrd hk
  | logAnd | logOr => exact nomatch hv

/-- Two operands are replaced by the result of the operator. -/
theorem moves_binary (ha : Apart K R) {op : BinaryOp} (hv : apply op a b = some v) :
    Moves K R (.instr (.pop .rdi) :: .instr (.pop .rax) ::
      ((Emission.operation op).lines ++ [.instr (.push .rax)])) (b :: a :: stk) (v :: stk) := by
  intro i s st hc hroom h
  rw [List.length_cons, List.length_cons] at hroom
  have hone : 8 * (stk.length + 1) ≤ K.room := by omega
  refine h.pop hc (by decide) fun st₁ h₁ hr₁ _ => ?_
  refine h₁.pop hc.tail (by decide) fun st₂ h₂ hr₂ hk₂ => ?_
  have hrdi : st₂.regs .rdi = b := by rw [hk₂ .rdi (by decide) (by decide), hr₁]
  refine h₂.operation hc.tail.tail hr₂ hrdi hv fun st₃ h₃ hr₃ => ?_
  refine h₃.push ha hc.tail.tail.right hone hr₃ fun st₄ h₄ => .here (h₄.cast ?_)
  simp only [List.length_cons, List.length_append, List.length_nil]
  omega

theorem moves_not (ha : Apart K R) :
    Moves K R [.instr (.pop .rax), .instr (.cmpZero .rax), .instr (.setFlag .equal .rax),
      .instr (.extendFlag .rax), .instr (.push .rax)] (a :: stk) (bit (a == 0) :: stk) := by
  intro i s st hc hroom h
  rw [List.length_cons] at hroom
  have hone : 8 * (stk.length + 1) ≤ K.room := by omega
  refine h.pop hc (by decide) fun st₁ h₁ hr₁ _ => ?_
  refine h₁.quiet hc.tail rfl (h₁.compare _) fun h₂ => ?_
  refine h₂.quiet hc.tail.tail rfl (h₂.set (by decide) _) fun h₃ => ?_
  refine h₃.quiet hc.tail.tail.tail rfl (h₃.set (by decide) _) fun h₄ => ?_
  refine h₄.push ha hc.tail.tail.tail.tail hone ?_ fun st₅ h₅ => .here h₅
  simp only [State.regs_next, State.regs_set, State.regs_compare, if_true, hr₁]
  exact extended_flag a (holds .equal a 0)

/-- A value is taken, and the jump is made if the value compares to zero as told. -/
theorem At.test (h : At K R i s (v :: stk) st) {cond : Cond} {l : Label} {j : Nat}
    (hc : CodeAt K.prog i (testLines cond l ++ ls)) (hj : Marks K.prog l j)
    (hk : ∀ st', At K R (if holds cond v 0 then j else i + 3) s stk st' →
      Reaches K.world K.prog P st') : Reaches K.world K.prog P st := by
  refine h.pop hc (by decide) fun st₁ h₁ hr₁ _ => ?_
  refine h₁.quiet hc.tail rfl (h₁.compare _) fun h₂ => ?_
  refine .jumpIf (h₂.fetch hc.tail.tail) hj rfl (hk _ ?_)
  rw [hr₁] at h₂ ⊢
  cases holds cond v 0 with
  | true => exact h₂.goto j
  | false => exact h₂.next

/-- Operands are dropped from the top. -/
theorem At.drop (h : At K R i s stk st) {k : Nat} (hk : k ≤ stk.length)
    (hc : CodeAt K.prog i (dropLines k ++ ls))
    (hr : ∀ st', At K R (i + (dropLines k).length) s (stk.drop k) st' →
      Reaches K.world K.prog P st') :
    Reaches K.world K.prog P st := by
  unfold dropLines at hc hr
  by_cases hpos : 0 < k
  · simp only [hpos, if_true] at hc hr
    refine .plain (h.fetch hc) rfl (hr _ ?_)
    refine ⟨congrArg (· + 1) h.pc, ?_, ?_, h.stacked.drop k, h.agrees⟩
    · simpa using h.frame
    · simp only [State.regs_next, State.regs_compare, State.regs_set, if_true, h.top,
        List.length_drop]
      exact Setting.slot_drop hk
  · obtain rfl : k = 0 := by omega
    exact hr st h

/-- Operands are taken into registers, the last first. -/
theorem At.pops {qs : List Reg} {ws : List Word} (h : At K R i s (ws ++ stk) st)
    (hlen : qs.length = ws.length) (hn : qs.Nodup) (hq : ∀ q ∈ qs, q ≠ .rsp ∧ q ≠ .rbp)
    (hc : CodeAt K.prog i (qs.map (fun q => .instr (.pop q)) ++ ls))
    (hk : ∀ st', At K R (i + qs.length) s stk st' → qs.map st'.regs = ws →
      (∀ x, x ∉ qs → x ≠ .rsp → st'.regs x = st.regs x) → Reaches K.world K.prog P st') :
    Reaches K.world K.prog P st := by
  induction qs generalizing i ws st with
  | nil =>
    obtain rfl := List.eq_nil_of_length_eq_zero hlen.symm
    exact hk st h rfl fun _ _ _ => rfl
  | cons q qs ih =>
    cases ws with
    | nil => exact nomatch hlen
    | cons w ws =>
      obtain ⟨hnotin, hn⟩ := List.nodup_cons.mp hn
      refine h.pop hc (hq q List.mem_cons_self) fun st₁ h₁ hr₁ hk₁ => ?_
      refine ih h₁ (Nat.succ.inj hlen) hn (fun x hx => hq x (List.mem_cons_of_mem _ hx)) hc.tail
        fun st₂ h₂ hm₂ hk₂ => hk st₂ ?_ ?_ ?_
      · rwa [List.length_cons, Nat.add_comm qs.length, ← Nat.add_assoc]
      · rw [List.map_cons, hm₂, hk₂ q hnotin (hq q List.mem_cons_self).1, hr₁]
      · intro x hx hsp
        rw [List.mem_cons, not_or] at hx
        rw [hk₂ x hx.2 hsp, hk₁ x hx.1 hsp]

/-- The registers of the arguments keep their values when another register is set. -/
theorem map_argumentRegs {n : Nat} {st st' : State} {args : List Word}
    (h : (argumentRegs.take n).map st.regs = args)
    (hk : ∀ x ∈ argumentRegs, st'.regs x = st.regs x) :
    (argumentRegs.take n).map st'.regs = args := by
  rw [← h]
  exact List.map_congr_left fun x hx => hk x (List.mem_of_mem_take hx)

section Calls

variable {c : Emission.Context} {o : Objects σ ρ} {addr : ρ → Word} {s' : σ} {name : String}
  {args : List Word}

/-- The call itself, with `n` slots in use or set aside. -/
theorem reaches_call (hr : Represents K c o R addr) {n : Nat}
    (hc : CodeAt K.prog i
      (.instr (.movImm 0 .long .rax) :: .instr (.call name args.length) :: ls))
    (hpc : st.pc = i) (hrbp : st.regs .rbp = K.frame) (hrsp : st.regs .rsp = K.slot n)
    (hn : 8 * n ≤ K.room) (hrel : R s st.mem)
    (hargs : (argumentRegs.take args.length).map st.regs = args)
    (hcall : o.call name args s = some (v, s'))
    (hk : ∀ st', st'.pc = i + 2 → st'.regs .rbp = K.frame → st'.regs .rsp = K.slot n →
      st'.regs .rax = v → R s' st'.mem → (∀ x, K.below x < 8 * n → st'.mem x = st.mem x) →
      Reaches K.world K.prog P st') : Reaches K.world K.prog P st := by
  subst hpc
  refine .plain hc.head rfl ?_
  generalize hst : (st.set .rax (merge .long (st.regs .rax) (0 : Int64).toBitVec)).next = st₁
  have hregs (x : Reg) (hx : x ≠ .rax) : st₁.regs x = st.regs x := by simp [← hst, hx]
  have hmem : st₁.mem = st.mem := by rw [← hst]; rfl
  have hpc : st₁.pc = st.pc + 1 := by rw [← hst]; rfl
  have hargs₁ : (argumentRegs.take args.length).map st₁.regs = args := by
    refine map_argumentRegs hargs fun x hx => hregs x ?_
    rintro rfl
    exact absurd hx (by decide)
  have hrbp₁ : st₁.regs .rbp = K.frame := by rw [hregs _ (by decide), hrbp]
  have hrsp₁ : st₁.regs .rsp = K.slot n := by rw [hregs _ (by decide), hrsp]
  have hfetch : K.prog[st₁.pc]? = some (.instr (.call name args.length)) := by
    rw [hpc]
    exact hc.tail.head
  obtain ⟨hex, hall⟩ :=
    hr.call name args s st₁ v s' n hfetch hcall (hmem ▸ hrel) hrbp₁ hrsp₁ hn hargs₁
  refine .call hfetch hex fun st₂ hcallee => ?_
  obtain ⟨hb, hs, hv, hrel₂, hlive⟩ := hall st₂ hcallee
  refine hk _ ?_ (hb.trans hrbp₁) (hs.trans hrsp₁) hv hrel₂ fun x hx => ?_
  · rw [State.pc_goto, hpc]
  · rw [← hmem]
    exact hlive x hx

/-- The call leaves the operands as they were and its result in `%rax`. -/
theorem At.call {count : Nat} (hr : Represents K c o R addr) (h : At K R i s stk st)
    (hc : CodeAt K.prog i (callLines name count stk.length ++ ls))
    (hroom : 8 * (stk.length + 1) ≤ K.room) (hcount : args.length = count)
    (hargs : (argumentRegs.take args.length).map st.regs = args)
    (hcall : o.call name args s = some (v, s'))
    (hk : ∀ st', At K R (i + (callLines name count stk.length).length) s' stk st' →
      st'.regs .rax = v → Reaches K.world K.prog P st') : Reaches K.world K.prog P st := by
  subst hcount
  unfold callLines at hc hk
  by_cases hodd : stk.length % 2 = 1
  · -- One more slot is set aside around the call.
    simp only [hodd, if_true] at hc hk
    refine .plain (h.fetch hc) rfl ?_
    have hrsp : st.regs .rsp - BitVec.ofNat 64 8 = K.slot (stk.length + 1) := by
      rw [h.top]
      exact Setting.slot_succ
    rw [hrsp]
    have hargs₁ : (argumentRegs.take args.length).map
        ((st.set .rsp (K.slot (stk.length + 1))).compare none).next.regs = args := by
      refine map_argumentRegs hargs fun x hx => ?_
      have hx : x ≠ .rsp := by
        rintro rfl
        exact absurd hx (by decide)
      simp [hx]
    refine reaches_call hr hc.tail (congrArg (· + 1) h.pc) (by simpa using h.frame) (by simp) hroom
      h.agrees hargs₁ hcall fun st₂ hpc₂ hb₂ hs₂ hv₂ hrel₂ hlive => ?_
    have hfetch : K.prog[st₂.pc]? = some (.instr (.addImm 8 .rsp)) := by
      rw [hpc₂]
      exact hc.tail.tail.tail.head
    refine .plain hfetch rfl (hk _ ⟨?_, ?_, ?_, ?_, hrel₂⟩ (by simpa using hv₂))
    · simpa using hpc₂
    · simpa using hb₂
    · simp only [State.regs_next, State.regs_compare, State.regs_set, if_true, hs₂]
      exact Setting.slot_pred
    · exact h.stacked.congr (by omega) fun x hx => hlive x (by omega)
  · simp only [hodd, if_false] at hc hk
    refine reaches_call hr hc h.pc h.frame h.top (by omega) h.agrees hargs hcall
      fun st₂ hpc₂ hb₂ hs₂ hv₂ hrel₂ hlive => hk st₂ ⟨hpc₂, hb₂, hs₂, ?_, hrel₂⟩ hv₂
    exact h.stacked.congr (by omega) hlive

end Calls

/-- The result of a call is left as it is, or its low part is extended, by the lines as by the
interpreter. -/
theorem extendResult_cases (t : CType) :
    (extendResult t).lines = [] ∧ (∀ v, returned t v = v) ∨
      ∃ w, (extendResult t).lines = [.instr (.extend w .rax)] ∧ ∀ v, returned t v = narrow w v := by
  unfold extendResult returned
  by_cases hi : t.isInteger = true
  · simp only [hi, if_true]
    split
    · next hs => exact .inr ⟨.byte, rfl, fun v => by rw [hs]; rfl⟩
    · next hs => exact .inr ⟨.word, rfl, fun v => by rw [hs]; rfl⟩
    · next hs => exact .inr ⟨.long, rfl, fun v => by rw [hs]; rfl⟩
    · next h₁ h₂ h₄ =>
      refine .inl ⟨rfl, fun v => ?_⟩
      -- An integer of another size fills the register.
      cases hw : Width.ofBytes? t.size with
      | none => rfl
      | some w =>
        have hsize := (Memory.bytes_of_ofBytes? hw).symm
        cases w with
        | byte => exact absurd hsize h₁
        | word => exact absurd hsize h₂
        | long => exact absurd hsize h₄
        | quad => exact Memory.narrow_quad v
  · refine .inl ⟨by simp [hi], fun v => ?_⟩
    split
    · simp [hi]
    · rfl

theorem At.extendResult (h : At K R i s stk st) {t : CType}
    (hc : CodeAt K.prog i ((extendResult t).lines ++ ls)) (hv : st.regs .rax = v)
    (hk : ∀ st', At K R (i + (Emission.extendResult t).lines.length) s stk st' →
      st'.regs .rax = returned t v → Reaches K.world K.prog P st') :
    Reaches K.world K.prog P st := by
  rcases extendResult_cases t with ⟨hl, hr⟩ | ⟨w, hl, hr⟩
  · rw [hl] at hk
    exact hk st h (by rw [hv, hr])
  · rw [hl] at hc hk
    refine h.quiet hc rfl (h.set (by decide) _) fun h₁ => hk _ h₁ ?_
    simp [hv, hr]

end Simulation

end StackC
