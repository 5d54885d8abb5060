import StackC.Proofs.Emission.Enclosed
import StackC.Proofs.StepOperators

/-!
Expressions without effects leave no trace. Their typed forms have no effects, the code of these
writes nothing but operand slots and scratch registers on every way through it, and a second
evaluation of an operand gives what the first one gave.
-/

namespace StackC

namespace Machine

open Assembly Emission Simulation

/-- A run whose steps all start from lines with an index from `i` to before `j`. -/
inductive Through (w : Surroundings) (prog : List Line) (i j : Nat) (st : State) :
    State → Prop where
  | start : Through w prog i j st st
  | step {st' st''} (h : Through w prog i j st st') (hi : i ≤ st'.pc) (hj : st'.pc < j)
      (hs : Step w prog st' st'') : Through w prog i j st st''

/-- The second state differs from the first one in scratch registers and in what was compared
only. -/
structure Similar (st st' : State) : Prop where
  pc : st'.pc = st.pc
  mem : st'.mem = st.mem
  regs : ∀ r, r ∉ scratch → st'.regs r = st.regs r

namespace Similar

variable {st st' : State} {r : Reg}

theorem refl (st : State) : Similar st st := ⟨rfl, rfl, fun _ _ => rfl⟩

theorem set (h : Similar st st') (hr : r ∈ scratch) (v : Word) : Similar st (st'.set r v) where
  pc := h.pc
  mem := h.mem
  regs x hx := by
    have hne : x ≠ r := by
      rintro rfl
      exact hx hr
    rw [State.regs_set, if_neg hne, h.regs x hx]

theorem compare (h : Similar st st') (c : Option (Word × Word)) : Similar st (st'.compare c) :=
  ⟨h.pc, h.mem, h.regs⟩

end Similar

/-- A quiet instruction pushes, pops into a scratch register, or does nothing to the stack and to
memory. -/
theorem exec_quiet {symbol : String → Word} {st st' : State} {i : Instr}
    (hq : isQuiet (.instr i) = true) (he : exec symbol st i = some st') :
    slotShift? (.instr i) = some 0 ∧ Similar st st' ∨
      (∃ r, i = .push r ∧ st' =
        (st.setMem (st.mem.store .quad (st.regs .rsp - 8) (st.regs r))).set .rsp
        (st.regs .rsp - 8)) ∨
      ∃ r, i = .pop r ∧ r ≠ .rsp ∧ Similar (st.set .rsp (st.regs .rsp + 8)) st' := by
  cases i with
  | push r =>
    cases he
    exact Or.inr (Or.inl ⟨r, rfl, rfl⟩)
  | pop r =>
    cases he
    refine Or.inr (Or.inr ⟨r, rfl, ?_, (Similar.refl _).set (List.contains_iff_mem.mp hq) _⟩)
    rintro rfl
    cases hq
  | cmp | cmpZero =>
    cases he
    exact Or.inl ⟨rfl, (Similar.refl st).compare _⟩
  | signIntoRdx =>
    cases he
    exact Or.inl ⟨rfl, (Similar.refl st).set (by decide) _⟩
  | divide r =>
    obtain ⟨⟨q, rest⟩, -, he⟩ := Option.bind_eq_some_iff.mp he
    cases he
    exact Or.inl ⟨rfl, (((Similar.refl st).set (by decide) _).set (by decide) _).compare _⟩
  | setFlag c r =>
    obtain ⟨⟨a, b⟩, -, he⟩ := Option.bind_eq_some_iff.mp he
    cases he
    refine Or.inl ⟨?_, (Similar.refl st).set (List.contains_iff_mem.mp hq) _⟩
    rcases eq_of_scratch hq with rfl | rfl | rfl <;> rfl
  | movImm | movAbs | mov | load | leaFrame | leaSymbol | extendFlag =>
    cases he
    refine Or.inl ⟨?_, (Similar.refl st).set (List.contains_iff_mem.mp hq) _⟩
    rcases eq_of_scratch hq with rfl | rfl | rfl <;> rfl
  | arith | addImm =>
    cases he
    refine Or.inl ⟨?_, ((Similar.refl st).set (List.contains_iff_mem.mp hq) _).compare _⟩
    rcases eq_of_scratch hq with rfl | rfl | rfl <;> rfl
  | jump | jumpIf => cases he
  | store | storeFrame | subImm | extend | call | ret => cases hq

/-- A slot within the first `n` below `a` has no byte that lies further below. -/
theorem le_sub_slot {a x : Word} {k n : Nat} (hk : k + 1 ≤ n) (hx : 8 * n ≤ (a - 1 - x).toNat) :
    8 ≤ (x - (a - BitVec.ofNat 64 (8 * (k + 1)))).toNat := by
  bv_omega

/-- The state on the way through annotated lines that stand from index `i` on, entered in the state
`st₀`. -/
structure Along (zs : List (Line × Nat)) (e i : Nat) (st₀ st : State) : Prop where
  low : i ≤ st.pc
  high : st.pc ≤ i + zs.length
  regs : ∀ r, r ∉ scratch → r ≠ .rsp → st.regs r = st₀.regs r
  top : st.regs .rsp = st₀.regs .rsp - BitVec.ofNat 64 (8 * depthAt zs e (st.pc - i))
  mem : ∀ x, 8 * pushes (zs.map Prod.fst) ≤ (st₀.regs .rsp - 1 - x).toNat → st.mem x = st₀.mem x

namespace Along

variable {zs : List (Line × Nat)} {e i j : Nat} {st₀ st st' : State}

/-- A move to a line with the same slots in use. -/
theorem goto (h : Along zs e i st₀ st) (hs : Similar st st') (hlow : i ≤ j)
    (hhigh : j ≤ i + zs.length) (hd : depthAt zs e (j - i) = depthAt zs e (st.pc - i)) :
    Along zs e i st₀ (st'.goto j) where
  low := hlow
  high := hhigh
  regs r hr hne := (hs.regs r hr).trans (h.regs r hr hne)
  top := by
    rw [State.regs_goto, State.pc_goto, hd, ← h.top]
    exact hs.regs .rsp (by decide)
  mem x hx := (congrFun hs.mem x).trans (h.mem x hx)

/-- A push uses one more slot, which lies above those in use at the start. -/
theorem push {r : Reg} (h : Along zs e i st₀ st) (hpc : st.pc < i + zs.length)
    (hd : depthAt zs e (st.pc + 1 - i) = depthAt zs e (st.pc - i) + 1)
    (hle : depthAt zs e (st.pc - i) + 1 ≤ pushes (zs.map Prod.fst)) :
    Along zs e i st₀ ((st.setMem (st.mem.store .quad (st.regs .rsp - 8) (st.regs r))).set .rsp
      (st.regs .rsp - 8)).next where
  low := Nat.le_succ_of_le h.low
  high := hpc
  regs r hr hne := (if_neg hne).trans (h.regs r hr hne)
  top := by
    show st.regs .rsp - 8 = _
    rw [State.pc_next, State.pc_set, State.pc_setMem, hd, h.top, sub_slot_succ]
  mem x hx := by
    refine Eq.trans (Memory.store_of_le ?_) (h.mem x hx)
    rw [h.top, sub_slot_succ]
    exact le_sub_slot hle hx

/-- A pop gives back the slot that was used last. -/
theorem pop (h : Along zs e i st₀ st) (hs : Similar (st.set .rsp (st.regs .rsp + 8)) st')
    (hpc : st.pc < i + zs.length)
    (hd : depthAt zs e (st.pc + 1 - i) + 1 = depthAt zs e (st.pc - i)) :
    Along zs e i st₀ st'.next where
  low := by
    rw [State.pc_next, hs.pc]
    exact Nat.le_succ_of_le h.low
  high := by
    rw [State.pc_next, hs.pc]
    exact hpc
  regs r hr hne := (hs.regs r hr).trans ((if_neg hne).trans (h.regs r hr hne))
  top := by
    have htop : st'.regs .rsp = st.regs .rsp + 8 := hs.regs .rsp (by decide)
    rw [State.regs_next, htop, State.pc_next, hs.pc, State.pc_set, h.top, ← hd, ← sub_slot_succ,
      BitVec.sub_add_cancel]
  mem x hx := (congrFun hs.mem x).trans (h.mem x hx)

/-- A jump inside of the lines. -/
theorem jump {prog : List Line} {l : Label} {k : Nat} (h : Along zs e i st₀ st)
    (hs : Similar st st') (hun : Unambiguous prog) (hat : CodeAt prog i (zs.map Prod.fst))
    (hl : l.isNumbered = true)
    (hj : prog[j]? = some (.label l)) (hmem : (.label l, k) ∈ zs)
    (hk : depthAt zs e (st.pc - i) = k) :
    Along zs e i st₀ (st'.goto j) := by
  obtain ⟨m, hm⟩ := List.getElem?_of_mem hmem
  have hstands : prog[i + m]? = some (.label l) := hat m _ (by simp [hm])
  have hname : ∀ name, l ≠ .symbol name := by
    rintro name rfl
    cases hl
  obtain rfl := hun l j (i + m) hname hj hstands
  have hlt : m < zs.length := (List.getElem?_eq_some_iff.mp hm).1
  refine h.goto hs (Nat.le_add_right i m) (by omega) ?_
  rw [Nat.add_sub_cancel_left, Flow.depthAt_of_get hm, hk]

/-- One step through the lines of a course. -/
theorem step {w : Surroundings} {prog : List Line} (h : Along zs e i st₀ st)
    (hz : Course (fun t k => (.label t, k) ∈ zs) 0 zs e) (hun : Unambiguous prog)
    (hat : CodeAt prog i (zs.map Prod.fst)) (hpc : st.pc < i + zs.length)
    (hs : Step w prog st st') :
    Along zs e i st₀ st' := by
  obtain ⟨n, hn⟩ := Nat.exists_eq_add_of_le h.low
  have hlt : n < zs.length := by omega
  obtain ⟨⟨x, k⟩, hget⟩ : ∃ z, zs[n]? = some z := ⟨_, List.getElem?_eq_getElem hlt⟩
  have hfetch : prog[st.pc]? = some x := by
    rw [hn]
    exact hat n x (by simp [hget])
  obtain ⟨hq, ⟨s, hk, hnext⟩, htargets⟩ := hz.at_line hget
  have hdepth : depthAt zs e (st.pc - i) = k := by
    rw [hn, Nat.add_sub_cancel_left, Flow.depthAt_of_get hget]
  have hbehind : st.pc + 1 - i = n + 1 := by omega
  -- A line that leaves the stack alone leads to the next one with the same slots in use.
  have hstill {st' : State} (hzero : s = 0) (hsim : Similar st st') :
      Along zs e i st₀ st'.next := by
    rw [State.next, hsim.pc]
    refine h.goto hsim (by omega) (by omega) ?_
    rw [hbehind, hdepth]
    omega
  cases hs with
  | label hl =>
    cases hfetch.symm.trans hl
    cases hk
    exact hstill rfl (.refl st)
  | plain hi he =>
    cases hfetch.symm.trans hi
    rcases exec_quiet hq he with ⟨hzero, hsim⟩ | ⟨r, rfl, rfl⟩ | ⟨r, rfl, hr, hsim⟩
    · exact hstill (Option.some.inj (hk.symm.trans hzero)) hsim
    · cases hk
      have hle := hz.depthAt_le (n + 1)
      exact h.push hpc (by rw [hbehind, hdepth]; omega) (by rw [hdepth]; omega)
    · cases hk.symm.trans (if_neg hr)
      exact h.pop hsim hpc (by rw [hbehind, hdepth]; omega)
  | jump hi hj =>
    cases hfetch.symm.trans hi
    exact h.jump (.refl st) hun hat hq hj (htargets _ rfl) hdepth
  | taken hi _ _ hj =>
    cases hfetch.symm.trans hi
    exact h.jump (.refl st) hun hat hq hj (htargets _ rfl) hdepth
  | passed hi =>
    cases hfetch.symm.trans hi
    cases hk
    exact hstill rfl (.refl st)
  | call hi =>
    cases hfetch.symm.trans hi
    cases hq

/-- A whole run through the lines of a course. -/
theorem run {w : Surroundings} {prog : List Line}
    (hz : Course (fun t k => (.label t, k) ∈ zs) 0 zs e) (hun : Unambiguous prog)
    (hat : CodeAt prog i (zs.map Prod.fst)) (hpc : st₀.pc = i)
    (h : Through w prog i (i + zs.length) st₀ st) : Along zs e i st₀ st := by
  induction h with
  | start =>
    refine ⟨Nat.le_of_eq hpc.symm, by omega, fun _ _ _ => rfl, ?_, fun _ _ => rfl⟩
    rw [hpc, Nat.sub_self, hz.depthAt_zero, Nat.mul_zero, BitVec.sub_zero]
  | step _ _ hj hs ih => exact ih.step hz hun hat hj hs

end Along

/-- Between the two states the lines `ls` from index `i` on wrote nothing but scratch registers
and at most one operand slot for each push in them; behind the last line one slot more is in use. -/
structure Undisturbed (ls : List Line) (i : Nat) (st st' : State) : Prop where
  low : i ≤ st'.pc
  high : st'.pc ≤ i + ls.length
  regs : ∀ r, r ∉ scratch → r ≠ .rsp → st'.regs r = st.regs r
  mem : ∀ x, 8 * pushes ls ≤ (st.regs .rsp - 1 - x).toNat → st'.mem x = st.mem x
  top : st'.pc = i + ls.length → st'.regs .rsp = st.regs .rsp - 8

/-- Every run through enclosed lines leaves its surroundings undisturbed. -/
theorem undisturbed_of_enclosed {ls : List Line} (h : Enclosed 0 ls 1) {w : Surroundings}
    {prog : List Line} {i : Nat} {st st' : State} (hun : Unambiguous prog) (hat : CodeAt prog i ls)
    (hpc : st.pc = i) (hrun : Through w prog i (i + ls.length) st st') :
    Undisturbed ls i st st' := by
  obtain ⟨zs, rfl, hz⟩ := h
  rw [List.length_map] at hrun
  have halong := Along.run hz hun hat hpc hrun
  refine ⟨halong.low, by simpa using halong.high, halong.regs, halong.mem, fun hend => ?_⟩
  rw [List.length_map] at hend
  rw [halong.top, hend, Nat.add_sub_cancel_left, Flow.depthAt_length]
  rfl

end Machine

namespace Semantics

open Machine

variable {σ ρ α β : Type}

namespace Run

theorem bind_congr {x y : Run σ α} {f : α → Run σ β} {s : σ} (h : x s = y s) :
    (x >>= f) s = (y >>= f) s := by
  show (x s).bind _ = (y s).bind _
  rw [h]

/-- What follows on a steady computation begins in the state in which the computation began. -/
theorem Steady.bind_eq {x : Run σ α} {f g : α → Run σ β} (h : Steady x)
    (hfg : ∀ a s, x s = some (.ok a, s) → f a s = g a s) : x >>= f = x >>= g := by
  funext s
  have hbind (k : α → Run σ β) : (x >>= k) s = (x s).bind fun p => ExceptT.bindCont k p.1 p.2 := rfl
  rw [hbind f, hbind g]
  rcases hx : x s with _ | ⟨r, s'⟩
  · rfl
  · obtain ⟨rfl, a, rfl⟩ := h s r s' hx
    exact hfg a s' hx

/-- A steady computation gives the same when it is run again. -/
theorem Steady.twice {x : Run σ α} (h : Steady x) :
    (do let a ← x; let b ← x; return (a, b)) = (do let a ← x; return (a, a)) :=
  h.bind_eq fun _ _ hx => bind_of_ok hx

end Run

/-- The value of an operand that was located before is read from where it was located. -/
theorem object_then_eval {o : Objects σ ρ} {rounds : Nat} {e : Node} (h : e.hasEffects = false)
    (hr : e.isReferable = true) :
    (do let r ← object o rounds e; let v ← eval o rounds e; return (r, v)) =
      (do let r ← object o rounds e; let v ← o.read e.type? r; return (r, v)) :=
  (steady_effectless e h).2.bind_eq fun _ _ hobject => Run.bind_congr (eval_of_object hr hobject)

end Semantics

open Assembly Emission Machine Semantics Typing

def isStore : Line → Bool
  | .instr (.store _ _ _) | .instr (.storeFrame _ _ _) => true
  | _ => false

/-- A quiet line neither stores through an address nor calls. -/
theorem not_isStore_of_isQuiet {x : Line} (h : isQuiet x = true) :
    isStore x = false ∧ isCall x = false := by
  cases x with
  | label | directive => exact ⟨rfl, rfl⟩
  | instr i =>
    cases i with
    | store | storeFrame | call => cases h
    | _ => exact ⟨rfl, rfl⟩

/-- Enclosed lines neither store through an address nor call, and jump only among themselves. -/
theorem Emission.Enclosed.lines {d e : Nat} {ls : List Line} (h : Enclosed d ls e) :
    ∀ x ∈ ls, isStore x = false ∧ isCall x = false ∧ ∀ t, target? x = some t → .label t ∈ ls := by
  obtain ⟨zs, rfl, hz⟩ := h
  intro x hx
  obtain ⟨⟨_, k⟩, hmem, rfl⟩ := List.mem_map.mp hx
  obtain ⟨i, hi⟩ := List.getElem?_of_mem hmem
  obtain ⟨hq, -, htargets⟩ := hz.at_line hi
  obtain ⟨hstore, hcall⟩ := not_isStore_of_isQuiet hq
  exact ⟨hstore, hcall, fun t ht => List.mem_map_of_mem (htargets t ht)⟩

/-- The code of an expression without effects is enclosed, for its value as for its address. -/
theorem enclosed_of_effectless {n : Node} (h : n.hasEffects = false) {c : Emission.Context}
    {k k' : Counters} {code : Code}
    (he : Emission.value c n k = .ok (code, k') ∨ Emission.address c n k = .ok (code, k')) :
    Enclosed 0 code.lines 1 := by
  rcases he with he | he
  · exact emits_enclosed (value_emits he).1 (by simp [Task.isEffectless, h]) 0
  · exact emits_enclosed (address_emits he).1 (by simp [Task.isEffectless, h]) 0

/-- Expressions without effects leave no trace. Their typed forms have no effects either, whether
arrays are taken for pointers or not. The code of these, for the value or for the address, has no
stores and no calls and jumps only among its own lines, so that every run through it changes
nothing but scratch registers and free operand slots. And when a typed form is evaluated twice, as
in an update that names its target twice, the second evaluation gives what the first one gave. -/
theorem effectless_traceless {c : Typing.Context} {n n' : Node} (h : n.hasEffects = false)
    (hn : elaborate c n = .ok n' ∨ (elaborate c n >>= decay) = .ok n') :
    n'.hasEffects = false ∧
    (∀ (ec : Emission.Context) (k k' : Counters) (code : Code),
      Emission.value ec n' k = .ok (code, k') ∨ Emission.address ec n' k = .ok (code, k') →
      (∀ x ∈ code.lines, isStore x = false ∧ isCall x = false ∧
        ∀ t, target? x = some t → .label t ∈ code.lines) ∧
      ∀ w prog i st st', Unambiguous prog → CodeAt prog i code.lines → st.pc = i →
        Through w prog i (i + code.lines.length) st st' → Undisturbed code.lines i st st') ∧
    (∀ (σ ρ : Type) (o : Objects σ ρ) (rounds : Nat), Run.Steady (eval o rounds n') ∧
      (do let v ← eval o rounds n'; let u ← eval o rounds n'; return (v, u)) =
        (do let v ← eval o rounds n'; return (v, v)) ∧
      (n'.isReferable = true →
        (do let r ← object o rounds n'; let v ← eval o rounds n'; return (r, v)) =
          (do let r ← object o rounds n'; let v ← o.read n'.type? r; return (r, v)))) ∧
    ∀ op value p s, Parse.update op n value p s =
      .ok (.assign (.bare p) n (.binary (.bare p) op n value)) s := by
  have heffectless : n'.hasEffects = false := by
    rcases hn with hn | hn
    · exact (yields_effectless c n h).of_ok hn
    · obtain ⟨e, he, hdecay⟩ := Initializer.bind_eq_ok hn
      exact (yields_effectless_decay ((yields_effectless c n h).of_ok he)).of_ok hdecay
  refine ⟨heffectless, fun ec k k' code hcode => ?_, fun σ ρ o rounds => ?_, fun op value p s => ?_⟩
  · have henclosed := enclosed_of_effectless heffectless hcode
    exact ⟨henclosed.lines, fun w prog i st st' => undisturbed_of_enclosed henclosed⟩
  · have hsteady : Run.Steady (eval o rounds n') := (steady_effectless n' heffectless).1
    exact ⟨hsteady, hsteady.twice, object_then_eval heffectless⟩
  · rw [Parse.update, h]
    rfl

def subscriptSource : String :=
  "int f(int *p, int i) \x7b return p[i && i < 4 ? sizeof (i = 3) : 0]; \x7d"

/-- An element whose index branches and asks for the size of an assignment: its code jumps, for the
value and for the address, and has no store. -/
theorem effectless_traceless_subscript :
    ∃ (p : Program) (f : Function) (x x' : Node) (code code' : Code) (k k' : Counters),
      parse subscriptSource = .ok p ∧ f ∈ p.functions ∧ x.hasEffects = false ∧
      elaborate ⟨p, f.returnType⟩ x = .ok x' ∧ x'.isReferable = true ∧ x'.hasEffects = false ∧
      Emission.value (.ofFunction p f) x' ⟨0, 0⟩ = .ok (code, k) ∧
      Emission.address (.ofFunction p f) x' ⟨0, 0⟩ = .ok (code', k') ∧
      (∃ y ∈ code.lines, ∃ t, target? y = some t ∧ .label t ∈ code.lines) ∧
      (∃ y ∈ code'.lines, ∃ t, target? y = some t ∧ .label t ∈ code'.lines) ∧
      ∀ y ∈ code.lines ++ code'.lines, isStore y = false := by
  have hcheck : (parse subscriptSource).toOption.any (fun p => p.returnsCoded
      (fun f x => elaborate ⟨p, f.returnType⟩ x) fun f x x' code =>
        !x.hasEffects && x'.isReferable && code.lines.any (fun y => (target? y).isSome) &&
        (Emission.address (.ofFunction p f) x' ⟨0, 0⟩).toOption.any fun r =>
          r.1.lines.any (fun y => (target? y).isSome)) = true := by
    decide +kernel
  obtain ⟨p, hp, hchecks⟩ := exists_of_any hcheck
  obtain ⟨f, i, j, x, x', code, k, hf, -, hx, hcode, htest⟩ :=
    Program.exists_of_returnsCoded hchecks
  simp only [Bool.and_eq_true, Bool.not_eq_true'] at htest
  obtain ⟨⟨⟨hpure, href⟩, hjumps⟩, htest⟩ := htest
  obtain ⟨⟨code', k'⟩, hcode', hjumps'⟩ := exists_of_any htest
  obtain ⟨heffectless, hlines, -, -⟩ := effectless_traceless hpure (Or.inl hx)
  obtain ⟨hquiet, -⟩ := hlines _ _ _ _ (Or.inl hcode)
  obtain ⟨hquiet', -⟩ := hlines _ _ _ _ (Or.inr hcode')
  have hinside {ls : List Line} (hany : ls.any (fun x => (target? x).isSome) = true)
      (hls : ∀ x ∈ ls, isStore x = false ∧ isCall x = false ∧
        ∀ t, target? x = some t → .label t ∈ ls) :
      ∃ y ∈ ls, ∃ t, target? y = some t ∧ .label t ∈ ls := by
    obtain ⟨y, hy, hsome⟩ := List.any_eq_true.mp hany
    obtain ⟨t, ht⟩ := Option.isSome_iff_exists.mp hsome
    exact ⟨y, hy, t, ht, (hls y hy).2.2 t ht⟩
  refine ⟨p, f, x, x', code, code', k, k', hp, hf, hpure, hx, href, heffectless, hcode, hcode',
    hinside hjumps hquiet, hinside hjumps' hquiet', fun y hy => ?_⟩
  rcases List.mem_append.mp hy with hy | hy
  · exact (hquiet y hy).1
  · exact (hquiet' y hy).1

end StackC
