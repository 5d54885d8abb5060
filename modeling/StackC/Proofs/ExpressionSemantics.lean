import StackC.Proofs.Acceptance
import StackC.Proofs.Emission.Labels
import StackC.Proofs.Simulation.Trees
import StackC.Proofs.Typing.Parts

/-!
Expressions on byte memory. The lines of an expression leave the value that the interpreter gives it
and the memory that the interpreter leaves, whatever the functions do that it calls.
-/

namespace StackC

namespace Simulation

open Assembly Emission Machine Semantics

/-- What calls do: from the name, the arguments and the memory outside of the operand stack, the
result and the memory after the call. -/
abbrev Oracle := String → List Word → Memory → Option (Word × Memory)

namespace Setting

variable (K : Setting)

instance (x : Word) : Decidable (K.Own x) := inferInstanceAs (Decidable (_ < _))

/-- No byte of an object is one of the operand stack. -/
def Clear (w : Width) (a : Word) : Prop := ∀ k < w.bytes, ¬K.Own (a + BitVec.ofNat 64 k)

instance (w : Width) (a : Word) : Decidable (K.Clear w a) := Nat.decidableBallLT _ _

def outside (m : Memory) : Memory := fun x => if K.Own x then 0 else m x

def locate (c : Emission.Context) (id : VarId) : Option Word :=
  match c.vars[id]? with
  | none => none
  | some v =>
    if v.isLocal then (c.frame.offset? id).map fun k => K.frame - BitVec.ofNat 64 k
    else some (K.world.symbol v.name)

/-- Objects are bytes in memory. The operand stack is no part of any object. -/
def objects (p : Program) (c : Emission.Context) (oracle : Oracle) : Objects Memory Word where
  named := K.locate c
  pointee a := some a
  member a k := some (a + BitVec.ofNat 64 k)
  address a := some a
  load w a m := if K.Clear w a then some (m.load w a) else none
  store w a v m := if K.Clear w a then some (m.store w a v) else none
  call name args m := if p.accepts name args.length then oracle name args (K.outside m) else none

/-- The functions that are called do what the oracle tells of the arguments that the line of the
call passes. All registers but two can change, and of the operand stack the slots that are not in
use. -/
def Follows (p : Program) (oracle : Oracle) : Prop :=
  ∀ name args st n v m, K.prog[st.pc]? = some (.instr (.call name args.length)) →
    p.accepts name args.length = true → oracle name args (K.outside st.mem) = some (v, m) →
    (argumentRegs.take args.length).map st.regs = args →
    st.regs .rbp = K.frame → st.regs .rsp = K.slot n → 8 * n ≤ K.room →
    (∃ st', K.world.callee name st st') ∧ ∀ st', K.world.callee name st st' →
      st'.regs .rbp = st.regs .rbp ∧ st'.regs .rsp = st.regs .rsp ∧ st'.regs .rax = v ∧
      (∀ x, ¬K.Own x → st'.mem x = m x) ∧ ∀ x, K.below x < 8 * n → st'.mem x = st.mem x

def answered (st : State) (v : Word) (m : Memory) : State :=
  (st.setMem fun x => if K.Own x then st.mem x else m x).set .rax v

/-- Functions that give the answers of an oracle and leave all else as it is. -/
def obeying (oracle : Oracle) : Surroundings where
  symbol := K.world.symbol
  callee name st st' := ∀ count v m, K.prog[st.pc]? = some (.instr (.call name count)) →
    oracle name ((argumentRegs.take count).map st.regs) (K.outside st.mem) = some (v, m) →
    st' = K.answered st v m

def words (m : Memory) : Nat → List Word
  | 0 => []
  | d + 1 => m.load .quad (K.slot (d + 1)) :: words m d

variable {K} {m m' : Memory} {p : Program} {c : Emission.Context} {oracle : Oracle}

theorem length_words (m : Memory) (d : Nat) : (K.words m d).length = d := by
  induction d with
  | zero => rfl
  | succ d ih => rw [words, List.length_cons, ih]

theorem stacked_words (m : Memory) (d : Nat) : K.Stacked m (K.words m d) := by
  induction d with
  | zero => trivial
  | succ d ih =>
    refine ⟨?_, ih⟩
    rw [length_words]

/-- Slots that hold the words of another memory hold them one by one. -/
theorem load_of_stacked_words {d : Nat} (h : K.Stacked m' (K.words m d)) {k : Nat} (hk : k < d) :
    m'.load .quad (K.slot (k + 1)) = m.load .quad (K.slot (k + 1)) := by
  induction d with
  | zero => exact absurd hk (Nat.not_lt_zero k)
  | succ d ih =>
    obtain ⟨hv, h⟩ := h
    rw [length_words] at hv
    rcases Nat.lt_succ_iff_lt_or_eq.mp hk with hk | rfl
    · exact ih h hk
    · exact hv

/-- What calls see of memory does not depend on the operands. -/
theorem outside_congr (h : ∀ x, ¬K.Own x → m' x = m x) : K.outside m' = K.outside m := by
  funext x
  unfold outside
  split
  · rfl
  · next hx => exact h x hx

/-- No oracle asks too much of the functions: a line passes one number of arguments only. -/
theorem follows_obeying (oracle : Oracle) :
    { K with world := K.obeying oracle }.Follows p oracle := by
  intro name args st n v m hfetch _ ho hargs _ _ hn
  have hanswer : oracle name ((argumentRegs.take args.length).map st.regs) (K.outside st.mem) =
      some (v, m) := by
    rw [hargs]
    exact ho
  constructor
  · refine ⟨K.answered st v m, fun count v' m' hfetch' hanswer' => ?_⟩
    cases hfetch.symm.trans hfetch'
    cases hanswer.symm.trans hanswer'
    rfl
  · intro st' hst
    obtain rfl := hst _ v m hfetch hanswer
    refine ⟨rfl, rfl, rfl, fun x hx => if_neg hx, fun x hx => if_pos ?_⟩
    exact Nat.lt_of_lt_of_le hx hn

/-- A store to an object does not touch the operand stack. -/
theorem store_of_own {w : Width} {a x : Word} (hc : K.Clear w a) (hx : K.Own x) (v : Word) :
    m.store w a v x = m x := by
  apply Memory.store_of_le
  apply Nat.le_of_not_lt
  intro hlt
  obtain ⟨k, hk, rfl⟩ := Memory.exists_offset hlt
  exact hc k hk hx

/-- The address that the code computes of a variable is where the variable lies. -/
theorem locate_eq {id : VarId} {a : Word} {lea : Instr} (h : K.locate c id = some a)
    (hl : Locates c id lea) : K.located lea = some a := by
  cases hl with
  | onFrame hv hlocal hk =>
    rw [locate, hv] at h
    simp only [hlocal, if_true, hk, Option.map_some] at h
    exact h
  | inData hv hglobal =>
    rw [locate, hv] at h
    simp only [hglobal, Bool.false_eq_true, if_false] at h
    exact h

/-- Byte memory represents itself outside of the operand stack, if the functions follow the
oracle. -/
theorem represents_objects (h : K.Follows p oracle) :
    Represents K c (K.objects p c oracle) (fun s m => ∀ x, ¬K.Own x → m x = s x) id where
  apart s m m' hm hout x hx := (hout x hx).trans (hm x hx)
  named id a lea hn hl := locate_eq hn hl
  pointee a r hp := by
    cases hp
    rfl
  member r k r' hm := by
    cases hm
    rfl
  address r a ha := by
    cases ha
    rfl
  load s m w a v hm hl := by
    obtain ⟨hc, hv⟩ := Option.ite_none_right_eq_some.mp hl
    cases hv
    exact Memory.load_congr fun k hk => hm _ (hc k hk)
  store s m w a v s' hm hs := by
    obtain ⟨hc, hs⟩ := Option.ite_none_right_eq_some.mp hs
    cases hs
    exact ⟨fun x hx => Memory.store_congr (hm x hx), fun x hx => store_of_own hc hx v⟩
  call name args s st v s' n hfetch hcall hm hrbp hrsp hn hargs := by
    obtain ⟨hp, ho⟩ := Option.ite_none_right_eq_some.mp hcall
    rw [← outside_congr hm] at ho
    exact h name args st n v s' hfetch hp ho hargs hrbp hrsp hn

end Setting

def noExits (σ : Type) : Handler σ := ⟨fun _ => False, fun _ _ _ => True⟩

theorem exits_noExits {σ : Type} {K : Setting} {R : σ → Memory → Prop} {c : Emission.Context}
    {stk : List Word} : Exits K R c stk (noExits σ) where
  broke := nofun
  continued := nofun
  returned _ := nofun

/-- The state in which the lines of an expression of value `v` leave the machine: the value is in a
slot of its own above the `d` slots in use, and memory is `m` outside of the operand stack. -/
structure Evaluated (K : Setting) (d i : Nat) (st : State) (v : Word) (m : Memory) (st' : State) :
    Prop where
  pc : st'.pc = i
  frame : st'.regs .rbp = K.frame
  top : st'.regs .rsp = K.slot (d + 1)
  value : st'.mem.load .quad (K.slot (d + 1)) = v
  kept : ∀ k < d, st'.mem.load .quad (K.slot (k + 1)) = st.mem.load .quad (K.slot (k + 1))
  memory : ∀ x, ¬K.Own x → st'.mem x = m x

/-- The lines of an expression lead to the value and to the memory that the interpreter gives. -/
theorem emits_evaluated {K : Setting} {p : Program} {c : Emission.Context}
    {oracle : Oracle} {e : Node} {d n n' rounds i : Nat} {ls : List Line} {st : State} {v : Word}
    {m : Memory}
    (h : Emits c (.value e) d n ls n') (hf : K.Follows p oracle)
    (hroom : 8 * (d + pushes ls) ≤ K.room)
    (hc : CodeAt K.prog i ls) (hpc : st.pc = i) (hrbp : st.regs .rbp = K.frame)
    (hrsp : st.regs .rsp = K.slot d)
    (he : eval (K.objects p c oracle) rounds e st.mem = some (.ok v, m)) :
    Reaches K.world K.prog (Evaluated K d (i + ls.length) st v m) st := by
  -- The operands are whatever lies in the slots in use.
  have hlen := Setting.length_words (K := K) st.mem d
  have hat : At K (fun s m => ∀ x, ¬K.Own x → m x = s x) i st.mem (K.words st.mem d) st := by
    refine ⟨hpc, hrbp, ?_, Setting.stacked_words st.mem d, fun x _ => rfl⟩
    rw [hrsp, hlen]
  have hsim : Implements K _ (noExits Memory) ls (K.words st.mem d)
    (eval (K.objects p c oracle) rounds e) fun v => v :: K.words st.mem d :=
    emits_simulated h (Setting.represents_objects hf) exits_noExits hlen
  rw [← hlen] at hroom
  refine (hsim i st.mem st (.ok v) m hc hroom hat he trivial).mono fun st' h' => ?_
  obtain ⟨hv, hkept⟩ := h'.stacked
  have htop := h'.top
  rw [hlen] at hv
  rw [List.length_cons, hlen] at htop
  exact ⟨h'.pc, h'.frame, htop, hv, fun k hk => Setting.load_of_stacked_words hkept hk, h'.agrees⟩

end Simulation

open Assembly Emission Machine Semantics Simulation

/-- In a function of a compiled program, the code of an expression without statements can be
emitted at every depth of the operand stack. Wherever it stands in a text with unambiguous labels,
it leaves the value that the interpreter gives the expression, and the memory that the interpreter
leaves. The calls in the expression have as many arguments as the functions take, and there are
functions that do what an oracle tells, whichever it is. -/
theorem compile_expression {source text : String} (h : compile source = .ok text) :
    ∃ p, analyze source = .ok p ∧
      (∀ (K : Setting) (oracle : Oracle), ∃ w, { K with world := w }.Follows p oracle) ∧
      ∀ f ∈ p.functions, ∀ body, f.body = some body → ∀ e, e.Within body → e.isPlain = true →
      (∀ i name args, Node.Within (.call i name args) e → p.accepts name args.length = true) ∧
      ∀ (loops : List Targets) (d n : Nat), ∃ (code : Code) (n' : Nat),
        Emission.value { Context.ofFunction p f with loops := loops } e ⟨d, n⟩ =
          .ok (code, ⟨d + 1, n'⟩) ∧
        Unambiguous code.lines ∧
        ∀ (K : Setting) (oracle : Oracle), K.Follows p oracle →
        8 * (d + pushes code.lines) ≤ K.room →
        ∀ (i : Nat) (st : State), CodeAt K.prog i code.lines → st.pc = i →
          st.regs .rbp = K.frame → st.regs .rsp = K.slot d →
        ∀ (rounds : Nat) (v : Word) (m : Memory),
          eval (K.objects p (.ofFunction p f) oracle) rounds e st.mem = some (.ok v, m) →
          Reaches K.world K.prog (Evaluated K d (i + code.lines.length) st v m) st := by
  obtain ⟨p, lines, hp, -, -⟩ := compile_eq_ok.mp h
  have hel : p.Elaborated := (yields_analyze source).of_ok hp
  refine ⟨p, hp, fun K oracle => ⟨_, Setting.follows_obeying oracle⟩,
    fun f hf body hb e he hplain =>
    ⟨fun i name args hw => ?_, fun loops d n => ?_⟩⟩
  · exact hel.calls f hf body hb i name args (hw.trans he)
  have hd := hel.valid.bodies f hf body hb
  obtain ⟨t, ht, htyped⟩ := hel.typed f hf body hb
  obtain ⟨r, b, hshaped⟩ := hd.shaped.within he
  -- Without statements there is no jump out of a loop, so it does not matter which loops are
  -- around.
  obtain ⟨hvalue, -⟩ := shaped_emittable (hshaped.of_isPlain hplain false) ht (htyped.within he)
    (suits_ofFunction hel.valid hd loops d)
  obtain ⟨ls, n', hls⟩ := hvalue n
  obtain ⟨code, hcode, rfl⟩ := emits_gives hls
  refine ⟨code, n', hcode, ?_, ?_⟩
  · intro l i j hl hi hj
    exact index_unique ((emits_fresh hls).defines_le_one l) hi hj
  · intro K oracle hfollows hroom i st hc hpc hrbp hrsp rounds v m heval
    exact emits_evaluated hls hfollows hroom hc hpc hrbp hrsp heval

def sumSource : String := "int g(int a); int f(int x) \x7b return 1 + g(x); \x7d"

/-- Every function returns 41, leaves memory alone and changes registers as it likes. -/
def steadyWorld : Surroundings where
  symbol _ := 0
  callee _ st st' := st'.regs .rbp = st.regs .rbp ∧ st'.regs .rsp = st.regs .rsp ∧
    st'.regs .rax = 41 ∧ st'.mem = st.mem

def steadyOracle : Oracle := fun _ _ m => some (41, m)

def steadySetting (prog : List Line) (h : Unambiguous prog) : Setting where
  world := steadyWorld
  prog := prog
  frame := 0x2000
  base := 0x1fc0
  room := 512
  room_lt := by decide
  unambiguous := h

def steadyState : State where
  regs r := if r = .rbp then 0x2000 else if r = .rsp then 0x1fc0 else 0
  mem _ := 0
  compared := none
  pc := 0

/-- The steady world follows the oracle that always answers 41. -/
theorem follows_steady (prog : List Line) (h : Unambiguous prog) (p : Program) :
    (steadySetting prog h).Follows p steadyOracle := by
  intro name args st n v m _ _ ho _ _ _ _
  cases ho
  refine ⟨⟨st.set .rax 41, by simp [steadySetting, steadyWorld]⟩, ?_⟩
  rintro st' ⟨hrbp, hrsp, hrax, hmem⟩
  refine ⟨hrbp, hrsp, hrax, fun x hx => ?_, fun x _ => by rw [hmem]⟩
  rw [hmem, Setting.outside, if_neg hx]

/-- What an evaluation that gives the number `v` comes to. -/
theorem exists_of_value {x : Option (Except Exit Word × Memory)} {v : Word}
    (h : x.any (fun r => r.1.toOption == some v) = true) : ∃ m, x = some (.ok v, m) := by
  obtain ⟨⟨r, m⟩, rfl, hv⟩ := (Option.any_eq_true _ _).mp h
  cases r with
  | error e => cases hv
  | ok u =>
    obtain rfl := Option.some.inj (eq_of_beq hv)
    exact ⟨m, rfl⟩

section Steady

variable {prog : List Line} (hun : Unambiguous prog)

theorem steady_room {n : Nat} (h : n ≤ 64) : 8 * (0 + n) ≤ (steadySetting prog hun).room := by
  rw [Nat.zero_add]
  exact Nat.mul_le_mul_left 8 h

theorem steady_codeAt : CodeAt (steadySetting prog hun).prog 0 prog := by
  intro n x hx
  rwa [Nat.zero_add]

theorem steady_top {st : State} (h : st.regs .rsp = 0x1fc0) :
    st.regs .rsp = (steadySetting prog hun).slot 0 := by
  rw [Setting.slot_zero]
  exact h

end Steady

/-- The machine adds what `g` returns to one. -/
theorem compile_expression_sum :
    ∃ (p : Program) (f : Function) (body e : Node) (code : Code) (K : Setting) (m : Memory),
      (compile sumSource).isOk = true ∧ analyze sumSource = .ok p ∧ f ∈ p.functions ∧
      f.body = some body ∧ e.Within body ∧ e.isPlain = true ∧ K.Follows p steadyOracle ∧
      K.prog = code.lines ∧
      eval (K.objects p (.ofFunction p f) steadyOracle) 0 e steadyState.mem = some (.ok 42, m) ∧
      Reaches K.world K.prog (Evaluated K 0 code.lines.length steadyState 42 m) steadyState := by
  have hok : (compile sumSource).isOk = true := by decide +kernel
  have hcheck : (analyze sumSource).toOption.any (fun p => p.returnsCoded (fun _ e => .ok e)
      fun f e _ code => e.isPlain && decide (pushes code.lines ≤ 64) &&
        (eval ((steadySetting [] nofun).objects p (.ofFunction p f) steadyOracle) 0 e
          steadyState.mem).any (fun r => r.1.toOption == some 42)) = true := by
    decide +kernel
  obtain ⟨text, hc⟩ := exists_text hok
  obtain ⟨p, hp, -, hall⟩ := compile_expression hc
  have hchecks := of_any hp hcheck
  obtain ⟨f, i, j, e, _, code, k, hf, hb, he, hcode, htest⟩ :=
    Program.exists_of_returnsCoded hchecks
  cases he
  rw [Bool.and_eq_true, Bool.and_eq_true, decide_eq_true_eq] at htest
  obtain ⟨⟨hplain, hroom⟩, hvalue⟩ := htest
  obtain ⟨m, heval⟩ := exists_of_value hvalue
  have hw : e.Within (.block i [.ret j (some e)]) :=
    .child List.mem_cons_self (.child List.mem_cons_self .self)
  obtain ⟨-, hat⟩ := hall f hf _ hb e hw hplain
  obtain ⟨code', n', hcode', hun, hrun⟩ := hat [] 0 0
  cases hcode.symm.trans hcode'
  have hfollows := follows_steady code.lines hun p
  have hreaches := hrun _ _ hfollows (steady_room hun hroom) 0 steadyState
    (steady_codeAt hun) rfl rfl (steady_top hun rfl) 0 42 m heval
  rw [Nat.zero_add] at hreaches
  exact ⟨p, f, _, e, code, steadySetting code.lines hun, m, hok, hp, hf, hb, hw, hplain,
    hfollows, rfl, heval, hreaches⟩

end StackC
