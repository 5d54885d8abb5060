import StackC.Proofs.Acceptance
import StackC.Proofs.Emission.Labels
import StackC.Proofs.Simulation.Frames
import StackC.Proofs.Simulation.Trees

namespace StackC

open Assembly Machine

namespace Semantics

def frameContents (p : Program) (f : Function) (st : State) : Store := fun id =>
  match f.width? p id with
  | none => 0
  | some w =>
    let k := ((Frame.ofLocals p.vars f.locals).offset? id).getD 0
    st.mem.load w (st.regs .rsp - 8 - BitVec.ofNat 64 k)

def Store.assign (p : Program) (f : Function) (s : Store) (id : VarId) (v : Word) : Store :=
  match f.width? p id with
  | none => s
  | some w => s.set id (narrow w v)

/-- The values of the locals when the body begins: parameters have the values in the registers of
the arguments, and the others those in the frame. -/
def initialStore (p : Program) (f : Function) (st : State) : Store :=
  (f.params.zip Emission.argumentRegs).foldl (fun s q => s.assign p f q.1 (st.regs q.2))
    (frameContents p f st)

/-- The ways in which a body ends a function, with the value that the function returns. -/
inductive Returns : Except Exit Unit → Word → Prop where
  | value (v : Word) : Returns (.error (.returned (some v))) v
  | finish : Returns (.ok ()) 0

end Semantics

namespace Simulation

open Emission Semantics

variable {K : Setting} {p : Program} {f : Function} {body : Node} {P : State → Prop} {i : Nat}
  {s : Store} {st entry : State} {ls : List Line}

/-- When the base pointer has been saved, the frame holds what memory held there. -/
theorem inFrame_entry (h : Framed K (frameOf p f).size) (hframe : K.frame = st.regs .rsp - 8) :
    InFrame K p f st (frameContents p f st)
      (st.mem.store .quad (st.regs .rsp - 8) (st.regs .rbp)) := by
  rw [← hframe]
  refine ⟨fun id w hw => ?_, ?_, fun x hx => ?_⟩
  · have hload : frameContents p f st id = st.mem.load w (K.slotOf p f id) := by
      simp only [frameContents, hw, Setting.slotOf, hframe]
    rw [hload]
    exact Memory.load_congr fun j hj => Framed.store_saved (h.depth_slotOf hw hj).1
  · rw [Memory.load_store_same, Memory.narrow_quad]
  · apply Framed.store_saved
    omega

/-- The frame is opened below the saved base pointer. -/
theorem reaches_frame (h : Framed K (frameOf p f).size) (hframe : K.frame = st.regs .rsp - 8)
    (hc : CodeAt K.prog i (headLines f.name (frameOf p f).size ++ ls)) (hpc : st.pc = i + 2)
    (hk : ∀ st', At K (InFrame K p f st) (i + 6) (frameContents p f st) [] st' →
      (∀ r ∈ argumentRegs, st'.regs r = st.regs r) → Reaches K.world K.prog P st') :
    Reaches K.world K.prog P st := by
  have hcode := hc.tail.tail
  have hfetch : K.prog[st.pc]? = some (.label (.symbol f.name)) := by
    rw [hpc]
    exact hcode.head
  refine .label hfetch (.plain (i := .push .rbp) ?_ rfl (.plain (i := .mov .rsp .rbp) ?_ rfl
    (.plain (i := .subImm (frameOf p f).size .rsp) ?_ rfl (hk _ ?_ ?_))))
  · simpa [hpc] using hcode.tail.head
  · simpa [hpc] using hcode.tail.tail.head
  · simpa [hpc] using hcode.tail.tail.tail.head
  · refine ⟨?_, ?_, ?_, trivial, ?_⟩
    · simp [hpc]
    · simp [hframe]
    · simp [hframe, Setting.slot_zero, h.base]
    · exact inFrame_entry h hframe
  · intro r hr
    have hsp : r ≠ .rsp := by
      rintro rfl
      exact absurd hr (by decide)
    have hbp : r ≠ .rbp := by
      rintro rfl
      exact absurd hr (by decide)
    simp [hsp, hbp]

theorem width?_of_param (hd : f.Defined p body) {id : VarId} (hid : id ∈ f.params) {v : Var}
    {w : Width} (hv : p.vars[id]? = some v) (hw : Width.ofBytes? v.type.size = some w) :
    f.width? p id = some w := by
  obtain ⟨x, hx, hscalar⟩ := hd.scalars id hid
  cases hx.symm.trans hv
  simp only [Function.width?, hd.params.subset hid, if_true, hv, hscalar, hw]

/-- The arguments are stored in the slots of the parameters, one after the other. -/
theorem At.spills (hd : f.Defined p body) (h : Framed K (frameOf p f).size) {index : Nat}
    {ids : List VarId} {as : List Line} (hs : Spills (.ofFunction p f) index ids as)
    (hids : ids ⊆ f.params) (hat : At K (InFrame K p f entry) i s [] st)
    (hc : CodeAt K.prog i (as ++ ls))
    (hk : ∀ st', At K (InFrame K p f entry) (i + as.length)
      ((ids.zip (argumentRegs.drop index)).foldl (fun s q => s.assign p f q.1 (st.regs q.2)) s)
      [] st' →
      Reaches K.world K.prog P st') : Reaches K.world K.prog P st := by
  induction hs generalizing i s st with
  | nil => exact hk st hat
  | @cons index id ids as v w r k hv hw hr hoff hs ih =>
    obtain ⟨hid, hids⟩ := List.cons_subset.mp hids
    have hwidth := width?_of_param hd hid hv hw
    have hslot : st.regs .rbp - BitVec.ofNat 64 k = K.slotOf p f id := by
      have hoff : (frameOf p f).offset? id = some k := hoff
      rw [hat.frame, Setting.slotOf, hoff]
      rfl
    have hdrop : argumentRegs.drop index = r :: argumentRegs.drop (index + 1) := by
      obtain ⟨hlt, rfl⟩ := List.getElem?_eq_some_iff.mp hr
      exact List.drop_eq_getElem_cons hlt
    have hassign : s.assign p f id (st.regs r) = s.set id (narrow w (st.regs r)) := by
      simp only [Store.assign, hwidth]
    refine .plain (hat.fetch hc) rfl ?_
    rw [hslot]
    refine ih hids (s := s.assign p f id (st.regs r)) ?_ hc.tail fun st' hat' => hk st' ?_
    · rw [hassign]
      refine ⟨congrArg (· + 1) hat.pc, hat.frame, hat.top, trivial, ?_⟩
      exact hat.agrees.store h hwidth (st.regs r)
    · rw [hdrop, List.zip_cons_cons, List.foldl_cons, List.length_cons, Nat.add_comm as.length,
        ← Nat.add_assoc]
      exact hat'

/-- The machine is about to return from a function whose text ends before the index `stop`, with the
value `v` and with the stack as it was at the entry. -/
structure Returned (prog : List Line) (stop stackBytes : Nat) (entry : State) (v : Word)
    (st : State) :
    Prop where
  stops : st.pc + 1 = stop
  ret : prog[st.pc]? = some (.instr .ret)
  value : st.regs .rax = v
  top : st.regs .rsp = entry.regs .rsp
  frame : st.regs .rbp = entry.regs .rbp
  memory : ∀ x, stackBytes ≤ (entry.regs .rsp - 1 - x).toNat → st.mem x = entry.mem x

/-- The end of a function gives the frame back. -/
theorem reaches_ret (hframe : K.frame = entry.regs .rsp - 8) {name : String} {v : Word}
    (hc : CodeAt K.prog i (tailLines name)) (hpc : st.pc = i) (hrbp : st.regs .rbp = K.frame)
    (hrax : st.regs .rax = v) (hin : InFrame K p f entry s st.mem) :
    Reaches K.world K.prog
      (Returned K.prog (i + 4) (8 + (frameOf p f).size + K.room) entry v) st := by
  subst hpc
  refine .label hc.head (.plain (i := .mov .rbp .rsp) hc.tail.head rfl
    (.plain (i := .pop .rbp) hc.tail.tail.head rfl (.here ?_)))
  refine ⟨rfl, hc.tail.tail.tail.head, ?_, ?_, ?_, fun x hx => ?_⟩
  · simpa using hrax
  · simp only [State.regs_next, State.regs_set, reduceCtorEq, if_false, if_true, hrbp, hframe]
    exact BitVec.sub_add_cancel _ _
  · simp only [State.regs_next, State.regs_set, State.mem_next, State.mem_set, if_true, hrbp]
    exact hin.saved
  · apply hin.rest
    have hdepth : K.depth x = (entry.regs .rsp - 1 - x).toNat := by
      unfold Setting.depth
      rw [hframe]
      congr 1
      bv_omega
    rw [hdepth]
    exact hx

def returning (K : Setting) (p : Program) (f : Function) (entry : State) (j : Nat) :
    Handler Store where
  takes e := ∃ v, e = .returned (some v)
  post e s st := st.pc = j ∧ st.regs .rbp = K.frame ∧ InFrame K p f entry s st.mem ∧
    ∀ v, e = .returned (some v) → st.regs .rax = v

/-- Returns lead to the end of the function. -/
theorem exits_returning {j : Nat} (hj : Marks K.prog (.functionEnd f.name) j) :
    Exits K (InFrame K p f entry) (.ofFunction p f) [] (returning K p f entry j) where
  broke := nofun
  continued := nofun
  returned v _ := by
    refine ⟨j, hj, fun s st hpc hrbp hin hv => ⟨hpc, hrbp, hin, ?_⟩⟩
    rintro x ⟨⟩
    exact hv x rfl

/-- The lines between the opening of the frame and the end of a function. -/
theorem At.runs {n n' rounds : Nat} {as : List Line} {r : Except Exit Unit} {s' : Store} {v : Word}
    (hd : f.Defined p body) (h : Framed K (frameOf p f).size)
    (hb : Emits (.ofFunction p f) (.statement body) 0 n as n') (hroom : 8 * pushes as ≤ K.room)
    (hc : CodeAt K.prog i (as ++ (.instr (.movImm 0 .quad .rax) :: tailLines f.name)))
    (hat : At K (InFrame K p f entry) i s [] st)
    (hrun : perform (scalars p f) rounds body s = some (r, s')) (hr : Returns r v)
    (hk : ∀ st', st'.pc = i + as.length + 1 → st'.regs .rbp = K.frame → st'.regs .rax = v →
      InFrame K p f entry s' st'.mem → Reaches K.world K.prog P st') :
    Reaches K.world K.prog P st := by
  have hend : Marks K.prog (.functionEnd f.name) (i + as.length + 1) :=
    K.unambiguous.marks hc.right.tail.head nofun
  have hsim : Implements K _ (returning K p f entry (i + as.length + 1)) as []
      (perform (scalars p f) rounds body) fun _ => [] :=
    emits_simulated hb (represents_scalars hd h) (exits_returning hend) rfl
  have hspace : 8 * (([] : List Word).length + pushes as) ≤ K.room := by
    simpa using hroom
  cases hr with
  | value v =>
    refine (hsim i s st _ s' hc.left hspace hat hrun ⟨v, rfl⟩).trans fun st₁ h₁ => ?_
    obtain ⟨hpc, hrbp, hin, hv⟩ := h₁
    exact hk st₁ hpc hrbp (hv v rfl) hin
  | finish =>
    refine (hsim i s st _ s' hc.left hspace hat hrun trivial).trans fun st₁ h₁ => ?_
    -- The body has come to its end, and the result is zero.
    refine .plain (h₁.fetch hc.right) rfl (hk _ ?_ ?_ ?_ h₁.agrees)
    · exact congrArg (· + 1) h₁.pc
    · simpa using h₁.frame
    · rfl

def settingOf (w : Surroundings) {prog : List Line} (h : Unambiguous prog) (st : State)
    (size : Nat) {room : Nat} (hfits : 8 + size + room < 0x10000000000000000) : Setting where
  world := w
  prog := prog
  frame := st.regs .rsp - 8
  base := st.regs .rsp - 8 - BitVec.ofNat 64 size
  room := room
  room_lt := by omega
  unambiguous := h

end Simulation

namespace Emission

open Semantics Simulation

/-- A bound for the bytes of the stack that a function uses: the saved base pointer, the frame, and
one slot for every line that pushes an operand. -/
def Block.stackBytes (b : Block) : Nat := 8 + b.frameSize + 8 * pushes b.body

/-- The text of a function returns what its body returns, and with the stack as it was. -/
theorem emitsBody_returns {p : Program} {f : Function} {body : Node} {n n' : Nat} {ls : List Line}
    (hb : EmitsBody p f body n ls n') (hd : f.Defined p body) {b : Block}
    (hblock : b = ⟨f.name, (frameOf p f).size, ls⟩) (hfits : b.stackBytes < 0x10000000000000000)
    {w : Surroundings} {prog : List Line} (hun : Unambiguous prog) {i : Nat}
    (hc : CodeAt prog i b.lines) {st : State} (hpc : st.pc = i + 2) {rounds : Nat}
    {r : Except Exit Unit} {s' : Store} {v : Word}
    (hrun : perform (scalars p f) rounds body (initialStore p f st) = some (r, s'))
    (hr : Returns r v) :
    Reaches w prog (Returned prog (i + b.lines.length) b.stackBytes st v) st := by
  subst hblock
  let K := settingOf w hun st _ hfits
  have hframed : Framed K (frameOf p f).size := ⟨rfl, hfits⟩
  cases hb with
  | @intro as bs _ hs hbody =>
    have hroom : 8 * pushes bs ≤ K.room := by
      show 8 * pushes bs ≤ 8 * pushes (as ++ (bs ++ [.instr (.movImm 0 .quad .rax)]))
      rw [pushes_append, pushes_append]
      omega
    refine reaches_frame (K := K) hframed rfl hc hpc fun st₁ h₁ hregs => ?_
    have hc₁ := hc.right
    simp only [List.append_assoc, List.singleton_append] at hc₁
    refine h₁.spills hd hframed hs (List.Subset.refl _) hc₁ fun st₂ h₂ => ?_
    -- The registers of the arguments are as they were at the entry.
    have hstore : (f.params.zip (argumentRegs.drop 0)).foldl
        (fun s q => s.assign p f q.1 (st₁.regs q.2)) (frameContents p f st) =
          initialStore p f st := by
      refine List.foldl_ext _ _ _ fun s q hq => ?_
      rw [hregs q.2 (List.of_mem_zip hq).2]
    rw [hstore] at h₂
    refine h₂.runs hd hframed hbody hroom hc₁.right hrun hr fun st₃ hpc₃ hrbp₃ hrax₃ hin₃ => ?_
    have hstop : i + (Block.lines ⟨f.name, (frameOf p f).size,
        as ++ (bs ++ [.instr (.movImm 0 .quad .rax)])⟩).length =
        i + 6 + as.length + bs.length + 1 + 4 := by
      simp only [Block.lines, headLines, tailLines, List.length_append, List.length_cons,
        List.length_nil]
      omega
    rw [hstop]
    exact reaches_ret (K := K) rfl hc₁.right.right.tail hpc₃ hrbp₃ hrax₃ hin₃

/-- The output of a program defines its labels once. -/
theorem unambiguous_emit {p : Program} (hn : (p.functions.map (·.name)).Nodup) {lines : List Line}
    (h : p.emit = .ok lines) : Unambiguous lines := by
  intro l i j hl hi hj
  exact index_unique (defines_emit_le_one hn h hl) hi hj

/-- The block of a function in the text of a program. -/
theorem exists_block {p : Program} {lines : List Line} (h : p.emit = .ok lines) {f : Function}
    (hf : f ∈ p.functions) {body : Node} (hb : f.body = some body) :
    ∃ (b : Block) (before after : List Line), lines = before ++ (b.lines ++ after) ∧
      Block.Of p f b := by
  obtain ⟨ls, n, hs, rfl⟩ := emit_eq_ok.mp h
  obtain ⟨blocks, rfl, hblocks⟩ := emitsAll_blocks hs
  have hdefined : f ∈ p.functions.filter (·.body.isSome) :=
    List.mem_filter.mpr ⟨hf, by rw [hb]; rfl⟩
  obtain ⟨b, hmem, hof⟩ := Lists.exists_right_of_forall₂ hblocks hdefined
  obtain ⟨front, back, rfl⟩ := List.append_of_mem hmem
  refine ⟨b, dataSection p ++ front.flatMap Block.lines,
    back.flatMap Block.lines ++ [.directive .plainStack], ?_, hof⟩
  simp

end Emission

open Emission Semantics Simulation

/-- In the text of a compiled program every function has a block of its own. If the interpreter
ends the body of the function, using scalar locals only, then the block, entered at its label with
room on the stack, runs to its return with the same value, and the stack and base pointers and all
memory outside of the used stack are as at the entry. -/
theorem compile_function_returns {source text : String} (h : compile source = .ok text) :
    ∃ (p : Program) (lines : List Line), analyze source = .ok p ∧ p.emit = .ok lines ∧
      text = render lines ∧
      ∀ f ∈ p.functions, ∀ body, f.body = some body →
      ∃ (b : Block) (before after : List Line), lines = before ++ (b.lines ++ after) ∧
        b.name = f.name ∧ b.frameSize = (Frame.ofLocals p.vars f.locals).size ∧
        (b.stackBytes < 0x10000000000000000 →
        ∀ (w : Surroundings) (st : State), st.pc = before.length + 2 →
        ∀ (rounds : Nat) (r : Except Exit Unit) (s : Store) (v : Word),
          perform (scalars p f) rounds body (initialStore p f st) = some (r, s) → Returns r v →
          Reaches w lines
            (Returned lines (before.length + b.lines.length) b.stackBytes st v) st) := by
  obtain ⟨p, lines, hp, hl, rfl⟩ := compile_eq_ok.mp h
  have hel : p.Elaborated := (yields_analyze source).of_ok hp
  have hun := unambiguous_emit hel.valid.names hl
  refine ⟨p, lines, hp, hl, rfl, fun f hf body hb => ?_⟩
  obtain ⟨b, before, after, rfl, hof⟩ := exists_block hl hf hb
  have hc : CodeAt (before ++ (b.lines ++ after)) before.length b.lines := .of_append _ _ _
  have hd := hel.valid.bodies f hf body hb
  cases hof with
  | intro hb' hbody =>
    cases hb.symm.trans hb'
    refine ⟨_, before, after, rfl, rfl, rfl, fun hfits w st hpc rounds r s v hrun hr => ?_⟩
    exact emitsBody_returns hbody hd rfl hfits hun hc hpc hrun hr

/-- The value of a return statement that has one. -/
def returned? : Except Exit Unit → Option Word
  | .error (.returned v) => v
  | _ => none

theorem eq_error_of_returned? {r : Except Exit Unit} {v : Word} (h : returned? r = some v) :
    r = .error (.returned (some v)) := by
  unfold returned? at h
  split at h
  · subst h
    rfl
  · cases h

/-- A loop that is left from inside of an operand. -/
def countdownSource : String :=
  "int f(int a) \x7b
    int s = 0; while (1) s = s + (\x7b if (!a) break; a = a - 1; a + 1; \x7d); return s; \x7d"

def countdownEntry (pc : Nat) : State where
  regs r := if r = .rdi then 4 else if r = .rsp then 0x2000 else 0
  mem _ := 0xff
  compared := none
  pc := pc

/-- The function returns the sum of the numbers from its argument down to one. -/
theorem compile_function_returns_countdown :
    ∃ (p : Program) (lines : List Line) (f : Function) (body : Node) (b : Block)
      (before after : List Line) (s : Store),
      (compile countdownSource).isOk = true ∧ analyze countdownSource = .ok p ∧
      p.emit = .ok lines ∧ f ∈ p.functions ∧ f.body = some body ∧
      lines = before ++ (b.lines ++ after) ∧ b.stackBytes < 0x10000000000000000 ∧
      perform (scalars p f) 10 body (initialStore p f (countdownEntry (before.length + 2))) =
        some (.error (.returned (some 10)), s) ∧
      ∀ w, Reaches w lines (Returned lines (before.length + b.lines.length) b.stackBytes
        (countdownEntry (before.length + 2)) 10) (countdownEntry (before.length + 2)) := by
  have hok : (compile countdownSource).isOk = true := by decide +kernel
  have hcheck : (analyze countdownSource).toOption.any (fun p => p.lastBody?.any fun q =>
      p.emit.toOption.any (fun lines => decide (pushes lines ≤ 1000)) &&
      decide ((Frame.ofLocals p.vars q.1.locals).size ≤ 64) &&
      (perform (scalars p q.1) 10 q.2 (initialStore p q.1 (countdownEntry 0))).any fun r =>
        returned? r.1 == some 10) = true := by
    decide +kernel
  obtain ⟨text, hc⟩ := exists_text hok
  obtain ⟨p, lines, hp, hl, -, hall⟩ := compile_function_returns hc
  have hchecks := of_any hp hcheck
  obtain ⟨f, body, hf, hb, htest⟩ := Program.exists_of_lastBody? hchecks
  simp only [hl, Except.toOption, Option.any_some, Bool.and_eq_true, decide_eq_true_eq] at htest
  obtain ⟨⟨hpushes, hsize⟩, hreturned⟩ := htest
  obtain ⟨⟨r, s⟩, hrun, hvalue⟩ := (Option.any_eq_true _ _).mp hreturned
  obtain rfl := eq_error_of_returned? (eq_of_beq hvalue)
  obtain ⟨b, before, after, hlines, -, hframe, hreturns⟩ := hall f hf body hb
  have hfits : b.stackBytes < 0x10000000000000000 := by
    rw [hlines, Block.lines, pushes_append, pushes_append, pushes_append, pushes_append] at hpushes
    unfold Block.stackBytes
    omega
  refine ⟨p, lines, f, body, b, before, after, s, hok, hp, hl, hf, hb, hlines, hfits, hrun,
    fun w => ?_⟩
  exact hreturns hfits w _ rfl 10 _ s 10 hrun (.value 10)

end StackC
