import StackC.Proofs.ExpressionSemantics
import StackC.Proofs.Initializer.Targets
import StackC.Proofs.Simulation.Frames

/-!
The value of an assignment. The code of an assignment to an integer local leaves its right operand
as it was computed, while a reading of the local gives the part that was stored. The two are equal
exactly if the operand is in the range of the type of the local.
-/

namespace StackC

namespace Machine

open Assembly

def limit : Width → Int
  | .byte => 0x80
  | .word => 0x8000
  | .long => 0x80000000
  | .quad => 0x8000000000000000

/-- A word is its own low part with the sign extended exactly if it is in the range of the width. -/
theorem narrow_eq_self_iff {w : Width} {v : Word} :
    narrow w v = v ↔ -limit w ≤ v.toInt ∧ v.toInt < limit w := by
  have hwide : 8 * w.bytes ≤ 64 := by
    have hle := Memory.width_bytes_le w
    omega
  have hnat := BitVec.toInt_eq_toNat_cond v
  unfold narrow
  rw [← BitVec.toInt_inj, BitVec.toInt_signExtend_of_le hwide, BitVec.toInt_setWidth,
    Int.bmod_eq_iff (Nat.two_pow_pos _)]
  -- A word and its number without sign differ by a multiple of the size of the address space.
  cases w <;> simp only [Width.bytes, limit] <;> omega

end Machine

namespace Simulation

open Assembly Emission Machine Semantics

variable {K : Setting} {p : Program} {f : Function} {c : Emission.Context} {oracle : Oracle}
  {id : VarId} {w : Width} {t : CType} {i : Nat} {stk : List Word} {st : State} {a v : Word}
  {m : Memory}

/-- A scalar away from the operand stack is read as the bytes of memory. -/
theorem objects_read (ht : (t.isArray || t.isStruct) = false) (hw : Width.ofBytes? t.size = some w)
    (ha : K.Clear w a) : (K.objects p c oracle).read (some t) a m = some (.ok (m.load w a), m) := by
  have hload : (K.objects p c oracle).load w a m = some (m.load w a) := if_pos ha
  simp only [Objects.read, ht, Bool.false_eq_true, if_false, hw, Run.reading, hload,
    Option.map_some]

/-- A store to an object away from the operand stack is a store to memory. -/
theorem objects_write (hw : Width.ofBytes? t.size = some w) (ha : K.Clear w a) :
    (K.objects p c oracle).write (some t) a v m = some (.ok (), m.store w a v) := by
  have hstore : (K.objects p c oracle).store w a v m = some (m.store w a v) := if_pos ha
  simp only [Objects.write, Option.bind_some, hw, Run.changing, hstore, Option.map_some]

def noCalls : Oracle := fun _ _ _ => none

/-- Where no call has a result, the functions may do anything. -/
theorem follows_noCalls : K.Follows p noCalls := by
  intro name args st n v m _ _ ho
  cases ho

/-- A local has no byte in the operand stack. -/
theorem Framed.clear_slotOf (h : Framed K (frameOf p f).size) (hw : f.width? p id = some w) :
    K.Clear w (K.slotOf p f id) := by
  intro k hk hown
  have hlow := (h.own_iff.mp hown).1
  have hhigh := (h.depth_slotOf hw hk).2
  omega

/-- A local lies in its slot of the frame, whatever loops are around. -/
theorem locate_local {loops : List Targets} {x : Var} (hid : id ∈ f.locals)
    (hx : p.vars[id]? = some x) (hlocal : x.isLocal = true) :
    K.locate { Context.ofFunction p f with loops := loops } id = some (K.slotOf p f id) := by
  obtain ⟨k, hk⟩ := Frame.offset?_isSome p.vars hid
  have hvars : ({ Context.ofFunction p f with loops := loops } : Emission.Context).vars[id]? =
      some x := hx
  have hframe :
      ({ Context.ofFunction p f with loops := loops } : Emission.Context).frame.offset? id =
        some k := hk
  rw [Setting.locate, hvars, Setting.slotOf, hk]
  simp only [hlocal, if_true, hframe, Option.map_some, Option.getD_some]

theorem object_local {loops : List Targets} {x : Var} (hid : id ∈ f.locals)
    (hx : p.vars[id]? = some x) (hlocal : x.isLocal = true) :
    (Run.ofOption ((K.objects p { Context.ofFunction p f with loops := loops } oracle).named id) :
      Run Memory Word) m = some (.ok (K.slotOf p f id), m) := by
  have hn : (K.objects p { Context.ofFunction p f with loops := loops } oracle).named id =
    some (K.slotOf p f id) := locate_local hid hx hlocal
  rw [Run.ofOption, hn, Option.map_some]

/-- The machine is about to run the line with index `i`, and the operands `stk` are in their slots,
the last first. -/
def Holding (K : Setting) (i : Nat) (stk : List Word) : State → Prop :=
  At K (fun (_ : Unit) _ => True) i () stk

abbrev HoldingWith (K : Setting) (m : Memory) (i : Nat) (stk : List Word) : State → Prop :=
  At K (fun s m => ∀ x, ¬K.Own x → m x = s x) i m stk

theorem Holding.withMemory (h : Holding K i stk st) : HoldingWith K st.mem i stk st :=
  ⟨h.pc, h.frame, h.top, h.stacked, fun _ _ => rfl⟩

theorem HoldingWith.holding (h : HoldingWith K m i stk st) : Holding K i stk st :=
  ⟨h.pc, h.frame, h.top, h.stacked, trivial⟩

/-- The lines of an expression with a value. -/
theorem emits_holding {e : Node} {d n n' rounds : Nat} {ls : List Line} {m' : Memory}
    (h : Emits c (.value e) d n ls n') (hf : K.Follows p oracle) (hd : stk.length = d)
    (hroom : 8 * (d + pushes ls) ≤ K.room) (hc : CodeAt K.prog i ls)
    (hat : HoldingWith K m i stk st)
    (he : eval (K.objects p c oracle) rounds e m = some (.ok v, m')) :
    Reaches K.world K.prog (HoldingWith K m' (i + ls.length) (v :: stk)) st := by
  have hsim : Implements K _ (noExits Memory) ls stk (eval (K.objects p c oracle) rounds e)
      fun v => v :: stk :=
    emits_simulated h (Setting.represents_objects hf) exits_noExits hd
  rw [← hd] at hroom
  exact hsim i m st (.ok v) m' hc hroom hat he trivial

def storeLines (w : Width) : List Line :=
  [.instr (.pop .rdi), .instr (.pop .rax), .instr (.store w .rdi .rax), .instr (.push .rdi)]

/-- The lines of a store write the operand to the address below it and leave it as an operand. -/
theorem reaches_stored (p : Program) (c : Emission.Context) (hw : Width.ofBytes? t.size = some w)
    (ha : K.Clear w a) (h : Holding K i (v :: a :: stk) st) (hroom : 8 * (stk.length + 3) ≤ K.room)
    (hc : CodeAt K.prog i (storeLines w)) :
    Reaches K.world K.prog
      (fun st' => ∃ m : Memory, HoldingWith K (m.store w a v) (i + 4) (v :: stk) st') st := by
  have hrep : Represents K c (K.objects p c noCalls) _ _ :=
    Setting.represents_objects follows_noCalls
  have hstore :
      Implements K _ (noExits Memory) (storeLines w) (v :: a :: stk) _ fun v => v :: stk :=
    implements_store hrep hw
  have hwrite : (do (K.objects p c noCalls).write (some t) a v; return v : Run Memory Word) st.mem =
      some (.ok v, st.mem.store w a v) := Run.bind_of_ok (objects_write hw ha)
  have hspace : 8 * ((v :: a :: stk).length + pushes (storeLines w)) ≤ K.room := by
    simpa [storeLines, isPush] using hroom
  exact (hstore i st.mem st (.ok v) _ hc hspace h.withMemory hwrite trivial).mono fun st' h' =>
    ⟨st.mem, h'⟩

/-- The code that reads a scalar variable pushes its address and its value. -/
theorem pushes_var {j : Info} {d n n' : Nat} {ls : List Line} (ht : j.type = some t)
    (hplain : (t.isArray || t.isStruct) = false) (h : Emits c (.value (.var j id)) d n ls n') :
    pushes ls = 2 := by
  cases h with
  | var hv ht' hl =>
    cases ht.symm.trans ht'
    cases hl with
    | aggregate hagg => cases hplain.symm.trans hagg
    | scalar =>
      cases hv with
      | onFrame | inData => simp [isPush]

/-- Behind the operand of an assignment to a local: first the operand is left, and then a reading of
the local gives the part of it that was stored. -/
theorem reaches_read_stored {loops : List Targets} {j : Info} {x : Var} {d n n' : Nat}
    {rs : List Line} (hframed : Framed K (frameOf p f).size) (hid : id ∈ f.locals)
    (hx : p.vars[id]? = some x)
    (hlocal : x.isLocal = true) (hint : x.type.isInteger = true) (hj : j.type = some x.type)
    (hw : Width.ofBytes? x.type.size = some w)
    (hread : Emits { Context.ofFunction p f with loops := loops } (.value (.var j id))
      (d + 1) n rs n')
    (hd : stk.length = d) (hroom : 8 * (d + 3) ≤ K.room) (hc : CodeAt K.prog i (storeLines w ++ rs))
    (h : Holding K i (v :: K.slotOf p f id :: stk) st) :
    Reaches K.world K.prog (fun st₁ => Holding K (i + 4) (v :: stk) st₁ ∧
      Reaches K.world K.prog (Holding K (i + 4 + rs.length) (narrow w v :: v :: stk)) st₁) st := by
  subst hd
  have hscalar : x.type.isScalar = true := by rw [CType.isScalar, hint, Bool.true_or]
  have hplain := CType.plain_of_scalar hscalar
  have hwidth : f.width? p id = some w := by
    simp only [Function.width?, hid, if_true, hx, hscalar, hw]
  have ha : K.Clear w (K.slotOf p f id) := hframed.clear_slotOf hwidth
  have hpushes : pushes rs = 2 := pushes_var hj hplain hread
  refine (reaches_stored p (.ofFunction p f) hw ha h hroom hc.left).mono fun st₁ hst₁ => ?_
  obtain ⟨m, h₁⟩ := hst₁
  refine ⟨h₁.holding, ?_⟩
  have heval : eval (K.objects p { Context.ofFunction p f with loops := loops } noCalls) 0
    (.var j id) (m.store w (K.slotOf p f id) v) =
    some (.ok (narrow w v), m.store w (K.slotOf p f id) v) := by
    rw [eval, Run.bind_of_ok (object_local hid hx hlocal), hj, objects_read hplain hw ha,
      Memory.load_store_same]
  have hcode : CodeAt K.prog (i + 4) rs := hc.right
  exact (emits_holding hread follows_noCalls rfl (by omega) hcode h₁ heval).mono
    fun st₂ h₂ => h₂.holding

/-- The lines of the target and of the operand of an assignment. -/
theorem reaches_operand {x e : Node} {d n n₁ n₂ rounds : Nat} {as bs : List Line} {m₁ m₂ : Memory}
    (hx : Emits c (.address x) d n as n₁) (he : Emits c (.value e) (d + 1) n₁ bs n₂)
    (hf : K.Follows p oracle) (hd : stk.length = d) (hroom : 8 * (d + pushes (as ++ bs)) ≤ K.room)
    (hc : CodeAt K.prog i (as ++ bs)) (hat : HoldingWith K m i stk st)
    (ho : object (K.objects p c oracle) rounds x m = some (.ok a, m₁))
    (hv : eval (K.objects p c oracle) rounds e m₁ = some (.ok v, m₂)) :
    Reaches K.world K.prog (HoldingWith K m₂ (i + (as ++ bs).length) (v :: a :: stk)) st := by
  have hpushes : 1 ≤ pushes as := emits_pushes hx
  rw [pushes_append] at hroom
  have hsim : Implements K _ (noExits Memory) as stk (object (K.objects p c oracle) rounds x)
      fun r => r :: stk :=
    emits_simulated hx (Setting.represents_objects hf) exits_noExits hd
  refine (hsim i m st (.ok a) m₁ hc.left (by omega) hat ho trivial).trans fun st₁ h₁ => ?_
  rw [List.length_append, ← Nat.add_assoc]
  exact emits_holding he hf (congrArg (· + 1) hd) (by omega) hc.right h₁ hv

/-- The lines of an assignment to a variable, and those of a reading of the variable behind it. -/
theorem emits_assign_var {j k : Info} {e : Node} {d n n' : Nat} {ls : List Line}
    (hj : j.type = some t) (hplain : (t.isArray || t.isStruct) = false)
    (h : Emits c (.value (.assign k (.var j id) e)) d n ls n') :
    ∃ w as bs rs n₁, Width.ofBytes? t.size = some w ∧ Emits c (.address (.var j id)) d n as n₁ ∧
      Emits c (.value e) (d + 1) n₁ bs n' ∧ ls = (as ++ bs) ++ storeLines w ∧
      Emits c (.value (.var j id)) (d + 1) n' rs n' := by
  cases h with
  | @assign _ _ _ _ _ w as bs _ _ n₁ _ htarget hoperand ht hw =>
    cases hj.symm.trans ht
    refine ⟨w, as, bs, ?_⟩
    have hlines : as ++ (bs ++ storeLines w) = (as ++ bs) ++ storeLines w := by
      rw [List.append_assoc]
    have hread : ∃ rs, Emits c (.value (.var j id)) (d + 1) n' rs n' := by
      cases htarget with
      | varAddress hv => exact ⟨_, .var hv hj (.scalar hplain hw)⟩
    obtain ⟨rs, hread⟩ := hread
    exact ⟨rs, n₁, hw, htarget, hoperand, hlines, hread⟩

/-- The same from where the assignment begins, if its operand is known to be `v`. -/
theorem reaches_assigned {loops : List Targets} {j : Info} {x : Var} {e : Node} {d n n₁ n₂ : Nat}
    {as bs ls rs : List Line} (hframed : Framed K (frameOf p f).size) (hid : id ∈ f.locals)
    (hx : p.vars[id]? = some x) (hlocal : x.isLocal = true) (hint : x.type.isInteger = true)
    (hj : j.type = some x.type) (hw : Width.ofBytes? x.type.size = some w)
    (htarget : Emits { Context.ofFunction p f with loops := loops }
      (.address (.var j id)) d n as n₁)
    (hoperand : Emits { Context.ofFunction p f with loops := loops } (.value e) (d + 1) n₁ bs n₂)
    (hread : Emits { Context.ofFunction p f with loops := loops } (.value (.var j id))
      (d + 1) n₂ rs n₂)
    (hlines : ls = (as ++ bs) ++ storeLines w) (hd : stk.length = d)
    (hroom : 8 * (d + pushes ls) ≤ K.room) (hc : CodeAt K.prog i (ls ++ rs))
    (h : Reaches K.world K.prog
      (Holding K (i + (as ++ bs).length) (v :: K.slotOf p f id :: stk)) st) :
    Reaches K.world K.prog (fun st₁ => Holding K (i + ls.length) (v :: stk) st₁ ∧
      Reaches K.world K.prog
        (Holding K (i + (ls ++ rs).length) (narrow w v :: v :: stk)) st₁) st := by
  have hspace : 8 * (d + 3) ≤ K.room := by
    have htargets : 1 ≤ pushes as := emits_pushes htarget
    have hoperands : 1 ≤ pushes bs := emits_pushes hoperand
    have hstores : pushes (storeLines w) = 1 := rfl
    rw [hlines, pushes_append, pushes_append, hstores] at hroom
    omega
  have hlength : ls.length = (as ++ bs).length + 4 := by
    rw [hlines, List.length_append]
    rfl
  rw [List.length_append, hlength, ← Nat.add_assoc, ← Nat.add_assoc, ← Nat.add_assoc]
  rw [hlines, List.append_assoc] at hc
  exact h.trans fun st₀ h₀ =>
    reaches_read_stored hframed hid hx hlocal hint hj hw hread hd hspace hc.right h₀

end Simulation

open Assembly Emission Machine Semantics Simulation

def framedSetting (size : Nat) (prog : List Line) (h : Unambiguous prog) : Setting :=
  { steadySetting prog h with base := 0x2000 - BitVec.ofNat 64 size }

theorem unambiguous_nil : Unambiguous [] := by
  intro l i j _ hi
  cases hi

def framedState (size : Nat) : State :=
  steadyState.set .rsp (0x2000 - BitVec.ofNat 64 size)

theorem framed_framedSetting {size : Nat} (hs : size < 0x1000) (prog : List Line)
    (h : Unambiguous prog) : Framed (framedSetting size prog h) size where
  base := rfl
  fits := by
    show 8 + size + 512 < _
    omega

theorem holdingWith_framedState (size : Nat) (prog : List Line) (h : Unambiguous prog) :
    HoldingWith (framedSetting size prog h) (framedState size).mem 0 [] (framedState size) where
  pc := rfl
  frame := rfl
  top := by
    rw [List.length_nil, Setting.slot_zero]
    rfl
  stacked := trivial
  agrees _ _ := rfl

def returnedAssignment? (p : Program) : Option (Function × Info × Info × VarId × Node) :=
  match p.functions with
  | [f] =>
    match f.body with
    | some (.block _ [_, .ret _ (some (.assign i (.var j id) e))]) => some (f, i, j, id, e)
    | _ => none
  | _ => none

def isLabel : Line → Bool
  | .label _ => true
  | _ => false

theorem unambiguous_of_plain {prog : List Line} (h : prog.all (!isLabel ·) = true) :
    Unambiguous prog := by
  intro l i j _ hi
  have hline := List.all_eq_true.mp h _ (List.mem_of_getElem? hi)
  exact absurd hline (by simp [isLabel])

def assignmentChecks (t : CType) (v : Word) (p : Program) : Bool :=
  (returnedAssignment? p).any fun (f, i, j, id, e) =>
    f.locals.contains id && i.type.any (fun u => decide (u = t)) && j.type.any
      (fun u => decide (u = t)) &&
    (p.vars[id]?).any (fun x => x.isLocal && decide (x.type = t)) &&
    decide ((frameOf p f).size < 0x1000) &&
    (match Emission.value (.ofFunction p f) (.assign i (.var j id) e) ⟨0, 0⟩ with
      | .ok (code, k) => decide (pushes code.lines ≤ 64) &&
        match Emission.value (.ofFunction p f) (.var j id) k with
        | .ok (read, _) => (code.lines ++ read.lines).all (!isLabel ·)
        | .error _ => false
      | .error _ => false) &&
    match eval ((framedSetting (frameOf p f).size [] unambiguous_nil).objects p (.ofFunction p f)
      noCalls) 0 e (framedState (frameOf p f).size).mem with
    | some (.ok u, _) => u == v
    | _ => false

structure Assigned (p : Program) (t : CType) (v : Word) (f : Function) (i j : Info)
    (id : VarId) (x : Var) (e : Node) (code read : Code) (k k' : Counters) : Prop where
  returned : returnedAssignment? p = some (f, i, j, id, e)
  isLocal : id ∈ f.locals
  whole : i.type = some t
  var : p.vars[id]? = some x
  onFrame : x.isLocal = true
  type : x.type = t
  typed : j.type = some t
  small : (frameOf p f).size < 0x1000
  emitted : Emission.value (.ofFunction p f) (.assign i (.var j id) e) ⟨0, 0⟩ = .ok (code, k)
  room : pushes code.lines ≤ 64
  reading : Emission.value (.ofFunction p f) (.var j id) k = .ok (read, k')
  plain : (code.lines ++ read.lines).all (!isLabel ·) = true
  operand : ∃ m,
    eval ((framedSetting (frameOf p f).size [] unambiguous_nil).objects p (.ofFunction p f)
      noCalls) 0 e (framedState (frameOf p f).size).mem = some (.ok v, m)

/-- What is checked of such a program is all that the example needs of it. -/
theorem exists_assigned {p : Program} {t : CType} {v : Word} (h : assignmentChecks t v p = true) :
    ∃ f i j id x e code read k k', Assigned p t v f i j id x e code read k k' := by
  obtain ⟨⟨f, i, j, id, e⟩, hreturned, h⟩ := (Option.any_eq_true _ _).mp h
  simp only [Bool.and_eq_true, decide_eq_true_eq, Option.any_eq_true, List.contains_iff_mem] at h
  obtain ⟨⟨⟨⟨⟨⟨hid, _, hi, rfl⟩, _, hj, rfl⟩, x, hx, honFrame, ht⟩, hsmall⟩, hcode⟩, heval⟩ := h
  split at hcode
  case h_2 => cases hcode
  next code k hc =>
  rw [Bool.and_eq_true, decide_eq_true_eq] at hcode
  obtain ⟨hroom, hread⟩ := hcode
  split at hread
  case h_2 => cases hread
  next read k' hr =>
  split at heval
  case h_2 => cases heval
  next u m hu =>
  obtain rfl := eq_of_beq heval
  exact ⟨f, i, j, id, x, e, code, read, k, k', hreturned, hid, hi, hx, honFrame, ht, hj,
    hsmall, hc, hroom, hr, hread, m, hu⟩

namespace Assigned

variable {p : Program} {t : CType} {v : Word} {f : Function} {i j : Info} {id : VarId} {x : Var}
  {e : Node} {code read : Code} {k k' : Counters}

def setting (h : Assigned p t v f i j id x e code read k k') : Setting :=
  framedSetting (frameOf p f).size (code.lines ++ read.lines) (unambiguous_of_plain h.plain)

theorem codeAt (h : Assigned p t v f i j id x e code read k k') :
    CodeAt h.setting.prog 0 (code.lines ++ read.lines) := by
  intro n y hy
  rwa [Nat.zero_add]

/-- The code of both operands leads to the line of the store. -/
theorem reaches_behind (h : Assigned p t v f i j id x e code read k k') {as bs cs : List Line}
    {n₁ n₂ : Nat} (htarget : Emits (.ofFunction p f) (.address (.var j id)) 0 0 as n₁)
    (hoperand : Emits (.ofFunction p f) (.value e) 1 n₁ bs n₂)
    (hlines : code.lines = (as ++ bs) ++ cs) :
    Reaches h.setting.world h.setting.prog (Holding h.setting (0 + (as ++ bs).length)
      [v, h.setting.slotOf p f id]) (framedState (frameOf p f).size) := by
  obtain ⟨m, hm⟩ := h.operand
  have hc := h.codeAt.left
  have hroom := h.room
  rw [hlines] at hc hroom
  rw [pushes_append] at hroom
  have hspace : 8 * (0 + pushes (as ++ bs)) ≤ h.setting.room := by
    show _ ≤ 512
    omega
  have hobject : object (h.setting.objects p (.ofFunction p f) noCalls) 0 (.var j id)
      (framedState (frameOf p f).size).mem =
      some (.ok (h.setting.slotOf p f id), (framedState (frameOf p f).size).mem) := by
    rw [object]
    exact object_local h.isLocal h.var h.onFrame
  exact (reaches_operand htarget hoperand follows_noCalls rfl hspace hc.left
    (holdingWith_framedState _ _ _) hobject hm).mono fun st h => h.holding

theorem framed (h : Assigned p t v f i j id x e code read k k') :
    Framed h.setting (frameOf p f).size :=
  framed_framedSetting h.small _ _

theorem space (h : Assigned p t v f i j id x e code read k k') :
    8 * (0 + pushes code.lines) ≤ h.setting.room := by
  have hroom := h.room
  show _ ≤ 512
  omega

/-- The assignment leaves the operand, and the reading behind it what was stored. -/
theorem reaches (h : Assigned p t v f i j id x e code read k k') (hint : x.type.isInteger = true) :
    ∃ w, Width.ofBytes? x.type.size = some w ∧
      Reaches h.setting.world h.setting.prog
      (fun st₁ => Holding h.setting code.lines.length [v] st₁ ∧
        Reaches h.setting.world h.setting.prog (Holding h.setting (code.lines ++ read.lines).length
          [narrow w v, v]) st₁) (framedState (frameOf p f).size) := by
  have hj : j.type = some x.type := by rw [h.typed, h.type]
  have hplain : (x.type.isArray || x.type.isStruct) = false :=
    CType.plain_of_scalar (by rw [CType.isScalar, hint, Bool.true_or])
  obtain ⟨hemits, hdepth⟩ := value_emits h.emitted
  obtain ⟨w, as, bs, rs, n₁, hw, htarget, hoperand, hlines, hread⟩ :=
    emits_assign_var hj hplain hemits
  obtain ⟨again, hagain, rfl⟩ := emits_gives hread
  obtain rfl : again = read := by
    have hk : k = ⟨0 + 1, k.labels⟩ := by rw [← hdepth]
    have hreading := h.reading
    rw [hk] at hreading
    cases hagain.symm.trans hreading
    rfl
  have hreaches := reaches_assigned h.framed h.isLocal h.var h.onFrame hint hj hw htarget
    hoperand hread hlines rfl h.space h.codeAt (h.reaches_behind htarget hoperand hlines)
  rw [Nat.zero_add code.lines.length, Nat.zero_add (code.lines ++ again.lines).length] at hreaches
  exact ⟨w, hw, hreaches⟩

end Assigned

/-- Where the code of an assignment to an integer local computes the operand `v`, it leaves `v`
itself behind, and a reading of the local right after it gives the low part of `v` with its sign
extended. The two words are equal exactly if `v` is in the range of the type of the local. -/
theorem assignment_leaves_operand {p : Program} {f : Function} {loops : List Targets} {i j : Info}
    {id : VarId} {x : Var} {e : Node} {d n : Nat} {code : Code} {k : Counters} (hid : id ∈ f.locals)
    (hx : p.vars[id]? = some x) (hlocal : x.isLocal = true) (hint : x.type.isInteger = true)
    (hj : j.type = some x.type)
    (hcode : Emission.value { Context.ofFunction p f with loops := loops } (.assign i (.var j id) e)
      ⟨d, n⟩ = .ok (code, k)) :
    ∃ (w : Width) (target operand read : Code) (n₁ n₂ n₃ : Nat),
      Width.ofBytes? x.type.size = some w ∧
      Emission.address { Context.ofFunction p f with loops := loops } (.var j id) ⟨d, n⟩ =
        .ok (target, ⟨d + 1, n₁⟩) ∧
      Emission.value { Context.ofFunction p f with loops := loops } e ⟨d + 1, n₁⟩ =
        .ok (operand, ⟨d + 2, n₂⟩) ∧
      target.lines ++ operand.lines <+: code.lines ∧
      Emission.value { Context.ofFunction p f with loops := loops } (.var j id) k =
        .ok (read, ⟨d + 2, n₃⟩) ∧
      ∀ (K : Setting), Framed K (frameOf p f).size → 8 * (d + pushes code.lines) ≤ K.room →
      ∀ (start : Nat) (stk : List Word) (v : Word) (st : State), stk.length = d →
        CodeAt K.prog start (code.lines ++ read.lines) →
        Reaches K.world K.prog (Holding K (start + (target.lines ++ operand.lines).length)
          (v :: K.slotOf p f id :: stk)) st →
        Reaches K.world K.prog (fun st₁ => Holding K (start + code.lines.length) (v :: stk) st₁ ∧
          Reaches K.world K.prog (Holding K (start + (code.lines ++ read.lines).length)
            (narrow w v :: v :: stk)) st₁) st ∧
        (v = narrow w v ↔ -limit w ≤ v.toInt ∧ v.toInt < limit w) := by
  obtain ⟨hemits, hdepth⟩ := value_emits hcode
  obtain ⟨depth, labels⟩ := k
  have hdepth : depth = d + 1 := hdepth
  subst hdepth
  have hplain : (x.type.isArray || x.type.isStruct) = false :=
    CType.plain_of_scalar (by rw [CType.isScalar, hint, Bool.true_or])
  obtain ⟨w, as, bs, rs, n₁, hw, htarget, hoperand, hlines, hread⟩ :=
    emits_assign_var hj hplain hemits
  obtain ⟨target, htargetOk, rfl⟩ := emits_gives htarget
  obtain ⟨operand, hoperandOk, rfl⟩ := emits_gives hoperand
  obtain ⟨read, hreadOk, rfl⟩ := emits_gives hread
  refine ⟨w, target, operand, read, n₁, labels, labels, hw, htargetOk, hoperandOk, ?_, hreadOk, ?_⟩
  · rw [hlines]
    exact List.prefix_append _ _
  intro K hframed hroom start stk v st hlen hc hbehind
  refine ⟨?_, eq_comm.trans narrow_eq_self_iff⟩
  exact reaches_assigned hframed hid hx hlocal hint hj hw htarget hoperand hread hlines hlen
    hroom hc hbehind

def shortSource : String := "int f(int a) \x7b short s; return s = a + 40000; \x7d"

/-- The local holds a negative number, and the value of the assignment is 40000. -/
theorem assignment_leaves_operand_short :
    ∃ (p : Program) (f : Function) (i j : Info) (id : VarId) (x : Var) (e : Node) (code read : Code)
      (k k' : Counters) (K : Setting) (st : State),
      analyze shortSource = .ok p ∧ returnedAssignment? p = some (f, i, j, id, e) ∧
      id ∈ f.locals ∧ p.vars[id]? = some x ∧ x.isLocal = true ∧ x.type = .ofPrimitive .short ∧
      j.type = some x.type ∧
      Emission.value (.ofFunction p f) (.assign i (.var j id) e) ⟨0, 0⟩ = .ok (code, k) ∧
      Emission.value (.ofFunction p f) (.var j id) k = .ok (read, k') ∧
      K.prog = code.lines ++ read.lines ∧ Framed K (frameOf p f).size ∧ Holding K 0 [] st ∧
      Reaches K.world K.prog (fun st₁ => Holding K code.lines.length [40000] st₁ ∧
        Reaches K.world K.prog
          (Holding K (code.lines ++ read.lines).length [-25536, 40000]) st₁) st := by
  have hcheck : (analyze shortSource).toOption.any
      (assignmentChecks (.ofPrimitive .short) 40000) = true := by
    decide +kernel
  obtain ⟨p, hp, hchecks⟩ := exists_of_any hcheck
  obtain ⟨f, i, j, id, x, e, code, read, k, k', h⟩ := exists_assigned hchecks
  have hint : x.type.isInteger = true := by rw [h.type]; rfl
  have hj : j.type = some x.type := by rw [h.typed, h.type]
  obtain ⟨w, target, operand, read', n₁, n₂, n₃, hw, htarget, hoperand, ⟨cs, hlines⟩,
    hread, hrun⟩ :=
    @assignment_leaves_operand p f [] i j id x e 0 0 code k h.isLocal h.var h.onFrame hint
      hj h.emitted
  cases h.reading.symm.trans hread
  have hword : w = .word := by
    rw [h.type] at hw
    cases hw
    rfl
  subst hword
  have hbehind := h.reaches_behind (address_emits htarget).1 (value_emits hoperand).1 hlines.symm
  obtain ⟨hreaches, -⟩ := hrun h.setting h.framed h.space 0 [] 40000 _ rfl h.codeAt hbehind
  have hvalue : narrow .word 40000 = -25536 := by decide
  rw [hvalue, Nat.zero_add code.lines.length,
    Nat.zero_add (code.lines ++ read.lines).length] at hreaches
  exact ⟨p, f, i, j, id, x, e, code, read, k, _, h.setting, _, hp, h.returned, h.isLocal,
    h.var, h.onFrame, h.type, hj, h.emitted, h.reading, rfl, h.framed,
    (holdingWith_framedState _ _ _).holding, hreaches⟩

def wideSource : String := "int f() \x7b char c; return c = 300; \x7d"

/-- The value of an assignment is not the value stored: it is 300 where the local holds 44. -/
theorem assignment_ne_stored :
    ∃ (p : Program) (f : Function) (i j : Info) (id : VarId) (x : Var) (e : Node) (code read : Code)
      (k k' : Counters) (K : Setting) (st : State),
      (compile wideSource).isOk = true ∧ analyze wideSource = .ok p ∧
      returnedAssignment? p = some (f, i, j, id, e) ∧ id ∈ f.locals ∧ p.vars[id]? = some x ∧
      x.type = .ofPrimitive .char ∧ i.type = some x.type ∧ j.type = some x.type ∧
      Emission.value (.ofFunction p f) (.assign i (.var j id) e) ⟨0, 0⟩ = .ok (code, k) ∧
      Emission.value (.ofFunction p f) (.var j id) k = .ok (read, k') ∧
      K.prog = code.lines ++ read.lines ∧ Framed K (frameOf p f).size ∧ Holding K 0 [] st ∧
      Reaches K.world K.prog (fun st₁ => Holding K code.lines.length [300] st₁ ∧
        Reaches K.world K.prog (Holding K (code.lines ++ read.lines).length [44, 300]) st₁) st ∧
      (300 : Word) ≠ 44 := by
  have hok : (compile wideSource).isOk = true := by decide +kernel
  have hcheck : (analyze wideSource).toOption.any
      (assignmentChecks (.ofPrimitive .char) 300) = true := by
    decide +kernel
  obtain ⟨p, hp, hchecks⟩ := exists_of_any hcheck
  obtain ⟨f, i, j, id, x, e, code, read, k, k', h⟩ := exists_assigned hchecks
  have hint : x.type.isInteger = true := by rw [h.type]; rfl
  have hi : i.type = some x.type := by rw [h.whole, h.type]
  have hj : j.type = some x.type := by rw [h.typed, h.type]
  obtain ⟨w, hw, hreaches⟩ := h.reaches hint
  have hbyte : w = .byte := by
    rw [h.type] at hw
    cases hw
    rfl
  have hvalue : narrow w 300 = 44 := by
    rw [hbyte]
    decide
  rw [hvalue] at hreaches
  exact ⟨p, f, i, j, id, x, e, code, read, k, k', h.setting, _, hok, hp, h.returned,
    h.isLocal, h.var, h.type, hi, hj, h.emitted, h.reading, rfl, h.framed,
    (holdingWith_framedState _ _ _).holding, hreaches,
    by decide⟩

end StackC
