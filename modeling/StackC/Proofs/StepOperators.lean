import StackC.Proofs.AssignmentValue
import StackC.Proofs.Grammar.Reading
import StackC.Proofs.Typing.Effects

/-!
The operators `++` and `--` behind an operand. They are spelled out as an assignment of the
stepped value and the opposite step on the value of the assignment. Since that value is not
narrowed, the two steps cancel at every width, and the old value is left.
-/

namespace StackC

namespace Semantics

open Machine

variable {σ ρ α β : Type}

namespace Run

def Steady (x : Run σ α) : Prop := ∀ s r s', x s = some (r, s') → s' = s ∧ ∃ a, r = .ok a

theorem steady_pure (a : α) : Steady (pure a : Run σ α) := by
  intro s r s' h
  cases h
  exact ⟨rfl, a, rfl⟩

theorem steady_undefined : Steady (undefined : Run σ α) := by
  intro s r s' h
  cases h

theorem steady_reading (f : σ → Option α) : Steady (reading f) := by
  intro s r s' h
  obtain ⟨a, -, hr⟩ := Option.map_eq_some_iff.mp h
  cases hr
  exact ⟨rfl, a, rfl⟩

theorem steady_ofOption (x : Option α) : Steady (ofOption x : Run σ α) :=
  steady_reading fun _ => x

/-- Steady computations are composed of steady ones. -/
theorem Steady.bind {x : Run σ α} {f : α → Run σ β} (hx : Steady x) (hf : ∀ a, Steady (f a)) :
    Steady (x >>= f) := by
  intro s r s' h
  rcases bind_eq_some.mp h with ⟨a, s₁, ha, hr⟩ | ⟨e, he, -⟩
  · obtain ⟨rfl, -⟩ := hx s _ s₁ ha
    exact hf a s₁ r s' hr
  · obtain ⟨-, a, ha⟩ := hx s _ s' he
    cases ha

end Run

variable {o : Objects σ ρ} {rounds : Nat}

theorem steady_read (t : Option CType) (r : ρ) : Run.Steady (o.read t r) := by
  unfold Objects.read
  split
  · exact Run.steady_undefined
  · split
    · exact Run.steady_ofOption _
    · split
      · exact Run.steady_undefined
      · exact Run.steady_reading _

/-- An operator is steady if its operands are. -/
theorem steady_binary {i : Info} {op : BinaryOp} {l r : Node} (hl : Run.Steady (eval o rounds l))
    (hr : Run.Steady (eval o rounds r)) : Run.Steady (eval o rounds (.binary i op l r)) := by
  by_cases hop : op = .logAnd ∨ op = .logOr
  · rw [Simulation.eval_logical hop]
    refine hl.bind fun v => ?_
    split
    · exact Run.steady_pure _
    · exact hr.bind fun v => Run.steady_pure _
  · rw [Simulation.eval_binary hop]
    exact hl.bind fun v => hr.bind fun u => Run.steady_ofOption _

/-- Expressions without effects leave the state alone, as values and as objects. -/
theorem steady_effectless (e : Node) (h : e.hasEffects = false) :
    Run.Steady (eval o rounds e) ∧ Run.Steady (object o rounds e) :=
  match e with
  | .num .. => ⟨Run.steady_pure _, Run.steady_undefined⟩
  | .var i id => ⟨(Run.steady_ofOption _).bind fun r => steady_read _ r, Run.steady_ofOption _⟩
  | .deref i e => by
    have he := (steady_effectless e h).1
    rw [eval, object]
    exact ⟨he.bind fun a => (Run.steady_ofOption _).bind fun r => steady_read _ r,
      he.bind fun a => Run.steady_ofOption _⟩
  | .member i b name resolved => by
    have hb := (steady_effectless b h).2
    cases resolved with
    | none =>
      rw [eval, object]
      exact ⟨Run.steady_undefined, Run.steady_undefined⟩
    | some m =>
      rw [eval, object]
      exact ⟨hb.bind fun r => (Run.steady_ofOption _).bind fun r => steady_read _ r,
        hb.bind fun r => Run.steady_ofOption _⟩
  | .addr i e => by
    rw [eval]
    exact ⟨(steady_effectless e h).2.bind fun r => Run.steady_ofOption _, Run.steady_undefined⟩
  | .not i e => by
    rw [eval]
    exact ⟨(steady_effectless e h).1.bind fun v => Run.steady_pure _, Run.steady_undefined⟩
  | .binary i op l r => by
    rw [Node.hasEffects, Bool.or_eq_false_iff] at h
    exact ⟨steady_binary (steady_effectless l h.1).1 (steady_effectless r h.2).1,
      Run.steady_undefined⟩
  | .ternary i e x y => by
    rw [Node.hasEffects, Bool.or_eq_false_iff, Bool.or_eq_false_iff] at h
    rw [eval]
    refine ⟨(steady_effectless e h.1.1).1.bind fun v => ?_, Run.steady_undefined⟩
    split
    · exact (steady_effectless y h.2).1
    · exact (steady_effectless x h.1.2).1
  | .sizeof .. => ⟨Run.steady_undefined, Run.steady_undefined⟩
  | .assign .. | .call .. | .stmtExpr .. | .exprStmt .. | .ret .. | .block ..
  | .ifElse .. | .whileLoop .. | .forLoop .. | .breakLoop .. | .continueLoop .. | .empty .. => by
    cases h
termination_by structural e

/-- The value of a referable expression is read from the object that it denotes. -/
theorem eval_of_object {x : Node} {s s' : σ} {r : ρ} (hx : x.isReferable = true)
    (h : object o rounds x s = some (.ok r, s')) : eval o rounds x s = o.read x.type? r s' := by
  cases x with
  | var i id =>
    rw [object] at h
    rw [eval, Run.bind_of_ok h]
    rfl
  | deref i e =>
    rw [object] at h
    rcases Run.bind_eq_some.mp h with ⟨a, s₁, ha, hr⟩ | ⟨e, -, he⟩
    · rw [eval, Run.bind_of_ok ha, Run.bind_of_ok hr]
      rfl
    · cases he
  | member i b name resolved =>
    cases resolved with
    | none => cases h
    | some m =>
      rw [object] at h
      rcases Run.bind_eq_some.mp h with ⟨r₁, s₁, hb, hr⟩ | ⟨e, -, he⟩
      · rw [eval, Run.bind_of_ok hb, Run.bind_of_ok hr]
        rfl
      · cases he
  | _ => cases hx

end Semantics

def CType.stride : CType → Nat
  | .pointer b _ => b.size
  | _ => 1

namespace Typing

variable {c : Context} {l r x x' : Node} {t : CType} {op back : BinaryOp} {p : Location}

def stepOperand (t : CType) (p : Location) : Node :=
  match t with
  | .pointer b _ => scaled (.num (.typed p .int) 1) b.size p
  | _ => .num (.typed p .int) 1

def stepType (t : CType) : CType :=
  match t with
  | .pointer .. => t
  | _ => .int

def stepBy (op : BinaryOp) (l : Node) (t : CType) (p : Location) : Node :=
  .binary (.typed p (stepType t)) op l (stepOperand t p)

/-- The typed form of an operator behind the operand `x` of type `t`: a step by `op` is stored,
and a step by `back` undoes it on the value of the assignment. -/
def stepAndBack (op back : BinaryOp) (x : Node) (t : CType) (p : Location) : Node :=
  stepBy back (.assign (.typed p t) x (stepBy op x t p)) t p

theorem isScalar_stepType (ht : t.isScalar = true) : (stepType t).isScalar = true := by
  cases t with
  | pointer | primitive => rfl
  | _ => cases ht

/-- An index that is subtracted from a pointer is scaled. -/
theorem sub_index {b : CType} {k : Nat} (hl : l.type? = some (.pointer b k))
    (hr : r.Has CType.isInteger) :
    sub l r p = .ok (.binary (.typed p (.pointer b k)) .sub l (scaled r b.size p)) := by
  obtain ⟨u, hu, hi⟩ := hr
  unfold sub
  rw [typeOf_eq hl, typeOf_eq hu]
  cases u with
  | primitive => exact if_pos hi
  | _ => cases hi

/-- A step on a typed value of a scalar type. -/
theorem binary_step (hop : op = .add ∨ op = .sub) (hl : l.type? = some t) (ht : t.isScalar = true) :
    binary op l (.num (.typed p .int) 1) p = .ok (stepBy op l t p) := by
  have hone : (Node.num (.typed p .int) 1).Has CType.isInteger := ⟨.int, rfl, rfl⟩
  cases t with
  | pointer b k =>
    rcases hop with rfl | rfl
    · exact add_index p hl hone
    · exact sub_index hl hone
  | primitive kind size =>
    have hint : l.Has CType.isInteger :=
      ⟨_, hl, by simpa [CType.isScalar, CType.isPointer] using ht⟩
    apply binary_integers p _ hint hone
    rcases hop with rfl | rfl
    · decide
    · decide
  | _ => cases ht

/-- The typed form of an assignment to a scalar. -/
theorem elaborate_assign {l' r' : Node} {i : Info} {u : CType} (hl : elaborate c l = .ok l')
    (hlr : l'.isReferable = true) (hlt : l'.type? = some t) (ht : (t.isArray || t.isStruct) = false)
    (hr : elaborate c r = .ok r') (hrt : r'.type? = some u) (hu : u.isScalar = true) :
    elaborate c (.assign i l r) = .ok (.assign (.typed i.place t) l' r') := by
  have htarget : targetType l' = .ok t := by
    unfold targetType
    rw [typeOf_eq hlt]
    simp only [hlr, bind, Except.bind, ht, Bool.not_true, Bool.false_eq_true, if_false]
    rfl
  have hplain : u.isArray = false := (Bool.or_eq_false_iff.mp (CType.plain_of_scalar hu)).1
  have hvalue : scalarValue .unassignableValue r' = .ok r' := by
    unfold scalarValue
    rw [typeOf_eq hrt]
    simp only [bind, Except.bind, hu, if_true]
    rfl
  rw [elaborate, hl, hr]
  simp only [bind, Except.bind, htarget, decay_of_type hrt hplain, hvalue]
  rfl

/-- The typed form of a step that is stored and undone. -/
theorem elaborate_stepAndBack (hop : op = .add ∨ op = .sub) (hback : back = .add ∨ back = .sub)
    (hx : elaborate c x = .ok x') (href : x'.isReferable = true) (ht : x'.type? = some t)
    (hscalar : t.isScalar = true) :
    elaborate c (.binary (.bare p) back
      (.assign (.bare p) x (.binary (.bare p) op x (.literal 1 p))) (.literal 1 p)) =
      .ok (stepAndBack op back x' t p) := by
  have hplain := CType.plain_of_scalar hscalar
  have harray : t.isArray = false := (Bool.or_eq_false_iff.mp hplain).1
  have hone : elaborate c (.literal 1 p) = .ok (.num (.typed p .int) 1) := rfl
  have hdecay : decay (.num (.typed p .int) 1) = .ok (.num (.typed p .int) 1) := rfl
  have hstep : elaborate c (.binary (.bare p) op x (.literal 1 p)) = .ok (stepBy op x' t p) :=
    (elaborate_binary hx hone (decay_of_type ht harray) hdecay).trans (binary_step hop ht hscalar)
  have hassign := elaborate_assign (i := .bare p) hx href ht hplain hstep rfl
    (isScalar_stepType hscalar)
  have hkept : decay (.assign (.typed p t) x' (stepBy op x' t p)) =
    .ok (.assign (.typed p t) x' (stepBy op x' t p)) := decay_of_type rfl harray
  exact (elaborate_binary hassign hone hkept hdecay).trans (binary_step hback rfl hscalar)

end Typing

namespace Simulation

open Assembly Emission Machine Semantics Typing

variable {K : Setting} {p : Program} {c : Emission.Context} {oracle : Oracle}
  {rounds : Nat} {x : Node} {t : CType} {w : Width} {a u : Word} {m : Memory} {op back : BinaryOp}
  {place : Location}

/-- The operand of a step has the stride for its value. -/
theorem eval_stepOperand {σ ρ : Type} {o : Objects σ ρ} {s : σ} :
    eval o rounds (stepOperand t place) s = some (.ok (BitVec.ofNat 64 t.stride), s) := by
  cases t with
  | pointer b k =>
    have hproduct : apply .mul (1 : Int64).toBitVec (Int64.ofNat b.size).toBitVec =
        some (BitVec.ofNat 64 b.size) := by
      rw [Int64.toBitVec_ofNat']
      exact congrArg some (BitVec.one_mul _)
    exact eval_operation rfl rfl hproduct
  | _ => rfl

/-- Both steps together: the first one is stored, and the second one gives the old value. -/
theorem eval_stepAndBack (href : x.isReferable = true) (ht : x.type? = some t)
    (hscalar : t.isScalar = true) (hw : Width.ofBytes? t.size = some w) (ha : K.Clear w a)
    (hx : object (K.objects p c oracle) rounds x m = some (.ok a, m))
    (hop : apply op (m.load w a) (BitVec.ofNat 64 t.stride) = some u)
    (hback : apply back u (BitVec.ofNat 64 t.stride) = some (m.load w a)) :
    eval (K.objects p c oracle) rounds (stepAndBack op back x t place) m =
      some (.ok (m.load w a), m.store w a u) := by
  have hvalue : eval (K.objects p c oracle) rounds x m = some (.ok (m.load w a), m) := by
    rw [eval_of_object href hx, ht, objects_read (CType.plain_of_scalar hscalar) hw ha]
  have hstep : eval (K.objects p c oracle) rounds (stepBy op x t place) m = some (.ok u, m) :=
    eval_operation hvalue eval_stepOperand hop
  have hassign : eval (K.objects p c oracle) rounds
    (.assign (.typed place t) x (stepBy op x t place)) m = some (.ok u, m.store w a u) := by
    rw [eval, Run.bind_of_ok hx, Run.bind_of_ok hstep, ht, Run.bind_of_ok (objects_write hw ha)]
    rfl
  exact eval_operation hassign eval_stepOperand hback

/-- The lines of both steps, in a function whose names the operand may use. -/
theorem exists_emits_stepAndBack {f : Function} {body : Node} {b : Bool} {tc : Typing.Context}
    (hp : p.Valid) (hf : f.Defined p body) (hc : tc.Sound) (hx : Typed tc x)
    (hpure : x.hasEffects = false)
    (hy : Typed tc (stepAndBack op back x t place))
    (hshaped : Shaped (f.names p) .expression b (stepAndBack op back x t place))
    (loops : List Targets)
    (d n : Nat) : ∃ ls n', Emits { Context.ofFunction p f with loops := loops }
      (.value (stepAndBack op back x t place)) d n ls n' := by
  have hoperand : (stepOperand t place).isPlain = true := by
    cases t with
    | pointer | _ => rfl
  have hplain : (stepAndBack op back x t place).isPlain = true := by
    simp only [stepAndBack, stepBy, Node.isPlain, hx.isPlain hpure, hoperand, Bool.and_self]
  -- No jump out of a loop occurs, so it does not matter which loops are around.
  obtain ⟨hvalue, -⟩ := shaped_emittable (hshaped.of_isPlain hplain false) hc hy
    (suits_ofFunction hp hf loops d)
  exact hvalue n

end Simulation

open Assembly Emission Machine Semantics Simulation

def stepped (up : Bool) (t : CType) (v : Word) : Word :=
  if up then v + BitVec.ofNat 64 t.stride else v - BitVec.ofNat 64 t.stride

def stepOps (up : Bool) : BinaryOp × BinaryOp :=
  if up then (.add, .sub) else (.sub, .add)

/-- The second operation undoes the first, wrapping included. -/
theorem apply_stepOps (up : Bool) (t : CType) (v : Word) :
    apply (stepOps up).1 v (BitVec.ofNat 64 t.stride) = some (stepped up t v) ∧
      apply (stepOps up).2 (stepped up t v) (BitVec.ofNat 64 t.stride) = some v := by
  cases up with
  | true => exact ⟨rfl, congrArg some (BitVec.add_sub_cancel v _)⟩
  | false => exact ⟨rfl, congrArg some (BitVec.sub_add_cancel v _)⟩

def stepMark (up : Bool) : Parse.PostfixMark :=
  if up then .increment else .decrement

def stepTree (up : Bool) (x : Node) (p : Location) : Node :=
  .binary (.bare p) (stepOps up).2
    (.assign (.bare p) x (.binary (.bare p) (stepOps up).1 x (.literal 1 p))) (.literal 1 p)

/-- The parser spells the operator out by the tree of the step. -/
theorem applyPostfix_stepMark {x : Node} (h : x.hasEffects = false) (up : Bool) (g : Grammar)
    (place : Location) (s : ParseState) :
    Parse.applyPostfix g (stepMark up) place x s = .ok (stepTree up x place) s := by
  have hupdate (op : BinaryOp) : Parse.update op x (.literal 1 place) place s =
      .ok (.assign (.bare place) x (.binary (.bare place) op x (.literal 1 place))) s := by
    rw [Parse.update, h]
    rfl
  cases up with
  | true => exact Parse.bind_of_ok (hupdate .add)
  | false => exact Parse.bind_of_ok (hupdate .sub)

/-- Where `x` is a referable expression of a scalar type without effects, the parser accepts `x++`
and `x--`, their form can be typed and emitted, and its code leaves the value that `x` had. The
object that `x` denotes, which lies at `a`, then holds the stepped value as far as it has room for
it, and all other memory outside of the operand stack is as it was. If the address of `x` does not
depend on what `x` holds, then the stepped value is also the one that `x` has. -/
theorem applyPostfix_leaves_old {p : Program} {f : Function} {body x x' : Node} {b : Bool}
    {t : CType} (hp : p.Valid) (hf : f.Defined p body)
    (hshaped : Shaped (f.names p) .expression b x)
    (hpure : x.hasEffects = false) (hx : Typing.elaborate ⟨p, f.returnType⟩ x = .ok x')
    (href : x'.isReferable = true) (ht : x'.type? = some t) (hscalar : t.isScalar = true)
    (up : Bool)
    (g : Grammar) (place : Location) (s : ParseState) :
    ∃ (y y' : Node) (w : Width), Parse.applyPostfix g (stepMark up) place x s = .ok y s ∧
      Typing.elaborate ⟨p, f.returnType⟩ y = .ok y' ∧ Width.ofBytes? t.size = some w ∧
      ∀ (loops : List Targets) (d n : Nat), ∃ (code : Code) (n' : Nat),
        Emission.value { Context.ofFunction p f with loops := loops } y' ⟨d, n⟩ =
          .ok (code, ⟨d + 1, n'⟩) ∧
        ∀ (K : Setting) (i : Nat) (st : State), 8 * (d + pushes code.lines) ≤ K.room →
          CodeAt K.prog i code.lines → st.pc = i → st.regs .rbp = K.frame →
          st.regs .rsp = K.slot d →
        ∀ (rounds : Nat) (a : Word) (m : Memory),
          object (K.objects p (.ofFunction p f) noCalls) rounds x' st.mem = some (.ok a, m) →
          K.Clear w a →
          eval (K.objects p (.ofFunction p f) noCalls) rounds x' st.mem =
            some (.ok (st.mem.load w a), st.mem) ∧
          Reaches K.world K.prog (fun st' =>
            Evaluated K d (i + code.lines.length) st (st.mem.load w a)
              (st.mem.store w a (stepped up t (st.mem.load w a))) st' ∧
            st'.mem.load w a = narrow w (stepped up t (st.mem.load w a)) ∧
            ∀ z, ¬K.Own z → w.bytes ≤ (z - a).toNat → st'.mem z = st.mem z) st ∧
          ((∀ m' : Memory, (∀ z, w.bytes ≤ (z - a).toNat → m' z = st.mem z) →
              object (K.objects p (.ofFunction p f) noCalls) rounds x' m' = some (.ok a, m')) →
            eval (K.objects p (.ofFunction p f) noCalls) rounds x'
                (st.mem.store w a (stepped up t (st.mem.load w a))) =
              some (.ok (narrow w (stepped up t (st.mem.load w a))),
                st.mem.store w a (stepped up t (st.mem.load w a)))) := by
  have hc : Typing.Context.Sound ⟨p, f.returnType⟩ := hp.sound f.returnType
  have hadd : (stepOps up).1 = .add ∨ (stepOps up).1 = .sub := by cases up <;> simp [stepOps]
  have hsub : (stepOps up).2 = .add ∨ (stepOps up).2 = .sub := by cases up <;> simp [stepOps]
  have htyped := (Typing.yields_elaborate _ x).of_ok hx
  have hpure' : x'.hasEffects = false := (Typing.yields_effectless _ x hpure).of_ok hx
  have hy := Typing.elaborate_stepAndBack (p := place) hadd hsub hx href ht hscalar
  have hforms := (Typing.yields_elaborate _ _).of_ok hy
  have hshape := hforms.shaped _ _ _ (.binary (.assign hshaped (.binary hshaped .num)) .num)
  obtain ⟨w, hw⟩ : ∃ w, Width.ofBytes? t.size = some w := by
    obtain ⟨u, hu, hsound⟩ := htyped.typed.sound hc
    cases hu.symm.trans ht
    exact hsound.width (CType.plain_of_scalar hscalar)
  refine ⟨_, _, w, applyPostfix_stepMark hpure up g place s, hy, hw, fun loops d n => ?_⟩
  obtain ⟨ls, n', hls⟩ :=
    exists_emits_stepAndBack hp hf hc htyped.typed hpure' hforms.typed hshape loops d n
  obtain ⟨code, hcode, rfl⟩ := emits_gives hls
  refine ⟨code, n', hcode, ?_⟩
  intro K i st hroom hat hpc hrbp hrsp rounds a m hobject ha
  -- The address is computed twice, but without effects, so both computations see the same memory.
  obtain ⟨rfl, -⟩ := (steady_effectless x' hpure').2 _ _ _ hobject
  obtain ⟨hstep, hback⟩ := apply_stepOps up t (st.mem.load w a)
  have heval : eval _ rounds (Typing.stepAndBack _ _ x' t place) st.mem = _ :=
    eval_stepAndBack href ht hscalar hw ha hobject hstep hback
  refine ⟨?_, ?_, fun hsteady => ?_⟩
  · rw [eval_of_object href hobject, ht, objects_read (CType.plain_of_scalar hscalar) hw ha]
  · refine (emits_evaluated hls follows_noCalls hroom hat hpc hrbp hrsp heval).mono fun st' h' => ?_
    refine ⟨h', ?_, fun z hz hout => ?_⟩
    · rw [← Memory.load_store_same]
      exact Memory.load_congr fun k hk => h'.memory _ (ha k hk)
    · rw [h'.memory z hz, Memory.store_of_le hout]
  · have hafter := hsteady (st.mem.store w a (stepped up t (st.mem.load w a)))
      fun z hz => Memory.store_of_le hz
    rw [eval_of_object href hafter, ht, objects_read (CType.plain_of_scalar hscalar) hw ha,
      Memory.load_store_same]

def memberSource : String :=
    "struct S \x7b short m; \x7d; int f(struct S *q) \x7b return q->m; \x7d"

/-- The pointer in the frame points to 0x5000, where the largest short number is. -/
def limitState : State :=
  steadyState.setMem fun z =>
    if z = 0x1ff9 then 0x50 else if z = 0x5000 then 0xff else if z = 0x5001 then 0x7f else 0

/-- A member behind a pointer, at the upper limit of its type: `q->m++` is 32767, and then the
member holds -32768. -/
theorem applyPostfix_leaves_old_limit :
    ∃ (p : Program) (f : Function) (x x' y y' : Node) (code : Code) (k : Counters) (K : Setting),
      parse memberSource = .ok p ∧ f ∈ p.functions ∧ x.hasEffects = false ∧
      Typing.elaborate ⟨p, f.returnType⟩ x = .ok x' ∧ x'.isReferable = true ∧
      x'.type? = some (.ofPrimitive .short) ∧
      Parse.applyPostfix (.ofDepth 0) .increment .start x (.ofTokens []) = .ok y (.ofTokens []) ∧
      Typing.elaborate ⟨p, f.returnType⟩ y = .ok y' ∧
      Emission.value (.ofFunction p f) y' ⟨0, 0⟩ = .ok (code, k) ∧ K.prog = code.lines ∧
      eval (K.objects p (.ofFunction p f) noCalls) 0 x' limitState.mem =
        some (.ok 32767, limitState.mem) ∧
      Reaches K.world K.prog (fun st =>
        Evaluated K 0 code.lines.length limitState 32767
          (limitState.mem.store .word 0x5000 32768) st ∧
        st.mem.load .word 0x5000 = -32768) limitState := by
  have hcheck : (parse memberSource).toOption.any (fun p => p.returnsCoded
      (fun f x => Typing.elaborate ⟨p, f.returnType⟩ (stepTree true x .start))
      fun f x _ code => !x.hasEffects && decide (pushes code.lines ≤ 64) &&
        (Typing.elaborate ⟨p, f.returnType⟩ x).toOption.any fun x' =>
          x'.isReferable && decide (x'.type? = some (.ofPrimitive .short)) &&
          (object ((steadySetting [] unambiguous_nil).objects p (.ofFunction p f) noCalls) 0 x'
            limitState.mem).any (fun r => r.1.toOption == some 0x5000)) = true := by
    decide +kernel
  obtain ⟨p, hp, hchecks⟩ := exists_of_any hcheck
  have hvalid : p.Valid := by
    rcases parse_cases memberSource with ⟨q, hq, hvalid⟩ | ⟨e, he, -⟩
    · cases hp.symm.trans hq
      exact hvalid
    · cases hp.symm.trans he
  obtain ⟨f, i, j, x, y', code, k, hf, hb, hy, hcode, htest⟩ :=
    Program.exists_of_returnsCoded hchecks
  rw [Bool.and_eq_true, Bool.and_eq_true, Bool.not_eq_true', decide_eq_true_eq] at htest
  obtain ⟨⟨hpure, hroom⟩, htest⟩ := htest
  obtain ⟨x', hx, htest⟩ := exists_of_any htest
  rw [Bool.and_eq_true, Bool.and_eq_true, decide_eq_true_eq] at htest
  obtain ⟨⟨href, ht⟩, hplace⟩ := htest
  obtain ⟨m, hobject⟩ := exists_of_value hplace
  have hd := hvalid.bodies f hf _ hb
  have hshaped : Shaped (f.names p) .expression false x := by
    cases hd.shaped with
    | block hs =>
      cases hs _ List.mem_cons_self with
      | ret he => exact he x rfl
  obtain ⟨y, z, w, hstep, hz, hwidth, hall⟩ :=
    applyPostfix_leaves_old hvalid hd hshaped hpure hx href ht rfl true (.ofDepth 0) .start
      (.ofTokens [])
  cases (applyPostfix_stepMark hpure true _ _ _).symm.trans hstep
  cases hy.symm.trans hz
  cases hwidth
  obtain ⟨code', n', hcode', hrun⟩ := hall [] 0 0
  cases hcode.symm.trans hcode'
  have hun : Unambiguous code.lines := by
    intro l i j hl hi hj
    exact index_unique ((emits_fresh (value_emits hcode).1).defines_le_one l) hi hj
  have hclear : (steadySetting code.lines hun).Clear .word 0x5000 := by
    have hfree : (steadySetting [] unambiguous_nil).Clear .word 0x5000 := by decide
    exact hfree
  obtain ⟨hvalue, hreaches, -⟩ := hrun _ 0 limitState (steady_room hun hroom) (steady_codeAt hun)
    rfl rfl (steady_top hun rfl) 0 0x5000 m hobject hclear
  have hold : limitState.mem.load .word 0x5000 = 32767 := by decide
  have hnew : stepped true (.ofPrimitive .short) 32767 = 32768 := by decide
  have hnarrow : narrow .word 32768 = -32768 := by decide
  rw [hold] at hvalue
  rw [hold, hnew, hnarrow, Nat.zero_add] at hreaches
  exact ⟨p, f, x, x', _, y', code, _, steadySetting code.lines hun, hp, hf, hpure, hx, href,
    ht, hstep, hy, hcode, rfl, hvalue, hreaches.mono fun st h => ⟨h.1, h.2.1⟩⟩

end StackC
