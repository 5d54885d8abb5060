import StackC.Proofs.StepOperators

namespace StackC

namespace Machine

open Assembly

theorem toInt_ofNat_of_lt {n : Nat} (h : n < limit .quad) : (BitVec.ofNat 64 n).toInt = n := by
  have h : (n : Int) < 0x8000000000000000 := h
  rw [BitVec.toInt_ofNat']
  exact Int.bmod_eq_of_le_mul_two (by omega) (by omega)

/-- A multiple that is in the range of words has the factor as its quotient. -/
theorem sdiv_mul {n : Nat} {y : Word} (hpos : 0 < n) (hn : n < limit .quad)
    (hlow : -limit .quad ≤ n * y.toInt) (hhigh : n * y.toInt < limit .quad) :
    (BitVec.ofNat 64 n * y).sdiv (BitVec.ofNat 64 n) = y := by
  have hsize : (BitVec.ofNat 64 n).toInt = n := toInt_ofNat_of_lt hn
  have hproduct : (BitVec.ofNat 64 n * y).toInt = n * y.toInt := by
    have hlow : -0x8000000000000000 ≤ n * y.toInt := hlow
    have hhigh : n * y.toInt < 0x8000000000000000 := hhigh
    rw [BitVec.toInt_mul, hsize]
    exact Int.bmod_eq_of_le_mul_two (by omega) (by omega)
  have hne : BitVec.ofNat 64 n ≠ -1 := by
    intro hneg
    rw [hneg] at hsize
    have hone : (-1 : Word).toInt = -1 := by decide
    omega
  apply BitVec.toInt_inj.mp
  rw [BitVec.toInt_sdiv_of_ne_or_ne _ _ (Or.inr hne), hproduct, hsize]
  exact Int.mul_tdiv_cancel_left _ (by omega)

end Machine

namespace Typing

variable {P : Program} {f : Function} {l r n : Node} {t u b : CType} {k : Nat} {place : Location}

theorem exists_addIndex_iff : (∃ n, addIndex l r t u place = .ok n) ↔ u.isInteger = true := by
  unfold addIndex
  split
  · next hu => simp [hu]
  · next hu => simp [hu]

/-- Exactly these operands can be added: two integers, and a pointer and an integer in either
order. -/
theorem exists_add_iff (hl : l.type? = some t) (hr : r.type? = some u) :
    (∃ n, add l r place = .ok n) ↔ t.isInteger = true ∧ u.isInteger = true ∨
      t.isPointer = true ∧ u.isInteger = true ∨ t.isInteger = true ∧ u.isPointer = true := by
  unfold add
  rw [typeOf_eq hl, typeOf_eq hr]
  simp only [bind, Except.bind]
  split
  · next hi =>
    rw [Bool.and_eq_true] at hi
    exact iff_of_true ⟨_, rfl⟩ (Or.inl hi)
  · next hi =>
    rw [Bool.and_eq_true] at hi
    split
    · next ht hu =>
      rw [exists_addIndex_iff]
      simp [ht, hu]
    · next ht hu =>
      rw [exists_addIndex_iff]
      simp +contextual [ht, hu]
    · next hleft hright =>
      refine iff_of_false (by rintro ⟨n, ⟨⟩⟩) ?_
      rintro (h | ⟨ht, hu⟩ | ⟨ht, hu⟩)
      · exact hi h
      · exact hleft ht (not_isPointer_of_isInteger hu)
      · exact hright (not_isPointer_of_isInteger ht) hu

/-- Exactly these operands can be subtracted: two integers, an integer from a pointer, and two
pointers to one type that has a size. -/
theorem exists_sub_iff (hl : l.type? = some t) (hr : r.type? = some u) :
    (∃ n, sub l r place = .ok n) ↔ t.isInteger = true ∧ u.isInteger = true ∨
      t.isPointer = true ∧ u.isInteger = true ∨
      ∃ b m n, t = .pointer b m ∧ u = .pointer b n ∧ b.size ≠ 0 := by
  unfold sub
  rw [typeOf_eq hl, typeOf_eq hr]
  simp only [bind, Except.bind]
  split
  · next hi =>
    rw [Bool.and_eq_true] at hi
    exact iff_of_true ⟨_, rfl⟩ (Or.inl hi)
  · next hi =>
    rw [Bool.and_eq_true] at hi
    split
    · next a m c n =>
      split
      · next hne =>
        refine iff_of_false (by rintro ⟨n, ⟨⟩⟩) ?_
        rintro (⟨⟨⟩, -⟩ | ⟨-, ⟨⟩⟩ | ⟨b, m, n, ⟨⟩, ⟨⟩, -⟩)
        exact hne rfl
      · next heq =>
        split
        · next hzero =>
          refine iff_of_false (by rintro ⟨n, ⟨⟩⟩) ?_
          rintro (⟨⟨⟩, -⟩ | ⟨-, ⟨⟩⟩ | ⟨b, m, n, ⟨⟩, ⟨⟩, hsize⟩)
          exact hsize hzero
        · next hsize =>
          obtain rfl := Decidable.not_not.mp heq
          exact iff_of_true ⟨_, rfl⟩ (Or.inr (Or.inr ⟨_, _, _, rfl, rfl, hsize⟩))
    · next a m hpointer =>
      split
      · next hu => exact iff_of_true ⟨_, rfl⟩ (Or.inr (Or.inl ⟨rfl, hu⟩))
      · next hu =>
        refine iff_of_false (by rintro ⟨n, ⟨⟩⟩) ?_
        rintro (⟨⟨⟩, -⟩ | ⟨-, hu'⟩ | ⟨b, m, n, ⟨⟩, rfl, -⟩)
        · exact hu hu'
        · exact hpointer _ _ rfl
    · next hp hboth =>
      refine iff_of_false (by rintro ⟨n, ⟨⟩⟩) ?_
      rintro (h | ⟨ht, -⟩ | ⟨b, m, n, rfl, -⟩)
      · exact hi h
      · cases t with
        | pointer a m => exact hp a m rfl
        | _ => cases ht
      · exact hp b m rfl

structure PureOperand (P : Program) (f : Function) (n : Node) : Prop where
  typed : Typed ⟨P, f.returnType⟩ n
  shaped : Shaped (f.names P) .expression false n
  effectless : n.hasEffects = false

/-- An expression without effects is elaborated to an operand of this kind. -/
theorem PureOperand.of_elaborate {b : Bool} {n' : Node} (hs : Shaped (f.names P) .expression b n)
    (h : n.hasEffects = false) (he : elaborate ⟨P, f.returnType⟩ n = .ok n') :
    PureOperand P f n' := by
  have helaborates := (yields_elaborate _ n).of_ok he
  have heffectless := (yields_effectless _ n h).of_ok he
  have hplain := helaborates.typed.isPlain heffectless
  exact ⟨helaborates.typed, (helaborates.shaped _ _ _ hs).of_isPlain hplain false, heffectless⟩

theorem PureOperand.add (hl : PureOperand P f l) (hr : PureOperand P f r)
    (h : add l r place = .ok n) : PureOperand P f n := by
  have hcombines := (yields_add place hl.typed hr.typed).of_ok h
  exact ⟨hcombines.typed, hcombines.shaped _ _ hl.shaped hr.shaped,
    (yields_effectless_add place hl.effectless hr.effectless).of_ok h⟩

theorem PureOperand.sub (hl : PureOperand P f l) (hr : PureOperand P f r)
    (h : sub l r place = .ok n) : PureOperand P f n := by
  have hcombines := (yields_sub place hl.typed hr.typed).of_ok h
  exact ⟨hcombines.typed, hcombines.shaped _ _ hl.shaped hr.shaped,
    (yields_effectless_sub place hl.effectless hr.effectless).of_ok h⟩

/-- In a sum the pointer becomes the left operand. -/
theorem index_add (place : Location) (hl : l.Has CType.isInteger)
    (hr : r.type? = some (.pointer b k)) :
    add l r place = .ok (.binary (.typed place (.pointer b k)) .add r (scaled l b.size place)) := by
  obtain ⟨u, hu, hi⟩ := hl
  have hindex : addIndex r l (.pointer b k) u place =
      .ok (.binary (.typed place (.pointer b k)) .add r (scaled l b.size place)) := if_pos hi
  have hsum : (u.isInteger && (CType.pointer b k).isInteger) = false := Bool.and_false _
  have hpointer : (CType.pointer b k).isPointer = true := rfl
  unfold add
  rw [typeOf_eq hu, typeOf_eq hr]
  simp only [bind, Except.bind, not_isPointer_of_isInteger hi, hsum, hpointer, hindex,
    Bool.false_eq_true, if_false]

/-- The difference of two pointers is divided by the size of what they point to. -/
theorem sub_distance (place : Location) {m : Nat} (hl : l.type? = some (.pointer b k))
    (hr : r.type? = some (.pointer b m)) (hb : 0 < b.size) : sub l r place =
      .ok (intBinary .div (.binary (.typed place .long) .sub l r) (sizeLiteral b.size place)
        place) := by
  unfold sub
  rw [typeOf_eq hl, typeOf_eq hr]
  simp only [bind, Except.bind, CType.isInteger, Bool.and_self, Bool.false_eq_true, if_false, ne_eq,
    not_true_eq_false, if_neg (Nat.pos_iff_ne_zero.mp hb)]
  rfl

end Typing

namespace Simulation

open Assembly Emission Machine Semantics Typing

variable {P : Program} {f : Function} {body p k e sum : Node} {size rounds : Nat} {x y v : Word}
  {place : Location}

section

variable {σ ρ : Type} {o : Objects σ ρ} {s : σ} {i : Info}

/-- A scaled index has as many units as the index has elements. -/
theorem eval_scaled (hk : eval o rounds k s = some (.ok y, s)) :
    eval o rounds (scaled k size place) s = some (.ok (BitVec.ofNat 64 size * y), s) := by
  refine eval_operation hk rfl (congrArg some ?_)
  rw [Int64.toBitVec_ofNat', BitVec.mul_comm]

theorem eval_addScaled (hp : eval o rounds p s = some (.ok x, s))
    (hk : eval o rounds k s = some (.ok y, s)) :
    eval o rounds (.binary i .add p (scaled k size place)) s =
      some (.ok (x + BitVec.ofNat 64 size * y), s) :=
  eval_operation hp (eval_scaled hk) rfl

/-- The same step back. -/
theorem eval_subScaled (hs : eval o rounds sum s = some (.ok (x + BitVec.ofNat 64 size * y), s))
    (hk : eval o rounds k s = some (.ok y, s)) :
    eval o rounds (.binary i .sub sum (scaled k size place)) s = some (.ok x, s) :=
  eval_operation hs (eval_scaled hk) (congrArg some (BitVec.add_sub_cancel x _))

/-- The number of units between the two ends of a step. -/
theorem eval_distance (hpos : 0 < size) (hsize : size < limit .quad)
    (hlow : -limit .quad ≤ size * y.toInt) (hhigh : size * y.toInt < limit .quad)
    (hs : eval o rounds sum s = some (.ok (x + BitVec.ofNat 64 size * y), s))
    (hp : eval o rounds p s = some (.ok x, s)) :
    eval o rounds (intBinary .div (.binary i .sub sum p) (sizeLiteral size place) place) s =
      some (.ok y, s) := by
  have hbytes : eval o rounds (.binary i .sub sum p) s =
      some (.ok (BitVec.ofNat 64 size * y), s) := by
    refine eval_operation hs hp (congrArg some ?_)
    rw [BitVec.add_comm, BitVec.add_sub_cancel]
  have hunit : eval o rounds (sizeLiteral size place) s = some (.ok (BitVec.ofNat 64 size), s) := by
    rw [sizeLiteral, eval, Int64.toBitVec_ofNat']
    rfl
  have hint : (BitVec.ofNat 64 size).toInt = size := toInt_ofNat_of_lt hsize
  have hdefined : ¬(BitVec.ofNat 64 size = 0 ∨
      BitVec.ofNat 64 size * y = BitVec.intMin 64 ∧ BitVec.ofNat 64 size = -1) := by
    have hzero : (0 : Word).toInt = 0 := by decide
    have hone : (-1 : Word).toInt = -1 := by decide
    rintro (h | ⟨-, h⟩)
    · rw [h] at hint
      omega
    · rw [h] at hint
      omega
  refine eval_operation hbytes hunit ?_
  rw [apply, if_neg hdefined, sdiv_mul hpos hsize hlow hhigh]

end

/-- The code of the expression can be emitted, and from the state `st` it leaves `v` above the `d`
slots in use and all memory outside of the operand stack as it was. -/
def Leaves (K : Setting) (c : Emission.Context) (d : Nat) (st : State) (e : Node)
    (v : Word) : Prop :=
  ∀ n, ∃ (code : Code) (n' : Nat), Emission.value c e ⟨d, n⟩ = .ok (code, ⟨d + 1, n'⟩) ∧
    (8 * (d + pushes code.lines) ≤ K.room → CodeAt K.prog st.pc code.lines →
      Reaches K.world K.prog (Evaluated K d (st.pc + code.lines.length) st v st.mem) st)

/-- The code of such an operand can be emitted at every depth. -/
theorem exists_emits_pureOperand (hp : P.Valid) (hf : f.Defined P body) (he : PureOperand P f e)
    (loops : List Targets) (d n : Nat) :
    ∃ ls n', Emits { Context.ofFunction P f with loops := loops } (.value e) d n ls n' := by
  obtain ⟨hvalue, -⟩ := shaped_emittable he.shaped (hp.sound f.returnType) he.typed
    (suits_ofFunction hp hf loops d)
  exact hvalue n

/-- The code leaves the value that the interpreter gives. -/
theorem leaves_of_eval (hp : P.Valid) (hf : f.Defined P body) (he : PureOperand P f e) {K : Setting}
    {d : Nat} {st : State} (loops : List Targets) (hrbp : st.regs .rbp = K.frame)
    (hrsp : st.regs .rsp = K.slot d)
    (hv : eval (K.objects P (.ofFunction P f) noCalls) rounds e st.mem = some (.ok v, st.mem)) :
    Leaves K { Context.ofFunction P f with loops := loops } d st e v := by
  intro n
  obtain ⟨ls, n', hls⟩ := exists_emits_pureOperand hp hf he loops d n
  obtain ⟨code, hcode, rfl⟩ := emits_gives hls
  refine ⟨code, n', hcode, fun hroom hat => ?_⟩
  exact emits_evaluated hls follows_noCalls hroom hat rfl hrbp hrsp hv

/-- In every state in which `p` has the value `x` and `k` a value `y` that fits, the value of `e` is
`g x y`, and this is what its code leaves. -/
def Computes (P : Program) (f : Function) (p k e : Node) (g : Word → Word → Word)
    (fits : Word → Prop) :
    Prop :=
  ∀ (K : Setting) (loops : List Targets) (d : Nat) (st : State) (rounds : Nat) (x y : Word)
    (m m' : Memory), st.regs .rbp = K.frame → st.regs .rsp = K.slot d →
    eval (K.objects P (.ofFunction P f) noCalls) rounds p st.mem = some (.ok x, m) →
    eval (K.objects P (.ofFunction P f) noCalls) rounds k st.mem = some (.ok y, m') → fits y →
    eval (K.objects P (.ofFunction P f) noCalls) rounds e st.mem = some (.ok (g x y), st.mem) ∧
      Leaves K { Context.ofFunction P f with loops := loops } d st e (g x y)

/-- It is enough to compute the value of the result from those of the operands. -/
theorem computes_of_eval (hp : P.Valid) (hf : f.Defined P body) (hx : PureOperand P f p)
    (hy : PureOperand P f k) (he : PureOperand P f e) {g : Word → Word → Word} {fits : Word → Prop}
    (h : ∀ (o : Objects Memory Word) (rounds : Nat) (m : Memory) (x y : Word),
      eval o rounds p m = some (.ok x, m) → eval o rounds k m = some (.ok y, m) → fits y →
      eval o rounds e m = some (.ok (g x y), m)) : Computes P f p k e g fits := by
  intro K loops d st rounds x y m m' hrbp hrsp hpv hkv hfits
  -- Neither operand has effects, so both are evaluated in the same memory.
  obtain ⟨rfl, -⟩ := (steady_effectless p hx.effectless).1 _ _ _ hpv
  obtain ⟨rfl, -⟩ := (steady_effectless k hy.effectless).1 _ _ _ hkv
  have hv := h _ rounds _ x y hpv hkv hfits
  exact ⟨hv, leaves_of_eval hp hf he loops hrbp hrsp hv⟩

end Simulation

open Assembly Emission Machine Semantics Simulation Typing

/-- A pointer and an integer can be added in either order, with the same result; the same step back
leads to the pointer again; and the distance from the pointer to the sum is the integer, if what is
pointed to has a size and the number of bytes between them is one of a word. All other operands have
no sum or difference, but for two integers and for two pointers to one type that has a size. -/
theorem pointer_arithmetic {P : Program} {f : Function} {body : Node} (hp : P.Valid)
    (hf : f.Defined P body) :
    (∀ (p k : Node) (b : CType) (size : Nat) (place place' : Location), PureOperand P f p →
      PureOperand P f k → p.type? = some (.pointer b size) → k.Has CType.isInteger →
      ∃ sum sum' back, add p k place = .ok sum ∧ add k p place = .ok sum' ∧
      sub sum k place' = .ok back ∧
        Computes P f p k sum (fun x y => x + BitVec.ofNat 64 b.size * y) (fun _ => True) ∧
        Computes P f p k sum' (fun x y => x + BitVec.ofNat 64 b.size * y) (fun _ => True) ∧
        Computes P f p k back (fun x _ => x) (fun _ => True) ∧
        (0 < b.size → ∃ distance, sub sum p place' = .ok distance ∧
          (b.size < limit .quad → Computes P f p k distance (fun _ y => y) fun y =>
            -limit .quad ≤ b.size * y.toInt ∧ b.size * y.toInt < limit .quad))) ∧
    ∀ (l r : Node) (t u : CType) (place : Location), l.type? = some t → r.type? = some u →
      ((∃ n, add l r place = .ok n) ↔ t.isInteger = true ∧ u.isInteger = true ∨
        t.isPointer = true ∧ u.isInteger = true ∨ t.isInteger = true ∧ u.isPointer = true) ∧
      ((∃ n, sub l r place = .ok n) ↔ t.isInteger = true ∧ u.isInteger = true ∨
        t.isPointer = true ∧ u.isInteger = true ∨
        ∃ b m n, t = .pointer b m ∧ u = .pointer b n ∧ b.size ≠ 0) := by
  refine ⟨fun p k b size place place' hx hy hpt hkt => ?_, fun l r t u place hl hr =>
    ⟨exists_add_iff hl hr, exists_sub_iff hl hr⟩⟩
  have hsum := add_index place hpt hkt
  have hsum' := index_add place hkt hpt
  have htype : (Node.binary (.typed place (.pointer b size)) .add p (scaled k b.size place)).type? =
      some (.pointer b size) := rfl
  have hback := sub_index (p := place') htype hkt
  have hpure := hx.add hy hsum
  refine ⟨_, _, _, hsum, hsum', hback, ?_, ?_, ?_, fun hpos => ?_⟩
  · exact computes_of_eval hp hf hx hy hpure fun _ _ _ _ _ hxv hyv _ => eval_addScaled hxv hyv
  · exact computes_of_eval hp hf hx hy (hy.add hx hsum') fun _ _ _ _ _ hxv hyv _ =>
      eval_addScaled hxv hyv
  · exact computes_of_eval hp hf hx hy (hpure.sub hy hback) fun _ _ _ _ _ hxv hyv _ =>
      eval_subScaled (eval_addScaled hxv hyv) hyv
  · have hdistance := sub_distance place' htype hpt hpos
    refine ⟨_, hdistance, fun hsize => ?_⟩
    exact computes_of_eval hp hf hx hy (hpure.sub hx hdistance)
      fun _ _ _ _ _ hxv hyv hfits => eval_distance hpos hsize hfits.1 hfits.2
        (eval_addScaled hxv hyv) hxv

def distanceSource : String :=
  "struct S \x7b char m[3]; \x7d; long f(struct S *q, int k) \x7b return q + k - q; \x7d"

/-- The pointer in the frame points to 0x5000, and the index there is -2. -/
def indexState : State :=
  steadyState.setMem fun z =>
    if z = 0x1ff9 then 0x50 else if z = 0x1ff4 then 0xfe
    else if 0x1ff5 ≤ z ∧ z < 0x1ff8 then 0xff else 0

def distanceTree (p : Program) (f : Function) : Node → Except Diagnostic Node
  | .binary _ _ (.binary _ _ x y) _ => do
    let x' ← elaborate ⟨p, f.returnType⟩ x
    let y' ← elaborate ⟨p, f.returnType⟩ y
    let sum ← add x' y' .start
    sub sum x' .start
  | e => .ok e

theorem CType.eq_pointer_of_base? {t b : CType} (hp : t.isPointer = true) (hb : t.base? = some b) :
    ∃ size, t = .pointer b size := by
  cases t with
  | pointer b' size =>
    cases hb
    exact ⟨size, rfl⟩
  | _ => cases hp

/-- The parts that the tree of the distance is made of. -/
theorem of_distanceTree {p : Program} {f : Function} {i j : Info} {op op' : BinaryOp}
    {x y z distance : Node}
    (h : distanceTree p f (.binary i op (.binary j op' x y) z) = .ok distance) :
    ∃ x' y' sum, elaborate ⟨p, f.returnType⟩ x = .ok x' ∧ elaborate ⟨p, f.returnType⟩ y = .ok y' ∧
      add x' y' .start = .ok sum ∧ sub sum x' .start = .ok distance := by
  obtain ⟨x', hx, h⟩ := Initializer.bind_eq_ok h
  obtain ⟨y', hy, h⟩ := Initializer.bind_eq_ok h
  obtain ⟨sum, hsum, h⟩ := Initializer.bind_eq_ok h
  exact ⟨x', y', sum, hx, hy, hsum, h⟩

def standsFor (p : Program) (f : Function) (v : Word) (x : Node) (test : CType → Bool) : Bool :=
  !x.hasEffects && (elaborate ⟨p, f.returnType⟩ x).toOption.any fun x' =>
    x'.type?.any test && (eval
      ((steadySetting [] unambiguous_nil).objects p (.ofFunction p f) noCalls) 0 x'
      indexState.mem).any (fun r => r.1.toOption == some v)

theorem exists_of_standsFor {p : Program} {f : Function} {v : Word} {x x' : Node}
    {test : CType → Bool} (hx : elaborate ⟨p, f.returnType⟩ x = .ok x')
    (h : standsFor p f v x test = true) :
    x.hasEffects = false ∧ x'.Has test ∧ ∃ m, eval ((steadySetting [] unambiguous_nil).objects p
      (.ofFunction p f) noCalls) 0 x' indexState.mem = some (.ok v, m) := by
  rw [standsFor, Bool.and_eq_true, Bool.not_eq_true'] at h
  obtain ⟨hpure, h⟩ := h
  have h := of_any hx h
  rw [Bool.and_eq_true, Option.any_eq_true] at h
  exact ⟨hpure, h.1, exists_of_value h.2⟩

/-- A step of -2 in units of three bytes from 0x5000: the distance of the sum 0x4ffa from there is
-2. -/
theorem pointer_arithmetic_backwards :
    ∃ (p : Program) (f : Function) (x y sum distance : Node) (b : CType) (size : Nat) (code : Code)
      (k : Counters) (K : Setting), parse distanceSource = .ok p ∧ f ∈ p.functions ∧
      PureOperand p f x ∧ PureOperand p f y ∧ x.type? = some (.pointer b size) ∧ b.size = 3 ∧
      y.Has CType.isInteger ∧ add x y .start = .ok sum ∧ sub sum x .start = .ok distance ∧
      Emission.value (.ofFunction p f) distance ⟨0, 0⟩ = .ok (code, k) ∧ K.prog = code.lines ∧
      eval (K.objects p (.ofFunction p f) noCalls) 0 sum indexState.mem =
        some (.ok 0x4ffa, indexState.mem) ∧
      Reaches K.world K.prog
        (Evaluated K 0 code.lines.length indexState (-2) indexState.mem) indexState := by
  have hcheck : (parse distanceSource).toOption.any (fun p => p.returnsCoded (distanceTree p)
      fun f e _ code => decide (pushes code.lines ≤ 64) && match e with
        | .binary _ _ (.binary _ _ x y) _ =>
          standsFor p f 0x5000 x (fun t => t.isPointer && t.base?.any (·.size == 3)) &&
          standsFor p f (-2) y CType.isInteger
        | _ => false) = true := by
    decide +kernel
  obtain ⟨p, hp, hchecks⟩ := exists_of_any hcheck
  have hvalid : p.Valid := by
    rcases parse_cases distanceSource with ⟨q, hq, hvalid⟩ | ⟨e, he, -⟩
    · cases hp.symm.trans hq
      exact hvalid
    · cases hp.symm.trans he
  obtain ⟨f, i, j, e, distance, code, k, hf, hb, htree, hcode, htest⟩ :=
    Program.exists_of_returnsCoded hchecks
  rw [Bool.and_eq_true, decide_eq_true_eq] at htest
  obtain ⟨hroom, htest⟩ := htest
  split at htest
  case h_2 => cases htest
  next x y _ =>
  obtain ⟨x', y', sum, hx, hy, hsum, hdistance⟩ := of_distanceTree htree
  rw [Bool.and_eq_true] at htest
  obtain ⟨hpure, ⟨t, ht, hthree⟩, m, hxe⟩ := exists_of_standsFor hx htest.1
  obtain ⟨hpure', hint, m', hye⟩ := exists_of_standsFor hy htest.2
  rw [Bool.and_eq_true, Option.any_eq_true] at hthree
  obtain ⟨hpointer, b, hbase, hthree⟩ := hthree
  obtain ⟨size, rfl⟩ := CType.eq_pointer_of_base? hpointer hbase
  have hsize : b.size = 3 := eq_of_beq hthree
  have hd := hvalid.bodies f hf _ hb
  have hshaped : Shaped (f.names p) .expression false x ∧
      Shaped (f.names p) .expression false y := by
    cases hd.shaped with
    | block hs =>
      cases hs _ List.mem_cons_self with
      | ret he =>
        cases he _ rfl with
        | binary hl _ =>
          cases hl with
          | binary hx hy => exact ⟨hx, hy⟩
  have hxo := PureOperand.of_elaborate hshaped.1 hpure hx
  have hyo := PureOperand.of_elaborate hshaped.2 hpure' hy
  obtain ⟨sum₁, sum₂, back, hsum₁, -, -, hforward, -, -, hapart⟩ :=
    (pointer_arithmetic hvalid hd).1 x' y' b size .start .start hxo hyo ht hint
  cases hsum.symm.trans hsum₁
  obtain ⟨distance₁, hdistance₁, hlaw⟩ := hapart (by omega)
  cases hdistance.symm.trans hdistance₁
  have hun : Unambiguous code.lines := by
    intro l i j hl hi hj
    exact index_unique ((emits_fresh (value_emits hcode).1).defines_le_one l) hi hj
  have hrsp : indexState.regs .rsp = (steadySetting code.lines hun).slot 0 := steady_top hun rfl
  have hlimit : limit .quad = 0x8000000000000000 := rfl
  have hfits : -limit .quad ≤ b.size * (-2 : Word).toInt ∧
      b.size * (-2 : Word).toInt < limit .quad := by
    rw [hsize]
    decide
  obtain ⟨hsumValue, -⟩ :=
    hforward (steadySetting code.lines hun) [] 0 indexState 0 0x5000 (-2) m m' rfl hrsp hxe
      hye trivial
  obtain ⟨-, hleaves⟩ :=
    hlaw (by omega) (steadySetting code.lines hun) [] 0 indexState 0 0x5000 (-2) m m' rfl hrsp
      hxe hye hfits
  obtain ⟨code', n', hcode', hrun⟩ := hleaves 0
  cases hcode.symm.trans hcode'
  have hreaches := hrun (steady_room hun hroom) (steady_codeAt hun)
  have hend : indexState.pc + code.lines.length = code.lines.length := Nat.zero_add _
  have hstep : (0x5000 : Word) + BitVec.ofNat 64 b.size * -2 = 0x4ffa := by
    rw [hsize]
    decide
  rw [hend] at hreaches
  beta_reduce at hsumValue
  rw [hstep] at hsumValue
  exact ⟨p, f, x', y', sum, distance, b, size, code, _, steadySetting code.lines hun, hp, hf, hxo,
    hyo, ht, hsize, hint, hsum, hdistance, hcode, rfl, hsumValue, hreaches⟩

end StackC
