import StackC.Initializer.Stores
import StackC.Proofs.Machine.Bytes
import StackC.Proofs.Semantics.Interpreter
import StackC.Proofs.Typing.Typed

namespace StackC

namespace Typing

theorem typeOf_eq {n : Node} {t : CType} (h : n.type? = some t) : typeOf n = .ok t := by
  unfold typeOf
  rw [h]

theorem decay_of_type {n : Node} {t : CType} (h : n.type? = some t) (ht : t.isArray = false) :
    decay n = .ok n := by
  unfold decay
  rw [typeOf_eq h]
  cases t with
  | array b len k => exact nomatch ht
  | _ => rfl

/-- An array that is referable decays to the address of its first element. -/
theorem decay_array {n : Node} {base : CType} {len : Option Nat} {k : Nat}
    (h : n.type? = some (.array base len k)) (hn : n.isReferable = true) :
    decay n = .ok (.addr (.typed n.place base.pointerTo) n) := by
  unfold decay
  rw [typeOf_eq h]
  simp only [bind, Except.bind, hn, if_true]
  rfl

theorem decay_of_integer {n : Node} (h : n.Has CType.isInteger) : decay n = .ok n := by
  obtain ⟨t, ht, hi⟩ := h
  refine decay_of_type ht ?_
  cases t with
  | primitive => rfl
  | _ => exact nomatch hi

theorem elaborate_binary {c : Context} {i : Info} {op : BinaryOp} {l r l' r' l'' r'' : Node}
    (hl : elaborate c l = .ok l') (hr : elaborate c r = .ok r') (hl' : decay l' = .ok l'')
    (hr' : decay r' = .ok r'') : elaborate c (.binary i op l r) = binary op l'' r'' i.place := by
  rw [elaborate, hl, hr]
  simp only [bind, Except.bind, hl', hr']

theorem not_isPointer_of_isInteger {t : CType} (h : t.isInteger = true) : t.isPointer = false := by
  cases t with
  | pointer => cases h
  | _ => rfl

theorem add_index {l r : Node} {base : CType} {k : Nat} (p : Location)
    (hl : l.type? = some (.pointer base k)) (hr : r.Has CType.isInteger) :
    add l r p = .ok (.binary (.typed p (.pointer base k)) .add l (scaled r base.size p)) := by
  obtain ⟨u, hu, hi⟩ := hr
  have hindex : addIndex l r (.pointer base k) u p =
      .ok (.binary (.typed p (.pointer base k)) .add l (scaled r base.size p)) := if_pos hi
  unfold add
  rw [typeOf_eq hl, typeOf_eq hu]
  simp only [bind, Except.bind, not_isPointer_of_isInteger hi, hindex]
  rfl

/-- The five operations on integers that give an integer and evaluate both operands. -/
theorem binary_integers {op : BinaryOp} {l r : Node} (p : Location)
    (hop : op ∈ [.add, .sub, .mul, .div, .mod]) (hl : l.Has CType.isInteger)
    (hr : r.Has CType.isInteger) : binary op l r p = .ok (intBinary op l r p) := by
  obtain ⟨t, ht, hti⟩ := hl
  obtain ⟨u, hu, hui⟩ := hr
  simp only [List.mem_cons, List.not_mem_nil, or_false] at hop
  rcases hop with rfl | rfl | rfl | rfl | rfl <;>
  simp only [binary, add, sub, requireInteger, typeOf_eq ht, typeOf_eq hu, bind, Except.bind, hti,
    hui, Bool.and_self, if_true] <;> rfl

end Typing

namespace Node

def hasQuotients : Node → Bool
  | binary _ op l r => l.hasQuotients && r.hasQuotients &&
      !((op == .div || op == .mod) && l.constant? == some Int64.minValue &&
        r.constant? == some (-1))
  | _ => true

/-- The operands of a division that has a quotient, as words. -/
theorem quotient_defined {a b : Int64} (hb : b ≠ 0) (h : ¬(a = Int64.minValue ∧ b = -1)) :
    ¬(b.toBitVec = 0 ∨ a.toBitVec = BitVec.intMin 64 ∧ b.toBitVec = -1) := by
  rintro (hzero | ⟨hmin, hone⟩)
  · exact hb (Int64.toBitVec_inj.mp hzero)
  · exact h ⟨Int64.toBitVec_inj.mp hmin, Int64.toBitVec_inj.mp hone⟩

/-- A constant operation has constant operands, and its value is that of the operation on words
unless it divides the smallest number by minus one. -/
theorem constant?_binary {i : Info} {op : BinaryOp} {l r : Node} {v : Int64}
    (h : (Node.binary i op l r).constant? = some v) :
    ∃ a b, l.constant? = some a ∧ r.constant? = some b ∧ op ∈ [.add, .sub, .mul, .div, .mod] ∧
      ((op = .div ∨ op = .mod → ¬(a = Int64.minValue ∧ b = -1)) →
        Semantics.apply op a.toBitVec b.toBitVec = some v.toBitVec) := by
  rw [constant?] at h
  split at h
  · next a b ha hb =>
    refine ⟨a, b, ha, hb, ?_⟩
    cases op with
    | add | sub | mul =>
      cases h
      exact ⟨by decide, fun _ => by simp [Semantics.apply]⟩
    | div | mod =>
      simp only [Option.ite_none_left_eq_some, Option.some.injEq] at h
      obtain ⟨hb, rfl⟩ := h
      refine ⟨by decide, fun hdiv => ?_⟩
      rw [Semantics.apply, if_neg (quotient_defined hb (hdiv (by decide)))]
      simp
    | _ => cases h
  · cases h

end Node

namespace Semantics

open Assembly Machine Typing

def flat (locate : VarId → Option Word) : Objects Memory Word where
  named := locate
  pointee a := some a
  member a k := some (a + BitVec.ofNat 64 k)
  address a := some a
  load w a m := some (m.load w a)
  store w a v m := some (m.store w a v)
  call _ _ _ := none

theorem Run.bind_of_ok {σ α β : Type} {x : Run σ α} {f : α → Run σ β} {s s' : σ} {a : α}
    (h : x s = some (.ok a, s')) : (x >>= f) s = f a s' := by
  have hb : (x >>= f) s = (x s).bind fun p => ExceptT.bindCont f p.1 p.2 := rfl
  rw [hb, h]
  rfl

/-- The value of an operation that evaluates both of its operands. -/
theorem eval_operation {σ ρ : Type} {o : Objects σ ρ} {rounds : Nat} {s s₁ s₂ : σ} {i : Info}
    {op : BinaryOp} {l r : Node} {a b v : Word} (hl : eval o rounds l s = some (.ok a, s₁))
    (hr : eval o rounds r s₁ = some (.ok b, s₂)) (hv : apply op a b = some v) :
    eval o rounds (.binary i op l r) s = some (.ok v, s₂) := by
  rw [eval]
  · rw [Run.bind_of_ok hl, Run.bind_of_ok hr, hv]
    rfl
  · rintro rfl
    cases hv
  · rintro rfl
    cases hv

variable {c : Context} {locate : VarId → Option Word} {a : Word} {t : CType}
  {e n target : Node} {k : Nat}

/-- Objects are known by their addresses, and a member lies at its distance behind its struct. -/
structure Objects.Bytewise {σ : Type} (o : Objects σ Word) : Prop where
  pointee (a : Word) : o.pointee a = some a
  member (a : Word) (k : Nat) : o.member a k = some (a + BitVec.ofNat 64 k)
  address (a : Word) : o.address a = some a

theorem bytewise_flat (locate : VarId → Option Word) : (flat locate).Bytewise :=
  ⟨fun _ => rfl, fun _ _ => rfl, fun _ => rfl⟩

/-- The expression denotes the object of type `t` that lies `k` bytes behind the object that the
typed expression `e` denotes. -/
def Behind (c : Context) (e n : Node) (t : CType) (k : Nat) : Prop :=
  ∃ e', elaborate c n = .ok e' ∧ e'.isReferable = true ∧ e'.type? = some t ∧
    ∀ {σ : Type} {o : Objects σ Word}, o.Bytewise → ∀ {rounds s a s'},
      object o rounds e s = some (.ok a, s') →
      object o rounds e' s = some (.ok (a + BitVec.ofNat 64 k), s')

theorem behind_self (he : elaborate c n = .ok e) (hr : e.isReferable = true)
    (ht : e.type? = some t) :
    Behind c e n t 0 := by
  refine ⟨e, he, hr, ht, fun _ _ _ _ _ h => ?_⟩
  rwa [BitVec.add_zero]

theorem add_ofNat_add (a : Word) (m n : Nat) :
    a + BitVec.ofNat 64 m + BitVec.ofNat 64 n = a + BitVec.ofNat 64 (m + n) := by
  rw [BitVec.add_assoc, ← BitVec.ofNat_add]

/-- A member lies at its offset behind its struct. -/
theorem Behind.member {l : Layout CType} {size : Nat} {m : Member CType}
    (h : Behind c e target (.struct l size) k) (hm : l.member? m.name = some m) (p : Location) :
    Behind c e (target.access m.name p) m.type (k + m.offset) := by
  obtain ⟨e', he, hr, ht, hobject⟩ := h
  refine ⟨.member (.typed p m.type) e' m.name (some m), ?_, rfl, rfl, ?_⟩
  · have hfound : CType.member? m.name (.struct l size) = some m := hm
    rw [Node.access, elaborate, he]
    simp only [bind, Except.bind, memberAccess, typeOf_eq ht, CType.isStruct, hr, hfound,
      Bool.not_true, Bool.false_eq_true, if_false]
    rfl
  · intro σ o ho rounds s a s' h
    rw [object, Run.bind_of_ok (hobject ho h), ho.member, add_ofNat_add]
    rfl

theorem elaborate_num (c : Context) (i : Info) (v : Int64) :
    ∃ i', elaborate c (.num i v) = .ok (.num i' v) ∧ (Node.num i' v).Has CType.isInteger := by
  refine ⟨_, rfl, _, rfl, ?_⟩
  split
  · rfl
  · rfl

/-- The element with index `i` lies `i` times the size of an element behind the array. -/
theorem Behind.element {base : CType} {len : Option Nat} {size : Nat}
    (h : Behind c e target (.array base len size) k) (hv : base.isVoid = false) (i : Nat)
    (p : Location) : Behind c e (target.element i p) base (k + base.size * i) := by
  obtain ⟨e', he, hr, ht, hobject⟩ := h
  obtain ⟨j, hindex, hi⟩ := elaborate_num c (.bare p) (Int64.ofNat i)
  let index := Node.num j (Int64.ofNat i)
  let first := Node.addr (.typed e'.place base.pointerTo) e'
  let sum := Node.binary (.typed p base.pointerTo) .add first (scaled index base.size p)
  refine ⟨.deref (.typed p base) sum, ?_, rfl, rfl, ?_⟩
  · have hsum : elaborate c
        (.binary (.bare p) .add target (.literal (Int64.ofNat i) p)) = .ok sum :=
      (elaborate_binary he hindex (decay_array ht hr) (decay_of_integer hi)).trans
        (add_index p rfl hi)
    have hdecay : decay sum = .ok sum := decay_of_type (t := base.pointerTo) rfl rfl
    rw [Node.element, Node.subscript, Node.indirect, elaborate, hsum]
    simp only [bind, Except.bind, hdecay, indirection,
      typeOf_eq (n := sum) (t := base.pointerTo) rfl, CType.pointerTo, hv,
      Bool.false_eq_true, if_false]
    rfl
  · intro σ o ho rounds s a s' h
    have hfirst : eval o rounds first s = some (.ok (a + BitVec.ofNat 64 k), s') := by
      rw [eval, Run.bind_of_ok (hobject ho h), ho.address]
      rfl
    have hscaled : eval o rounds (scaled index base.size p) s' =
        some (.ok (BitVec.ofNat 64 (base.size * i)), s') := by
      refine eval_operation (l := index) rfl rfl (congrArg some ?_)
      rw [Int64.toBitVec_ofNat', Int64.toBitVec_ofNat', Nat.mul_comm, BitVec.ofNat_mul]
    have hsum : eval o rounds sum s = some (.ok (a + BitVec.ofNat 64 (k + base.size * i)), s') := by
      refine eval_operation hfirst hscaled (congrArg some ?_)
      rw [add_ofNat_add]
    rw [object, Run.bind_of_ok hsum, ho.pointee]
    rfl

def Amounts (c : Context) (locate : VarId → Option Word) (n : Node) (v : Int64) : Prop :=
  ∃ e, elaborate c n = .ok e ∧ e.Has CType.isInteger ∧
    ∀ rounds m, eval (flat locate) rounds e m = some (.ok v.toBitVec, m)

def Denotes (c : Context) (locate : VarId → Option Word) (n : Node) (t : CType) (a : Word) : Prop :=
  ∃ e, elaborate c n = .ok e ∧ e.isReferable = true ∧ e.type? = some t ∧
    ∀ rounds m, object (flat locate) rounds e m = some (.ok a, m)

/-- The statements fill memory with the bytes from `a` on and leave all else as it was. -/
def Fills (c : Context) (locate : VarId → Option Word) (stores : List Node) (a : Word)
    (bytes : List UInt8) : Prop :=
  ∃ typed, elaborateAll c stores = .ok typed ∧
    ∀ rounds m, performAll (flat locate) rounds typed m = some (.ok (), m.fill a bytes)

/-- A variable denotes the object where it lies. -/
theorem denotes_var {i : Info} {id : VarId} {x : Var} (hx : c.program.var? id = some x)
    (ha : locate id = some a) : Denotes c locate (.var i id) x.type a := by
  refine ⟨.var (.typed i.place x.type) id, ?_, rfl, rfl, fun rounds m => ?_⟩
  · rw [elaborate, hx]
  · rw [object]
    simp only [Run.ofOption, flat, ha, Option.map_some]

/-- A part of an object that an expression denotes. -/
theorem Denotes.part {u : CType} (h : Denotes c locate target u a)
    (hpart : ∀ e, Behind c e target u 0 → Behind c e n t k) :
    Denotes c locate n t (a + BitVec.ofNat 64 k) := by
  obtain ⟨e, he, hr, hu, hobject⟩ := h
  obtain ⟨e', he', hr', ht', hdistance⟩ := hpart e (behind_self he hr hu)
  exact ⟨e', he', hr', ht', fun rounds m => hdistance (bytewise_flat locate) (hobject rounds m)⟩

theorem Denotes.member {l : Layout CType} {size : Nat} {m : Member CType}
    (h : Denotes c locate target (.struct l size) a) (hm : l.member? m.name = some m)
    (p : Location) :
    Denotes c locate (target.access m.name p) m.type (a + BitVec.ofNat 64 m.offset) := by
  have hpart := h.part fun e hself => hself.member hm p
  rwa [Nat.zero_add] at hpart

theorem amounts_num (i : Info) (v : Int64) : Amounts c locate (.num i v) v := by
  obtain ⟨j, helaborate, hi⟩ := elaborate_num c i v
  exact ⟨_, helaborate, hi, fun _ _ => rfl⟩

/-- A constant expression has its value when it is evaluated. -/
theorem amounts_constant (n : Node) (v : Int64) (h : n.constant? = some v)
    (hd : n.hasQuotients = true) :
    Amounts c locate n v :=
  match n with
  | .num i k => by
    cases h
    exact amounts_num i v
  | .binary i op l r => by
    obtain ⟨x, y, hx, hy, hop, happly⟩ := Node.constant?_binary h
    rw [Node.hasQuotients, Bool.and_eq_true, Bool.and_eq_true] at hd
    obtain ⟨⟨hdl, hdr⟩, hdiv⟩ := hd
    obtain ⟨l', hl, hli, hleval⟩ := amounts_constant l x hx hdl
    obtain ⟨r', hr, hri, hreval⟩ := amounts_constant r y hy hdr
    have hdiv : op = .div ∨ op = .mod → ¬(x = Int64.minValue ∧ y = -1) := by
      rintro ho ⟨rfl, rfl⟩
      rw [hx, hy] at hdiv
      rcases ho with rfl | rfl
      · exact absurd hdiv (by decide)
      · exact absurd hdiv (by decide)
    refine ⟨intBinary op l' r' i.place, ?_, ⟨.int, rfl, rfl⟩, fun rounds m => ?_⟩
    · exact (elaborate_binary hl hr (decay_of_integer hli) (decay_of_integer hri)).trans
        (binary_integers i.place hop hli hri)
    · exact eval_operation (hleval rounds m) (hreval rounds m) (happly hdiv)
  | .var .. | .member .. | .not .. | .assign .. | .ternary .. | .addr .. | .deref .. | .sizeof ..
  | .call .. | .stmtExpr .. | .exprStmt .. | .ret .. | .block .. | .ifElse .. | .whileLoop ..
  | .forLoop .. | .breakLoop .. | .continueLoop .. | .empty .. => nomatch h
termination_by structural n

theorem Denotes.element {base : CType} {len : Option Nat} {size : Nat}
    (h : Denotes c locate target (.array base len size) a) (hv : base.isVoid = false) (i : Nat)
    (p : Location) :
    Denotes c locate (target.element i p) base (a + BitVec.ofNat 64 (base.size * i)) := by
  have hpart := h.part fun e hself => hself.element hv i p
  rwa [Nat.zero_add] at hpart

theorem fills_nil (a : Word) : Fills c locate [] a [] := ⟨[], rfl, fun _ _ => rfl⟩

/-- Lists of trees are elaborated part by part. -/
theorem elaborateAll_append {xs ys xs' ys' : List Node} (hx : elaborateAll c xs = .ok xs')
    (hy : elaborateAll c ys = .ok ys') : elaborateAll c (xs ++ ys) = .ok (xs' ++ ys') := by
  induction xs generalizing xs' with
  | nil =>
    cases hx
    exact hy
  | cons x xs ih =>
    rw [elaborateAll] at hx
    cases hfirst : elaborate c x with
    | error e =>
      rw [hfirst] at hx
      exact nomatch hx
    | ok x' =>
      cases hrest : elaborateAll c xs with
      | error e =>
        rw [hfirst, hrest] at hx
        exact nomatch hx
      | ok rest =>
        rw [hfirst, hrest] at hx
        cases hx
        rw [List.cons_append, elaborateAll, hfirst, ih hrest]
        rfl

theorem performAll_append {σ ρ : Type} {o : Objects σ ρ} {rounds : Nat} (xs ys : List Node) :
    performAll o rounds (xs ++ ys) = (do
      performAll o rounds xs
      performAll o rounds ys) := by
  induction xs with
  | nil => rw [List.nil_append, performAll, pure_bind]
  | cons x xs ih => rw [List.cons_append, performAll, performAll, ih, bind_assoc]

/-- Statements that fill adjacent ranges fill both. -/
theorem Fills.append {xs ys : List Node} {as bs : List UInt8} (hx : Fills c locate xs a as)
    (hy : Fills c locate ys (a + BitVec.ofNat 64 as.length) bs)
    (h : as.length + bs.length < addresses) : Fills c locate (xs ++ ys) a (as ++ bs) := by
  obtain ⟨xs', hxs, hx⟩ := hx
  obtain ⟨ys', hys, hy⟩ := hy
  refine ⟨xs' ++ ys', elaborateAll_append hxs hys, fun rounds m => ?_⟩
  rw [performAll_append, Run.bind_of_ok (hx rounds m), hy, Memory.fill_append h]

/-- One store fills as many bytes as its target has. -/
theorem fills_store {v : Int64} {value : Node} {w : Width} (h : Denotes c locate target t a)
    (ht : (t.isArray || t.isStruct) = false) (hw : Width.ofBytes? t.size = some w)
    (hvalue : Amounts c locate value v) (p : Location) :
    Fills c locate [target.store value p] a (littleEndian t.size v) := by
  obtain ⟨e, he, hr, hte, hobject⟩ := h
  obtain ⟨x, hx, ⟨u, hu, hi⟩, heval⟩ := hvalue
  have hplain : t.isArray = false := (Bool.or_eq_false_iff.mp ht).1
  have hscalar : scalarValue .unassignableValue x = .ok x := by
    unfold scalarValue
    rw [typeOf_eq hu]
    simp only [bind, Except.bind, CType.isScalar, hi, Bool.true_or, if_true]
    rfl
  have htarget : targetType e = .ok t := by
    unfold targetType
    rw [typeOf_eq hte]
    simp only [hr, bind, Except.bind, ht, Bool.not_true, Bool.false_eq_true, if_false]
    rfl
  let assigned := Node.assign (.typed p t) e x
  have hassign : elaborate c (.assign (.bare p) target value) = .ok assigned := by
    rw [elaborate, he, hx]
    simp only [bind, Except.bind, htarget, decay_of_integer ⟨u, hu, hi⟩, hscalar]
    rfl
  refine ⟨[.exprStmt (.typed p t) assigned], ?_, fun rounds m => ?_⟩
  · have hdecay : decay assigned = .ok assigned := decay_of_type (t := t) rfl hplain
    rw [Node.store, Node.ofExpr, elaborateAll, elaborate, hassign]
    simp only [bind, Except.bind, hdecay, typeOf_eq (n := assigned) (t := t) rfl]
    rfl
  · have hwrite : (flat locate).write e.type? a v.toBitVec m =
        some (.ok (), m.fill a (littleEndian t.size v)) := by
      rw [Objects.write, hte, Option.bind_some, hw, ← Memory.bytes_of_ofBytes? hw,
        ← Memory.store_eq_fill]
      rfl
    have heval : eval (flat locate) rounds assigned m =
        some (.ok v.toBitVec, m.fill a (littleEndian t.size v)) := by
      rw [eval, Run.bind_of_ok (hobject rounds m), Run.bind_of_ok (heval rounds m),
        Run.bind_of_ok hwrite]
      rfl
    rw [performAll, perform, bind_assoc, Run.bind_of_ok heval]
    rfl

end Semantics

end StackC
