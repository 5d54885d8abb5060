import StackC.Proofs.Diagnostic
import StackC.Proofs.Lists
import StackC.Proofs.Program.Shape
import StackC.Typing.Elaboration

namespace StackC

namespace Node

def Has (n : Node) (test : CType → Bool) : Prop := ∃ t, n.type? = some t ∧ test t = true

end Node

namespace Typing

inductive Scaled (size : Nat) : Node → Prop where
  | intro {index p} (hi : index.Has CType.isInteger) : Scaled size (scaled index size p)

/-- `Typed c n`: every node of `n` has the type that its form and the types below it give. -/
inductive Typed (c : Context) : Node → Prop where
  | num {p v t} (ht : t = .int ∨ t = .long) : Typed c (.num ⟨p, some t⟩ v)
  | var {p id x} (hx : c.program.var? id = some x) : Typed c (.var ⟨p, some x.type⟩ id)
  | member {p b name t m} (hb : Typed c b) (hr : b.isReferable = true) (ht : b.type? = some t)
      (hm : t.member? name = some m) : Typed c (.member ⟨p, some m.type⟩ b name (some m))
  | integer {p op l r} (hop : op ≠ .logAnd ∧ op ≠ .logOr) (hl : Typed c l) (hr : Typed c r)
      (hlt : l.Has CType.isInteger) (hrt : r.Has CType.isInteger) :
      Typed c (.binary ⟨p, some .int⟩ op l r)
  | logical {p op l r} (hop : op = .logAnd ∨ op = .logOr) (hl : Typed c l) (hr : Typed c r)
      (hlt : l.Has CType.isScalar) (hrt : r.Has CType.isScalar) :
      Typed c (.binary ⟨p, some .int⟩ op l r)
  | offset {p op l r b k} (hop : op = .add ∨ op = .sub) (hl : Typed c l) (hr : Typed c r)
      (hlt : l.type? = some (.pointer b k)) (hrt : Scaled b.size r) :
      Typed c (.binary ⟨p, some (.pointer b k)⟩ op l r)
  | distance {p l r b m n} (hl : Typed c l) (hr : Typed c r) (hlt : l.type? = some (.pointer b m))
      (hrt : r.type? = some (.pointer b n)) : Typed c (.binary ⟨p, some .long⟩ .sub l r)
  | not {p e} (he : Typed c e) (ht : e.Has CType.isScalar) : Typed c (.not ⟨p, some .int⟩ e)
  | assign {p l r t} (hl : Typed c l) (hr : Typed c r) (hlr : l.isReferable = true)
      (hlt : l.type? = some t) (ht : (t.isArray || t.isStruct) = false)
      (hrt : r.Has CType.isScalar) : Typed c (.assign ⟨p, some t⟩ l r)
  | ternary {p e x y t u v} (he : Typed c e) (hx : Typed c x) (hy : Typed c y)
      (het : e.Has CType.isScalar) (hxt : x.type? = some t) (hyt : y.type? = some u)
      (hv : (t.isInteger && u.isInteger) = true ∧ v = .int ∨ t = u ∧ v = t) :
      Typed c (.ternary ⟨p, some v⟩ e x y)
  | addr {p e t} (he : Typed c e) (hr : e.isReferable = true) (ht : e.type? = some t) :
      Typed c (.addr ⟨p, some t.pointerTo⟩ e)
  | decayed {p e b len k} (he : Typed c e) (hr : e.isReferable = true)
      (ht : e.type? = some (.array b len k)) : Typed c (.addr ⟨p, some b.pointerTo⟩ e)
  | deref {p e t k} (he : Typed c e) (het : e.type? = some (.pointer t k)) (ht : t.isVoid = false) :
      Typed c (.deref ⟨p, some t⟩ e)
  | call {p name args f} (hf : c.program.function? name = some f)
      (hn : args.length ≤ maxArguments)
      (ha : if f.variadic then f.params.length ≤ args.length else args.length = f.params.length)
      (hs : ∀ e ∈ args, Typed c e) (ht : ∀ e ∈ args, e.Has CType.isScalar) :
      Typed c (.call ⟨p, some f.returnType⟩ name args)
  | stmtExpr {p items} (hs : ∀ x ∈ items, Typed c x) :
      Typed c (.stmtExpr ⟨p, some (lastType items)⟩ items)
  | exprStmt {p e t} (he : Typed c e) (ht : e.type? = some t) : Typed c (.exprStmt ⟨p, some t⟩ e)
  | retVoid {p} : Typed c (.ret ⟨p, some .void⟩ none)
  | ret {p e} (he : Typed c e)
      (ht : if c.returnType.isVoid then e.Has CType.isVoid else e.Has CType.isScalar) :
      Typed c (.ret ⟨p, some .void⟩ (some e))
  | block {p items} (hs : ∀ x ∈ items, Typed c x) : Typed c
    (.block ⟨p, some (lastType items)⟩ items)
  | ifElse {p e x y} (he : Typed c e) (hx : Typed c x) (hy : Typed c y)
      (het : e.Has CType.isScalar) : Typed c (.ifElse ⟨p, some .void⟩ e x y)
  | whileLoop {p e x} (he : Typed c e) (hx : Typed c x) (het : e.Has CType.isScalar) :
      Typed c (.whileLoop ⟨p, some .void⟩ e x)
  | forLoop {p init e update x} (hi : ∀ n ∈ init, Typed c n) (he : Typed c e)
      (hu : ∀ n ∈ update, Typed c n) (hx : Typed c x) (het : e.Has CType.isScalar) :
      Typed c (.forLoop ⟨p, some .void⟩ init e update x)
  | breakLoop {p} : Typed c (.breakLoop ⟨p, some .void⟩)
  | continueLoop {p} : Typed c (.continueLoop ⟨p, some .void⟩)
  | empty {p} : Typed c (.empty ⟨p, some .void⟩)

theorem Typed.operands {c : Context} {i : Info} {op : BinaryOp} {l r : Node}
    (h : Typed c (.binary i op l r)) : Typed c l ∧ Typed c r := by
  cases h with
  | integer _ hl hr | logical _ hl hr | offset _ hl hr | distance hl hr => exact ⟨hl, hr⟩

theorem Typed.addressed {c : Context} {i : Info} {e : Node} (h : Typed c (.addr i e)) :
    Typed c e ∧ e.isReferable = true := by
  cases h with
  | addr he hr | decayed he hr => exact ⟨he, hr⟩

theorem yields_typeOf (n : Node) : Yields (typeOf n) fun t => n.type? = some t := by
  unfold typeOf
  split
  · next h => exact .ok h
  · exact .error (located_typing _ _)

variable {c : Context}

structure Elaborates (c : Context) (n n' : Node) : Prop where
  typed : Typed c n'
  shaped : ∀ S r b, Shaped S r b n → Shaped S r b n'
  exprStmt : ∀ i e, n = .exprStmt i e → ∃ j e', n' = .exprStmt j e'

structure Operand (c : Context) (n n' : Node) : Prop where
  typed : Typed c n'
  shaped : ∀ S b, Shaped S .expression b n → Shaped S .expression b n'

/-- Only the address of an array is taken, and nothing else changes. -/
theorem yields_decay_cases (n : Node) : Yields (decay n) fun n' => n' = n ∨
    n.isReferable = true ∧ ∃ b len k, n.type? = some (.array b len k) ∧
      n' = .addr (.typed n.place b.pointerTo) n := by
  refine .bind (yields_typeOf n) fun t ht => ?_
  split
  · split
    · next hr => exact .pure (.inr ⟨hr, _, _, _, ht, rfl⟩)
    · exact .throw (located_typing _ _)
  · exact .pure (.inl rfl)

theorem yields_decay {n n' : Node} (h : Elaborates c n n') :
    Yields (decay n') fun n'' => Operand c n n'' := by
  refine (yields_decay_cases n').mono ?_
  rintro _ (rfl | ⟨hr, b, len, k, ht, rfl⟩)
  · exact ⟨h.typed, fun S b => h.shaped S _ b⟩
  · exact ⟨.decayed h.typed hr ht, fun S b hn => .addr (h.shaped S _ b hn)⟩

theorem yields_requireInteger (n : Node) (op : BinaryOp) :
    Yields (requireInteger n op) fun _ => n.Has CType.isInteger := by
  refine .bind (yields_typeOf n) fun t ht => ?_
  split
  · next hi => exact .pure ⟨t, ht, hi⟩
  · exact .throw (located_typing _ _)

theorem yields_requireScalar (n : Node) (op : String) :
    Yields (requireScalar n op) fun _ => n.Has CType.isScalar := by
  refine .bind (yields_typeOf n) fun t ht => ?_
  split
  · next hi => exact .pure ⟨t, ht, hi⟩
  · exact .throw (located_typing _ _)

theorem yields_scalarValue (fault : CType → TypingFault) (n : Node) :
    Yields (scalarValue fault n) fun n' => n' = n ∧ n.Has CType.isScalar := by
  refine .bind (yields_typeOf n) fun t ht => ?_
  split
  · next hi => exact .pure ⟨rfl, t, ht, hi⟩
  · exact .throw (located_typing _ _)

theorem typed_sizeLiteral (size : Nat) (p : Location) : Typed c (sizeLiteral size p) :=
  .num (.inl rfl)

theorem has_sizeLiteral (size : Nat) (p : Location) : (sizeLiteral size p).Has CType.isInteger :=
  ⟨.int, rfl, rfl⟩

theorem typed_scaled {index : Node} {size : Nat} {p : Location} (hi : Typed c index)
    (ht : index.Has CType.isInteger) : Typed c (scaled index size p) :=
  .integer (by decide) hi (typed_sizeLiteral size p) ht (has_sizeLiteral size p)

structure Combines (c : Context) (l r n : Node) : Prop where
  typed : Typed c n
  shaped : ∀ S b, Shaped S .expression b l → Shaped S .expression b r → Shaped S .expression b n

theorem yields_addIndex {l r : Node} {t u : CType} (p : Location) (hl : Typed c l) (hr : Typed c r)
    (hlt : l.type? = some t) (hrt : r.type? = some u) (ht : t.isPointer = true) :
    Yields (addIndex l r t u p) (Combines c l r) := by
  unfold addIndex
  split
  · next hi =>
    refine .ok ⟨?_, fun S b hl hr => .binary hl (.binary hr .num)⟩
    cases t with
    | pointer b k =>
      have hint : r.Has CType.isInteger := ⟨u, hrt, hi⟩
      exact .offset (.inl rfl) hl (typed_scaled hr hint) hlt (.intro hint)
    | _ => exact nomatch ht
  · exact .error (located_typing _ _)

theorem yields_add {l r : Node} (p : Location) (hl : Typed c l) (hr : Typed c r) :
    Yields (add l r p) (Combines c l r) := by
  refine .bind (yields_typeOf l) fun t ht => .bind (yields_typeOf r) fun u hu => ?_
  split
  · next hi =>
    rw [Bool.and_eq_true] at hi
    exact .pure ⟨.integer (by decide) hl hr ⟨t, ht, hi.1⟩ ⟨u, hu, hi.2⟩, fun S b => .binary⟩
  · split
    · next hp _ => exact yields_addIndex p hl hr ht hu hp
    · next _ hp =>
      exact (yields_addIndex p hr hl hu ht hp).mono fun n hn =>
        ⟨hn.typed, fun S b hl hr => hn.shaped S b hr hl⟩
    · exact .throw (located_typing _ _)

theorem yields_sub {l r : Node} (p : Location) (hl : Typed c l) (hr : Typed c r) :
    Yields (sub l r p) (Combines c l r) := by
  refine .bind (yields_typeOf l) fun t ht => .bind (yields_typeOf r) fun u hu => ?_
  split
  · next hi =>
    rw [Bool.and_eq_true] at hi
    exact .pure ⟨.integer (by decide) hl hr ⟨t, ht, hi.1⟩ ⟨u, hu, hi.2⟩, fun S b => .binary⟩
  · split
    · split
      · exact .throw (located_typing _ _)
      · next he =>
        split
        · exact .throw (located_typing _ _)
        · obtain rfl := Decidable.not_not.mp he
          refine .pure ⟨?_, fun S b hl hr => .binary (.binary hl hr) .num⟩
          exact .integer (by decide) (.distance hl hr ht hu) (typed_sizeLiteral _ p)
            ⟨.long, rfl, rfl⟩ (has_sizeLiteral _ p)
    · split
      · next hi =>
        have hint : r.Has CType.isInteger := ⟨u, hu, hi⟩
        exact .pure ⟨.offset (.inr rfl) hl (typed_scaled hr hint) ht (.intro hint),
          fun S b hl hr => .binary hl (.binary hr .num)⟩
      · exact .throw (located_typing _ _)
    · exact .throw (located_typing _ _)

theorem yields_binary (op : BinaryOp) {l r : Node} (p : Location) (hl : Typed c l)
    (hr : Typed c r) : Yields (binary op l r p) (Combines c l r) := by
  cases op with
  | add => exact yields_add p hl hr
  | sub => exact yields_sub p hl hr
  | logAnd | logOr =>
    exact .bind (yields_requireScalar l _) fun _ hlt => .bind (yields_requireScalar r _)
      fun _ hrt =>
      .pure ⟨.logical (by decide) hl hr hlt hrt, fun S b => .binary⟩
  | _ =>
    exact .bind (yields_requireInteger l _) fun _ hlt => .bind (yields_requireInteger r _)
      fun _ hrt => .pure ⟨.integer (by decide) hl hr hlt hrt, fun S b => .binary⟩

theorem yields_targetType (n : Node) : Yields (targetType n) fun t =>
    n.isReferable = true ∧ n.type? = some t ∧ (t.isArray || t.isStruct) = false := by
  unfold targetType
  split
  · exact .throw (located_typing _ _)
  · next hr =>
    refine .bind (yields_typeOf n) fun t ht => ?_
    split
    · exact .throw (located_typing _ _)
    · next ha => exact .pure ⟨by simpa using hr, ht, Bool.eq_false_iff.mpr ha⟩

theorem yields_branchType (x y : Node) (p : Location) : Yields (branchType x y p) fun v =>
    ∃ t u, x.type? = some t ∧ y.type? = some u ∧
      ((t.isInteger && u.isInteger) = true ∧ v = .int ∨ t = u ∧ v = t) := by
  refine .bind (yields_typeOf x) fun t ht => .bind (yields_typeOf y) fun u hu => ?_
  split
  · next hi => exact .pure ⟨t, u, ht, hu, .inl ⟨hi, rfl⟩⟩
  · split
    · next he => exact .pure ⟨t, u, ht, hu, .inr ⟨he, rfl⟩⟩
    · exact .throw (located_typing _ _)

theorem yields_callType (name : String) (count : Nat) (p : Location) :
    Yields (callType c name count p) fun t => ∃ f, c.program.function? name = some f ∧
      count ≤ maxArguments ∧ t = f.returnType ∧
      if f.variadic then f.params.length ≤ count else count = f.params.length := by
  cases hf : c.program.function? name with
  | none =>
    rw [callType, hf]
    exact .error (located_declaration _ _)
  | some f =>
    simp only [callType, hf]
    by_cases ha : if f.variadic then f.params.length ≤ count else count = f.params.length
    · rw [if_neg (by cases hv : f.variadic <;> simp_all)]
      split
      · exact .error (located_typing _ _)
      · next hn => exact .ok ⟨f, rfl, Nat.not_lt.mp hn, rfl, ha⟩
    · rw [if_pos (by cases hv : f.variadic <;> simp_all)]
      exact .error (located_typing _ _)

theorem yields_returnedValue (e : Node) : Yields (returnedValue c e) fun n =>
    n = e ∧ if c.returnType.isVoid then e.Has CType.isVoid else e.Has CType.isScalar := by
  refine .bind (yields_typeOf e) fun t ht => ?_
  split
  · next hv =>
    split
    · next hn => exact .pure ⟨rfl, t, ht, hn⟩
    · exact .throw (located_typing _ _)
  · next hv =>
    split
    · next hn => exact .pure ⟨rfl, t, ht, hn⟩
    · exact .throw (located_typing _ _)

end Typing

end StackC
