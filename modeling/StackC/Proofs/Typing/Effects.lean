import StackC.Proofs.Typing.Elaborated
import StackC.Proofs.Typing.Parts

namespace StackC

namespace Typing

variable {c : Context} {l r n : Node}

theorem yields_effectless_decay (h : n.hasEffects = false) :
    Yields (decay n) fun n' => n'.hasEffects = false := by
  refine (yields_decay_cases n).mono ?_
  rintro _ (rfl | ⟨-, -, -, -, -, rfl⟩)
  · exact h
  · exact h

theorem hasEffects_binary {i : Info} {op : BinaryOp} (hl : l.hasEffects = false)
    (hr : r.hasEffects = false) : (Node.binary i op l r).hasEffects = false := by
  rw [Node.hasEffects, hl, hr, Bool.or_false]

theorem hasEffects_scaled {size : Nat} {p : Location} (hr : r.hasEffects = false) :
    (scaled r size p).hasEffects = false :=
  hasEffects_binary hr rfl

theorem yields_effectless_addIndex {t u : CType} (p : Location) (hl : l.hasEffects = false)
    (hr : r.hasEffects = false) : Yields (addIndex l r t u p) fun n => n.hasEffects = false := by
  unfold addIndex
  split
  · exact .ok (hasEffects_binary hl (hasEffects_scaled hr))
  · exact .error (located_typing _ _)

theorem yields_effectless_add (p : Location) (hl : l.hasEffects = false)
    (hr : r.hasEffects = false) :
    Yields (add l r p) fun n => n.hasEffects = false := by
  refine .bind (yields_typeOf l) fun t _ => .bind (yields_typeOf r) fun u _ => ?_
  split
  · exact .pure (hasEffects_binary hl hr)
  · split
    · exact yields_effectless_addIndex p hl hr
    · exact yields_effectless_addIndex p hr hl
    · exact .throw (located_typing _ _)

theorem yields_effectless_sub (p : Location) (hl : l.hasEffects = false)
    (hr : r.hasEffects = false) :
    Yields (sub l r p) fun n => n.hasEffects = false := by
  refine .bind (yields_typeOf l) fun t _ => .bind (yields_typeOf r) fun u _ => ?_
  split
  · exact .pure (hasEffects_binary hl hr)
  · split
    · split
      · exact .throw (located_typing _ _)
      · split
        · exact .throw (located_typing _ _)
        · exact .pure (hasEffects_binary (hasEffects_binary hl hr) rfl)
    · split
      · exact .pure (hasEffects_binary hl (hasEffects_scaled hr))
      · exact .throw (located_typing _ _)
    · exact .throw (located_typing _ _)

/-- The typed form of an operator has no effects if its operands have none. -/
theorem yields_effectless_binary (op : BinaryOp) (p : Location) (hl : l.hasEffects = false)
    (hr : r.hasEffects = false) : Yields (binary op l r p) fun n => n.hasEffects = false := by
  cases op with
  | add => exact yields_effectless_add p hl hr
  | sub => exact yields_effectless_sub p hl hr
  | logAnd | logOr =>
    exact .bind (yields_requireScalar l _) fun _ _ => .bind (yields_requireScalar r _) fun _ _ =>
      .pure (hasEffects_binary hl hr)
  | _ =>
    exact .bind (yields_requireInteger l _) fun _ _ => .bind (yields_requireInteger r _) fun _ _ =>
      .pure (hasEffects_binary hl hr)

/-- The typed form of an expression without effects has no effects. -/
theorem yields_effectless (c : Context) (n : Node) (h : n.hasEffects = false) :
    Yields (elaborate c n) fun n' => n'.hasEffects = false :=
  match n with
  | .num .. => .ok rfl
  | .var i id => by
    rw [elaborate]
    split
    · exact .ok rfl
    · exact .error (located_typing _ _)
  | .member i b name m => by
    refine .bind (yields_effectless c b h) fun b' hb => .bind (yields_typeOf b') fun t _ => ?_
    split
    · exact .throw (located_typing _ _)
    · split
      · exact .throw (located_typing _ _)
      · split
        · exact .throw (located_typing _ _)
        · exact .pure hb
  | .binary i op l r => by
    rw [Node.hasEffects, Bool.or_eq_false_iff] at h
    exact .bind (yields_effectless c l h.1) fun _ hl => .bind (yields_effectless_decay hl)
      fun _ hl =>
      .bind (yields_effectless c r h.2) fun _ hr => .bind (yields_effectless_decay hr) fun _ hr =>
      yields_effectless_binary op _ hl hr
  | .not i e =>
    .bind (yields_effectless c e h) fun _ he => .bind (yields_effectless_decay he) fun e' he =>
      .bind (yields_requireScalar e' _) fun _ _ => .pure he
  | .ternary i e x y => by
    rw [Node.hasEffects, Bool.or_eq_false_iff, Bool.or_eq_false_iff] at h
    obtain ⟨⟨he, hx⟩, hy⟩ := h
    refine .bind (yields_effectless c e he) fun _ he => .bind (yields_effectless_decay he)
      fun e' he =>
      .bind (yields_scalarValue _ e') ?_
    rintro _ ⟨rfl, -⟩
    refine .bind (yields_effectless c x hx) fun _ hx => .bind (yields_effectless_decay hx)
      fun x' hx =>
      .bind (yields_effectless c y hy) fun _ hy => .bind (yields_effectless_decay hy) fun y' hy =>
      .bind (yields_branchType x' y' _) fun _ _ => .pure ?_
    rw [Node.hasEffects, he, hx, hy]
    rfl
  | .addr i e => by
    refine .bind (yields_effectless c e h) fun e' he => ?_
    unfold address
    split
    · exact .throw (located_typing _ _)
    · exact .bind (yields_typeOf e') fun _ _ => .pure he
  | .deref i e => by
    refine .bind (yields_effectless c e h) fun _ he => .bind (yields_effectless_decay he)
      fun e' he =>
      .bind (yields_typeOf e') fun t _ => ?_
    split
    · split
      · exact .throw (located_typing _ _)
      · exact .pure he
    · exact .throw (located_typing _ _)
  | .sizeof i e => by
    refine .bind (yields_elaborate c e) fun e' _ => .bind (yields_typeOf e') fun t _ => ?_
    split
    · exact .throw (located_typing _ _)
    · exact .pure rfl
  | .assign .. | .call .. | .stmtExpr .. | .exprStmt .. | .ret .. | .block ..
  | .ifElse .. | .whileLoop .. | .forLoop .. | .breakLoop .. | .continueLoop .. | .empty .. => by
    cases h
termination_by structural n

/-- A typed expression without effects has no statement in it. -/
theorem Typed.isPlain (h : Typed c n) (he : n.hasEffects = false) : n.isPlain = true := by
  induction h with
  | num | var => rfl
  | member _ _ _ _ ih => exact ih he
  | not _ _ ih => exact ih he
  | addr _ _ _ ih | decayed _ _ _ ih => exact ih he
  | deref _ _ _ ih => exact ih he
  | integer _ _ _ _ _ ihl ihr | logical _ _ _ _ _ ihl ihr | offset _ _ _ _ _ ihl ihr
  | distance _ _ _ _ ihl ihr =>
    rw [Node.hasEffects, Bool.or_eq_false_iff] at he
    rw [Node.isPlain, ihl he.1, ihr he.2]
    rfl
  | ternary _ _ _ _ _ _ _ ihe ihx ihy =>
    rw [Node.hasEffects, Bool.or_eq_false_iff, Bool.or_eq_false_iff] at he
    rw [Node.isPlain, ihe he.1.1, ihx he.1.2, ihy he.2]
    rfl
  | assign | call | stmtExpr | exprStmt | retVoid | ret | block | ifElse | whileLoop
  | forLoop | breakLoop | continueLoop | empty => cases he

end Typing

end StackC
