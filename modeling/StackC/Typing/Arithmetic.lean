import StackC.Diagnostic.Basic
import StackC.Program.Basic

/-!
Sums and differences of typed operands. An integer that meets a pointer is scaled by the size of
what the pointer points to, so that addresses are counted in bytes; the difference of two pointers
is divided by that size.
-/

namespace StackC

def Info.typed (p : Location) (t : CType) : Info := ⟨p, some t⟩

namespace Typing

def typeOf (n : Node) : Except Diagnostic CType :=
  match n.type? with
  | some t => .ok t
  | none => .error (.typing .untyped n.place)

def intBinary (op : BinaryOp) (lhs rhs : Node) (p : Location) : Node :=
  .binary (.typed p .int) op lhs rhs

def sizeLiteral (size : Nat) (p : Location) : Node :=
  .num (.typed p .int) (Int64.ofNat size)

def scaled (index : Node) (size : Nat) (p : Location) : Node :=
  intBinary .mul index (sizeLiteral size p) p

def addIndex (pointer index : Node) (t u : CType) (p : Location) : Except Diagnostic Node :=
  if u.isInteger then
    let size := (t.base?.map (·.size)).getD 1
    .ok (.binary (.typed p t) .add pointer (scaled index size p))
  else .error (.typing (.invalidOperands "+" t u) p)

def add (lhs rhs : Node) (p : Location) : Except Diagnostic Node := do
  let t ← typeOf lhs
  let u ← typeOf rhs
  if t.isInteger && u.isInteger then
    return intBinary .add lhs rhs p
  else
    match t.isPointer, u.isPointer with
    | true, false => addIndex lhs rhs t u p
    | false, true => addIndex rhs lhs u t p
    | _, _ => throw (.typing (.invalidOperands "+" t u) p)

def sub (lhs rhs : Node) (p : Location) : Except Diagnostic Node := do
  let t ← typeOf lhs
  let u ← typeOf rhs
  if t.isInteger && u.isInteger then
    return intBinary .sub lhs rhs p
  else
    match t, u with
    | .pointer a _, .pointer b _ =>
      if a ≠ b then
        throw (.typing (.incompatiblePointers t u) p)
      else if a.size = 0 then
        throw (.typing (.zeroSizedPointee a) p)
      else
        let bytes := Node.binary (.typed p .long) .sub lhs rhs
        return intBinary .div bytes (sizeLiteral a.size p) p
    | .pointer a _, _ =>
      if u.isInteger then
        return .binary (.typed p t) .sub lhs (scaled rhs a.size p)
      else
        throw (.typing (.invalidOperands "-" t u) p)
    | _, _ => throw (.typing (.invalidOperands "-" t u) p)

end Typing

end StackC
