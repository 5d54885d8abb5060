import StackC.Diagnostic.Basic
import StackC.Initializer.Basic

namespace StackC

def littleEndian (size : Nat) (value : Int64) : List UInt8 :=
  (List.range (min size 8)).map fun i => (value.toUInt64 >>> (8 * i).toUInt64).toUInt8

namespace Node

/-- The value of an expression of integer literals and the five arithmetic operators. Division by
zero has none. -/
def constant? : Node → Option Int64
  | num _ n => some n
  | binary _ op l r =>
    match l.constant?, r.constant? with
    | some a, some b =>
      match op with
      | .add => some (a + b)
      | .sub => some (a - b)
      | .mul => some (a * b)
      | .div => if b = 0 then none else some (a / b)
      | .mod => if b = 0 then none else some (a % b)
      | _ => none
    | _, _ => none
  | _ => none

end Node

namespace Initializer

def zeros (n : Nat) : List UInt8 := List.replicate n 0

/-- The signed characters of a string, followed by zeros up to length `n`. -/
def padded (n : Nat) (bytes : List UInt8) : List Int64 :=
  bytes.map signedByte ++ List.replicate (n - bytes.length) 0

mutual

def data (t : CType) : Initializer → Except Diagnostic (List UInt8)
  | .expr value =>
    if t.isInteger then
      match value.constant? with
      | some n => .ok (littleEndian t.size n)
      | none => .error (.declaration .globalNotConstant value.place)
    else .error (.declaration (.unsupportedGlobal t) value.place)
  | .str bytes p =>
    match t with
    | .array base len _ =>
      if base.isInteger then
        if bytes.length > len.getD 0 then .error (.declaration .stringTooLong p)
        else .ok ((padded (len.getD 0) bytes).flatMap (littleEndian base.size))
      else .error (.declaration (.unsupportedGlobal t) p)
    | _ => .error (.declaration (.unsupportedGlobal t) p)
  | .list items p =>
    match t with
    | .array base len _ =>
      if items.length > len.getD 0 then .error (.declaration .excessArrayElements p)
      else do
        let front ← elementData base items
        return front ++ zeros (base.size * (len.getD 0 - items.length))
    | .struct l _ =>
      if items.length > l.members.length then .error (.declaration .excessStructElements p)
      else memberData l.members items
    | .primitive .void _ | .pointer _ _ => .error (.declaration (.unsupportedGlobal t) p)
    | .primitive _ _ =>
      match items with
      | [item] => data t item
      | _ => .error (.declaration .scalarNotSingle p)

def elementData (base : CType) : List Initializer → Except Diagnostic (List UInt8)
  | [] => .ok []
  | item :: items => do
    let front ← data base item
    return front ++ (← elementData base items)

def memberData (members : List (Member CType)) :
    List Initializer → Except Diagnostic (List UInt8)
  | [] => .ok (members.flatMap fun m => zeros m.type.size)
  | item :: items =>
    match members with
    | [] => .ok []
    | m :: members => do
      let front ← data m.type item
      return front ++ (← memberData members items)

end

end Initializer

end StackC
