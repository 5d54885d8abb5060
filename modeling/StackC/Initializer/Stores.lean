import StackC.Grammar.Operand
import StackC.Initializer.Data

namespace StackC

namespace Node

def store (target value : Node) (p : Location) : Node :=
  ofExpr (assign (.bare p) target value)

def element (target : Node) (i : Nat) (p : Location) : Node :=
  target.subscript (literal (Int64.ofNat i) p) p

mutual

def clear (target : Node) (t : CType) : List Node :=
  match t with
  | .array base len _ =>
    (List.range (len.getD 0)).flatMap fun i => clear (target.element i target.place) base
  | .struct ⟨_, _, members⟩ _ => clearMembers target target.place members
  | .primitive _ _ | .pointer _ _ => [target.store (literal 0 target.place) target.place]

def clearMembers (target : Node) (p : Location) (members : List (Member CType)) : List Node :=
  match members with
  | [] => []
  | ⟨name, t, _⟩ :: members =>
    clear (target.access name p) t ++ clearMembers target p members

end

def storeElements (target : Node) (p : Location) (values : List Int64) : List Node :=
  values.mapIdx fun i v => (target.element i p).store (literal v p) p

end Node

namespace Initializer

/-- The characters of a string with its terminator, which is left out where an array of length `n`
has no room for it only. -/
def terminated (n : Nat) (bytes : List UInt8) : List UInt8 :=
  if bytes.length = n then bytes else bytes ++ [0]

mutual

def stores (target : Node) (t : CType) : Initializer → Parse (List Node)
  | .expr value =>
    match t with
    | .array .. => Parse.declarationFault .arrayWithoutList value.place
    | .struct .. => Parse.declarationFault .structWithoutList value.place
    | _ => return [target.store value value.place]
  | .str bytes p =>
    match t with
    | .array base len _ =>
      let n := len.getD 0
      let chars := terminated n bytes
      if !base.isInteger then Parse.declarationFault .stringForNonIntegers p
      else if chars.length > n then Parse.declarationFault .stringTooLong p
      else return target.storeElements p (padded n chars)
    | .struct .. => Parse.declarationFault .structWithoutList p
    | _ => do
      let id ← Parse.stringLiteral bytes
      return [target.store (.var (.bare p) id) p]
  | .list items p =>
    match t with
    | .array base len _ =>
      let n := len.getD 0
      if items.length > n then Parse.declarationFault .excessArrayElements p
      else do
        let front ← elementStores target base p 0 items
        let others := (List.range' items.length (n - items.length)).flatMap fun i =>
          (target.element i p).clear base
        return front ++ others
    | .struct l _ =>
      if items.length > l.members.length then Parse.declarationFault .excessStructElements p
      else memberStores target p l.members items
    | _ =>
      match items with
      | [item] => stores target t item
      | _ => Parse.declarationFault .scalarNotSingle p

def elementStores (target : Node) (base : CType) (p : Location) (i : Nat) :
    List Initializer → Parse (List Node)
  | [] => return []
  | item :: items => do
    let front ← stores (target.element i p) base item
    return front ++ (← elementStores target base p (i + 1) items)

def memberStores (target : Node) (p : Location) (members : List (Member CType)) :
    List Initializer → Parse (List Node)
  | [] => return target.clearMembers p members
  | item :: items =>
    match members with
    | [] => return []
    | m :: members => do
      let front ← stores (target.access m.name p) m.type item
      return front ++ (← memberStores target p members items)

end

end Initializer

end StackC
