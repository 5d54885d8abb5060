import StackC.Program.Node

namespace StackC

inductive Initializer where
  | expr (value : Node)
  | str (bytes : List UInt8) (place : Location)
  | list (items : List Initializer) (place : Location)

namespace Initializer

instance : Inhabited Initializer := ⟨expr default⟩

def place : Initializer → Location
  | expr value => value.place
  | str _ p | list _ p => p

/-- The length that the initializer gives to an array declared without one. A string counts its
terminator. -/
def length? : Initializer → Option Nat
  | expr _ => none
  | str bytes _ => some (bytes.length + 1)
  | list items _ => some items.length

/-- The type of an object declared with the initializer: an array without a length takes its length
from there, if it has one to give. -/
def complete (t : CType) (init : Initializer) : CType :=
  match t, init.length? with
  | .array base none _, some n => .arrayOf base (some n)
  | _, _ => t

end Initializer

end StackC
