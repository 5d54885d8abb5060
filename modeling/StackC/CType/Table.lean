import StackC.CType.Basic

/-!
The member table of a struct in machine words. One loop fills it: it keeps the members, the
position of each name and the offset of the next member in step. Nothing keeps the offset from
wrapping.
-/

namespace StackC

structure Slot where
  name : String
  type : CType
  offset : UInt64

/-- The members of one struct declaration in order, and the position of each of their names. -/
structure MemberTable where
  id : Nat
  tag : Option String
  slots : List Slot
  positions : List (String × Nat)

namespace MemberTable

structure Filling where
  slots : List Slot := []
  positions : List (String × Nat) := []
  offset : UInt64 := 0

/-- Adds a field behind the others. The error is its name, if it has a position already. -/
def Filling.add (b : Filling) (field : String × CType) : Except String Filling :=
  match b.positions.lookup field.1 with
  | some _ => .error field.1
  | none => .ok {
      slots := b.slots ++ [⟨field.1, field.2, b.offset⟩]
      positions := (field.1, b.slots.length) :: b.positions
      offset := b.offset + .ofNat field.2.size }

/-- Lays the fields out in order. The error is the first name that is used twice. -/
def ofFields (id : Nat) (tag : Option String) (fields : List (String × CType)) :
    Except String MemberTable := do
  let b ← fields.foldlM Filling.add {}
  return ⟨id, tag, b.slots, b.positions⟩

def size (t : MemberTable) : UInt64 :=
  match t.slots.getLast? with
  | some s => s.offset + .ofNat s.type.size
  | none => 0

def member? (t : MemberTable) (name : String) : Option Slot :=
  (t.positions.lookup name).bind fun i => t.slots[i]?

end MemberTable

end StackC
