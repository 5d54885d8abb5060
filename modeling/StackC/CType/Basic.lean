namespace StackC

structure Member (τ : Type) where
  name : String
  type : τ
  offset : Nat

/-- The members of one struct declaration in order. The number `id` tells two declarations apart
that agree in all else. -/
structure Layout (τ : Type) where
  id : Nat
  tag : Option String
  members : List (Member τ)

inductive Primitive where
  | char
  | short
  | int
  | long
  | void
deriving DecidableEq, Inhabited

/-- A type with its size in bytes. An array without a length waits for an initializer to supply
one. -/
inductive CType where
  | primitive (kind : Primitive) (size : Nat)
  | pointer (base : CType) (size : Nat)
  | array (base : CType) (length : Option Nat) (size : Nat)
  | struct (layout : Layout CType) (size : Nat)

namespace Primitive

def name : Primitive → String
  | char => "char"
  | short => "short"
  | int => "int"
  | long => "long"
  | void => "void"

/-- The size of a primitive type. Size one for `void` makes arithmetic on a `void` pointer go byte
by byte. -/
def size : Primitive → Nat
  | char => 1
  | short => 2
  | int => 4
  | long => 8
  | void => 1

end Primitive

namespace CType

def size : CType → Nat
  | primitive _ n | pointer _ n | array _ _ n | struct _ n => n

def withSize (n : Nat) : CType → CType
  | primitive k _ => primitive k n
  | pointer b _ => pointer b n
  | array b l _ => array b l n
  | struct l _ => struct l n

def ofPrimitive (k : Primitive) : CType := primitive k k.size

def char : CType := ofPrimitive .char
def int : CType := ofPrimitive .int
def long : CType := ofPrimitive .long
def void : CType := ofPrimitive .void

instance : Inhabited CType := ⟨int⟩

def pointerSize : Nat := 8

def pointerTo (base : CType) : CType := pointer base pointerSize

/-- An array of `length` elements; without a length its size is zero. -/
def arrayOf (base : CType) (length : Option Nat) : CType :=
  array base length (base.size * length.getD 0)

def layoutSize (l : Layout CType) : Nat :=
  match l.members.getLast? with
  | some m => m.offset + m.type.size
  | none => 0

def structOf (l : Layout CType) : CType := struct l (layoutSize l)

def base? : CType → Option CType
  | pointer b _ | array b _ _ => some b
  | _ => none

def isInteger : CType → Bool
  | primitive .void _ => false
  | primitive _ _ => true
  | _ => false

def isPointer : CType → Bool
  | pointer _ _ => true
  | _ => false

def isArray : CType → Bool
  | array _ _ _ => true
  | _ => false

def isIncompleteArray : CType → Bool
  | array _ none _ => true
  | _ => false

def isStruct : CType → Bool
  | struct _ _ => true
  | _ => false

def isVoid : CType → Bool
  | primitive .void _ => true
  | _ => false

def isScalar (t : CType) : Bool :=
  t.isInteger || t.isPointer

/-- The type as messages show it. The marks of pointers and arrays follow the type they are
applied to. -/
def describe : CType → String
  | primitive k _ => k.name
  | pointer b _ => s!"{b.describe} *"
  | array b (some n) _ => s!"{b.describe}[{n}]"
  | array b none _ => s!"{b.describe}[]"
  | struct ⟨_, some tag, _⟩ _ => s!"struct {tag}"
  | struct ⟨_, none, _⟩ _ => "struct <anonymous>"

end CType

namespace Layout

def member? (l : Layout CType) (name : String) : Option (Member CType) :=
  l.members.find? (·.name == name)

def firstRepeat (seen : List String) : List String → Option String
  | [] => none
  | n :: ns => if n ∈ seen then some n else firstRepeat (n :: seen) ns

/-- Members back to back from `offset` on, without padding. -/
def pack (offset : Nat) : List (String × CType) → List (Member CType)
  | [] => []
  | (name, t) :: fields => ⟨name, t, offset⟩ :: pack (offset + t.size) fields

/-- Lays the fields out in order. The error is the first name that is used twice. -/
def ofFields (id : Nat) (tag : Option String) (fields : List (String × CType)) :
    Except String (Layout CType) :=
  match firstRepeat [] (fields.map (·.1)) with
  | some name => .error name
  | none => .ok ⟨id, tag, pack 0 fields⟩

end Layout

def CType.member? (name : String) : CType → Option (Member CType)
  | .struct l _ => l.member? name
  | _ => none

end StackC
