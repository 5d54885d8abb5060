import StackC.Program.Basic

/-!
The stack frame of a function. Locals lie back to back below the frame base in the order of their
declaration, without padding; a local at offset `k` occupies the bytes from `-k` up to its size.
-/

namespace StackC

def roundUp (n align : Nat) : Nat :=
  (n + align - 1) / align * align

/-- The places of the locals of one function, the last first, and the bytes reserved for all of
them. -/
structure Frame where
  slots : List (VarId × Nat) := []
  size : Nat := 0

namespace Frame

def frameAlign : Nat := 16

def varSize (vars : Array Var) (id : VarId) : Nat :=
  match vars[id]? with
  | some v => v.type.size
  | none => 0

/-- Each local with the running total of sizes up to and including its own. -/
def place (vars : Array Var) (total : Nat) : List VarId → List (VarId × Nat)
  | [] => []
  | id :: ids =>
    let stop := total + varSize vars id
    (id, stop) :: place vars stop ids

def total (vars : Array Var) (ids : List VarId) : Nat :=
  ids.foldr (fun id n => varSize vars id + n) 0

def ofLocals (vars : Array Var) (ids : List VarId) : Frame where
  slots := (place vars 0 ids).reverse
  size := roundUp (total vars ids) frameAlign

/-- The offset of a local. A local that is listed twice has the place of its last entry. -/
def offset? (f : Frame) (id : VarId) : Option Nat :=
  f.slots.lookup id

end Frame

end StackC
