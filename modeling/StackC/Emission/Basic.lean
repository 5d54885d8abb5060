import StackC.Assembly.Printer
import StackC.Diagnostic.Basic
import StackC.Frame

/-!
The operand stack of emitted code. Every expression leaves its value in one slot on top of the
stack, and every use of a value takes its slot away; the number of slots in use is tracked while
code is emitted.
-/

namespace StackC

namespace Emission

open Assembly

/-- What changes while code is emitted: the number of operand slots in use and the number of labels
given out. -/
structure Counters where
  depth : Nat := 0
  labels : Nat := 0
deriving DecidableEq, Inhabited

abbrev Emit := StateT Counters (Except EmissionFault)

/-- The jump targets of a loop and the number of slots in use at both. -/
structure Targets where
  finish : Label
  again : Label
  depth : Nat

/-- What the code of a place in a function depends on: the program's variables, the frame, the
function's name, and the loops around the place, innermost first. -/
structure Context where
  vars : Array Var
  frame : Frame
  name : String
  loops : List Targets := []

def Context.inLoop (c : Context) (n depth : Nat) : Context :=
  { c with loops := ⟨.numbered .finish n, .numbered .again n, depth⟩ :: c.loops }

def instr (i : Instr) : Code := .line (.instr i)

def label (role : LabelRole) (n : Nat) : Code := .line (.label (.numbered role n))

def freshLabel : Emit Nat := do
  let c ← get
  set { c with labels := c.labels + 1 }
  return c.labels + 1

def push (r : Reg) : Emit Code := do
  modify fun c => { c with depth := c.depth + 1 }
  return instr (.push r)

def pop (r : Reg) : Emit Code := do
  let c ← get
  match c.depth with
  | 0 => throw .stackUnderflow
  | n + 1 =>
    set { c with depth := n }
    return instr (.pop r)

def popAll : List Reg → Emit Code
  | [] => return .empty
  | r :: rs => do
    let first ← popAll rs
    return first ++ (← pop r)

def typeOf (n : Node) : Emit CType :=
  match n.type? with
  | some t => return t
  | none => throw (.untyped n.place)

def var (c : Context) (id : VarId) : Emit Var :=
  match c.vars[id]? with
  | some v => return v
  | none => throw (.unknownVariable id)

def slot (c : Context) (id : VarId) (v : Var) : Emit Nat :=
  match c.frame.offset? id with
  | some k => return k
  | none => throw (.noSlot v.name)

def varAddress (c : Context) (id : VarId) : Emit Code := do
  let v ← var c id
  if v.isLocal then
    let k ← slot c id v
    return instr (.leaFrame k .rax) ++ (← push .rax)
  else
    return instr (.leaSymbol v.name .rax) ++ (← push .rax)

def memberAddress (m : Member CType) : Emit Code := do
  let taken ← pop .rax
  return taken ++ instr (.addImm m.offset .rax) ++ (← push .rax)

/-- Replaces an address by the value it holds. Arrays and structs are known by their address. -/
def load (t : CType) : Emit Code := do
  if t.isArray || t.isStruct then
    return .empty
  else
    match Width.ofBytes? t.size with
    | none => throw (.unloadable t)
    | some w =>
      let taken ← pop .rax
      return taken ++ instr (.load w .rax .rax) ++ (← push .rax)

/-- Takes a value and an address below it, stores the value there and leaves it. -/
def store (t : CType) : Emit Code := do
  match Width.ofBytes? t.size with
  | none => throw (.unstorable t)
  | some w =>
    let value ← pop .rdi
    let address ← pop .rax
    return value ++ address ++ instr (.store w .rdi .rax) ++ (← push .rdi)

def comparison (cond : Cond) : Code :=
  instr (.cmp .rdi .rax) ++ instr (.setFlag cond .rax) ++ instr (.extendFlag .rax)

def operation : BinaryOp → Code
  | .add => instr (.arith .add .rdi .rax)
  | .sub => instr (.arith .sub .rdi .rax)
  | .mul => instr (.arith .imul .rdi .rax)
  | .div => instr .signIntoRdx ++ instr (.divide .rdi)
  | .mod => instr .signIntoRdx ++ instr (.divide .rdi) ++ instr (.mov .rdx .rax)
  | .eq => comparison .equal
  | .ne => comparison .notEqual
  | .lt => comparison .less
  | .le => comparison .lessEqual
  | .gt => comparison .greater
  | .ge => comparison .greaterEqual
  | .logAnd | .logOr => .empty

def binary (op : BinaryOp) : Emit Code := do
  let right ← pop .rdi
  let left ← pop .rax
  return right ++ left ++ operation op ++ (← push .rax)

def negation : Emit Code := do
  let taken ← pop .rax
  return taken ++ instr (.cmpZero .rax) ++ instr (.setFlag .equal .rax) ++
    instr (.extendFlag .rax) ++ (← push .rax)

def literal (n : Int64) : Instr :=
  if -0x80000000 ≤ n.toInt ∧ n.toInt < 0x80000000 then .movImm n .quad .rax else .movAbs n .rax

def branch (cond : Cond) (target : Label) : Emit Code := do
  let taken ← pop .rax
  return taken ++ instr (.cmpZero .rax) ++ instr (.jumpIf cond target)

/-- The condition under which the first operand decides a logical operator, and whether the result
is then true. -/
def decided : BinaryOp → Cond × Bool
  | .logAnd => (.equal, false)
  | _ => (.notEqual, true)

def truth (b : Bool) : Instr := .movImm (if b then 1 else 0) .quad .rax

def logicalEnd (result : Bool) (n : Nat) : Emit Code := do
  let code := instr (truth !result) ++ instr (.jump (.numbered .finish n)) ++
    label .short n ++ instr (truth result) ++ label .finish n
  return code ++ (← push .rax)

def argumentRegs : List Reg := [.rdi, .rsi, .rdx, .rcx, .r8, .r9]

/-- The part of a returned value that the callee defines is extended to the whole register. -/
def extendResult (t : CType) : Code :=
  if t.isInteger then
    match t.size with
    | 1 => instr (.extend .byte .rax)
    | 2 => instr (.extend .word .rax)
    | 4 => instr (.extend .long .rax)
    | _ => .empty
  else .empty

/-- Takes the arguments and leaves the result of a call. The stack pointer is a multiple of sixteen
at the call. -/
def callFunction (name : String) (count : Nat) (t : CType) : Emit Code := do
  let args ← popAll (argumentRegs.take count)
  let odd := (← get).depth % 2 = 1
  let before := if odd then instr (.subImm 8 .rsp) else .empty
  let after := if odd then instr (.addImm 8 .rsp) else .empty
  let call := before ++ instr (.movImm 0 .long .rax) ++ instr (.call name count) ++ after
  return args ++ call ++ extendResult t ++ (← push .rax)

/-- Jumps to a target of a loop and drops the slots that have come into use since its start. -/
def jumpOut (target : Label) (depth : Nat) : Emit Code := do
  let now := (← get).depth
  if now < depth then
    throw (.shallowJump target.text)
  else
    let drop := if depth < now then instr (.addImm ((now - depth) * 8) .rsp) else .empty
    return drop ++ instr (.jump target)

/-- Runs the emission of a statement and checks that it leaves the stack as deep as it was. -/
def balanced (p : Location) (body : Emit Code) : Emit Code := do
  let before := (← get).depth
  let code ← body
  let after := (← get).depth
  if after ≠ before then throw (.stackImbalance p before after) else return code

end Emission

end StackC
