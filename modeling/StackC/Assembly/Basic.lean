namespace StackC

namespace Assembly

inductive Reg where
  | rax
  | rdi
  | rsi
  | rdx
  | rcx
  | r8
  | r9
  | rbp
  | rsp
deriving DecidableEq, Inhabited

inductive Width where
  | byte
  | word
  | long
  | quad
deriving DecidableEq, Inhabited

namespace Width

def bytes : Width → Nat
  | byte => 1
  | word => 2
  | long => 4
  | quad => 8

def ofBytes? : Nat → Option Width
  | 1 => some byte
  | 2 => some word
  | 4 => some long
  | 8 => some quad
  | _ => none

end Width

/-- What a numbered label marks: the other branch, the end, or the start of a construct, the next
round of a loop, or the known result of a logical operator. -/
inductive LabelRole where
  | other
  | finish
  | start
  | again
  | short
deriving DecidableEq, Inhabited

inductive Label where
  | numbered (role : LabelRole) (n : Nat)
  | functionEnd (name : String)
  | symbol (name : String)
deriving DecidableEq, Inhabited

inductive Cond where
  | equal
  | notEqual
  | less
  | lessEqual
  | greater
  | greaterEqual
deriving DecidableEq, Inhabited

inductive Arith where
  | add
  | sub
  | imul
deriving DecidableEq, Inhabited

/-- Instructions. Sources stand before targets. Frame offsets count down from `%rbp`. -/
inductive Instr where
  | movImm (value : Int64) (width : Width) (dst : Reg)
  | movAbs (value : Int64) (dst : Reg)
  | mov (src dst : Reg)
  | load (width : Width) (base dst : Reg)
  | store (width : Width) (src base : Reg)
  | storeFrame (width : Width) (src : Reg) (offset : Nat)
  | leaFrame (offset : Nat) (dst : Reg)
  | leaSymbol (name : String) (dst : Reg)
  | push (src : Reg)
  | pop (dst : Reg)
  | arith (op : Arith) (src dst : Reg)
  | addImm (value : Nat) (dst : Reg)
  | subImm (value : Nat) (dst : Reg)
  | extend (width : Width) (reg : Reg)
  | extendFlag (reg : Reg)
  | signIntoRdx
  | divide (src : Reg)
  | cmp (src dst : Reg)
  | cmpZero (dst : Reg)
  | setFlag (cond : Cond) (dst : Reg)
  | jump (target : Label)
  | jumpIf (cond : Cond) (target : Label)
  /-- The text of a call does not tell how many registers hold arguments. -/
  | call (name : String) (count : Nat)
  | ret
deriving DecidableEq, Inhabited

inductive Directive where
  | dataSection
  | textSection
  | globl (name : String)
  | byte (value : UInt8)
  | zero (count : Nat)
  | plainStack
deriving DecidableEq, Inhabited

inductive Line where
  | label (l : Label)
  | instr (i : Instr)
  | directive (d : Directive)
deriving DecidableEq, Inhabited

end Assembly

end StackC
