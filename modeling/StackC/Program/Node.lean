import StackC.CType.Equality
import StackC.Scope
import StackC.Source.Location

/-!
Trees of expressions and statements. A tree holds what was written and, once types have been
assigned, the type of every node.
-/

namespace StackC

inductive BinaryOp where
  | add
  | sub
  | mul
  | div
  | mod
  | eq
  | ne
  | lt
  | le
  | gt
  | ge
  | logAnd
  | logOr
deriving DecidableEq, Inhabited

namespace BinaryOp

def symbol : BinaryOp → String
  | add => "+"
  | sub => "-"
  | mul => "*"
  | div => "/"
  | mod => "%"
  | eq => "=="
  | ne => "!="
  | lt => "<"
  | le => "<="
  | gt => ">"
  | ge => ">="
  | logAnd => "&&"
  | logOr => "||"

end BinaryOp

structure Info where
  place : Location := {}
  type : Option CType := none
deriving DecidableEq, Inhabited

def Info.bare (p : Location) : Info := ⟨p, none⟩

/-- An expression or a statement. Numbers are 64-bit words; a variable is known by its number; a
member access knows its member once types have been assigned. -/
inductive Node where
  | num (info : Info) (value : Int64)
  | var (info : Info) (id : VarId)
  | member (info : Info) (base : Node) (name : String) (resolved : Option (Member CType))
  | binary (info : Info) (op : BinaryOp) (lhs rhs : Node)
  | not (info : Info) (inner : Node)
  | assign (info : Info) (lhs rhs : Node)
  | ternary (info : Info) (cond thenValue elseValue : Node)
  | addr (info : Info) (inner : Node)
  | deref (info : Info) (inner : Node)
  | sizeof (info : Info) (inner : Node)
  | call (info : Info) (name : String) (args : List Node)
  | stmtExpr (info : Info) (items : List Node)
  | exprStmt (info : Info) (inner : Node)
  | ret (info : Info) (value : Option Node)
  | block (info : Info) (items : List Node)
  | ifElse (info : Info) (cond thenBranch elseBranch : Node)
  | whileLoop (info : Info) (cond body : Node)
  | forLoop (info : Info) (init : Option Node) (cond : Node) (update : Option Node) (body : Node)
  | breakLoop (info : Info)
  | continueLoop (info : Info)
  | empty (info : Info)

namespace Node

instance : Inhabited Node := ⟨empty {}⟩

def info : Node → Info
  | num i _ | var i _ | member i _ _ _ | binary i _ _ _ | not i _ | assign i _ _
  | ternary i _ _ _ | addr i _ | deref i _ | sizeof i _ | call i _ _ | stmtExpr i _
  | exprStmt i _ | ret i _ | block i _ | ifElse i _ _ _ | whileLoop i _ _
  | forLoop i _ _ _ _ | breakLoop i | continueLoop i | empty i => i

def place (n : Node) : Location := n.info.place

def type? (n : Node) : Option CType := n.info.type

def ofExpr (e : Node) : Node := exprStmt (.bare e.place) e

def indirect (pointer : Node) (p : Location) : Node := deref (.bare p) pointer

def literal (n : Int64) (p : Location) : Node := num (.bare p) n

def subscript (base index : Node) (p : Location) : Node :=
  indirect (binary (.bare p) .add base index) p

def access (base : Node) (name : String) (p : Location) : Node :=
  member (.bare p) base name none

/-- Whether the expression denotes storage: a variable, what a pointer points to, or a member. -/
def isReferable : Node → Bool
  | var .. | deref .. | member .. => true
  | _ => false

def isExprStmt : Node → Bool
  | exprStmt .. => true
  | _ => false

/-- Whether evaluating the expression can write memory or call a function. The operand of `sizeof`
is not evaluated. -/
def hasEffects : Node → Bool
  | num .. | var .. | sizeof .. => false
  | member _ b _ _ => b.hasEffects
  | binary _ _ l r => l.hasEffects || r.hasEffects
  | not _ e | addr _ e | deref _ e => e.hasEffects
  | ternary _ c t e => c.hasEffects || t.hasEffects || e.hasEffects
  | _ => true

end Node

end StackC
