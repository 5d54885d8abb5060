import StackC.Program.Node

namespace StackC

/-- Where a variable lives. A global variable without initial bytes starts as zeros. -/
inductive Storage where
  | onFrame
  | global (init : Option (List UInt8))
deriving DecidableEq, Inhabited

structure Var where
  name : String
  type : CType
  storage : Storage
deriving DecidableEq, Inhabited

def Var.isLocal (v : Var) : Bool :=
  v.storage == .onFrame

/-- A function. Its locals are numbered in the order of declaration, parameters first; without a
body it is only announced. -/
structure Function where
  name : String
  returnType : CType
  params : List VarId
  locals : List VarId
  variadic : Bool
  body : Option Node
  place : Location
deriving Inhabited

/-- A program. A variable's number is its position in `vars`. -/
structure Program where
  vars : Array Var := #[]
  globals : List VarId := []
  functions : List Function := []
deriving Inhabited

namespace Program

def var? (p : Program) (id : VarId) : Option Var := p.vars[id]?

def addVar (p : Program) (v : Var) : Program × VarId :=
  ({ p with vars := p.vars.push v }, p.vars.size)

def modifyVar (p : Program) (id : VarId) (f : Var → Var) : Program :=
  { p with vars := p.vars.modify id f }

def setType (p : Program) (id : VarId) (t : CType) : Program :=
  p.modifyVar id ({ · with type := t })

def addGlobal (p : Program) (id : VarId) : Program :=
  { p with globals := p.globals ++ [id] }

def addFunction (p : Program) (f : Function) : Program :=
  { p with functions := p.functions ++ [f] }

/-- The function of a name; of several with one name, the last. -/
def function? (p : Program) (name : String) : Option Function :=
  p.functions.reverse.find? (·.name == name)

def modifyFirst {α : Type} (test : α → Bool) (f : α → α) : List α → List α
  | [] => []
  | x :: xs => if test x then f x :: xs else x :: modifyFirst test f xs

def modifyFunction (p : Program) (name : String) (f : Function → Function) : Program :=
  { p with functions := (modifyFirst (·.name == name) f p.functions.reverse).reverse }

end Program

end StackC
