import StackC.Grammar.Operand

namespace StackC

namespace Parse

def leftGrouped (table : List (String × BinaryOp)) (operand : Parse Node) : Parse Node := do
  let first ← operand
  grow (fun left => do
    match ← acceptOne table with
    | none => return none
    | some (op, p) => return some (.binary (.bare p) op left (← operand))) first

def multiplicative (g : Grammar) : Parse Node :=
  leftGrouped [("*", .mul), ("/", .div), ("%", .mod)] (unary g)

def additive (g : Grammar) : Parse Node :=
  leftGrouped [("+", .add), ("-", .sub)] (multiplicative g)

def relational (g : Grammar) : Parse Node :=
  leftGrouped [("<", .lt), ("<=", .le), (">", .gt), (">=", .ge)] (additive g)

def equality (g : Grammar) : Parse Node :=
  leftGrouped [("==", .eq), ("!=", .ne)] (relational g)

def conjunction (g : Grammar) : Parse Node :=
  leftGrouped [("&&", .logAnd)] (equality g)

def disjunction (g : Grammar) : Parse Node :=
  leftGrouped [("||", .logOr)] (conjunction g)

def ternary (g : Grammar) : Parse Node := do
  let cond ← disjunction g
  match ← acceptOne [("?", ())] with
  | none => return cond
  | some ((), p) =>
    let thenValue ← g.assignment
    expect ":" "in ternary expression"
    let elseValue ← g.ternary
    return .ternary (.bare p) cond thenValue elseValue

def assignmentMarks : List (String × Option BinaryOp) :=
  [("=", none), ("+=", some .add), ("-=", some .sub), ("*=", some .mul), ("/=", some .div)]

def assignment (g : Grammar) : Parse Node := do
  let target ← ternary g
  match ← acceptOne assignmentMarks with
  | none => return target
  | some (none, p) => return .assign (.bare p) target (← g.assignment)
  | some (some op, p) =>
    let value ← g.assignment
    update op target value p

end Parse

end StackC
