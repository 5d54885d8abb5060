import StackC.Grammar.Variable

namespace StackC

namespace Parse

def blockItem (g : Grammar) (statement : Parse Node) : Parse (Option Node) := do
  if ← accept closeBrace then
    return none
  else if ← atEnd then
    grammarFault .unclosedBlock
  else if ← atType then
    return some (← localDeclaration g)
  else
    return some (← statement)

def returnStatement (g : Grammar) (p : Location) : Parse Node := do
  if ← check ";" then
    expect ";" "after return"
    return .ret (.bare p) none
  else
    let value ← assignment g
    expect ";" "after return"
    return .ret (.bare p) (some value)

def ifStatement (g : Grammar) (p : Location) : Parse Node := do
  expect "(" "after 'if'"
  let cond ← assignment g
  expect ")" "after if condition"
  let thenBranch ← g.statement
  if ← accept "else" then
    let elseBranch ← g.statement
    return .ifElse (.bare p) cond thenBranch elseBranch
  else
    let q ← lastPlace
    return .ifElse (.bare p) cond thenBranch (.empty (.bare q))

def whileStatement (g : Grammar) (p : Location) : Parse Node := do
  expect "(" "after 'while'"
  let cond ← assignment g
  expect ")" "after while condition"
  let body ← inLoop g.statement
  return .whileLoop (.bare p) cond body

def forInit (g : Grammar) : Parse (Option Node) := do
  if ← accept ";" then
    return none
  else if ← atType then
    return some (← localDeclaration g)
  else
    let e ← assignment g
    expect ";" "after for init"
    return some (.ofExpr e)

/-- The second clause of a `for`. An empty one holds forever. -/
def forCondition (g : Grammar) : Parse Node := do
  let p ← here
  if ← check ";" then return .literal 1 p else assignment g

def forUpdate (g : Grammar) : Parse (Option Node) := do
  if ← check ")" then return none else return some (.ofExpr (← assignment g))

/-- A statement behind `for`, which stands at `p`. Its clauses and its body share a scope. -/
def forStatement (g : Grammar) (p : Location) : Parse Node :=
  inScope do
    expect "(" "after 'for'"
    let init ← forInit g
    let cond ← forCondition g
    expect ";" "after for condition"
    let update ← forUpdate g
    expect ")" "after for clauses"
    let body ← inLoop g.statement
    return .forLoop (.bare p) init cond update body

inductive LoopJump where
  | leave
  | next

def jumpStatement (jump : LoopJump) (p : Location) : Parse Node := do
  let inside := 0 < (← get).loopDepth
  match jump with
  | .leave =>
    if inside then
      expect ";" "after 'break'"
      return .breakLoop (.bare p)
    else
      throw (.grammar .breakOutsideLoop p)
  | .next =>
    if inside then
      expect ";" "after 'continue'"
      return .continueLoop (.bare p)
    else
      throw (.grammar .continueOutsideLoop p)

inductive StatementMark where
  | ret
  | branch
  | whileLoop
  | forLoop
  | jump (jump : LoopJump)
  | block
  | empty

def statementMarks : List (String × StatementMark) :=
  [("return", .ret), ("if", .branch), ("while", .whileLoop), ("for", .forLoop),
    ("break", .jump .leave), ("continue", .jump .next), (openBrace, .block), (";", .empty)]

def expressionStatement (g : Grammar) : Parse Node := do
  let e ← assignment g
  expect ";" "after expression"
  return .ofExpr e

def statement (g : Grammar) : Parse Node := do
  match ← acceptOne statementMarks with
  | none => expressionStatement g
  | some (.ret, p) => returnStatement g p
  | some (.branch, p) => ifStatement g p
  | some (.whileLoop, p) => whileStatement g p
  | some (.forLoop, p) => forStatement g p
  | some (.jump jump, p) => jumpStatement jump p
  | some (.block, p) =>
    let items ← inScope g.items
    return .block (.bare p) items
  | some (.empty, p) => return .empty (.bare p)

def items (g : Grammar) : Parse (List Node) :=
  collect (blockItem g (statement g))

end Parse

end StackC
