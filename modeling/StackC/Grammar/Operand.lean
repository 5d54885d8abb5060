import StackC.Grammar.TypeName

/-!
Operands: names, literals, calls, statement expressions, and the operators written directly before
or behind them. Subscripts, arrows, signs and increments are spelled out by simpler nodes here.
-/

namespace StackC

namespace Parse

/-- Stores in `target` the result of `op` on its present value. The target appears twice in the
tree, so it must be free of effects. -/
def update (op : BinaryOp) (target value : Node) (p : Location) : Parse Node :=
  if target.hasEffects then typingFault .effectfulTarget target.place
  else return .assign (.bare p) target (.binary (.bare p) op target value)

inductive PrefixMark where
  | plus
  | minus
  | address
  | indirection
  | negation
  | increment
  | decrement
  | size

def prefixMarks : List (String × PrefixMark) :=
  [("+", .plus), ("-", .minus), ("&", .address), ("*", .indirection), ("!", .negation),
    ("++", .increment), ("--", .decrement), ("sizeof", .size)]

def applyPrefix (mark : PrefixMark) (p : Location) (operand : Node) : Parse Node :=
  match mark with
  | .plus => return operand
  | .minus => return .binary (.bare p) .sub (.literal 0 p) operand
  | .address => return .addr (.bare p) operand
  | .indirection => return operand.indirect p
  | .negation => return .not (.bare p) operand
  | .increment => update .add operand (.literal 1 p) p
  | .decrement => update .sub operand (.literal 1 p) p
  | .size => return .sizeof (.bare p) operand

def sizeOfType (g : Grammar) (p : Location) : Parse Node := do
  advance
  let t ← typeName g
  expect ")" "after type name"
  if t.isVoid || t.isIncompleteArray then typingFault (.invalidSizeof t) p
  else return .literal (Int64.ofNat t.size) p

inductive PostfixMark where
  | subscript
  | dot
  | arrow
  | increment
  | decrement

def postfixMarks : List (String × PostfixMark) :=
  [("[", .subscript), (".", .dot), ("->", .arrow), ("++", .increment), ("--", .decrement)]

def applyPostfix (g : Grammar) (mark : PostfixMark) (p : Location) (e : Node) : Parse Node :=
  match mark with
  | .subscript => do
    let index ← g.assignment
    expect "]" "after array index"
    return e.subscript index p
  | .dot => do
    let (name, _) ← identifier
    return e.access name p
  | .arrow => do
    let (name, _) ← identifier
    return (e.indirect p).access name p
  | .increment => do
    let updated ← update .add e (.literal 1 p) p
    return .binary (.bare p) .sub updated (.literal 1 p)
  | .decrement => do
    let updated ← update .sub e (.literal 1 p) p
    return .binary (.bare p) .add updated (.literal 1 p)

def call (g : Grammar) (name : String) (p : Location) : Parse Node := do
  if ((← get).program.function? name).isNone then
    declarationFault (.implicitFunction name) p
  else if ← accept ")" then
    return .call (.bare p) name []
  else
    let args ← separated g.assignment
    expect ")" "after function arguments"
    return .call (.bare p) name args

/-- A statement expression behind its two opening marks. Its last item gives its value. -/
def statementExpression (g : Grammar) (p : Location) : Parse Node := do
  let items ← inScope g.items
  expect ")" "after statement expression"
  match items.getLast? with
  | some (.exprStmt ..) => return .stmtExpr (.bare p) items
  | _ => throw (.grammar .valuelessStatementExpression p)

/-- A name that is not called must be that of a variable. -/
def namedVariable (name : String) (p : Location) : Parse Node := do
  match (← get).scopes.var? name with
  | some id => return .var (.bare p) id
  | none => declarationFault (.undeclaredVariable name) p

def primary (g : Grammar) : Parse Node := do
  let t ← next
  let p := t.place
  if t.isReserved "(" then
    advance
    if ← accept openBrace then
      statementExpression g p
    else
      let e ← g.assignment
      expect ")" "after expression"
      return e
  else
    match t.kind with
    | .num n =>
      advance
      return .literal n p
    | .str bytes =>
      advance
      let id ← stringLiteral bytes
      return .var (.bare p) id
    | .ident =>
      advance
      if ← accept "(" then call g t.text p else namedVariable t.text p
    | _ => grammarFault (.expectedExpression t)

def operand (g : Grammar) : Parse Node := do
  let e ← primary g
  grow (fun e => do
    match ← acceptOne postfixMarks with
    | none => return none
    | some (mark, p) => return some (← applyPostfix g mark p e)) e

def unary (g : Grammar) : Parse Node := do
  match ← acceptOne prefixMarks with
  | none => operand g
  | some (.size, p) =>
    if (← check "(") && (← atTypeSecond) then sizeOfType g p
    else applyPrefix .size p (← g.unary)
  | some (mark, p) => applyPrefix mark p (← g.unary)

end Parse

end StackC
