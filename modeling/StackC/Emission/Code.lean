import StackC.Emission.Basic

namespace StackC

namespace Emission

open Assembly

mutual

def value (c : Context) : Node → Emit Code
  | .num _ n => do
    return instr (literal n) ++ (← push .rax)
  | n@(.var _ id) => do
    let address ← varAddress c id
    return address ++ (← load (← typeOf n))
  | n@(.deref _ e) => do
    let address ← value c e
    return address ++ (← load (← typeOf n))
  | n@(.member _ b name resolved) => do
    match resolved with
    | none => throw (.unresolvedMember name)
    | some m =>
      let base ← address c b
      let address ← memberAddress m
      return base ++ address ++ (← load (← typeOf n))
  | .addr _ e => address c e
  | .assign _ l r => do
    let target ← address c l
    let source ← value c r
    return target ++ source ++ (← store (← typeOf l))
  | .binary _ op l r =>
    if op = .logAnd ∨ op = .logOr then do
      let n ← freshLabel
      let (cond, result) := decided op
      let left ← value c l
      let leftTest ← branch cond (.numbered .short n)
      let right ← value c r
      let rightTest ← branch cond (.numbered .short n)
      return left ++ leftTest ++ right ++ rightTest ++ (← logicalEnd result n)
    else do
      let left ← value c l
      let right ← value c r
      return left ++ right ++ (← binary op)
  | .not _ e => do
    let operand ← value c e
    return operand ++ (← negation)
  | .ternary _ e a b => do
    let n ← freshLabel
    let cond ← value c e
    let test ← branch .equal (.numbered .other n)
    let thenValue ← value c a
    let thenTaken ← pop .rax
    let elseValue ← value c b
    let elseTaken ← pop .rax
    return cond ++ test ++ thenValue ++ thenTaken ++ instr (.jump (.numbered .finish n)) ++
      label .other n ++ elseValue ++ elseTaken ++ label .finish n ++ (← push .rax)
  | n@(.call _ name args) => do
    let t ← typeOf n
    if argumentRegs.length < args.length then
      throw (.tooManyArguments name args.length)
    else
      let values ← arguments c args
      return values ++ (← callFunction name args.length t)
  | .stmtExpr _ items => statementValue c items
  | .sizeof i _ => throw (.unresolvedSizeof i.place)
  | .exprStmt i _ | .ret i _ | .block i _ | .ifElse i _ _ _ | .whileLoop i _ _
  | .forLoop i _ _ _ _ | .breakLoop i | .continueLoop i | .empty i =>
    throw (.statementAsExpression i.place)

def address (c : Context) : Node → Emit Code
  | .var _ id => varAddress c id
  | .deref _ e => value c e
  | .member _ b name resolved => do
    match resolved with
    | none => throw (.unresolvedMember name)
    | some m =>
      let base ← address c b
      return base ++ (← memberAddress m)
  | .num i _ | .binary i _ _ _ | .not i _ | .assign i _ _ | .ternary i _ _ _ | .addr i _
  | .sizeof i _ | .call i _ _ | .stmtExpr i _ | .exprStmt i _ | .ret i _ | .block i _
  | .ifElse i _ _ _ | .whileLoop i _ _ | .forLoop i _ _ _ _ | .breakLoop i | .continueLoop i
  | .empty i => throw (.notAnLvalue i.place)

def arguments (c : Context) : List Node → Emit Code
  | [] => return .empty
  | e :: es => do
    let first ← value c e
    return first ++ (← arguments c es)

/-- Leaves the value of the expression statement that ends the items. -/
def statementValue (c : Context) : List Node → Emit Code
  | [] => throw .emptyStatementExpression
  | [n] =>
    match n with
    | .exprStmt _ e => value c e
    | _ => throw .valuelessStatementExpression
  | n :: ns => do
    let first ← statement c n
    return first ++ (← statementValue c ns)

def statement (c : Context) : Node → Emit Code
  | .exprStmt i e => balanced i.place do
    let code ← value c e
    return code ++ (← pop .rax)
  | .ret i none => balanced i.place do
    return instr (.jump (.functionEnd c.name))
  | .ret i (some e) => balanced i.place do
    let code ← value c e
    let taken ← pop .rax
    return code ++ taken ++ instr (.jump (.functionEnd c.name))
  | .block i items => balanced i.place do
    statements c items
  | .ifElse i e a b => balanced i.place do
    let n ← freshLabel
    let cond ← value c e
    let test ← branch .equal (.numbered .other n)
    let thenBranch ← statement c a
    let elseBranch ← statement c b
    return cond ++ test ++ thenBranch ++ instr (.jump (.numbered .finish n)) ++
      label .other n ++ elseBranch ++ label .finish n
  | .whileLoop i e b => balanced i.place do
    let n ← freshLabel
    let cond ← value c e
    let test ← branch .equal (.numbered .finish n)
    let depth := (← get).depth
    let body ← statement (c.inLoop n depth) b
    return label .start n ++ cond ++ test ++ body ++ label .again n ++
      instr (.jump (.numbered .start n)) ++ label .finish n
  | .forLoop i init e update b => balanced i.place do
    let n ← freshLabel
    let first ← optional c init
    let cond ← value c e
    let test ← branch .equal (.numbered .finish n)
    let depth := (← get).depth
    let body ← statement (c.inLoop n depth) b
    let next ← optional c update
    return first ++ label .start n ++ cond ++ test ++ body ++ label .again n ++ next ++
      instr (.jump (.numbered .start n)) ++ label .finish n
  | .breakLoop i => balanced i.place do
    match c.loops with
    | [] => throw .breakOutsideLoop
    | t :: _ => jumpOut t.finish t.depth
  | .continueLoop i => balanced i.place do
    match c.loops with
    | [] => throw .continueOutsideLoop
    | t :: _ => jumpOut t.again t.depth
  | .empty i => balanced i.place do
    return .empty
  | .num i _ | .var i _ | .member i _ _ _ | .binary i _ _ _ | .not i _ | .assign i _ _
  | .ternary i _ _ _ | .addr i _ | .deref i _ | .sizeof i _ | .call i _ _ | .stmtExpr i _ =>
    throw (.expressionAsStatement i.place)

def statements (c : Context) : List Node → Emit Code
  | [] => return .empty
  | n :: ns => do
    let first ← statement c n
    return first ++ (← statements c ns)

def optional (c : Context) : Option Node → Emit Code
  | none => return .empty
  | some n => statement c n

end

end Emission

end StackC
