import StackC.Grammar.Unit

/-!
Readings by index. All tokens stand in one list, the marks of the end among them, and a reading
looks them up by their index. Nothing bounds it by the tokens: it is told how many rounds a loop
may take and how deep the readers may call each other, and has no outcome if that does not
suffice. It also has none if it needs a token behind the last one.
-/

namespace StackC

/-- An index into a list of tokens, and what has been read before it. What the state says about
tokens and their places is not used. -/
structure Cursor where
  tokens : List Token
  index : Nat
  state : ParseState

def Attempt (α : Type) : Type := Cursor → Option (EStateM.Result Diagnostic Cursor α)

namespace Attempt

variable {α β : Type}

def undefined : Attempt α := fun _ => none

protected def bind (x : Attempt α) (f : α → Attempt β) : Attempt β := fun c =>
  match x c with
  | none => none
  | some (.error e c) => some (.error e c)
  | some (.ok a c) => f a c

instance : Monad Attempt where
  pure a := fun c => some (.ok a c)
  bind := Attempt.bind

def next : Attempt Token := fun c =>
  c.tokens[c.index]?.map fun t => .ok (if t.kind = .eof then .atEnd t.place else t) c

def advance : Attempt Unit := fun c =>
  c.tokens[c.index]?.map fun t =>
    .ok () (if t.kind = .eof then c else { c with index := c.index + 1 })

def lastPlace : Attempt Location := fun c =>
  c.tokens[c.index - 1]?.map fun t => .ok t.place c

/-- Whether the token behind the next one passes the test. It can lie behind a mark of the end, and
there need not be one. -/
def second (test : Token → Bool) : Attempt Bool := fun c =>
  some (.ok (c.tokens[c.index + 1]?.any test) c)

def ask (f : ParseState → α) : Attempt α := fun c => some (.ok (f c.state) c)

def aside (x : Parse α) : Attempt α := fun c =>
  match x c.state with
  | .ok a s => some (.ok a { c with state := s })
  | .error e s => some (.error e { c with state := s })

def here : Attempt Location := do
  return (← next).place

def atEnd : Attempt Bool := do
  return (← next).kind == .eof

def atType : Attempt Bool := do
  return Parse.beginsType (← next)

def grammarFault (f : GrammarFault) : Attempt α := do
  let p ← here
  aside (throw (.grammar f p))

def check (text : String) : Attempt Bool := do
  return (← next).isReserved text

def checkBoth (text : String) (test : Token → Bool) : Attempt Bool := do
  if ← check text then second test else return false

def accept (text : String) : Attempt Bool := do
  if ← check text then
    advance
    return true
  else
    return false

def acceptOne (table : List (String × α)) : Attempt (Option (α × Location)) := do
  let t ← next
  if t.kind = .reserved then
    match table.lookup t.text with
    | some a =>
      advance
      return some (a, t.place)
    | none => return none
  else
    return none

def expect (text context : String) : Attempt Unit := do
  if ← accept text then return ()
  else grammarFault (.expected text context (← next))

def identifier : Attempt (String × Location) := do
  let t ← next
  if t.kind = .ident then
    advance
    return (t.text, t.place)
  else
    grammarFault (.expectedIdentifier t)

def number : Attempt Int64 := do
  let t ← next
  match t.kind with
  | .num n =>
    advance
    return n
  | _ => grammarFault (.expectedNumber t)

def collect (item : Attempt (Option α)) : Nat → Attempt (List α)
  | 0 => undefined
  | n + 1 => do
    match ← item with
    | none => return []
    | some a => return a :: (← collect item n)

def grow (step : α → Attempt (Option α)) : Nat → α → Attempt α
  | 0, _ => undefined
  | n + 1, a => do
    match ← step a with
    | none => return a
    | some b => grow step n b

def separated (item : Attempt α) (n : Nat) : Attempt (List α) := do
  let first ← item
  let others ← collect (do if ← accept "," then return some (← item) else return none) n
  return first :: others

def between (before after : ParseState → ParseState) (body : Attempt α) : Attempt α := fun c =>
  match body { c with state := before c.state } with
  | none => none
  | some (.ok a c) => some (.ok a { c with state := after c.state })
  | some (.error e c) => some (.error e { c with state := after c.state })

def inScope (body : Attempt α) : Attempt α :=
  between (fun s => { s with scopes := s.scopes.enter })
    (fun s => { s with scopes := s.scopes.leave }) body

def inLoop (body : Attempt α) : Attempt α :=
  between (fun s => { s with loopDepth := s.loopDepth + 1 })
    (fun s => { s with loopDepth := s.loopDepth - 1 }) body

def inFunction (body : Attempt α) : Attempt α :=
  between (fun s => { s with scopes := s.scopes.enter, locals := some [] })
    (fun s => { s with scopes := s.scopes.leave, locals := none }) body

structure Readers where
  rounds : Nat
  baseType : Attempt CType
  assignment : Attempt Node
  ternary : Attempt Node
  unary : Attempt Node
  initializer : Attempt Initializer
  statement : Attempt Node
  items : Attempt (List Node)

open Parse (openBrace closeBrace)

def stars (t : CType) (n : Nat) : Attempt CType :=
  grow (fun t => do if ← accept "*" then return some t.pointerTo else return none) n t

def dimension : Attempt (Option (Option Nat × Location)) := do
  match ← acceptOne [("[", ())] with
  | none => return none
  | some ((), p) =>
    if ← accept "]" then
      return some (none, p)
    else
      let n ← number
      if n < 0 then
        aside (Parse.declarationFault .negativeArraySize p)
      else
        expect "]" "after array size"
        return some (some n.toNatClampNeg, p)

def dimensions (t : CType) (n : Nat) : Attempt CType := do
  let dims ← collect dimension n
  aside (Parse.applyDimensions true t dims)

def declarator (base : CType) (n : Nat) : Attempt Declarator := do
  let t ← stars base n
  let (name, p) ← identifier
  let t ← dimensions t n
  return ⟨name, t, p⟩

def memberGroup (u : Readers) : Attempt (Option (List (String × CType))) := do
  if ← accept closeBrace then
    return none
  else if ← atEnd then
    grammarFault .unclosedStruct
  else
    let base ← u.baseType
    let member := do
      let d ← declarator base u.rounds
      aside (Parse.checkObject d)
      return (d.name, d.type)
    let fields ← separated member u.rounds
    expect ";" "after struct member"
    return some fields

def structTag : Attempt (Option String) := do
  let t ← next
  if t.kind = .ident then
    advance
    return some t.text
  else
    return none

def structType (u : Readers) (p : Location) : Attempt CType := do
  let tag ← structTag
  if ← accept openBrace then
    let groups ← collect (memberGroup u) u.rounds
    aside (Parse.declareStruct tag groups.flatten p)
  else
    match tag with
    | none => grammarFault .expectedTagOrBody
    | some name =>
      match ← ask (·.scopes.tag? name) with
      | some t => return t
      | none => aside (Parse.declarationFault (.undeclaredTag name) p)

def baseType (u : Readers) : Attempt CType := do
  match ← acceptOne Parse.baseKeywords with
  | some (some k, _) => return .ofPrimitive k
  | some (none, p) => structType u p
  | none => grammarFault (.expectedType (← next))

def typeName (u : Readers) : Attempt CType := do
  let base ← baseType u
  let t ← stars base u.rounds
  dimensions t u.rounds

def sizeOfType (u : Readers) (p : Location) : Attempt Node := do
  advance
  let t ← typeName u
  expect ")" "after type name"
  if t.isVoid || t.isIncompleteArray then aside (Parse.typingFault (.invalidSizeof t) p)
  else return .literal (Int64.ofNat t.size) p

def applyPostfix (u : Readers) (mark : Parse.PostfixMark) (p : Location) (e : Node) :
    Attempt Node :=
  match mark with
  | .subscript => do
    let index ← u.assignment
    expect "]" "after array index"
    return e.subscript index p
  | .dot => do
    let (name, _) ← identifier
    return e.access name p
  | .arrow => do
    let (name, _) ← identifier
    return (e.indirect p).access name p
  -- These take no token, so that no reader of the grammar is used.
  | .increment | .decrement => aside (Parse.applyPostfix .exhausted mark p e)

def call (u : Readers) (name : String) (p : Location) : Attempt Node := do
  if ← ask fun s => (s.program.function? name).isNone then
    aside (Parse.declarationFault (.implicitFunction name) p)
  else if ← accept ")" then
    return .call (.bare p) name []
  else
    let args ← separated u.assignment u.rounds
    expect ")" "after function arguments"
    return .call (.bare p) name args

def statementExpression (u : Readers) (p : Location) : Attempt Node := do
  let items ← inScope u.items
  expect ")" "after statement expression"
  match items.getLast? with
  | some (.exprStmt ..) => return .stmtExpr (.bare p) items
  | _ => aside (throw (.grammar .valuelessStatementExpression p))

def primary (u : Readers) : Attempt Node := do
  let t ← next
  let p := t.place
  if t.isReserved "(" then
    advance
    if ← accept openBrace then
      statementExpression u p
    else
      let e ← u.assignment
      expect ")" "after expression"
      return e
  else
    match t.kind with
    | .num n =>
      advance
      return .literal n p
    | .str bytes =>
      advance
      let id ← aside (Parse.stringLiteral bytes)
      return .var (.bare p) id
    | .ident =>
      advance
      if ← accept "(" then call u t.text p else aside (Parse.namedVariable t.text p)
    | _ => grammarFault (.expectedExpression t)

def operand (u : Readers) : Attempt Node := do
  let e ← primary u
  grow (fun e => do
    match ← acceptOne Parse.postfixMarks with
    | none => return none
    | some (mark, p) => return some (← applyPostfix u mark p e)) u.rounds e

def unary (u : Readers) : Attempt Node := do
  match ← acceptOne Parse.prefixMarks with
  | none => operand u
  | some (.size, p) =>
    if ← checkBoth "(" Parse.beginsType then
      sizeOfType u p
    else
      let e ← u.unary
      aside (Parse.applyPrefix .size p e)
  | some (mark, p) =>
    let e ← u.unary
    aside (Parse.applyPrefix mark p e)

def leftGrouped (table : List (String × BinaryOp)) (operand : Attempt Node) (n : Nat) :
    Attempt Node := do
  let first ← operand
  grow (fun left => do
    match ← acceptOne table with
    | none => return none
    | some (op, p) => return some (.binary (.bare p) op left (← operand))) n first

def multiplicative (u : Readers) : Attempt Node :=
  leftGrouped [("*", .mul), ("/", .div), ("%", .mod)] (unary u) u.rounds

def additive (u : Readers) : Attempt Node :=
  leftGrouped [("+", .add), ("-", .sub)] (multiplicative u) u.rounds

def relational (u : Readers) : Attempt Node :=
  leftGrouped [("<", .lt), ("<=", .le), (">", .gt), (">=", .ge)] (additive u) u.rounds

def equality (u : Readers) : Attempt Node :=
  leftGrouped [("==", .eq), ("!=", .ne)] (relational u) u.rounds

def conjunction (u : Readers) : Attempt Node :=
  leftGrouped [("&&", .logAnd)] (equality u) u.rounds

def disjunction (u : Readers) : Attempt Node :=
  leftGrouped [("||", .logOr)] (conjunction u) u.rounds

def ternary (u : Readers) : Attempt Node := do
  let cond ← disjunction u
  match ← acceptOne [("?", ())] with
  | none => return cond
  | some ((), p) =>
    let thenValue ← u.assignment
    expect ":" "in ternary expression"
    let elseValue ← u.ternary
    return .ternary (.bare p) cond thenValue elseValue

def assignment (u : Readers) : Attempt Node := do
  let target ← ternary u
  match ← acceptOne Parse.assignmentMarks with
  | none => return target
  | some (none, p) => return .assign (.bare p) target (← u.assignment)
  | some (some op, p) =>
    let value ← u.assignment
    aside (Parse.update op target value p)

def listItems (u : Readers) : Nat → Attempt (List Initializer)
  | 0 => undefined
  | n + 1 => do
    if ← accept closeBrace then
      return []
    else
      let item ← u.initializer
      if ← accept "," then
        return item :: (← listItems u n)
      else
        expect closeBrace "after initializer list"
        return [item]

def endsInitializer (t : Token) : Bool :=
  t.isReserved "," || t.isReserved ";" || t.isReserved closeBrace

def initializer (u : Readers) : Attempt Initializer := do
  let t ← next
  if ← accept openBrace then
    let items ← listItems u u.rounds
    return .list items t.place
  else
    -- It is not known yet that the next token is a string, so this may look behind a mark of the
    -- end.
    let lone ← second endsInitializer
    match t.kind with
    | .str bytes =>
      if lone then
        advance
        return .str bytes t.place
      else
        return .expr (← assignment u)
    | _ => return .expr (← assignment u)

def localVariable (u : Readers) (base : CType) : Attempt (List Node) := do
  let d ← declarator base u.rounds
  aside (Parse.checkObject d)
  if ← accept "=" then
    let id ← aside (Parse.declareLocal d.name d.type d.place)
    let init ← initializer u
    let t := init.complete d.type
    aside (modify fun s => { s with program := s.program.setType id t })
    let stores ← aside (init.stores (.var (.bare d.place) id) t)
    aside (Parse.checkFrame d.place)
    return stores
  else if d.type.isIncompleteArray then
    aside (Parse.declarationFault (.arraySizeMissing d.name) d.place)
  else
    let _ ← aside (Parse.declareLocal d.name d.type d.place)
    aside (Parse.checkFrame d.place)
    return []

def localDeclaration (u : Readers) : Attempt Node := do
  let p ← here
  let base ← baseType u
  if ← accept ";" then
    return .block (.bare p) []
  else
    let stores ← separated (localVariable u base) u.rounds
    expect ";" "after variable declaration"
    return .block (.bare p) stores.flatten

def optionalInitializer (u : Readers) : Attempt (Option Initializer) := do
  if ← accept "=" then return some (← initializer u) else return none

def globalVariable (u : Readers) (d : Declarator) : Attempt Unit := do
  aside (Parse.checkObject d)
  if ← ask fun s => (s.program.function? d.name).isSome then
    aside (Parse.declarationFault (.functionAsVariable d.name) d.place)
  else
    let init ← optionalInitializer u
    let t := init.elim d.type (·.complete d.type)
    if t.isIncompleteArray then
      aside (Parse.declarationFault (.arraySizeMissing d.name) d.place)
    else
      let bytes ← aside (Parse.initialBytes t init)
      aside (Parse.bindGlobal d t bytes)

def blockItem (u : Readers) (statement : Attempt Node) : Attempt (Option Node) := do
  if ← accept closeBrace then
    return none
  else if ← atEnd then
    grammarFault .unclosedBlock
  else if ← atType then
    return some (← localDeclaration u)
  else
    return some (← statement)

def returnStatement (u : Readers) (p : Location) : Attempt Node := do
  if ← check ";" then
    expect ";" "after return"
    return .ret (.bare p) none
  else
    let value ← assignment u
    expect ";" "after return"
    return .ret (.bare p) (some value)

def ifStatement (u : Readers) (p : Location) : Attempt Node := do
  expect "(" "after 'if'"
  let cond ← assignment u
  expect ")" "after if condition"
  let thenBranch ← u.statement
  if ← accept "else" then
    let elseBranch ← u.statement
    return .ifElse (.bare p) cond thenBranch elseBranch
  else
    let q ← lastPlace
    return .ifElse (.bare p) cond thenBranch (.empty (.bare q))

def whileStatement (u : Readers) (p : Location) : Attempt Node := do
  expect "(" "after 'while'"
  let cond ← assignment u
  expect ")" "after while condition"
  let body ← inLoop u.statement
  return .whileLoop (.bare p) cond body

def forInit (u : Readers) : Attempt (Option Node) := do
  if ← accept ";" then
    return none
  else if ← atType then
    return some (← localDeclaration u)
  else
    let e ← assignment u
    expect ";" "after for init"
    return some (.ofExpr e)

def forCondition (u : Readers) : Attempt Node := do
  let p ← here
  if ← check ";" then return .literal 1 p else assignment u

def forUpdate (u : Readers) : Attempt (Option Node) := do
  if ← check ")" then return none else return some (.ofExpr (← assignment u))

def forStatement (u : Readers) (p : Location) : Attempt Node :=
  inScope do
    expect "(" "after 'for'"
    let init ← forInit u
    let cond ← forCondition u
    expect ";" "after for condition"
    let update ← forUpdate u
    expect ")" "after for clauses"
    let body ← inLoop u.statement
    return .forLoop (.bare p) init cond update body

def jumpStatement (jump : Parse.LoopJump) (p : Location) : Attempt Node := do
  let depth ← ask (·.loopDepth)
  match jump with
  | .leave =>
    if 0 < depth then
      expect ";" "after 'break'"
      return .breakLoop (.bare p)
    else
      aside (throw (.grammar .breakOutsideLoop p))
  | .next =>
    if 0 < depth then
      expect ";" "after 'continue'"
      return .continueLoop (.bare p)
    else
      aside (throw (.grammar .continueOutsideLoop p))

def expressionStatement (u : Readers) : Attempt Node := do
  let e ← assignment u
  expect ";" "after expression"
  return .ofExpr e

def statement (u : Readers) : Attempt Node := do
  match ← acceptOne Parse.statementMarks with
  | none => expressionStatement u
  | some (.ret, p) => returnStatement u p
  | some (.branch, p) => ifStatement u p
  | some (.whileLoop, p) => whileStatement u p
  | some (.forLoop, p) => forStatement u p
  | some (.jump jump, p) => jumpStatement jump p
  | some (.block, p) =>
    let items ← inScope u.items
    return .block (.bare p) items
  | some (.empty, p) => return .empty (.bare p)

def items (u : Readers) : Attempt (List Node) :=
  collect (blockItem u (statement u)) u.rounds

def parameter (u : Readers) : Attempt Declarator := do
  let base ← baseType u
  let d ← declarator base u.rounds
  aside (Parse.checkObject d)
  match d.type with
  | .struct .. => aside (Parse.declarationFault (.structParameter d.name) d.place)
  | .array element _ _ => return { d with type := element.pointerTo }
  | _ => return d

def parameters (u : Readers) : Nat → Attempt (List Declarator × Bool)
  | 0 => undefined
  | n + 1 => do
    if ← accept "..." then
      return ([], true)
    else
      let d ← parameter u
      if ← accept "," then
        let (ds, variadic) ← parameters u n
        return (d :: ds, variadic)
      else
        return ([d], false)

def parameterList (u : Readers) : Attempt (List Declarator × Bool) := do
  if ← accept ")" then
    return ([], false)
  else if ← checkBoth "void" (·.isReserved ")") then
    advance
    advance
    return ([], false)
  else
    let params ← parameters u u.rounds
    expect ")" "after parameters"
    return params

def functionBody (u : Readers) (name : String) : Attempt Unit := do
  expect openBrace "before function body"
  let p ← lastPlace
  let body ← items u
  aside (modify fun s => { s with
    program := s.program.modifyFunction name ({ · with
      locals := s.locals.getD [], body := some (.block (.bare p) body) }) })

def function (u : Readers) (d : Declarator) : Attempt Unit :=
  if d.type.isArray || d.type.isStruct then
    aside (Parse.declarationFault (.unreturnable d.name d.type) d.place)
  else
    inFunction do
      expect "(" "after function name"
      let (declarators, variadic) ← parameterList u
      let params ← aside (Parse.declareParams declarators)
      aside (Parse.checkFrame d.place)
      let isDefinition := !(← accept ";")
      let f : Function :=
        { name := d.name, returnType := d.type, params := params, locals := params,
          variadic := variadic, body := none, place := d.place }
      aside (Parse.registerFunction f isDefinition)
      if isDefinition then functionBody u d.name else return ()

def topLevel (u : Readers) : Attempt Unit := do
  let base ← baseType u
  if ← accept ";" then
    return ()
  else
    let first ← declarator base u.rounds
    if ← check "(" then
      function u first
    else
      globalVariable u first
      let more := do
        if ← accept "," then
          let d ← declarator base u.rounds
          globalVariable u d
          return some ()
        else
          return none
      let _ ← collect more u.rounds
      expect ";" "after global declaration"

def topLevels (u : Readers) : Nat → Attempt Unit
  | 0 => undefined
  | n + 1 => do
    if ← atEnd then
      return ()
    else
      topLevel u
      topLevels u n

namespace Readers

def step (u : Readers) : Readers where
  rounds := u.rounds
  baseType := Attempt.baseType u
  assignment := Attempt.assignment u
  ternary := Attempt.ternary u
  unary := Attempt.unary u
  initializer := Attempt.initializer u
  statement := Attempt.statement u
  items := Attempt.items u

/-- Readers that call each other to a depth of `n` at most, in loops of fewer than `rounds`
rounds. -/
def ofDepth (rounds : Nat) : Nat → Readers
  | 0 => ⟨rounds, undefined, undefined, undefined, undefined, undefined, undefined, undefined⟩
  | n + 1 => step (ofDepth rounds n)

end Readers

def program (bound : Nat) : Attempt Program := do
  topLevels (.ofDepth bound bound) bound
  aside (modifyGet fun s => (s.program, { s with program := {} }))

end Attempt

end StackC
