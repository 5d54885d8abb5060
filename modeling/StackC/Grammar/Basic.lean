import StackC.Diagnostic.Basic
import StackC.Frame
import StackC.Initializer.Basic

namespace StackC

/-- The state of a reading. The tokens ahead do not include the mark of the end, whose place is
`finish`; `last` is the place of the token taken last. While a function is read, `locals` lists its
variables; `loopDepth` counts the loops around the place reached. -/
structure ParseState where
  ahead : List Token
  finish : Location
  last : Location := {}
  scopes : Scopes := {}
  program : Program := {}
  locals : Option (List VarId) := none
  loopDepth : Nat := 0
  structCount : Nat := 0
  stringCount : Nat := 0
deriving Inhabited

namespace ParseState

/-- A reading that is about to begin. Tokens behind the first mark of the end do not count; where
there is no such mark, the text ends at its last token. -/
def ofTokens (tokens : List Token) : ParseState :=
  let body := tokens.takeWhile (·.kind != .eof)
  let finish :=
    match tokens.drop body.length with
    | t :: _ => t.place
    | [] => (tokens.getLast?.map (·.place)).getD {}
  { ahead := body, finish := finish }

def next (s : ParseState) : Token := s.ahead.headD (.atEnd s.finish)

def advance (s : ParseState) : ParseState :=
  match s.ahead with
  | [] => s
  | t :: ts => { s with ahead := ts, last := t.place }

end ParseState

/-- A step of a reading. A step that fails still leaves a state behind. -/
abbrev Parse := EStateM Diagnostic ParseState

namespace Parse

def next : Parse Token := do
  return (← get).next

def here : Parse Location := do
  return (← get).next.place

def lastPlace : Parse Location := do
  return (← get).last

def atEnd : Parse Bool := do
  return (← get).ahead.isEmpty

def advance : Parse Unit := modify ParseState.advance

def grammarFault {α : Type} (f : GrammarFault) : Parse α := do
  throw (.grammar f (← here))

def declarationFault {α : Type} (f : DeclarationFault) (p : Location) : Parse α :=
  throw (.declaration f p)

def typingFault {α : Type} (f : TypingFault) (p : Location) : Parse α :=
  throw (.typing f p)

def check (text : String) : Parse Bool := do
  return (← get).next.isReserved text

def checkSecond (text : String) : Parse Bool := do
  match (← get).ahead with
  | _ :: t :: _ => return t.isReserved text
  | _ => return false

def accept (text : String) : Parse Bool := do
  if ← check text then
    advance
    return true
  else
    return false

def acceptOne {α : Type} (table : List (String × α)) : Parse (Option (α × Location)) := do
  let t ← next
  if t.kind = .reserved then
    match table.lookup t.text with
    | some a =>
      advance
      return some (a, t.place)
    | none => return none
  else
    return none

def expect (text context : String) : Parse Unit := do
  if ← accept text then return ()
  else grammarFault (.expected text context (← next))

def identifier : Parse (String × Location) := do
  let t ← next
  if t.kind = .ident then
    advance
    return (t.text, t.place)
  else
    grammarFault (.expectedIdentifier t)

/-- The tokens ahead and the mark of the end. Where every round of a loop takes a token, one round
for each of them is enough, the last of which finds nothing to take. -/
def rounds : Parse (List Token) := do
  let s ← get
  return .atEnd s.finish :: s.ahead

def number : Parse Int64 := do
  let t ← next
  match t.kind with
  | .num n =>
    advance
    return n
  | _ => grammarFault (.expectedNumber t)

def collectWithin {α : Type} (item : Parse (Option α)) : List Token → Parse (List α)
  | [] => return []
  | _ :: ts => do
    match ← item with
    | none => return []
    | some a => return a :: (← collectWithin item ts)

/-- What `item` gives until it gives nothing. Every round that gives something takes a token, so
the tokens ahead bound the rounds. -/
def collect {α : Type} (item : Parse (Option α)) : Parse (List α) := do
  collectWithin item (← rounds)

def growWithin {α : Type} (step : α → Parse (Option α)) : List Token → α → Parse α
  | [], a => return a
  | _ :: ts, a => do
    match ← step a with
    | none => return a
    | some b => growWithin step ts b

/-- Lets `step` act on its own result until it gives nothing. Every round that gives something takes
a token, so the tokens ahead bound the rounds. -/
def grow {α : Type} (step : α → Parse (Option α)) (a : α) : Parse α := do
  growWithin step (← rounds) a

def separated {α : Type} (item : Parse α) : Parse (List α) := do
  let first ← item
  let others ← collect do
    if ← accept "," then return some (← item) else return none
  return first :: others

/-- Runs `body` between two changes of the state. The second is made also when `body` fails. -/
def between {α : Type} (before after : ParseState → ParseState) (body : Parse α) : Parse α :=
  fun s =>
    match body (before s) with
    | .ok a s => .ok a (after s)
    | .error e s => .error e (after s)

def inScope {α : Type} (body : Parse α) : Parse α :=
  between (fun s => { s with scopes := s.scopes.enter })
    (fun s => { s with scopes := s.scopes.leave }) body

def inLoop {α : Type} (body : Parse α) : Parse α :=
  between (fun s => { s with loopDepth := s.loopDepth + 1 })
    (fun s => { s with loopDepth := s.loopDepth - 1 }) body

def inFunction {α : Type} (body : Parse α) : Parse α :=
  between (fun s => { s with scopes := s.scopes.enter, locals := some [] })
    (fun s => { s with scopes := s.scopes.leave, locals := none }) body

def newVar (v : Var) : Parse VarId :=
  modifyGet fun s =>
    let (p, id) := s.program.addVar v
    (id, { s with program := p })

def declareLocal (name : String) (t : CType) (p : Location) : Parse VarId := do
  let id ← newVar ⟨name, t, .onFrame⟩
  match (← get).scopes.declareVar? name id with
  | none => declarationFault (.redeclaration name) p
  | some scopes =>
    modify ({ · with scopes := scopes })
    match (← get).locals with
    | none => declarationFault (.localOutsideFunction name) p
    | some ids =>
      modify ({ · with locals := some (ids ++ [id]) })
      return id

def stringLiteral (bytes : List UInt8) : Parse VarId := do
  let count := (← get).stringCount
  let bytes := bytes ++ [0]
  modify ({ · with stringCount := count + 1 })
  let name := s!".L..str.{count}"
  let id ← newVar ⟨name, .arrayOf .char (some bytes.length), .global (some bytes)⟩
  modify fun s => { s with program := s.program.addGlobal id }
  return id

end Parse

structure Grammar where
  baseType : Parse CType
  assignment : Parse Node
  ternary : Parse Node
  unary : Parse Node
  initializer : Parse Initializer
  statement : Parse Node
  items : Parse (List Node)

namespace Grammar

def exhausted : Grammar where
  baseType := do Parse.grammarFault (.expectedType (← Parse.next))
  assignment := do Parse.grammarFault (.expectedExpression (← Parse.next))
  ternary := do Parse.grammarFault (.expectedExpression (← Parse.next))
  unary := do Parse.grammarFault (.expectedExpression (← Parse.next))
  initializer := do Parse.grammarFault (.expectedExpression (← Parse.next))
  statement := do Parse.grammarFault (.expectedExpression (← Parse.next))
  items := Parse.grammarFault .unclosedBlock

end Grammar

end StackC
