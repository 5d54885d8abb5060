import StackC.Grammar.Expression
import StackC.Initializer.Stores

namespace StackC

/-- The largest sum of the sizes of a function's locals: rounded up to a multiple of sixteen it is
still a signed 32-bit displacement. -/
def maxFrameSize : Nat := maxObjectSize / 16 * 16

/-- Sizes are counted in 64-bit words and stay at the largest of them. -/
def maxCount : Nat := 0xffffffffffffffff

namespace Parse

/-- The items of a brace list up to its closing brace, with at most one round for each of the
tokens. A comma may stand before the brace. -/
def listItemsWithin (g : Grammar) : List Token → Parse (List Initializer)
  | [] => return []
  | _ :: ts => do
    if ← accept closeBrace then
      return []
    else
      let item ← g.initializer
      if ← accept "," then
        return item :: (← listItemsWithin g ts)
      else
        expect closeBrace "after initializer list"
        return [item]

def endsSecond : Parse Bool := do
  match (← get).ahead with
  | _ :: t :: _ => return t.isReserved "," || t.isReserved ";" || t.isReserved closeBrace
  | _ => return false

/-- An initializer. A string literal counts as such only where it is the whole initializer. -/
def initializer (g : Grammar) : Parse Initializer := do
  let t ← next
  if ← accept openBrace then
    let items ← listItemsWithin g (← rounds)
    return .list items t.place
  else
    match t.kind with
    | .str bytes =>
      if ← endsSecond then
        advance
        return .str bytes t.place
      else
        return .expr (← assignment g)
    | _ => return .expr (← assignment g)

def checkFrame (p : Location) : Parse Unit := do
  let s ← get
  let total := min (Frame.total s.program.vars (s.locals.getD [])) maxCount
  if maxFrameSize < total then declarationFault (.frameTooLarge total) p else return ()

/-- Declares a local and gives the stores of its initializer. The variable is in scope in its own
initializer. -/
def localVariable (g : Grammar) (base : CType) : Parse (List Node) := do
  let d ← declarator base
  checkObject d
  if ← accept "=" then
    let id ← declareLocal d.name d.type d.place
    let init ← initializer g
    let t := init.complete d.type
    modify fun s => { s with program := s.program.setType id t }
    let stores ← init.stores (.var (.bare d.place) id) t
    checkFrame d.place
    return stores
  else if d.type.isIncompleteArray then
    declarationFault (.arraySizeMissing d.name) d.place
  else
    let _ ← declareLocal d.name d.type d.place
    checkFrame d.place
    return []

/-- A declaration inside a function, as the block of the stores that it causes. -/
def localDeclaration (g : Grammar) : Parse Node := do
  let p ← here
  let base ← baseType g
  if ← accept ";" then
    return .block (.bare p) []
  else
    let stores ← separated (localVariable g base)
    expect ";" "after variable declaration"
    return .block (.bare p) stores.flatten

/-- Enters a global variable of type `t` into the program. A name may be declared again with an
equal type, and at most one of its declarations gives initial bytes. -/
def bindGlobal (d : Declarator) (t : CType) (bytes : Option (List UInt8)) : Parse Unit := do
  let s ← get
  match s.scopes.innermostVar? d.name with
  | some id =>
    match s.program.var? id with
    | none => return ()
    | some v =>
      if v.type ≠ t then
        declarationFault (.conflictingGlobal d.name) d.place
      else
        match bytes, v.storage with
        | none, _ => return ()
        | some _, .global (some _) => declarationFault (.redefinition d.name) d.place
        | some _, _ =>
          set { s with program := s.program.modifyVar id ({ · with storage := .global bytes }) }
  | none =>
    let id ← newVar ⟨d.name, t, .global bytes⟩
    match (← get).scopes.declareVar? d.name id with
    | none => declarationFault (.redeclaration d.name) d.place
    | some scopes =>
      modify fun s => { s with scopes := scopes, program := s.program.addGlobal id }

def initialBytes (t : CType) : Option Initializer → Parse (Option (List UInt8))
  | none => return none
  | some init =>
    match init.data t with
    | .ok bytes => return some bytes
    | .error e => throw e

def optionalInitializer (g : Grammar) : Parse (Option Initializer) := do
  if ← accept "=" then return some (← initializer g) else return none

def globalVariable (g : Grammar) (d : Declarator) : Parse Unit := do
  checkObject d
  if ((← get).program.function? d.name).isSome then
    declarationFault (.functionAsVariable d.name) d.place
  else
    let init ← optionalInitializer g
    let t := init.elim d.type (·.complete d.type)
    if t.isIncompleteArray then
      declarationFault (.arraySizeMissing d.name) d.place
    else
      let bytes ← initialBytes t init
      bindGlobal d t bytes

end Parse

end StackC
