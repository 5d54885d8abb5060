import StackC.Grammar.Statement

namespace StackC

namespace Parse

/-- A parameter. An array parameter is a pointer to the array's elements. -/
def parameter (g : Grammar) : Parse Declarator := do
  let base ← baseType g
  let d ← declarator base
  checkObject d
  match d.type with
  | .struct .. => declarationFault (.structParameter d.name) d.place
  | .array element _ _ => return { d with type := element.pointerTo }
  | _ => return d

def parametersWithin (g : Grammar) : List Token → Parse (List Declarator × Bool)
  | [] => return ([], false)
  | _ :: ts => do
    if ← accept "..." then
      return ([], true)
    else
      let d ← parameter g
      if ← accept "," then
        let (ds, variadic) ← parametersWithin g ts
        return (d :: ds, variadic)
      else
        return ([d], false)

/-- The parameters of a function behind the opening parenthesis, and whether more may be passed. A
lone `void` stands for none. -/
def parameterList (g : Grammar) : Parse (List Declarator × Bool) := do
  if ← accept ")" then
    return ([], false)
  else if (← check "void") && (← checkSecond ")") then
    advance
    advance
    return ([], false)
  else
    let params ← parametersWithin g (← rounds)
    expect ")" "after parameters"
    return params

def declareParams : List Declarator → Parse (List VarId)
  | [] => return []
  | d :: ds => do
    let id ← declareLocal d.name d.type d.place
    return id :: (← declareParams ds)

def varTypes (p : Program) (ids : List VarId) : List (Option CType) :=
  ids.map fun id => (p.var? id).map (·.type)

def sameSignature (p : Program) (f h : Function) : Bool :=
  f.returnType == h.returnType && varTypes p f.params == varTypes p h.params &&
    f.variadic == h.variadic

/-- Enters a function into the program. All its declarations must agree, and at most one of them
may define it; a defined function has a body from the moment its definition begins, unless this is
its first declaration. -/
def registerFunction (f : Function) (isDefinition : Bool) : Parse Unit := do
  let s ← get
  if (s.scopes.fileVar? f.name).isSome then
    declarationFault (.variableAsFunction f.name) f.place
  else
    match s.program.function? f.name with
    | none =>
      let f := if isDefinition then f else { f with locals := [] }
      set { s with program := s.program.addFunction f }
    | some earlier =>
      if !sameSignature s.program earlier f then
        declarationFault (.conflictingFunction f.name) f.place
      else if !isDefinition then
        return ()
      else if earlier.body.isSome then
        declarationFault (.redefinition f.name) f.place
      else
        set { s with
          program := s.program.modifyFunction f.name ({ · with
            params := f.params, place := f.place,
            body := some (.block (.bare f.place) []) }) }

def functionBody (g : Grammar) (name : String) : Parse Unit := do
  expect openBrace "before function body"
  let p ← lastPlace
  let body ← items g
  modify fun s => { s with
    program := s.program.modifyFunction name ({ · with
      locals := s.locals.getD [], body := some (.block (.bare p) body) }) }

def function (g : Grammar) (d : Declarator) : Parse Unit :=
  if d.type.isArray || d.type.isStruct then
    declarationFault (.unreturnable d.name d.type) d.place
  else
    inFunction do
      expect "(" "after function name"
      let (declarators, variadic) ← parameterList g
      let params ← declareParams declarators
      checkFrame d.place
      let isDefinition := !(← accept ";")
      let f : Function :=
        { name := d.name, returnType := d.type, params := params, locals := params,
          variadic := variadic, body := none, place := d.place }
      registerFunction f isDefinition
      if isDefinition then functionBody g d.name else return ()

end Parse

end StackC
