import StackC.Grammar.Basic

namespace StackC

/-- The largest size of an array: the bytes of an object are reached by signed 32-bit
displacements. -/
def maxObjectSize : Nat := 0x7fffffff

structure Declarator where
  name : String
  type : CType
  place : Location

namespace Parse

def openBrace : String := "\x7b"
def closeBrace : String := "\x7d"

def baseKeywords : List (String × Option Primitive) :=
  [("int", some .int), ("char", some .char), ("short", some .short), ("long", some .long),
    ("void", some .void), ("struct", none)]

def beginsType (t : Token) : Bool :=
  t.kind == .reserved && (baseKeywords.lookup t.text).isSome

def atType : Parse Bool := do
  return beginsType (← get).next

def atTypeSecond : Parse Bool := do
  match (← get).ahead with
  | _ :: t :: _ => return beginsType t
  | _ => return false

def stars (t : CType) : Parse CType :=
  grow (fun t => do if ← accept "*" then return some t.pointerTo else return none) t

def dimension : Parse (Option (Option Nat × Location)) := do
  match ← acceptOne [("[", ())] with
  | none => return none
  | some ((), p) =>
    if ← accept "]" then
      return some (none, p)
    else
      let n ← number
      if n < 0 then
        declarationFault .negativeArraySize p
      else
        expect "]" "after array size"
        return some (some n.toNatClampNeg, p)

/-- Applies dimensions, outermost first, to an element type; `outermost` tells whether the first of
them may be empty. -/
def applyDimensions (outermost : Bool) (t : CType) : List (Option Nat × Location) → Parse CType
  | [] => return t
  | (n, p) :: dims => do
    let element ← applyDimensions false t dims
    if element.isVoid then
      declarationFault .arrayOfVoid p
    else if n.isNone && !outermost then
      declarationFault .innerDimensionOmitted p
    else if maxObjectSize < element.size * n.getD 0 then
      declarationFault .arrayTooLarge p
    else
      return .arrayOf element n

def dimensions (t : CType) : Parse CType := do
  applyDimensions true t (← collect dimension)

def declarator (base : CType) : Parse Declarator := do
  let t ← stars base
  let (name, p) ← identifier
  let t ← dimensions t
  return ⟨name, t, p⟩

def checkObject (d : Declarator) : Parse Unit :=
  if d.type.isVoid then declarationFault (.voidVariable d.name) d.place else return ()

def memberGroup (g : Grammar) : Parse (Option (List (String × CType))) := do
  if ← accept closeBrace then
    return none
  else if ← atEnd then
    grammarFault .unclosedStruct
  else
    let base ← g.baseType
    let fields ← separated do
      let d ← declarator base
      checkObject d
      return (d.name, d.type)
    expect ";" "after struct member"
    return some fields

def declareStruct (tag : Option String) (fields : List (String × CType)) (p : Location) :
    Parse CType := do
  modify fun s => { s with structCount := s.structCount + 1 }
  let s ← get
  match Layout.ofFields s.structCount tag fields with
  | .error name => declarationFault (.duplicateMember name) p
  | .ok l =>
    let t := CType.structOf l
    match tag with
    | none => return t
    | some name =>
      match s.scopes.declareTag? name t with
      | none => declarationFault (.structRedefinition name) p
      | some scopes =>
        modify ({ · with scopes := scopes })
        return t

def structTag : Parse (Option String) := do
  let t ← next
  if t.kind = .ident then
    advance
    return some t.text
  else
    return none

def structType (g : Grammar) (p : Location) : Parse CType := do
  let tag ← structTag
  if ← accept openBrace then
    let groups ← collect (memberGroup g)
    declareStruct tag groups.flatten p
  else
    match tag with
    | none => grammarFault .expectedTagOrBody
    | some name =>
      match (← get).scopes.tag? name with
      | some t => return t
      | none => declarationFault (.undeclaredTag name) p

def baseType (g : Grammar) : Parse CType := do
  match ← acceptOne baseKeywords with
  | some (some k, _) => return .ofPrimitive k
  | some (none, p) => structType g p
  | none => grammarFault (.expectedType (← next))

def typeName (g : Grammar) : Parse CType := do
  let base ← baseType g
  let t ← stars base
  dimensions t

end Parse

end StackC
