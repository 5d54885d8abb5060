import StackC.Typing.Arithmetic

/-!
Assigning types. The tree is built anew with a type on every node: the value of an array becomes the
address of its first element, `sizeof` becomes a literal, and address arithmetic is spelled out.
-/

namespace StackC

def maxArguments : Nat := 6

def fitsInt (n : Int64) : Bool := -0x80000000 ≤ n.toInt && n.toInt < 0x80000000

namespace Typing

structure Context where
  program : Program
  returnType : CType

/-- The value of an array is a pointer to its first element; all other values stay as they are. -/
def decay (n : Node) : Except Diagnostic Node := do
  match ← typeOf n with
  | .array base _ _ =>
    if n.isReferable then return .addr (.typed n.place base.pointerTo) n
    else throw (.typing .arrayUnaddressable n.place)
  | _ => return n

def requireInteger (n : Node) (op : BinaryOp) : Except Diagnostic Unit := do
  let t ← typeOf n
  if t.isInteger then return () else throw (.typing (.invalidOperand op.symbol t) n.place)

def requireScalar (n : Node) (op : String) : Except Diagnostic Unit := do
  let t ← typeOf n
  if t.isScalar then return () else throw (.typing (.invalidOperand op t) n.place)

def binary (op : BinaryOp) (lhs rhs : Node) (p : Location) : Except Diagnostic Node :=
  match op with
  | .add => add lhs rhs p
  | .sub => sub lhs rhs p
  | .logAnd | .logOr => do
    requireScalar lhs op.symbol
    requireScalar rhs op.symbol
    return intBinary op lhs rhs p
  | _ => do
    requireInteger lhs op
    requireInteger rhs op
    return intBinary op lhs rhs p

def negation (e : Node) (p : Location) : Except Diagnostic Node := do
  requireScalar e "!"
  return .not (.typed p .int) e

def targetType (target : Node) : Except Diagnostic CType := do
  if !target.isReferable then
    throw (.typing .unassignableTarget target.place)
  else
    let t ← typeOf target
    if t.isArray || t.isStruct then throw (.typing (.unassignableType t) target.place)
    else return t

def scalarValue (fault : CType → TypingFault) (e : Node) : Except Diagnostic Node := do
  let t ← typeOf e
  if t.isScalar then return e else throw (.typing (fault t) e.place)

def branchType (thenValue elseValue : Node) (p : Location) : Except Diagnostic CType := do
  let t ← typeOf thenValue
  let u ← typeOf elseValue
  if t.isInteger && u.isInteger then return .int
  else if t = u then return t
  else throw (.typing (.mismatchedBranches t u) p)

def address (e : Node) (p : Location) : Except Diagnostic Node := do
  if !e.isReferable then throw (.typing .unaddressable e.place)
  else return .addr (.typed p (← typeOf e).pointerTo) e

def indirection (e : Node) (p : Location) : Except Diagnostic Node := do
  match ← typeOf e with
  | .pointer base _ =>
    if base.isVoid then throw (.typing .voidDereference p)
    else return .deref (.typed p base) e
  | t => throw (.typing (.invalidDereference t) p)

def memberAccess (base : Node) (name : String) (p : Location) : Except Diagnostic Node := do
  let t ← typeOf base
  if !t.isStruct then
    throw (.typing (.memberOfNonStruct name t) p)
  else if !base.isReferable then
    throw (.typing (.memberOfTemporary name) base.place)
  else
    match t.member? name with
    | none => throw (.typing (.noSuchMember t name) p)
    | some m => return .member (.typed p m.type) base name (some m)

def operandSize (e : Node) (p : Location) : Except Diagnostic Node := do
  let t ← typeOf e
  if t.isVoid || t.isIncompleteArray then throw (.typing (.invalidSizeof t) p)
  else return sizeLiteral t.size p

def callType (c : Context) (name : String) (count : Nat) (p : Location) :
    Except Diagnostic CType :=
  match c.program.function? name with
  | none => .error (.declaration (.implicitFunction name) p)
  | some f =>
    let expected := f.params.length
    if !(if f.variadic then expected ≤ count else count = expected) then
      .error (.typing (.arity name f.variadic expected count) p)
    else if maxArguments < count then
      .error (.typing (.tooManyArguments name count maxArguments) p)
    else .ok f.returnType

/-- A function of type `void` returns at most a `void` value, any other a scalar. -/
def returnedValue (c : Context) (e : Node) : Except Diagnostic Node := do
  let t ← typeOf e
  if c.returnType.isVoid then
    if t.isVoid then return e else throw (.typing .valueFromVoidFunction e.place)
  else if t.isScalar then return e
  else throw (.typing (.unreturnableValue t) e.place)

/-- The type of a sequence of items: that of the last, or `void`. -/
def lastType (items : List Node) : CType :=
  (items.getLast?.bind Node.type?).getD .void

mutual

def elaborate (c : Context) : Node → Except Diagnostic Node
  | .num i n => .ok (.num (.typed i.place (if fitsInt n then .int else .long)) n)
  | .var i id =>
    match c.program.var? id with
    | some v => .ok (.var (.typed i.place v.type) id)
    | none => .error (.typing (.unknownVariable id) i.place)
  | .binary i op l r => do
    let lhs ← decay (← elaborate c l)
    let rhs ← decay (← elaborate c r)
    binary op lhs rhs i.place
  | .not i e => do
    negation (← decay (← elaborate c e)) i.place
  | .assign i l r => do
    let target ← elaborate c l
    let t ← targetType target
    let value ← scalarValue .unassignableValue (← decay (← elaborate c r))
    return .assign (.typed i.place t) target value
  | .ternary i e a b => do
    let cond ← scalarValue .nonScalarCondition (← decay (← elaborate c e))
    let thenValue ← decay (← elaborate c a)
    let elseValue ← decay (← elaborate c b)
    let t ← branchType thenValue elseValue i.place
    return .ternary (.typed i.place t) cond thenValue elseValue
  | .addr i e => do
    address (← elaborate c e) i.place
  | .deref i e => do
    indirection (← decay (← elaborate c e)) i.place
  | .member i b name _ => do
    memberAccess (← elaborate c b) name i.place
  | .sizeof i e => do
    operandSize (← elaborate c e) i.place
  | .call i name args => do
    let t ← callType c name args.length i.place
    let args ← elaborateArguments c args
    return .call (.typed i.place t) name args
  | .stmtExpr i items => do
    let items ← elaborateAll c items
    return .stmtExpr (.typed i.place (lastType items)) items
  | .exprStmt i e => do
    let e ← decay (← elaborate c e)
    return .exprStmt (.typed i.place (← typeOf e)) e
  | .ret i none => return .ret (.typed i.place .void) none
  | .ret i (some e) => do
    let e ← returnedValue c (← decay (← elaborate c e))
    return .ret (.typed i.place .void) (some e)
  | .block i items => do
    let items ← elaborateAll c items
    return .block (.typed i.place (lastType items)) items
  | .ifElse i e a b => do
    let cond ← scalarValue .nonScalarCondition (← decay (← elaborate c e))
    let thenBranch ← elaborate c a
    let elseBranch ← elaborate c b
    return .ifElse (.typed i.place .void) cond thenBranch elseBranch
  | .whileLoop i e b => do
    let cond ← scalarValue .nonScalarCondition (← decay (← elaborate c e))
    let body ← elaborate c b
    return .whileLoop (.typed i.place .void) cond body
  | .forLoop i init e update b => do
    let init ← elaborateOption c init
    let cond ← scalarValue .nonScalarCondition (← decay (← elaborate c e))
    let update ← elaborateOption c update
    let body ← elaborate c b
    return .forLoop (.typed i.place .void) init cond update body
  | .breakLoop i => .ok (.breakLoop (.typed i.place .void))
  | .continueLoop i => .ok (.continueLoop (.typed i.place .void))
  | .empty i => .ok (.empty (.typed i.place .void))

def elaborateAll (c : Context) : List Node → Except Diagnostic (List Node)
  | [] => .ok []
  | n :: ns => do
    let n ← elaborate c n
    return n :: (← elaborateAll c ns)

def elaborateArguments (c : Context) : List Node → Except Diagnostic (List Node)
  | [] => .ok []
  | n :: ns => do
    let n ← scalarValue .unpassableValue (← decay (← elaborate c n))
    return n :: (← elaborateArguments c ns)

def elaborateOption (c : Context) : Option Node → Except Diagnostic (Option Node)
  | none => .ok none
  | some n => do
    return some (← elaborate c n)

end

def elaborateFunction (p : Program) (f : Function) : Except Diagnostic Function :=
  match f.body with
  | none => .ok f
  | some body =>
    if maxArguments < f.params.length then
      .error (.declaration (.tooManyParameters f.name f.params.length maxArguments) f.place)
    else do
      let body ← decay (← elaborate ⟨p, f.returnType⟩ body)
      return { f with body := some body }

end Typing

def Program.elaborate (p : Program) : Except Diagnostic Program := do
  return { p with functions := ← p.functions.mapM (Typing.elaborateFunction p) }

end StackC
