import StackC.Program.Basic
import StackC.Proofs.Machine.Memory

/-!
The meaning of typed trees. Operands are evaluated from left to right on 64-bit words; a tree can be
left by a jump out of a loop or by a return, also from inside of an expression. How variables and
memory are kept is a parameter.
-/

namespace StackC

namespace Semantics

open Assembly Machine

inductive Exit where
  | broke
  | continued
  | returned (value : Option Word)

abbrev Run (σ : Type) := ExceptT Exit (StateT σ Option)

namespace Run

variable {σ α : Type}

def undefined : Run σ α := fun _ => none

def ofOption (x : Option α) : Run σ α := fun s => x.map fun a => (.ok a, s)

def reading (f : σ → Option α) : Run σ α := fun s => (f s).map fun a => (.ok a, s)

def changing (f : σ → Option (α × σ)) : Run σ α := fun s => (f s).map fun r => (.ok r.1, r.2)

def exit (e : Exit) : Run σ α := fun s => some (.error e, s)

def round (body : Run σ Unit) : Run σ Bool := fun s =>
  match body s with
  | some (.ok _, s') | some (.error .continued, s') => some (.ok true, s')
  | some (.error .broke, s') => some (.ok false, s')
  | some (.error (.returned v), s') => some (.error (.returned v), s')
  | none => none

/-- A loop that is given up as undefined when it has not ended after `n` tests of its condition. -/
def loop (cond : Run σ Word) (body update : Run σ Unit) : Nat → Run σ Unit
  | 0 => undefined
  | n + 1 => do
    if (← cond) = 0 then
      return ()
    else if ← round body then
      update
      loop cond body update n
    else
      return ()

end Run

/-- How objects are kept in a state of type `σ`. A `ρ` stands for an object. -/
structure Objects (σ ρ : Type) where
  named : VarId → Option ρ
  pointee : Word → Option ρ
  member : ρ → Nat → Option ρ
  address : ρ → Option Word
  load : Width → ρ → σ → Option Word
  store : Width → ρ → Word → σ → Option σ
  call : String → List Word → σ → Option (Word × σ)

def bit (b : Bool) : Word := if b then 1 else 0

/-- The result of an operator that evaluates both of its operands. Division is undefined where the
quotient is no word. -/
def apply (op : BinaryOp) (a b : Word) : Option Word :=
  match op with
  | .add => some (a + b)
  | .sub => some (a - b)
  | .mul => some (a * b)
  | .div => if b = 0 ∨ a = BitVec.intMin 64 ∧ b = -1 then none else some (a.sdiv b)
  | .mod => if b = 0 ∨ a = BitVec.intMin 64 ∧ b = -1 then none else some (a.srem b)
  | .eq => some (bit (a == b))
  | .ne => some (bit (a != b))
  | .lt => some (bit (a.slt b))
  | .le => some (bit (a.sle b))
  | .gt => some (bit (b.slt a))
  | .ge => some (bit (b.sle a))
  | .logAnd | .logOr => none

/-- What the caller makes of a result: only as many bytes count as an integer type has. -/
def returned (t : CType) (v : Word) : Word :=
  match Width.ofBytes? t.size with
  | some w => if t.isInteger then narrow w v else v
  | none => v

variable {σ ρ : Type}

def Objects.read (o : Objects σ ρ) (t : Option CType) (r : ρ) : Run σ Word :=
  match t with
  | none => .undefined
  | some t =>
    if t.isArray || t.isStruct then .ofOption (o.address r)
    else
      match Width.ofBytes? t.size with
      | none => .undefined
      | some w => .reading (o.load w r)

def Objects.write (o : Objects σ ρ) (t : Option CType) (r : ρ) (v : Word) : Run σ Unit :=
  match t.bind fun t => Width.ofBytes? t.size with
  | none => .undefined
  | some w => .changing fun s => (o.store w r v s).map ((), ·)

mutual

def eval (o : Objects σ ρ) (rounds : Nat) : Node → Run σ Word
  | .num _ n => return n.toBitVec
  | .var i id => do
    o.read i.type (← .ofOption (o.named id))
  | .deref i e => do
    let a ← eval o rounds e
    o.read i.type (← .ofOption (o.pointee a))
  | .member i b _ resolved =>
    match resolved with
    | none => .undefined
    | some m => do
      let r ← object o rounds b
      o.read i.type (← .ofOption (o.member r m.offset))
  | .addr _ e => do
    let r ← object o rounds e
    .ofOption (o.address r)
  | .assign _ l r => do
    let target ← object o rounds l
    let v ← eval o rounds r
    o.write l.type? target v
    return v
  | .binary _ op l r =>
    match op with
    | .logAnd => do
      if (← eval o rounds l) = 0 then return 0
      else return bit ((← eval o rounds r) != 0)
    | .logOr => do
      if (← eval o rounds l) = 0 then return bit ((← eval o rounds r) != 0)
      else return 1
    | op => do
      let a ← eval o rounds l
      let b ← eval o rounds r
      .ofOption (apply op a b)
  | .not _ e => do
    return bit ((← eval o rounds e) == 0)
  | .ternary _ e x y => do
    if (← eval o rounds e) = 0 then eval o rounds y else eval o rounds x
  | .call i name args => do
    let vs ← evalAll o rounds args
    match i.type with
    | none => .undefined
    | some t => return returned t (← .changing (o.call name vs))
  | .stmtExpr _ items => evalItems o rounds items
  | .sizeof .. | .exprStmt .. | .ret .. | .block .. | .ifElse .. | .whileLoop .. | .forLoop ..
  | .breakLoop _ | .continueLoop _ | .empty _ => .undefined

def object (o : Objects σ ρ) (rounds : Nat) : Node → Run σ ρ
  | .var _ id => .ofOption (o.named id)
  | .deref _ e => do
    let a ← eval o rounds e
    .ofOption (o.pointee a)
  | .member _ b _ resolved =>
    match resolved with
    | none => .undefined
    | some m => do
      let r ← object o rounds b
      .ofOption (o.member r m.offset)
  | _ => .undefined

def evalAll (o : Objects σ ρ) (rounds : Nat) : List Node → Run σ (List Word)
  | [] => return []
  | e :: es => do
    let v ← eval o rounds e
    return v :: (← evalAll o rounds es)

def evalItems (o : Objects σ ρ) (rounds : Nat) : List Node → Run σ Word
  | [] => .undefined
  | [x] =>
    match x with
    | .exprStmt _ e => eval o rounds e
    | _ => .undefined
  | x :: xs => do
    perform o rounds x
    evalItems o rounds xs

def perform (o : Objects σ ρ) (rounds : Nat) : Node → Run σ Unit
  | .exprStmt _ e => do
    let _ ← eval o rounds e
    return ()
  | .ret _ none => .exit (.returned none)
  | .ret _ (some e) => do
    let v ← eval o rounds e
    .exit (.returned (some v))
  | .block _ items => performAll o rounds items
  | .ifElse _ e x y => do
    if (← eval o rounds e) = 0 then perform o rounds y else perform o rounds x
  | .whileLoop _ e x => .loop (eval o rounds e) (perform o rounds x) (return ()) rounds
  | .forLoop _ init e update x => do
    performOption o rounds init
    .loop (eval o rounds e) (perform o rounds x) (performOption o rounds update) rounds
  | .breakLoop _ => .exit .broke
  | .continueLoop _ => .exit .continued
  | .empty _ => return ()
  | .num .. | .var .. | .member .. | .binary .. | .not .. | .assign .. | .ternary .. | .addr ..
  | .deref .. | .sizeof .. | .call .. | .stmtExpr .. => .undefined

def performAll (o : Objects σ ρ) (rounds : Nat) : List Node → Run σ Unit
  | [] => return ()
  | x :: xs => do
    perform o rounds x
    performAll o rounds xs

def performOption (o : Objects σ ρ) (rounds : Nat) : Option Node → Run σ Unit
  | none => return ()
  | some x => perform o rounds x

end

end Semantics

end StackC
