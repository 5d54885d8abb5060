import StackC.Emission.Code

namespace StackC

namespace Emission

open Assembly

/-- A global variable: its name, and its bytes or zeros. Names that begin with `.L` are not seen
outside of the output. -/
def globalData (v : Var) : List Line :=
  let hidden := ".L".toList.isPrefixOf v.name.toList
  let visible := if hidden then [] else [Line.directive (.globl v.name)]
  let content :=
    match v.storage with
    | .global (some bytes) => bytes.map fun b => Line.directive (.byte b)
    | _ => [Line.directive (.zero v.type.size)]
  visible ++ [.label (.symbol v.name)] ++ content

def dataSection (p : Program) : List Line :=
  [.directive .dataSection] ++ (p.globals.filterMap p.var?).flatMap globalData

def spill (c : Context) (index : Nat) (id : VarId) : Emit Code := do
  let v ← var c id
  match Width.ofBytes? v.type.size, argumentRegs[index]? with
  | none, _ => throw (.parameterSize v.name v.type.size)
  | some _, none => throw (.parameterUnregistered v.name)
  | some w, some r =>
    let k ← slot c id v
    return instr (.storeFrame w r k)

def spillAll (c : Context) (index : Nat) : List VarId → Emit Code
  | [] => return .empty
  | id :: ids => do
    let first ← spill c index id
    return first ++ (← spillAll c (index + 1) ids)

def prologue (size : Nat) : Code :=
  instr (.push .rbp) ++ instr (.mov .rsp .rbp) ++ instr (.subImm size .rsp)

def epilogue (name : String) : Code :=
  .line (.label (.functionEnd name)) ++ instr (.mov .rbp .rsp) ++ instr (.pop .rbp) ++ instr .ret

/-- A function with the given body. Where the body ends without a return the result is zero. -/
def functionCode (p : Program) (f : Function) (body : Node) : Emit Code := do
  let c : Context := { vars := p.vars, frame := .ofLocals p.vars f.locals, name := f.name }
  modify ({ · with depth := 0 })
  let spilled ← spillAll c 0 f.params
  let code ← statement c body
  let head := [.directive .textSection, .directive (.globl f.name), .label (.symbol f.name)]
  return .ofLines head ++ prologue c.frame.size ++ spilled ++ code ++
    instr (.movImm 0 .quad .rax) ++ epilogue f.name

def functionsCode (p : Program) : List Function → Emit Code
  | [] => return .empty
  | f :: fs =>
    match f.body with
    | none => functionsCode p fs
    | some body => do
      let first ← functionCode p f body
      return first ++ (← functionsCode p fs)

end Emission

/-- The lines of the output for a program. Labels are numbered through all functions. -/
def Program.emit (p : Program) : Except EmissionFault (List Assembly.Line) := do
  let (functions, _) ← (Emission.functionsCode p p.functions).run {}
  return Emission.dataSection p ++ functions.lines ++ [.directive .plainStack]

end StackC
