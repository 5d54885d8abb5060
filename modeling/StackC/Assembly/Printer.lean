import StackC.Assembly.Code

namespace StackC

namespace Assembly

namespace Reg

def text : Reg → Width → String
  | rax, .byte => "%al"
  | rax, .word => "%ax"
  | rax, .long => "%eax"
  | rax, .quad => "%rax"
  | rdi, .byte => "%dil"
  | rdi, .word => "%di"
  | rdi, .long => "%edi"
  | rdi, .quad => "%rdi"
  | rsi, .byte => "%sil"
  | rsi, .word => "%si"
  | rsi, .long => "%esi"
  | rsi, .quad => "%rsi"
  | rdx, .byte => "%dl"
  | rdx, .word => "%dx"
  | rdx, .long => "%edx"
  | rdx, .quad => "%rdx"
  | rcx, .byte => "%cl"
  | rcx, .word => "%cx"
  | rcx, .long => "%ecx"
  | rcx, .quad => "%rcx"
  | r8, .byte => "%r8b"
  | r8, .word => "%r8w"
  | r8, .long => "%r8d"
  | r8, .quad => "%r8"
  | r9, .byte => "%r9b"
  | r9, .word => "%r9w"
  | r9, .long => "%r9d"
  | r9, .quad => "%r9"
  | rbp, .byte => "%bpl"
  | rbp, .word => "%bp"
  | rbp, .long => "%ebp"
  | rbp, .quad => "%rbp"
  | rsp, .byte => "%spl"
  | rsp, .word => "%sp"
  | rsp, .long => "%esp"
  | rsp, .quad => "%rsp"

def name (r : Reg) : String := r.text .quad

end Reg

/-- The instruction that moves a part of the given width and extends its sign. -/
def Width.mnemonic : Width → String
  | byte => "movsbq"
  | word => "movswq"
  | long => "movslq"
  | quad => "mov"

def LabelRole.text : LabelRole → String
  | other => "else"
  | finish => "end"
  | start => "begin"
  | again => "continue"
  | short => "short"

def Label.text : Label → String
  | numbered role n => s!".L.{role.text}.{n}"
  | functionEnd name => s!".L.return.{name}"
  | symbol name => name

def Cond.suffix : Cond → String
  | equal => "e"
  | notEqual => "ne"
  | less => "l"
  | lessEqual => "le"
  | greater => "g"
  | greaterEqual => "ge"

def Arith.mnemonic : Arith → String
  | add => "add"
  | sub => "sub"
  | imul => "imul"

def Instr.text : Instr → String
  | movImm n w r =>
    let dst := r.text w
    s!"mov ${n.toInt}, {dst}"
  | movAbs n r => s!"movabs ${n.toInt}, {r.name}"
  | mov src dst => s!"mov {src.name}, {dst.name}"
  | load w base dst => s!"{w.mnemonic} ({base.name}), {dst.name}"
  | store w src base =>
    let part := src.text w
    s!"mov {part}, ({base.name})"
  | storeFrame w src k =>
    let part := src.text w
    s!"mov {part}, -{k}(%rbp)"
  | leaFrame k dst => s!"lea -{k}(%rbp), {dst.name}"
  | leaSymbol name dst => s!"lea {name}(%rip), {dst.name}"
  | push r => s!"push {r.name}"
  | pop r => s!"pop {r.name}"
  | arith op src dst => s!"{op.mnemonic} {src.name}, {dst.name}"
  | addImm n r => s!"add ${n}, {r.name}"
  | subImm n r => s!"sub ${n}, {r.name}"
  | extend w r =>
    let part := r.text w
    s!"{w.mnemonic} {part}, {r.name}"
  | extendFlag r =>
    let part := r.text .byte
    s!"movzb {part}, {r.name}"
  | signIntoRdx => "cqo"
  | divide r => s!"idiv {r.name}"
  | cmp src dst => s!"cmp {src.name}, {dst.name}"
  | cmpZero r => s!"cmp $0, {r.name}"
  | setFlag c r =>
    let part := r.text .byte
    s!"set{c.suffix} {part}"
  | jump l => s!"jmp {l.text}"
  | jumpIf c l => s!"j{c.suffix} {l.text}"
  | call name _ => s!"call {name}"
  | ret => "ret"

def Directive.text : Directive → String
  | dataSection => ".data"
  | textSection => ".text"
  | globl name => s!".globl {name}"
  | byte b => s!".byte {b.toNat}"
  | zero n => s!".zero {n}"
  | plainStack => ".section .note.GNU-stack,\"\",@progbits"

/-- A label stands at the start of its line; all else is indented. -/
def Line.text : Line → String
  | label l => s!"{l.text}:"
  | instr i => s!"  {i.text}"
  | directive d => s!"  {d.text}"

def render (lines : List Line) : String :=
  String.join (lines.map fun l => l.text ++ "\n")

end Assembly

end StackC
