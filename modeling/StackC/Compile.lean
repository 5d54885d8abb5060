import StackC.Emission.Program
import StackC.Grammar.Unit
import StackC.Typing.Elaboration

namespace StackC

def analyze (source : String) : Except Diagnostic Program := do
  (← parse source).elaborate

def Program.assembly (p : Program) : Except Diagnostic String :=
  match p.emit with
  | .ok lines => .ok (Assembly.render lines)
  | .error f => .error (.emission f)

def compile (source : String) : Except Diagnostic String := do
  (← analyze source).assembly

end StackC
