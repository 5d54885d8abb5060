import StackC.Diagnostic.Fault
import StackC.Source.Report

namespace StackC

inductive Diagnostic where
  | lexical (fault : LexicalFault) (place : Location)
  | grammar (fault : GrammarFault) (place : Location)
  | declaration (fault : DeclarationFault) (place : Location)
  | typing (fault : TypingFault) (place : Location)
  | emission (fault : EmissionFault)

namespace Diagnostic

instance : Inhabited Diagnostic := ⟨lexical default default⟩

def report : Diagnostic → Report
  | lexical f p => .located .lexical f.message p
  | grammar f p => .located .grammar f.message p
  | declaration f p => .located .declaration f.message p
  | typing f p => .located .typing f.message p
  | emission f => .unlocated f.message

end Diagnostic

end StackC
