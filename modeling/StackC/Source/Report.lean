import StackC.Source.Location

namespace StackC

inductive Stage where
  | lexical
  | grammar
  | declaration
  | typing
deriving DecidableEq, Inhabited

namespace Stage

def title : Stage → String
  | lexical => "Lexer error"
  | grammar => "Syntax error"
  | declaration => "Declaration error"
  | typing => "Type error"

end Stage

/-- A message with the place it speaks of. A message about the emitted code has no place. -/
inductive Report where
  | located (stage : Stage) (message : String) (place : Location)
  | unlocated (message : String)
deriving DecidableEq, Inhabited

namespace Report

def message : Report → String
  | located _ m _ => m
  | unlocated m => m

def place? : Report → Option Location
  | located _ _ p => some p
  | unlocated _ => none

def headline : Report → String
  | located stage m p => s!"{stage.title} at {p.describe}: {m}"
  | unlocated m => s!"Code generation error: {m}"

def blanks (n : Nat) : String :=
  String.ofList (List.replicate n ' ')

/-- The headline, and below it the line of `source` that it speaks of with a caret under the
column. A line that `source` does not have is shown as an empty one. -/
def render (source : String) : Report → String
  | r@(unlocated _) => s!"error: {r.headline}"
  | r@(located _ m p) =>
    let text := String.ofList (((textLines source.toList)[p.line - 1]?).getD [])
    let gutter := toString p.line
    let padding := blanks gutter.length
    let indent := blanks (p.column - 1)
    s!"error: {r.headline}\n{padding} |\n{gutter} | {text}\n{padding} | {indent}^ {m}"

end Report

end StackC
