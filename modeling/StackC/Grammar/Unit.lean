import StackC.Grammar.Function
import StackC.Token.Scanner

/-!
Whole programs. The grammar is closed here: its readers call each other only behind a token they
have taken, so a depth equal to the number of tokens is enough.
-/

namespace StackC

namespace Grammar

def step (g : Grammar) : Grammar where
  baseType := Parse.baseType g
  assignment := Parse.assignment g
  ternary := Parse.ternary g
  unary := Parse.unary g
  initializer := Parse.initializer g
  statement := Parse.statement g
  items := Parse.items g

/-- The readers for texts of at most `n` tokens. -/
def ofDepth : Nat → Grammar
  | 0 => exhausted
  | n + 1 => step (ofDepth n)

end Grammar

namespace Parse

def topLevel (g : Grammar) : Parse Unit := do
  let base ← baseType g
  if ← accept ";" then
    return ()
  else
    let first ← declarator base
    if ← check "(" then
      function g first
    else
      globalVariable g first
      let _ ← collect do
        if ← accept "," then
          let d ← declarator base
          globalVariable g d
          return some ()
        else
          return none
      expect ";" "after global declaration"

/-- Declarations up to the end of the text. Every round takes a token, so `n` rounds suffice for `n`
tokens. -/
def topLevelsWithin (g : Grammar) : Nat → Parse Unit
  | 0 => return ()
  | n + 1 => do
    if ← atEnd then
      return ()
    else
      topLevel g
      topLevelsWithin g n

def program : Parse Program := do
  let n := (← get).ahead.length
  topLevelsWithin (.ofDepth n) n
  modifyGet fun s => (s.program, { s with program := {} })

end Parse

namespace ParseState

def ofSource (source : String) : Except Diagnostic ParseState := do
  return ofTokens (← tokenize source)

/-- Reads on from here. A failed reading can be taken up again behind the tokens it has taken. -/
def readProgram (s : ParseState) : Except Diagnostic Program × ParseState :=
  match Parse.program s with
  | .ok p s => (.ok p, s)
  | .error e s => (.error e, s)

end ParseState

def parse (source : String) : Except Diagnostic Program := do
  (← ParseState.ofSource source).readProgram.1

end StackC
