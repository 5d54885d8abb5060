import StackC.Compile

namespace StackC

structure Request where
  input : String
  output : Option String := none

/-- Reads the command line: one input, and `-o` or `--output` with a file, in any order. -/
def Request.ofArgs? : List String → Option String → Option String → Option Request
  | [], some input, output => some ⟨input, output⟩
  | [], none, _ => none
  | "-o" :: path :: args, input, none => ofArgs? args input (some path)
  | "--output" :: path :: args, input, none => ofArgs? args input (some path)
  | arg :: args, none, output => if arg.startsWith "-" then none else ofArgs? args (some arg) output
  | _ :: _, some _, _ => none

def usage : String := "usage: stackc INPUT [-o FILE]"

def Request.run (r : Request) : IO UInt32 := do
  match ← (IO.FS.readFile r.input).toBaseIO with
  | .error e =>
    IO.eprintln s!"error: cannot read '{r.input}': {e}"
    return 1
  | .ok source =>
    match compile source with
    | .error d =>
      let text := d.report.render source
      IO.eprintln text
      return 1
    | .ok text =>
      match r.output with
      | none =>
        IO.print text
        return 0
      | some path =>
        match ← (IO.FS.writeFile path text).toBaseIO with
        | .error e =>
          IO.eprintln s!"error: cannot write '{path}': {e}"
          return 1
        | .ok _ => return 0

end StackC

def main (args : List String) : IO UInt32 :=
  match StackC.Request.ofArgs? args none none with
  | some r => r.run
  | none => do
    IO.eprintln StackC.usage
    return 2
