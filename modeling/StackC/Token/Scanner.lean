import StackC.Diagnostic.Basic
import StackC.Token.Lexeme

/-!
From source text to tokens. A scanner stands before the part of the text that is still to be read;
when it fails it stays where it stopped and can be asked again.
-/

namespace StackC

/-- The text still to be read, its place, and whether only blanks and comments have been passed
since the last line feed outside of a comment. -/
structure Scanner where
  rest : List Char
  place : Location := .start
  lineStart : Bool := true
deriving DecidableEq, Inhabited

namespace Scanner

def ofSource (source : String) : Scanner := { rest := source.toList }

def skip (s : Scanner) (n : Nat) : Scanner :=
  { s with rest := s.rest.drop n, place := s.place.afterAll (s.rest.take n) }

inductive Gap where
  | blank
  | lineComment
  | blockComment (opened : Location)
deriving DecidableEq

def isBlank (c : Char) : Bool := c == ' ' || c == '\t' || c == '\r'

/-- Passes over blanks and comments. The answer tells where a comment begins that is never
closed. -/
def passGap (gap : Gap) (p : Location) (lineStart : Bool) :
    List Char → Option Location × Scanner
  | [] =>
    let stop : Scanner := ⟨[], p, lineStart⟩
    match gap with
    | .blockComment opened => (some opened, stop)
    | _ => (none, stop)
  | c :: cs =>
    match gap, c, cs with
    | .blank, '/', '/' :: ds => passGap .lineComment (p.afterAll ['/', '/']) lineStart ds
    | .blank, '/', '*' :: ds => passGap (.blockComment p) (p.afterAll ['/', '*']) lineStart ds
    | .blank, c, cs =>
      if c = '\n' then passGap .blank (p.after c) true cs
      else if isBlank c then passGap .blank (p.after c) lineStart cs
      else (none, ⟨c :: cs, p, lineStart⟩)
    | .lineComment, c, cs =>
      if c = '\n' then passGap .blank (p.after c) true cs
      else passGap .lineComment (p.after c) lineStart cs
    | .blockComment _, '*', '/' :: ds => passGap .blank (p.afterAll ['*', '/']) lineStart ds
    | .blockComment opened, c, cs => passGap (.blockComment opened) (p.after c) lineStart cs

def nextGap (s : Scanner) : Option Location × Scanner :=
  passGap .blank s.place s.lineStart s.rest

/-- The length of a directive line that holds nothing behind its `#`, up to its line feed, or the
number of characters before what it holds. -/
def directive (cs : List Char) : Except Nat Nat :=
  let n := (cs.takeWhile isBlank).length
  match cs.drop n with
  | [] => .ok (n + 1)
  | c :: _ => if c = '\n' then .ok (n + 1) else .error (n + 1)

/-- The tokens from here to the end of the text, the mark of the end included. Every round takes a
character, so `budget` rounds suffice for that many characters. -/
def tokensWithin (budget : Nat) (s : Scanner) : Except Diagnostic (List Token) × Scanner :=
  match budget with
  | 0 => (.ok [.atEnd s.place], s)
  | budget + 1 =>
    match s.nextGap with
    | (some opened, s) => (.error (.lexical .unterminatedComment opened), s)
    | (none, s) =>
      match s.rest with
      | [] => (.ok [.atEnd s.place], s)
      | c :: cs =>
        if s.lineStart && c == '#' then
          match directive cs with
          | .ok n => tokensWithin budget (s.skip n)
          | .error n => (.error (.lexical .unsupportedDirective s.place), s.skip n)
        else
          let s := { s with lineStart := false }
          match Lexeme.read c cs with
          | .failure fault before taken =>
            (.error (.lexical fault (s.skip before).place), s.skip taken)
          | .token kind n =>
            let t : Token := ⟨kind, String.ofList (s.rest.take n), s.place⟩
            let (ts, s) := tokensWithin budget (s.skip n)
            (ts.map (t :: ·), s)

def tokens (s : Scanner) : Except Diagnostic (List Token) × Scanner :=
  s.tokensWithin (s.rest.length + 1)

end Scanner

def tokenize (source : String) : Except Diagnostic (List Token) :=
  (Scanner.ofSource source).tokens.1

end StackC
