namespace StackC

/-- A place in a source text. Line and column count characters from one; the offset counts the
bytes of the UTF-8 encoding from zero. -/
structure Location where
  line : Nat := 0
  column : Nat := 0
  offset : Nat := 0
deriving DecidableEq, Inhabited

namespace Location

def start : Location := ⟨1, 1, 0⟩

def after (p : Location) (c : Char) : Location :=
  if c = '\n' then ⟨p.line + 1, 1, p.offset + c.utf8Size⟩
  else ⟨p.line, p.column + 1, p.offset + c.utf8Size⟩

def afterAll (p : Location) (cs : List Char) : Location :=
  cs.foldl after p

def describe (p : Location) : String :=
  s!"line {p.line}, column {p.column}"

@[simp] theorem afterAll_nil (p : Location) : p.afterAll [] = p := rfl

@[simp] theorem afterAll_cons (p : Location) (c : Char) (cs : List Char) :
    p.afterAll (c :: cs) = (p.after c).afterAll cs := rfl

/-- The place behind two runs of characters is reached in two steps. -/
theorem afterAll_append (p : Location) (cs ds : List Char) :
    p.afterAll (cs ++ ds) = (p.afterAll cs).afterAll ds :=
  List.foldl_append

end Location

/-- The lines of a text. A line feed closes a line and takes one carriage return before it along;
what follows the last line feed is a line only if it is not empty. -/
def textLines : List Char → List (List Char)
  | [] => []
  | '\r' :: '\n' :: cs => [] :: textLines cs
  | '\n' :: cs => [] :: textLines cs
  | c :: cs =>
    match textLines cs with
    | [] => [[c]]
    | l :: ls => (c :: l) :: ls

end StackC
