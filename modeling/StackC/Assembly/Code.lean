import StackC.Assembly.Basic

/-!
Runs of output lines. Two runs are joined in one step, however long they are, and the lines of a run
are listed in time proportional to its length. All that counts about a run is the list of its lines,
which joining appends.
-/

namespace StackC

open Assembly

inductive Code where
  | empty
  | line (l : Line)
  | join (first second : Code)
deriving Inhabited

namespace Code

instance : Append Code := ⟨join⟩

def ofLines (ls : List Line) : Code := ls.foldr (fun l c => line l ++ c) empty

def linesOnto : Code → List Line → List Line
  | empty, ls => ls
  | line l, ls => l :: ls
  | join a b, ls => a.linesOnto (b.linesOnto ls)

def lines (c : Code) : List Line := c.linesOnto []

/-- Listing the lines onto others is appending them. -/
theorem linesOnto_eq (c : Code) (ls : List Line) : c.linesOnto ls = c.lines ++ ls := by
  induction c generalizing ls with
  | empty => rfl
  | line l => rfl
  | join a b iha ihb =>
    have h : (a.join b).lines = a.lines ++ b.lines := iha b.lines
    calc (a.join b).linesOnto ls
        = a.linesOnto (b.linesOnto ls) := rfl
      _ = a.lines ++ (b.lines ++ ls) := by rw [iha, ihb]
      _ = (a.join b).lines ++ ls := by rw [h, List.append_assoc]

@[simp] theorem lines_empty : empty.lines = [] := rfl

@[simp] theorem lines_line (l : Line) : (line l).lines = [l] := rfl

/-- Joining runs appends their lines. -/
@[simp] theorem lines_append (a b : Code) : (a ++ b).lines = a.lines ++ b.lines :=
  linesOnto_eq a b.lines

@[simp] theorem lines_ofLines (ls : List Line) : (ofLines ls).lines = ls := by
  induction ls with
  | nil => rfl
  | cons l ls ih =>
    have h : ofLines (l :: ls) = line l ++ ofLines ls := rfl
    rw [h, lines_append, ih]
    rfl

end Code

end StackC
