import Mathlib.Data.List.DropRight
import StackC.Source.Report

/-!
Places of a text, said without reference to how a text is read: the place behind a beginning of the
text is given by the line feeds, the characters and the bytes in it. The line that a report shows is
the one around the place.
-/

namespace StackC

def lastLine (cs : List Char) : List Char := cs.rtakeWhile (· != '\n')

def firstLine (cs : List Char) : List Char := cs.takeWhile (· != '\n')

theorem ne_newline_of_not_mem {cs : List Char} (h : '\n' ∉ cs) : ∀ c ∈ cs, (c != '\n') = true := by
  intro c hc
  rw [bne_iff_ne]
  rintro rfl
  exact h hc

theorem firstLine_of_not_mem {cs : List Char} (h : '\n' ∉ cs) : firstLine cs = cs :=
  List.takeWhile_eq_self_iff.mpr (ne_newline_of_not_mem h)

theorem lastLine_of_not_mem {cs : List Char} (h : '\n' ∉ cs) : lastLine cs = cs :=
  List.rtakeWhile_eq_self_iff.mpr (ne_newline_of_not_mem h)

theorem firstLine_append_newline (cs ds : List Char) :
    firstLine (cs ++ '\n' :: ds) = firstLine cs := by
  induction cs with
  | nil => rfl
  | cons c cs ih =>
    unfold firstLine at ih ⊢
    rw [List.cons_append, List.takeWhile_cons, List.takeWhile_cons, ih]

/-- What stands before a line feed does not count for the last line. -/
theorem lastLine_append_newline (cs ds : List Char) :
    lastLine (cs ++ '\n' :: ds) = lastLine ds := by
  have hr : (cs ++ '\n' :: ds).reverse = ds.reverse ++ '\n' :: cs.reverse := by simp
  have hfirst := firstLine_append_newline ds.reverse cs.reverse
  unfold firstLine at hfirst
  rw [lastLine, List.rtakeWhile, hr, hfirst, lastLine, List.rtakeWhile]

theorem lastLine_snoc {c : Char} (cs : List Char) (h : c ≠ '\n') :
    lastLine (cs ++ [c]) = lastLine cs ++ [c] :=
  List.rtakeWhile_concat_pos _ _ _ (bne_iff_ne.mpr h)

namespace Location

/-- The place just behind a text: lines and columns count from one, a column for each character
since the last line feed; the offset counts the bytes of the UTF-8 encoding. -/
def behind (text : String) : Location where
  line := 1 + text.toList.count '\n'
  column := 1 + (lastLine text.toList).length
  offset := text.utf8ByteSize

def Within (source : String) (p : Location) : Prop :=
  ∃ before after, source = before ++ after ∧ p = .behind before

/-- The place behind one more character is the place behind the longer text. -/
theorem after_behind (text : String) (c : Char) :
    (behind text).after c = behind (text.push c) := by
  have hlist : (text.push c).toList = text.toList ++ [c] := String.toList_push c
  unfold after
  split
  · next hc =>
    subst hc
    simp only [behind, hlist, String.utf8ByteSize_push, List.count_append, lastLine_append_newline]
    rfl
  · next hc =>
    have hcount : [c].count '\n' = 0 := List.count_eq_zero.mpr (by simpa using Ne.symm hc)
    simp only [behind, hlist, String.utf8ByteSize_push, List.count_append,
      lastLine_snoc _ hc, hcount, List.length_append, List.length_singleton, Nat.add_zero,
      Nat.add_assoc]

/-- Passing over characters leads to the place behind them. -/
theorem afterAll_behind (text : String) (cs : List Char) :
    (behind text).afterAll cs = behind (text ++ String.ofList cs) := by
  induction cs generalizing text with
  | nil => rw [afterAll_nil, String.ofList_nil, String.append_empty]
  | cons c cs ih =>
    rw [afterAll_cons, after_behind, ih, String.push_eq_append, String.append_assoc,
      String.ofList_cons]

end Location

def withoutReturn (line : List Char) : List Char :=
  if line.getLast? = some '\r' then line.dropLast else line

/-- The line around a place between two parts of a text. What ends it, a line feed and a carriage
return before that, is left out. -/
def lineAround (before after : List Char) : List Char :=
  let line := lastLine before ++ firstLine after
  if '\n' ∈ after then withoutReturn line else line

theorem withoutReturn_cons (c : Char) {line : List Char} (h : line ≠ []) :
    withoutReturn (c :: line) = c :: withoutReturn line := by
  obtain ⟨d, ds, rfl⟩ := List.exists_cons_of_ne_nil h
  simp only [withoutReturn, List.getLast?_cons_cons, List.dropLast_cons_cons]
  split <;> rfl

/-- A character in front of a text belongs to its first line. -/
theorem textLines_cons {c : Char} {cs l : List Char} {ls : List (List Char)} (hc : c ≠ '\n')
    (hr : c = '\r' → cs.head? ≠ some '\n') (h : textLines cs = l :: ls) :
    textLines (c :: cs) = (c :: l) :: ls := by
  rw [textLines]
  · rw [h]
  · rintro ds rfl rfl
    exact hr rfl rfl
  · exact hc

/-- A line feed closes a line. -/
theorem textLines_line {line : List Char} (h : '\n' ∉ line) (rest : List Char) :
    textLines (line ++ '\n' :: rest) = withoutReturn line :: textLines rest := by
  induction line with
  | nil => rfl
  | cons c line ih =>
    obtain ⟨hc, hline⟩ := not_or.mp (mt List.mem_cons.mpr h)
    by_cases hempty : line = []
    · subst hempty
      by_cases hr : c = '\r'
      · subst hr
        rfl
      · have hkeep : withoutReturn [c] = [c] := if_neg (by simpa using hr)
        rw [hkeep]
        exact textLines_cons (Ne.symm hc) (fun he => absurd he hr) rfl
    · rw [withoutReturn_cons c hempty]
      refine textLines_cons (Ne.symm hc) (fun _ hhead => ?_) (ih hline)
      -- The carriage return is followed by a character of the line, which is no line feed.
      obtain ⟨d, ds, rfl⟩ := List.exists_cons_of_ne_nil hempty
      have hd : d = '\n' := Option.some.inj hhead
      exact hline (hd ▸ List.mem_cons_self)

/-- Without a line feed there is one line, unless the text is empty. -/
theorem textLines_rest {line : List Char} (h : '\n' ∉ line) :
    (textLines line)[0]?.getD [] = line ∧ (line ≠ [] → textLines line = [line]) := by
  induction line with
  | nil => exact ⟨rfl, fun he => absurd rfl he⟩
  | cons c line ih =>
    obtain ⟨hc, hline⟩ := not_or.mp (mt List.mem_cons.mpr h)
    have hone : textLines (c :: line) = [c :: line] := by
      by_cases hempty : line = []
      · subst hempty
        rw [textLines]
        · rfl
        · rintro ds - ⟨⟩
        · exact Ne.symm hc
      · refine textLines_cons (Ne.symm hc) (fun _ hhead => ?_) ((ih hline).2 hempty)
        exact hline (List.mem_of_head? hhead)
    exact ⟨by rw [hone]; rfl, fun _ => hone⟩

/-- Counting the line feeds before a place finds the line around it. -/
theorem getElem?_textLines (before after : List Char) :
    (textLines (before ++ after))[before.count '\n']?.getD [] = lineAround before after := by
  induction hn : before.count '\n' generalizing before with
  | zero =>
    have hbefore : '\n' ∉ before := List.count_eq_zero.mp hn
    unfold lineAround
    rw [lastLine_of_not_mem hbefore]
    by_cases hafter : '\n' ∈ after
    · obtain ⟨line, rest, rfl, hline⟩ := List.eq_append_cons_of_mem hafter
      have hnone : '\n' ∉ before ++ line := by
        rw [List.mem_append]
        exact not_or.mpr ⟨hbefore, hline⟩
      rw [if_pos hafter, firstLine_append_newline, firstLine_of_not_mem hline, ← List.append_assoc,
        textLines_line hnone]
      rfl
    · have hnone : '\n' ∉ before ++ after := by
        rw [List.mem_append]
        exact not_or.mpr ⟨hbefore, hafter⟩
      rw [if_neg hafter, firstLine_of_not_mem hafter]
      exact (textLines_rest hnone).1
  | succ n ih =>
    have hmem : '\n' ∈ before := List.count_pos_iff.mp (by omega)
    obtain ⟨line, rest, rfl, hline⟩ := List.eq_append_cons_of_mem hmem
    have hcount : rest.count '\n' = n := by
      have hzero : line.count '\n' = 0 := List.count_eq_zero.mpr hline
      rw [List.count_append, List.count_cons_self] at hn
      omega
    have hsplit : line ++ '\n' :: rest ++ after = line ++ '\n' :: (rest ++ after) := by simp
    rw [hsplit, textLines_line hline, List.getElem?_cons_succ, ih rest hcount]
    unfold lineAround
    rw [lastLine_append_newline]

end StackC
