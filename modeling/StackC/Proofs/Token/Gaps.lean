import StackC.Proofs.Source.Places
import StackC.Token.Scanner

namespace StackC

def blankChars : List Char := [' ', '\t', '\r']

/-- A text that separates tokens. `fresh` tells whether only blanks and comments stand before it
on its line, and `last` whether the source ends with it. A comment of one line ends with the line
or with the source, and so does a directive line. -/
inductive Separates : (fresh last : Bool) → List Char → Prop where
  | nil {fresh last : Bool} : Separates fresh last []
  | blank {fresh last : Bool} {c : Char} {cs : List Char} (hc : c ∈ blankChars)
      (hs : Separates fresh last cs) : Separates fresh last (c :: cs)
  | newline {fresh last : Bool} {cs : List Char} (hs : Separates true last cs) :
      Separates fresh last ('\n' :: cs)
  | lineComment {fresh last : Bool} {body cs : List Char} (hb : '\n' ∉ body)
      (hs : Separates true last cs) : Separates fresh last ('/' :: '/' :: (body ++ '\n' :: cs))
  | lastComment {fresh : Bool} {body : List Char} (hb : '\n' ∉ body) :
      Separates fresh true ('/' :: '/' :: body)
  | blockComment {fresh last : Bool} {body cs : List Char} (hb : ¬['*', '/'] <:+: body)
      (hs : Separates fresh last cs) :
      Separates fresh last ('/' :: '*' :: (body ++ '*' :: '/' :: cs))
  | directive {last : Bool} {body cs : List Char} (hb : ∀ c ∈ body, c ∈ blankChars)
      (hs : Separates true last cs) : Separates true last ('#' :: (body ++ '\n' :: cs))
  | lastDirective {body : List Char} (hb : ∀ c ∈ body, c ∈ blankChars) :
      Separates true true ('#' :: body)

namespace Scanner

variable {p : Location} {lineStart : Bool} {cs : List Char}

theorem mem_blankChars {c : Char} : c ∈ blankChars ↔ isBlank c = true := by
  simp [blankChars, isBlank, or_assoc]

theorem passGap_lineComment (p : Location) (lineStart : Bool) (cs : List Char) :
    (∃ body rest, cs = body ++ '\n' :: rest ∧ '\n' ∉ body ∧
      passGap .lineComment p lineStart cs =
        passGap .blank (p.afterAll (body ++ ['\n'])) true rest) ∨
    ('\n' ∉ cs ∧ passGap .lineComment p lineStart cs = (none, ⟨[], p.afterAll cs, lineStart⟩)) := by
  induction cs generalizing p with
  | nil => exact Or.inr ⟨List.not_mem_nil, rfl⟩
  | cons c cs ih =>
    by_cases hc : c = '\n'
    · subst hc
      exact Or.inl ⟨[], cs, rfl, List.not_mem_nil, rfl⟩
    · have hstep : passGap .lineComment p lineStart (c :: cs) =
          passGap .lineComment (p.after c) lineStart cs := by
        rw [passGap]
        exact if_neg hc
      rw [hstep]
      rcases ih (p.after c) with ⟨body, rest, rfl, hbody, he⟩ | ⟨hnone, he⟩
      · refine Or.inl ⟨c :: body, rest, rfl, ?_, he⟩
        exact fun h => (List.mem_cons.mp h).elim (fun h => hc h.symm) hbody
      · refine Or.inr ⟨?_, he⟩
        exact fun h => (List.mem_cons.mp h).elim (fun h => hc h.symm) hnone

/-- A comment that is closed ends with the first mark that can close it. -/
theorem passGap_blockComment (opened p : Location) (lineStart : Bool) (cs : List Char) :
    (∃ body rest, cs = body ++ '*' :: '/' :: rest ∧ ¬['*', '/'] <:+: body ∧
      passGap (.blockComment opened) p lineStart cs =
        passGap .blank (p.afterAll (body ++ ['*', '/'])) lineStart rest) ∨
    ∃ s, passGap (.blockComment opened) p lineStart cs = (some opened, s) := by
  induction cs generalizing p with
  | nil => exact Or.inr ⟨_, rfl⟩
  | cons c cs ih =>
    by_cases hclose : c = '*' ∧ ∃ ds, cs = '/' :: ds
    · obtain ⟨rfl, ds, rfl⟩ := hclose
      exact Or.inl ⟨[], ds, rfl, by simp, rfl⟩
    · have hstep : passGap (.blockComment opened) p lineStart (c :: cs) =
          passGap (.blockComment opened) (p.after c) lineStart cs := by
        rw [passGap]
        exact fun ds hc hcs => hclose ⟨hc, ds, hcs⟩
      rw [hstep]
      rcases ih (p.after c) with ⟨body, rest, rfl, hbody, he⟩ | ⟨s, he⟩
      · refine Or.inl ⟨c :: body, rest, rfl, ?_, he⟩
        -- A mark in the longer text begins with `c`, where the comment would have been closed.
        rw [List.infix_cons_iff]
        rintro (hfront | hlater)
        · obtain ⟨ds, hds⟩ := hfront
          obtain ⟨rfl, rfl⟩ : '*' = c ∧ '/' :: ds = body := by simpa using hds
          exact hclose ⟨rfl, ds ++ '*' :: '/' :: rest, rfl⟩
        · exact hbody hlater
      · exact Or.inr ⟨s, he⟩

/-- The scanner passes over one piece and goes on, or it stops. -/
theorem passGap_blank (p : Location) (lineStart : Bool) (cs : List Char) :
    (∃ piece rest fresh, piece ≠ [] ∧ cs = piece ++ rest ∧
      passGap .blank p lineStart cs = passGap .blank (p.afterAll piece) fresh rest ∧
      ∀ last more, Separates fresh last more → Separates lineStart last (piece ++ more)) ∨
    passGap .blank p lineStart cs = (none, ⟨cs, p, lineStart⟩) ∨
    (Separates lineStart true cs ∧
      passGap .blank p lineStart cs = (none, ⟨[], p.afterAll cs, lineStart⟩)) ∨
    ∃ s, passGap .blank p lineStart cs = (some p, s) := by
  cases cs with
  | nil => exact Or.inr (Or.inl rfl)
  | cons c cs =>
    by_cases hline : c = '/' ∧ ∃ ds, cs = '/' :: ds
    · obtain ⟨rfl, ds, rfl⟩ := hline
      have hstep : passGap .blank p lineStart ('/' :: '/' :: ds) =
          passGap .lineComment (p.afterAll ['/', '/']) lineStart ds := rfl
      rw [hstep]
      rcases passGap_lineComment (p.afterAll ['/', '/']) lineStart ds with
        ⟨body, rest, rfl, hbody, he⟩ | ⟨hnone, he⟩
      · refine Or.inl ⟨'/' :: '/' :: (body ++ ['\n']), rest, true,
          List.cons_ne_nil _ _, by simp, he, ?_⟩
        intro last more hmore
        have hgap : Separates lineStart last ('/' :: '/' :: (body ++ '\n' :: more)) :=
          .lineComment hbody hmore
        simpa using hgap
      · exact Or.inr (Or.inr (Or.inl ⟨.lastComment hnone, he⟩))
    by_cases hblock : c = '/' ∧ ∃ ds, cs = '*' :: ds
    · obtain ⟨rfl, ds, rfl⟩ := hblock
      have hstep : passGap .blank p lineStart ('/' :: '*' :: ds) =
          passGap (.blockComment p) (p.afterAll ['/', '*']) lineStart ds := rfl
      rw [hstep]
      rcases passGap_blockComment p (p.afterAll ['/', '*']) lineStart ds with
        ⟨body, rest, rfl, hbody, he⟩ | hopen
      · refine Or.inl ⟨'/' :: '*' :: (body ++ ['*', '/']), rest, lineStart,
          List.cons_ne_nil _ _, by simp, he, ?_⟩
        intro last more hmore
        simpa using Separates.blockComment hbody hmore
      · exact Or.inr (Or.inr (Or.inr hopen))
    -- No comment begins here, so that only the next character counts.
    have hstep : passGap .blank p lineStart (c :: cs) =
        if c = '\n' then passGap .blank (p.after c) true cs
        else if isBlank c then passGap .blank (p.after c) lineStart cs
        else (none, ⟨c :: cs, p, lineStart⟩) := by
      rw [passGap]
      · exact fun ds hc hcs => hline ⟨hc, ds, hcs⟩
      · exact fun ds hc hcs => hblock ⟨hc, ds, hcs⟩
    rw [hstep]
    split
    · next hc =>
      subst hc
      exact Or.inl ⟨['\n'], cs, true, List.cons_ne_nil _ _, rfl, rfl,
        fun _ _ hmore => .newline hmore⟩
    · split
      · next hc =>
        exact Or.inl ⟨[c], cs, lineStart, List.cons_ne_nil _ _, rfl, rfl, fun _ _ hmore =>
          .blank (mem_blankChars.mpr hc) hmore⟩
      · exact Or.inr (Or.inl rfl)

/-- What the scanner passes over separates tokens, whatever separating text follows; at the end of
the source nothing follows. -/
theorem passGap_none {s : Scanner} (h : passGap .blank p lineStart cs = (none, s)) :
    ∃ passed, cs = passed ++ s.rest ∧ s.place = p.afterAll passed ∧
      ∀ last more, (s.rest = [] → last = true ∧ more = []) → Separates s.lineStart last more →
        Separates lineStart last (passed ++ more) := by
  induction hn : cs.length using Nat.strongRecOn generalizing p lineStart cs with
  | _ n ih =>
    rcases passGap_blank p lineStart cs with
      ⟨piece, rest, fresh, hne, rfl, he, hpiece⟩ | he | ⟨hall, he⟩ | ⟨s', he⟩
    · have hlen : rest.length < n := by
        have hpos := List.length_pos_iff.mpr hne
        rw [List.length_append] at hn
        omega
      obtain ⟨passed, hrest, hplace, hsep⟩ := ih _ hlen (he.symm.trans h) rfl
      refine ⟨piece ++ passed, ?_, ?_, fun last more hend hmore => ?_⟩
      · rw [List.append_assoc, ← hrest]
      · rw [hplace, Location.afterAll_append]
      · rw [List.append_assoc]
        exact hpiece last _ (hsep last more hend hmore)
    · obtain rfl : (⟨cs, p, lineStart⟩ : Scanner) = s := (Prod.mk.inj (he.symm.trans h)).2
      exact ⟨[], rfl, rfl, fun last more _ hmore => hmore⟩
    · obtain rfl : (⟨[], p.afterAll cs, lineStart⟩ : Scanner) = s :=
        (Prod.mk.inj (he.symm.trans h)).2
      refine ⟨cs, (List.append_nil cs).symm, rfl, fun last more hend _ => ?_⟩
      obtain ⟨rfl, rfl⟩ := hend rfl
      rwa [List.append_nil]
    · cases he.symm.trans h

/-- The place told of a comment that is never closed is that of its opening mark. -/
theorem passGap_some {s : Scanner} {opened : Location}
    (h : passGap .blank p lineStart cs = (some opened, s)) :
    ∃ passed rest, cs = passed ++ rest ∧ opened = p.afterAll passed := by
  induction hn : cs.length using Nat.strongRecOn generalizing p lineStart cs with
  | _ n ih =>
    rcases passGap_blank p lineStart cs with
      ⟨piece, rest, fresh, hne, rfl, he, -⟩ | he | ⟨-, he⟩ | ⟨s', he⟩
    · have hlen : rest.length < n := by
        have hpos := List.length_pos_iff.mpr hne
        rw [List.length_append] at hn
        omega
      obtain ⟨passed, others, hrest, hplace⟩ := ih _ hlen (he.symm.trans h) rfl
      exact ⟨piece ++ passed, others, by rw [List.append_assoc, ← hrest],
        by rw [hplace, Location.afterAll_append]⟩
    · cases he.symm.trans h
    · cases he.symm.trans h
    · obtain rfl : p = opened := Option.some.inj (Prod.mk.inj (he.symm.trans h)).1
      exact ⟨[], cs, rfl, rfl⟩

/-- A directive line that is passed over holds blanks only, up to its line feed or the end. -/
theorem directive_ok {n : Nat} (h : directive cs = .ok n) :
    ∃ body rest, cs = body ++ rest ∧ n = body.length + 1 ∧ (∀ c ∈ body, c ∈ blankChars) ∧
      (rest = [] ∨ ∃ more, rest = '\n' :: more) := by
  have hsplit : cs = cs.takeWhile isBlank ++ cs.drop (cs.takeWhile isBlank).length := by
    conv_lhs => rw [← List.take_append_drop (cs.takeWhile isBlank).length cs]
    rw [← List.prefix_iff_eq_take.mp (List.takeWhile_prefix _)]
  have hblank : ∀ c ∈ cs.takeWhile isBlank, c ∈ blankChars := fun c hc =>
    mem_blankChars.mpr (List.all_eq_true.mp List.all_takeWhile c hc)
  refine ⟨cs.takeWhile isBlank, _, hsplit, ?_, hblank, ?_⟩
  · unfold directive at h
    dsimp only at h
    split at h
    · exact (Except.ok.inj h).symm
    · split at h
      · exact (Except.ok.inj h).symm
      · cases h
  · unfold directive at h
    dsimp only at h
    split at h
    · next hdrop => exact Or.inl hdrop
    · next c ds hdrop =>
      split at h
      · next hc =>
        subst hc
        exact Or.inr ⟨ds, hdrop⟩
      · cases h

end Scanner

end StackC
