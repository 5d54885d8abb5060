import StackC.Proofs.Lexing

/-!
Tokens that are written out and read again. The text of a token says by itself what the token is:
it needs no more around it than white space or the end of the source. So writing the texts of the
tokens of a source with any white space between them and reading the result gives the same tokens.
-/

namespace StackC

def whiteChars : List Char := '\n' :: blankChars

/-- A text that a token cannot run into: it is empty or begins with white space. -/
def Breaks (rest : List Char) : Prop := ∀ c ∈ rest.head?, c ∈ whiteChars

theorem breaks_nil : Breaks [] := fun _ hc => absurd hc (Option.not_mem_none _)

/-- White space breaks off what stands before it. -/
theorem breaks_append {gap : List Char} (hne : gap ≠ []) (hw : ∀ c ∈ gap, c ∈ whiteChars)
    (rest : List Char) : Breaks (gap ++ rest) := by
  obtain ⟨g, gs, rfl⟩ := List.exists_cons_of_ne_nil hne
  intro c hc
  obtain rfl : g = c := Option.some.inj hc
  exact hw g List.mem_cons_self

/-- A class of characters without white space ends where the text breaks. -/
theorem Breaks.takeWhile_append {p : Char → Bool} (hp : whiteChars.all (!p ·) = true)
    {front rest : List Char} (hf : ∀ c ∈ front, p c = true) (hr : Breaks rest) :
    (front ++ rest).takeWhile p = front := by
  have hrest : rest.takeWhile p = [] := by
    cases rest with
    | nil => rfl
    | cons c cs =>
      have hc : p c = false := by simpa using List.all_eq_true.mp hp c (hr c rfl)
      rw [List.takeWhile_cons_of_neg (by rw [hc]; exact Bool.false_ne_true)]
  rw [List.takeWhile_append_of_pos hf, hrest, List.append_nil]

namespace Lexeme

variable {kind : TokenKind} {k : Nat}

/-- What follows a closed string literal does not count. -/
theorem string_append {n : Nat} {bytes : List UInt8} {cs : List Char}
    (h : string n bytes cs = .token kind k) :
    ∃ m, k = n + m ∧ m ≤ cs.length ∧ ∀ rest, string n bytes (cs.take m ++ rest) =
      .token kind k := by
  fun_induction string n bytes cs with
  | case2 n bytes cs =>
    cases h
    exact ⟨1, rfl, Nat.succ_le_succ (Nat.zero_le _), fun rest => rfl⟩
  | case5 n bytes c cs b he ih =>
    obtain ⟨m, hk, hm, hrest⟩ := ih h
    refine ⟨m + 2, by omega, by simp only [List.length_cons]; omega, fun rest => ?_⟩
    have hstep : string n bytes (('\\' :: c :: cs).take (m + 2) ++ rest) =
        string (n + 2) (b :: bytes) (cs.take m ++ rest) := by
      rw [List.take_succ_cons, List.take_succ_cons, List.cons_append, List.cons_append, string, he]
    rw [hstep, hrest]
  | case7 n bytes c cs h₁ h₂ h₃ h₄ ih =>
    obtain ⟨m, hk, hm, hrest⟩ := ih h
    have hc : c ≠ '\\' := by
      rintro rfl
      cases cs with
      | nil => exact h₃ rfl rfl
      | cons d ds => exact h₄ d ds rfl rfl
    refine ⟨m + 1, by omega, by simp only [List.length_cons]; omega, fun rest => ?_⟩
    rw [List.take_succ_cons, List.cons_append, string, hrest]
    · exact h₁
    · exact h₂
    · exact fun hslash => absurd hslash hc
    · exact fun _ _ hslash => absurd hslash hc
  | _ => cases h

/-- The closing quote is the last character that counts. -/
theorem closeCharacter_append {value : UInt8} {n : Nat} {cs : List Char}
    (h : closeCharacter value n cs = .token kind k) :
    k = n + 1 ∧ 1 ≤ cs.length ∧ ∀ rest, closeCharacter value n (cs.take 1 ++ rest) =
      .token kind k := by
  unfold closeCharacter at h
  split at h
  · cases h
    exact ⟨rfl, Nat.succ_le_succ (Nat.zero_le _), fun rest => rfl⟩
  · cases h
  · cases h

/-- What stands behind a character literal does not count. -/
theorem character_append {cs : List Char} (h : character cs = .token kind k) :
    ∃ m, k = 1 + m ∧ m ≤ cs.length ∧ ∀ rest, character (cs.take m ++ rest) = .token kind k := by
  unfold character at h
  split at h
  · cases h
  · cases h
  · next c cs =>
    split at h
    · next b hb =>
      obtain ⟨hk, hlen, hrest⟩ := closeCharacter_append h
      refine ⟨3, hk, Nat.succ_le_succ (Nat.succ_le_succ hlen), fun rest => ?_⟩
      rw [List.take_succ_cons, List.take_succ_cons, List.cons_append, List.cons_append,
        character, hb]
      exact hrest rest
    · cases h
  · next c cs h₁ h₂ =>
    split at h
    · next hc =>
      have hslash : c ≠ '\\' := by
        rintro rfl
        cases cs with
        | nil => exact h₁ rfl rfl
        | cons d ds => exact h₂ d ds rfl rfl
      obtain ⟨hk, hlen, hrest⟩ := closeCharacter_append h
      refine ⟨2, hk, Nat.succ_le_succ hlen, fun rest => ?_⟩
      rw [List.take_succ_cons, List.cons_append, character, if_pos hc]
      · exact hrest rest
      · exact fun hc => absurd hc hslash
      · exact fun _ _ hc => absurd hc hslash
    · cases h

theorem takeWhile_length {α : Type} (p : α → Bool) (cs : List α) :
    cs.take (cs.takeWhile p).length = cs.takeWhile p :=
  (List.prefix_iff_eq_take.mp (List.takeWhile_prefix p)).symm

/-- A number that is read is that of its digits, which fits. -/
theorem number_inv {cs : List Char} (h : number cs = .token kind k) :
    decimal (cs.takeWhile Char.isDigit) ≤ maxInteger ∧
      kind = .num (Int64.ofNat (decimal (cs.takeWhile Char.isDigit))) ∧
      k = (cs.takeWhile Char.isDigit).length := by
  have hvalue {d : Nat} {fault : LexicalFault} {n : Nat}
      (hr : (if d ≤ maxInteger then .token (.num (Int64.ofNat d)) n else .failure fault 0 n) =
        Reading.token kind k) : d ≤ maxInteger ∧ kind = .num (Int64.ofNat d) ∧ k = n := by
    split at hr
    · next hd =>
      cases hr
      exact ⟨hd, rfl, rfl⟩
    · cases hr
  unfold number at h
  dsimp only at h
  split at h
  · split at h
    · cases h
    · exact hvalue h
  · exact hvalue h

/-- A number ends where white space begins. -/
theorem number_append {cs : List Char} (h : number cs = .token kind k) :
    k ≤ cs.length ∧ ∀ rest, Breaks rest → number (cs.take k ++ rest) = .token kind k := by
  obtain ⟨hfits, rfl, rfl⟩ := number_inv h
  refine ⟨(List.takeWhile_prefix _).length_le, fun rest hrest => ?_⟩
  have hdigits : (cs.takeWhile Char.isDigit ++ rest).takeWhile Char.isDigit =
      cs.takeWhile Char.isDigit :=
    hrest.takeWhile_append (by decide) (List.all_eq_true.mp List.all_takeWhile)
  unfold number
  rw [takeWhile_length, hdigits]
  dsimp only
  rw [List.drop_left, if_pos hfits]
  cases rest with
  | nil => rfl
  | cons c cs =>
    have hname : whiteChars.all (!isNameStart ·) = true := by decide
    have hc : isNameStart c = false := by simpa using List.all_eq_true.mp hname c (hrest c rfl)
    dsimp only
    rw [hc]
    rfl

/-- A word ends where white space begins. -/
theorem word_append {cs : List Char} (h : word cs = .token kind k) :
    k ≤ cs.length ∧ ∀ rest, Breaks rest → word (cs.take k ++ rest) = .token kind k := by
  obtain ⟨hkind, hk⟩ := Reading.token.inj h
  have htake : cs.take k = cs.takeWhile isNameChar := by
    rw [← hk]
    exact takeWhile_length _ _
  refine ⟨hk ▸ (List.takeWhile_prefix _).length_le, fun rest hrest => ?_⟩
  have hname : (cs.take k ++ rest).takeWhile isNameChar = cs.takeWhile isNameChar := by
    rw [htake]
    exact hrest.takeWhile_append (by decide) (List.all_eq_true.mp List.all_takeWhile)
  rw [word, hname]
  exact h

/-- No punctuator has white space in it. -/
theorem not_white_of_mem_punctuator {q : String} (hq : q ∈ punctuators) {w : Char}
    (hw : w ∈ q.toList) :
    w ∉ whiteChars := by
  have hall : punctuators.all (·.toList.all (!whiteChars.contains ·)) = true := by decide
  have hnot := List.all_eq_true.mp (List.all_eq_true.mp hall q hq) w hw
  simpa using hnot

/-- No punctuator holds white space, so none reaches into the text behind a break. -/
theorem isPrefixOf_of_breaks {p q rest : List Char} (hq : ∀ w ∈ q, w ∉ whiteChars)
    (hr : Breaks rest) (h : q <+: p ++ rest) : q <+: p := by
  rcases List.prefix_or_prefix_of_prefix h (List.prefix_append p rest) with hp | ⟨more, rfl⟩
  · exact hp
  · cases more with
    | nil => exact ⟨[], by rw [List.append_nil, List.append_nil]⟩
    | cons w ws =>
      obtain ⟨tail, rfl⟩ := (List.prefix_append_right_inj p).mp h
      exact absurd (hr w rfl) (hq w (List.mem_append_right _ List.mem_cons_self))

/-- A punctuator that is followed by white space is not the beginning of a longer one. -/
theorem punctuator_append {c : Char} {cs : List Char} (h : punctuator c cs = .token kind k) :
    ∃ m, k = 1 + m ∧ m ≤ cs.length ∧
      ∀ rest, Breaks rest → punctuator c (cs.take m ++ rest) = .token kind k := by
  unfold punctuator at h
  split at h
  · next p hp =>
    cases h
    obtain ⟨hfront, earlier, later, hlist, hnone⟩ := List.find?_eq_some_iff_append.mp hp
    have hmem : p ∈ punctuators := List.mem_of_find?_eq_some hp
    have hne : p.toList ≠ [] := by
      have hall : ∀ q ∈ punctuators, q.toList ≠ [] := by decide
      exact hall p hmem
    obtain ⟨d, ps, hps⟩ := List.exists_cons_of_ne_nil hne
    have hwhole : d :: ps <+: c :: cs := hps ▸ List.isPrefixOf_iff_prefix.mp hfront
    obtain ⟨rfl, hpre⟩ := List.cons_prefix_cons.mp hwhole
    have htake : cs.take ps.length = ps := (List.prefix_iff_eq_take.mp hpre).symm
    have hlength : p.length = 1 + ps.length := by
      rw [← String.length_toList, hps, List.length_cons, Nat.add_comm]
    refine ⟨ps.length, hlength, hpre.length_le, fun rest hrest => ?_⟩
    have hfind : punctuators.find? (·.toList.isPrefixOf (d :: (cs.take ps.length ++ rest))) =
        some p := by
      rw [htake, ← List.cons_append, ← hps]
      refine List.find?_eq_some_iff_append.mpr ⟨?_, earlier, later, hlist, fun q hq => ?_⟩
      · exact List.isPrefixOf_iff_prefix.mpr (List.prefix_append _ _)
      · -- A punctuator that stands earlier in the list was no beginning of the source either.
        have hq' : q ∈ punctuators := hlist ▸ List.mem_append_left _ hq
        refine Bool.not_eq_true' _ ▸ Bool.eq_false_iff.mpr fun hqp => ?_
        have hqp := isPrefixOf_of_breaks (fun w => not_white_of_mem_punctuator hq') hrest
          (List.isPrefixOf_iff_prefix.mp hqp)
        have hqs := List.isPrefixOf_iff_prefix.mpr
          (hqp.trans (List.isPrefixOf_iff_prefix.mp hfront))
        have hnot := hnone q hq
        rw [hqs] at hnot
        cases hnot
    rw [punctuator, hfind]
  · cases h

/-- A token that is read says by itself what it is. -/
theorem read_append {c : Char} {cs : List Char} (h : read c cs = .token kind k) :
    ∃ m, k = 1 + m ∧ m ≤ cs.length ∧ ∀ rest, Breaks rest →
      read c (cs.take m ++ rest) = .token kind k := by
  -- Numbers and words are read from their first character on.
  have hwhole {f : List Char → Reading} (hf : k ≤ (c :: cs).length ∧
      ∀ rest, Breaks rest → f ((c :: cs).take k ++ rest) = .token kind k) (hk : 0 < k) :
      ∃ m, k = 1 + m ∧ m ≤ cs.length ∧
        ∀ rest, Breaks rest → f (c :: (cs.take m ++ rest)) = .token kind k := by
    obtain ⟨m, rfl⟩ := Nat.exists_eq_add_one_of_ne_zero (Nat.pos_iff_ne_zero.mp hk)
    exact ⟨m, Nat.add_comm m 1, Nat.le_of_succ_le_succ hf.1, hf.2⟩
  have hpos := (read_token h).2
  by_cases hstring : c = '"'
  · have he (ds : List Char) : read c ds = string 1 [] ds := if_pos hstring
    simp only [he] at h ⊢
    obtain ⟨m, hk, hm, hrest⟩ := string_append h
    exact ⟨m, hk, hm, fun rest _ => hrest rest⟩
  by_cases hquote : c = '\''
  · have he (ds : List Char) : read c ds = character ds := (if_neg hstring).trans (if_pos hquote)
    simp only [he] at h ⊢
    obtain ⟨m, hk, hm, hrest⟩ := character_append h
    exact ⟨m, hk, hm, fun rest _ => hrest rest⟩
  by_cases hdigit : c.isDigit = true
  · have he (ds : List Char) : read c ds = number (c :: ds) :=
      (if_neg hstring).trans ((if_neg hquote).trans (if_pos hdigit))
    simp only [he] at h ⊢
    exact hwhole (number_append h) hpos
  have hbeyond (ds : List Char) : read c ds = if isNameStart c then word
      (c :: ds) else punctuator c ds :=
    (if_neg hstring).trans ((if_neg hquote).trans (if_neg hdigit))
  simp only [hbeyond] at h ⊢
  by_cases hname : isNameStart c = true
  · simp only [if_pos hname] at h ⊢
    exact hwhole (word_append h) hpos
  · simp only [if_neg hname] at h ⊢
    exact punctuator_append h

/-- Neither white space nor the mark of a directive begins a token. -/
theorem not_mem_of_read {c : Char} {cs : List Char} (h : read c cs = .token kind k) :
    c ∉ '#' :: whiteChars := by
  intro hc
  have hall : ('#' :: whiteChars).all
    (fun c => c != '"' && c != '\'' && !c.isDigit && !isNameStart c && punctuators.all fun q =>
      !q.toList.isEmpty && q.toList.head? != some c) = true := by decide
  have hc := List.all_eq_true.mp hall c hc
  simp only [Bool.and_eq_true, bne_iff_ne, Bool.not_eq_true', List.all_eq_true,
    List.isEmpty_eq_false_iff, and_assoc] at hc
  obtain ⟨hstring, hquote, hdigit, hname, hpunctuators⟩ := hc
  rw [← Bool.not_eq_true] at hdigit hname
  have hnone : punctuators.find? (·.toList.isPrefixOf (c :: cs)) = none := by
    refine List.find?_eq_none.mpr fun q hq hqc => ?_
    obtain ⟨hne, hhead⟩ := hpunctuators q hq
    obtain ⟨d, ds, hds⟩ := List.exists_cons_of_ne_nil hne
    have hpre : d :: ds <+: c :: cs := hds ▸ List.isPrefixOf_iff_prefix.mp hqc
    rw [hds, (List.cons_prefix_cons.mp hpre).1] at hhead
    exact hhead rfl
  rw [read, if_neg hstring, if_neg hquote, if_neg hdigit, if_neg hname, punctuator, hnone] at h
  cases h

/-- What is read at the mark of a comment would be its first character only. -/
theorem read_slash (d : Char) (hd : d = '/' ∨ d = '*') (cs : List Char) :
    read '/' (d :: cs) = .token .reserved 1 := by
  rcases hd with rfl | rfl <;> rfl

end Lexeme

/-- The text of the token says by itself what the token is. -/
def Token.Isolated (t : Token) : Prop :=
  ∃ c cs, t.text.toList = c :: cs ∧
    ∀ rest, Breaks rest → Lexeme.read c (cs ++ rest) = .token t.kind (1 + cs.length)

namespace Scanner

/-- Every token that is read can be read from its own text. -/
theorem isolated_tokensWithin {budget : Nat} {s : Scanner} {ts : List Token}
    (h : (s.tokensWithin budget).1 = .ok ts) : ∀ t ∈ ts, t.kind ≠ .eof → t.Isolated := by
  induction budget generalizing s ts with
  | zero =>
    cases h
    exact List.forall_mem_singleton.mpr fun hkind => absurd rfl hkind
  | succ budget ih =>
    unfold tokensWithin at h
    split at h
    · cases h
    · split at h
      · cases h
        exact List.forall_mem_singleton.mpr fun hkind => absurd rfl hkind
      · next c cs hrest =>
        split at h
        · split at h
          · exact ih h
          · cases h
        · split at h
          · cases h
          · next kind n hread =>
            obtain ⟨others, hothers, rfl⟩ := exists_of_map h
            obtain ⟨m, rfl, hm, hisolated⟩ := Lexeme.read_append hread
            refine List.forall_mem_cons.mpr ⟨fun _ => ⟨c, cs.take m, ?_, ?_⟩, ih hothers⟩
            · dsimp only
              rw [String.toList_ofList, hrest, Nat.add_comm, List.take_succ_cons]
            · rw [List.length_take_of_le hm]
              exact hisolated

/-- The scanner passes over white space up to its end. -/
theorem passGap_white {gap : List Char} (hw : ∀ c ∈ gap, c ∈ whiteChars) (p : Location)
    (lineStart : Bool) (rest : List Char) :
    ∃ fresh,
      passGap .blank p lineStart (gap ++ rest) = passGap .blank (p.afterAll gap) fresh rest := by
  induction gap generalizing p lineStart with
  | nil => exact ⟨lineStart, rfl⟩
  | cons c cs ih =>
    obtain ⟨hc, hcs⟩ := List.forall_mem_cons.mp hw
    have hstep : ∃ fresh, passGap .blank p lineStart (c :: (cs ++ rest)) =
        passGap .blank (p.after c) fresh (cs ++ rest) := by
      simp only [whiteChars, blankChars, List.mem_cons, List.not_mem_nil, or_false] at hc
      rcases hc with rfl | rfl | rfl | rfl
      all_goals exact ⟨_, rfl⟩
    obtain ⟨fresh, hstep⟩ := hstep
    obtain ⟨fresh', hrest⟩ := ih hcs (p.after c) fresh
    exact ⟨fresh', hstep.trans hrest⟩

/-- The scanner stops where neither white space nor a comment begins. -/
theorem passGap_stop {c : Char} {cs : List Char} (hc : c ∉ whiteChars)
    (hs : c = '/' → ∀ d ds, cs = d :: ds → d ≠ '/' ∧ d ≠ '*') (p : Location) (lineStart : Bool) :
    passGap .blank p lineStart (c :: cs) = (none, ⟨c :: cs, p, lineStart⟩) := by
  obtain ⟨hnewline, hblank⟩ : c ≠ '\n' ∧ ¬isBlank c = true :=
    ⟨fun h => hc (List.mem_cons.mpr (.inl h)),
      fun h => hc (List.mem_cons_of_mem _ (mem_blankChars.mpr h))⟩
  rw [passGap, if_neg hnewline, if_neg hblank]
  · exact fun ds hslash hcs => (hs hslash _ ds hcs).1 rfl
  · exact fun ds hslash hcs => (hs hslash _ ds hcs).2 rfl

/-- No white space and no comment begins with the text of a token. -/
theorem passGap_isolated {t : Token} {c : Char} {cs rest : List Char}
    (hread : ∀ rest, Breaks rest → Lexeme.read c (cs ++ rest) = .token t.kind (1 + cs.length))
    (hr : Breaks rest) (p : Location) (lineStart : Bool) :
    passGap .blank p lineStart (c :: (cs ++ rest)) = (none, ⟨c :: (cs ++ rest), p, lineStart⟩) := by
  have hc := Lexeme.not_mem_of_read (hread rest hr)
  refine passGap_stop (fun hw => hc (List.mem_cons_of_mem _ hw)) ?_ p lineStart
  rintro rfl d ds hds
  refine not_or.mp fun hd => ?_
  cases cs with
  | nil =>
    -- What follows the token is white space.
    have hwhite : d ∈ whiteChars := hr d (by rw [← List.nil_append rest, hds]; rfl)
    rcases hd with rfl | rfl <;> revert hwhite <;> decide
  | cons e es =>
    -- The token is read whole, so that it does not end before its second character.
    obtain ⟨rfl, rfl⟩ := List.cons.inj hds
    have hlen := (Lexeme.read_slash e hd _).symm.trans (hread rest hr)
    have hone : 1 = 1 + (e :: es).length := (Reading.token.inj hlen).2
    rw [List.length_cons] at hone
    omega

/-- One token is read behind white space, and then the rest. -/
theorem tokensWithin_isolated {t : Token} (ht : t.Isolated) {gap rest : List Char}
    (hw : ∀ c ∈ gap, c ∈ whiteChars) (hr : Breaks rest) (budget : Nat) (p : Location)
    (lineStart : Bool) :
    ∃ place behind, (tokensWithin (budget + 1) ⟨gap ++ t.text.toList ++ rest, p, lineStart⟩).1 =
      (tokensWithin budget ⟨rest, behind, false⟩).1.map (⟨t.kind, t.text, place⟩ :: ·) := by
  obtain ⟨c, cs, htext, hread⟩ := ht
  obtain ⟨fresh, hgap⟩ := passGap_white hw p lineStart (c :: (cs ++ rest))
  rw [passGap_isolated hread hr] at hgap
  have hmark : (fresh && c == '#') = false := by
    have hc := Lexeme.not_mem_of_read (hread rest hr)
    have hne : c ≠ '#' := fun h => hc (List.mem_cons.mpr (.inl h))
    rw [beq_eq_false_iff_ne.mpr hne, Bool.and_false]
  have hsplit : gap ++ t.text.toList ++ rest = gap ++ c :: (cs ++ rest) := by
    rw [htext, List.append_assoc, List.cons_append]
  have hdrop : (c :: (cs ++ rest)).drop (1 + cs.length) = rest := by
    rw [Nat.add_comm, List.drop_succ_cons, List.drop_left]
  have htake : (c :: (cs ++ rest)).take (1 + cs.length) = t.text.toList := by
    rw [Nat.add_comm, List.take_succ_cons, List.take_left, htext]
  refine ⟨p.afterAll gap, (p.afterAll gap).afterAll t.text.toList, ?_⟩
  rw [hsplit, tokensWithin_read hgap hmark (hread rest hr), hdrop, htake, String.ofList_toList]

end Scanner

inductive Respaced : List Token → List Char → Prop where
  | nil : Respaced [] []
  | last (t : Token) : Respaced [t] t.text.toList
  | token (t : Token) {u : Token} {ts : List Token} {gap cs : List Char} (hne : gap ≠ [])
      (hw : ∀ c ∈ gap, c ∈ whiteChars) (h : Respaced (u :: ts) cs) :
      Respaced (t :: u :: ts) (t.text.toList ++ gap ++ cs)

def Token.content (t : Token) : TokenKind × String := (t.kind, t.text)

/-- A text that writes tokens is read as these tokens and the mark of the end. -/
theorem Respaced.tokensWithin {ts : List Token} {cs : List Char} (h : Respaced ts cs)
    (hi : ∀ t ∈ ts, t.Isolated) {gap : List Char} (hw : ∀ c ∈ gap, c ∈ whiteChars) {budget : Nat}
    (hb : ts.length < budget) (p : Location) (lineStart : Bool) :
    ∃ us, (Scanner.tokensWithin budget ⟨gap ++ cs, p, lineStart⟩).1 = .ok us ∧
      us.map Token.content = ts.map Token.content ++ [(.eof, "")] := by
  obtain ⟨budget, rfl⟩ := Nat.exists_eq_add_one_of_ne_zero (Nat.ne_zero_of_lt hb)
  induction h generalizing gap budget p lineStart with
  | nil =>
    obtain ⟨fresh, hgap⟩ := Scanner.passGap_white hw p lineStart []
    rw [Scanner.tokensWithin, Scanner.nextGap, hgap]
    exact ⟨_, rfl, rfl⟩
  | last t =>
    obtain ⟨place, behind, hread⟩ :=
      Scanner.tokensWithin_isolated (hi t List.mem_cons_self) hw breaks_nil budget p lineStart
    rw [List.append_nil, Scanner.tokensWithin_nil] at hread
    exact ⟨_, hread, rfl⟩
  | @token t u ts g cs hne hg h ih =>
    obtain ⟨ht, hts⟩ := List.forall_mem_cons.mp hi
    have hrest : (u :: ts).length < budget := Nat.lt_of_succ_lt_succ hb
    obtain ⟨b, rfl⟩ := Nat.exists_eq_add_one_of_ne_zero (Nat.ne_zero_of_lt hrest)
    -- The white space behind this token is the gap before the next one.
    obtain ⟨place, behind, hread⟩ :=
      Scanner.tokensWithin_isolated ht hw (breaks_append hne hg cs) (b + 1) p lineStart
    obtain ⟨us, hus, hcontent⟩ := ih hts hg behind false b hrest
    rw [hus, List.append_assoc, ← List.append_assoc t.text.toList] at hread
    exact ⟨_, hread, congrArg (List.cons t.content) hcontent⟩

/-- A text has at least as many characters as tokens, so the budget of the scanner suffices. -/
theorem Respaced.length_le {ts : List Token} {cs : List Char} (h : Respaced ts cs)
    (hi : ∀ t ∈ ts, t.Isolated) : ts.length ≤ cs.length := by
  have hpos {t : Token} (ht : t.Isolated) : 0 < t.text.toList.length := by
    obtain ⟨c, cs, htext, -⟩ := ht
    rw [htext]
    exact Nat.succ_pos _
  induction h with
  | nil => exact Nat.le_refl 0
  | last t => exact hpos (hi t List.mem_cons_self)
  | @token t u ts g cs hne hg h ih =>
    obtain ⟨ht, hts⟩ := List.forall_mem_cons.mp hi
    have hlen := hpos ht
    have hrest := ih hts
    rw [List.length_cons, List.length_append, List.length_append]
    omega

/-- Writing the tokens of a source with white space between them and reading the result gives the
same tokens, up to their places. -/
theorem tokenize_respaced {source source' : String} {ts : List Token} (h : tokenize source = .ok ts)
    (hw : Respaced (ts.filter (·.kind ≠ .eof)) source'.toList) :
    ∃ us, tokenize source' = .ok us ∧ us.map Token.content = ts.map Token.content := by
  have hi : ∀ t ∈ ts.filter (·.kind ≠ .eof), t.Isolated := by
    intro t ht
    obtain ⟨hmem, hkind⟩ := List.mem_filter.mp ht
    exact Scanner.isolated_tokensWithin h t hmem (of_decide_eq_true hkind)
  have hlen := Nat.lt_succ_of_le (hw.length_le hi)
  have hgap : ∀ c ∈ ([] : List Char), c ∈ whiteChars := by simp
  obtain ⟨us, hus, hcontent⟩ := hw.tokensWithin hi hgap hlen .start true
  refine ⟨us, hus, hcontent.trans ?_⟩
  -- Of the tokens of the source only the last one is left out.
  have hs : source = "" ++ String.ofList source.toList := by
    rw [String.ofList_toList, String.empty_append]
  obtain ⟨front, rfl, hfront⟩ := (spells_tokenize h).ended hs
  have hkept : front.filter (·.kind ≠ .eof) = front :=
    List.filter_eq_self.mpr fun t ht => decide_eq_true (hfront t ht)
  rw [List.filter_append, hkept, List.map_append, List.map_append, List.append_assoc]
  rfl

/-- Tokens that would be read as `/=` and `...` if nothing stood between them. -/
def crampedTokens : List Token :=
  [⟨.ident, "x", ⟨1, 1, 0⟩⟩, ⟨.reserved, "/", ⟨1, 2, 1⟩⟩, ⟨.reserved, "=", ⟨1, 8, 7⟩⟩,
    ⟨.reserved, ".", ⟨1, 9, 8⟩⟩, ⟨.reserved, ".", ⟨1, 10, 9⟩⟩, ⟨.reserved, ".", ⟨1, 12, 11⟩⟩,
    ⟨.str [47, 47, 10], "\"//\\n\"", ⟨1, 13, 12⟩⟩, ⟨.eof, "", ⟨1, 19, 18⟩⟩]

/-- Written out with white space, the tokens are read as they were. -/
theorem tokenize_respaced_cramped : ∃ us,
    tokenize "x/ /**/=.. .\"//\\n\"" = .ok crampedTokens ∧
    Respaced (crampedTokens.filter (·.kind ≠ .eof)) "x /\n=\t. .\n\t.\n\"//\\n\"".toList ∧
    tokenize "x /\n=\t. .\n\t.\n\"//\\n\"" = .ok us ∧
    us.map Token.content = crampedTokens.map Token.content := by
  have hcheck : (tokenize "x/ /**/=.. .\"//\\n\"").toOption.any (· == crampedTokens) = true := by
    decide +kernel
  obtain ⟨ts, hsource, hts⟩ := exists_of_any hcheck
  obtain rfl : ts = crampedTokens := eq_of_beq hts
  have hw : Respaced (crampedTokens.filter (·.kind ≠ .eof))
      "x /\n=\t. .\n\t.\n\"//\\n\"".toList := by
    have hsplit : "x /\n=\t. .\n\t.\n\"//\\n\"".toList = "x".toList ++ [' '] ++
      ("/".toList ++ ['\n'] ++
        ("=".toList ++ ['\t'] ++
          (".".toList ++ [' '] ++
            (".".toList ++ ['\n', '\t'] ++ (".".toList ++ ['\n'] ++ "\"//\\n\"".toList))))) := by
      decide
    rw [hsplit]
    have hwhite (gap : List Char) (h : gap.all whiteChars.contains = true) :
        ∀ c ∈ gap, c ∈ whiteChars :=
      fun c hc => List.contains_iff_mem.mp (List.all_eq_true.mp h c hc)
    have hblank := hwhite [' '] (by decide)
    have hline := hwhite ['\n'] (by decide)
    have htab := hwhite ['\t'] (by decide)
    have hindent := hwhite ['\n', '\t'] (by decide)
    exact .token _ (by decide) hblank (.token _ (by decide) hline (.token _ (by decide) htab
      (.token _ (by decide) hblank
        (.token _ (by decide) hindent (.token _ (by decide) hline (.last _))))))
  obtain ⟨us, hus, hcontent⟩ := tokenize_respaced hsource hw
  exact ⟨us, hsource, hw, hus, hcontent⟩

end StackC
