import StackC.Proofs.Diagnostic
import StackC.Proofs.Token.Gaps

namespace StackC

namespace Lexeme

/-- A string literal is a token of at least one character. -/
theorem string_token {n k : Nat} {bytes : List UInt8} {cs : List Char} {kind : TokenKind}
    (h : string n bytes cs = .token kind k) : kind ≠ .eof ∧ 0 < k := by
  fun_induction string n bytes cs with
  | case2 n bytes cs =>
    cases h
    exact ⟨TokenKind.noConfusion, Nat.succ_pos n⟩
  | case5 n bytes c cs b he ih => exact ih h
  | case7 n bytes c cs h₁ h₂ h₃ h₄ ih => exact ih h
  | _ => cases h

theorem closeCharacter_token {value : UInt8} {n k : Nat} {cs : List Char} {kind : TokenKind}
    (h : closeCharacter value n cs = .token kind k) : kind ≠ .eof ∧ 0 < k := by
  unfold closeCharacter at h
  split at h
  · cases h
    exact ⟨TokenKind.noConfusion, Nat.succ_pos n⟩
  · cases h
  · cases h

theorem character_token {k : Nat} {cs : List Char} {kind : TokenKind}
    (h : character cs = .token kind k) : kind ≠ .eof ∧ 0 < k := by
  unfold character at h
  split at h
  · cases h
  · cases h
  · split at h
    · exact closeCharacter_token h
    · cases h
  · split at h
    · exact closeCharacter_token h
    · cases h

/-- A number is a token of at least one character. -/
theorem number_token {c : Char} {cs : List Char} {k : Nat} {kind : TokenKind}
    (hc : c.isDigit = true) (h : number (c :: cs) = .token kind k) : kind ≠ .eof ∧ 0 < k := by
  have hpos : 0 < ((c :: cs).takeWhile Char.isDigit).length := by
    rw [List.takeWhile_cons_of_pos hc]
    exact Nat.succ_pos _
  have hvalue {m : Nat} {r : Reading}
      (hr : (if m ≤ maxInteger then .token (.num (Int64.ofNat m))
        ((c :: cs).takeWhile Char.isDigit).length else r) = Reading.token kind k)
        (hf : ∀ kind k, r ≠ .token kind k) : kind ≠ .eof ∧ 0 < k := by
    split at hr
    · cases hr
      exact ⟨TokenKind.noConfusion, hpos⟩
    · exact absurd hr (hf kind k)
  unfold number at h
  dsimp only at h
  split at h
  · split at h
    · cases h
    · exact hvalue h fun _ _ => Reading.noConfusion
  · exact hvalue h fun _ _ => Reading.noConfusion

/-- A word is a token of at least one character. -/
theorem word_token {c : Char} {cs : List Char} {k : Nat} {kind : TokenKind}
    (hc : isNameStart c = true) (h : word (c :: cs) = .token kind k) : kind ≠ .eof ∧ 0 < k := by
  have hchar : isNameChar c = true := by
    unfold isNameStart at hc
    unfold isNameChar Char.isAlphanum
    rcases Bool.or_eq_true_iff.mp hc with hc | hc <;> simp [hc]
  obtain ⟨hkind, hlen⟩ := Reading.token.inj h
  constructor
  · rw [← hkind]
    split <;> exact TokenKind.noConfusion
  · rw [← hlen, List.takeWhile_cons_of_pos hchar]
    exact Nat.succ_pos _

/-- A punctuator is a token of at least one character. -/
theorem punctuator_token {c : Char} {cs : List Char} {k : Nat} {kind : TokenKind}
    (h : punctuator c cs = .token kind k) : kind ≠ .eof ∧ 0 < k := by
  have hlength : ∀ p ∈ punctuators, 0 < p.length := by decide
  unfold punctuator at h
  split at h
  · next p hp =>
    cases h
    exact ⟨TokenKind.noConfusion, hlength p (List.mem_of_find?_eq_some hp)⟩
  · cases h

/-- A token that is read is not the mark of the end, and it takes a character. -/
theorem read_token {c : Char} {cs : List Char} {k : Nat} {kind : TokenKind}
    (h : read c cs = .token kind k) : kind ≠ .eof ∧ 0 < k := by
  unfold read at h
  split at h
  · exact string_token h
  split at h
  · exact character_token h
  split at h
  · next hc => exact number_token hc h
  split at h
  · next hc => exact word_token hc h
  · exact punctuator_token h

end Lexeme

theorem exists_of_map {ε α β : Type} {x : Except ε α} {f : α → β} {b : β} (h : x.map f = .ok b) :
    ∃ a, x = .ok a ∧ f a = b := by
  cases x with
  | error e => cases h
  | ok a => exact ⟨a, rfl, Except.ok.inj h⟩

theorem error_of_map {ε α β : Type} {x : Except ε α} {f : α → β} {e : ε} (h : x.map f = .error e) :
    x = .error e := by
  cases x with
  | error e' => exact congrArg Except.error (Except.error.inj h)
  | ok a => cases h

inductive Spells : (before : String) → (fresh : Bool) → (rest : List Char) → List Token → Prop where
  | finish {before : String} {fresh : Bool} {gap : List Char} (hg : Separates fresh true gap) :
      Spells before fresh gap [.atEnd (.behind (before ++ String.ofList gap))]
  | token {before : String} {fresh : Bool} {gap rest : List Char} {t : Token} {ts : List Token}
      (hg : Separates fresh false gap) (hkind : t.kind ≠ .eof) (htext : t.text ≠ "")
      (hplace : t.place = .behind (before ++ String.ofList gap))
      (hs : Spells (before ++ String.ofList gap ++ t.text) false rest ts) :
      Spells before fresh (gap ++ t.text.toList ++ rest) (t :: ts)

/-- A piece of separating text may be added to the gap before the first token. -/
theorem Spells.prepend {before : String} {fresh fresh' : Bool} {piece rest : List Char}
    {ts : List Token}
    (hp : ∀ last more, Separates fresh' last more → Separates fresh last (piece ++ more))
    (h : Spells (before ++ String.ofList piece) fresh' rest ts) :
    Spells before fresh (piece ++ rest) ts := by
  cases h with
  | finish hg =>
    have hgap := hp _ _ hg
    rw [String.append_assoc, ← String.ofList_append]
    exact .finish hgap
  | @token _ _ gap rest t ts hg hkind htext hplace hs =>
    have hgap := hp _ _ hg
    have hbefore : before ++ String.ofList piece ++ String.ofList gap =
        before ++ String.ofList (piece ++ gap) := by
      rw [String.append_assoc, ← String.ofList_append]
    rw [hbefore] at hplace hs
    have hlist : piece ++ (gap ++ t.text.toList ++ rest) = piece ++ gap ++
        t.text.toList ++ rest := by
      simp only [List.append_assoc]
    rw [hlist]
    exact .token hgap hkind htext hplace hs

/-- One token of the text, behind a gap. -/
theorem Spells.read {before : String} {fresh : Bool} {gap : List Char} {c : Char} {cs : List Char}
    {kind : TokenKind} {n : Nat} {ts : List Token} (hg : Separates fresh false gap)
    (hread : Lexeme.read c cs = .token kind n)
    (hs : Spells (before ++ String.ofList gap ++ String.ofList ((c :: cs).take n)) false
      ((c :: cs).drop n) ts) :
    Spells before fresh (gap ++ c :: cs)
      (⟨kind, String.ofList ((c :: cs).take n), .behind (before ++ String.ofList gap)⟩ :: ts) := by
  obtain ⟨hkind, hn⟩ := Lexeme.read_token hread
  have htext : String.ofList ((c :: cs).take n) ≠ "" := by
    intro hempty
    have hnil : (c :: cs).take n = [] := String.ofList_eq_empty_iff.mp hempty
    rcases List.take_eq_nil_iff.mp hnil with hzero | hnil
    · exact absurd hzero (Nat.pos_iff_ne_zero.mp hn)
    · cases hnil
  have hsplit : gap ++ c :: cs =
      gap ++ (String.ofList ((c :: cs).take n)).toList ++ (c :: cs).drop n := by
    rw [String.toList_ofList, List.append_assoc, List.take_append_drop]
  rw [hsplit]
  exact Spells.token (t := ⟨kind, String.ofList ((c :: cs).take n), _⟩) hg hkind htext rfl hs

/-- An empty directive line with its line feed. -/
theorem Spells.directive {before : String} {body rest : List Char} {ts : List Token}
    (hb : ∀ c ∈ body, c ∈ blankChars)
    (hs : Spells ((before ++ String.ofList ('#' :: body)).push '\n') true rest ts) :
    Spells before true ('#' :: (body ++ '\n' :: rest)) ts := by
  have hbefore : (before ++ String.ofList ('#' :: body)).push '\n' =
      before ++ String.ofList ('#' :: (body ++ ['\n'])) := by
    apply String.toList_inj.mp
    simp
  have hsplit : '#' :: (body ++ '\n' :: rest) = '#' :: (body ++ ['\n']) ++ rest := by simp
  rw [hbefore] at hs
  rw [hsplit]
  refine Spells.prepend (fun last more hmore => ?_) hs
  simpa using Separates.directive hb hmore

namespace Scanner

/-- Behind `before`, the scanner comes to the place behind what it passes over. -/
theorem skip_eq {cs : List Char} {before : String} {lineStart : Bool} (n : Nat) :
    skip ⟨cs, .behind before, lineStart⟩ n =
      ⟨cs.drop n, .behind (before ++ String.ofList (cs.take n)), lineStart⟩ := by
  rw [skip, Location.afterAll_behind]

/-- A line feed is passed over before anything else. -/
theorem tokensWithin_newline {budget : Nat} (hb : 0 < budget) (p : Location) (lineStart : Bool)
    (cs : List Char) :
    tokensWithin budget ⟨'\n' :: cs, p, lineStart⟩ =
      tokensWithin budget ⟨cs, p.after '\n', true⟩ := by
  cases budget with
  | zero => exact absurd hb (Nat.lt_irrefl 0)
  | succ budget =>
    have hgap : nextGap ⟨'\n' :: cs, p, lineStart⟩ = nextGap ⟨cs, p.after '\n', true⟩ := rfl
    rw [tokensWithin, tokensWithin, hgap]

theorem tokensWithin_nil (budget : Nat) (p : Location) (lineStart : Bool) :
    (tokensWithin budget ⟨[], p, lineStart⟩).1 = .ok [.atEnd p] := by
  cases budget <;> rfl

/-- One token is read behind a gap, and then the rest. -/
theorem tokensWithin_read {budget n : Nat} {p place : Location} {lineStart fresh : Bool}
    {cs ds : List Char} {c : Char} {kind : TokenKind}
    (hgap : passGap .blank p lineStart cs = (none, ⟨c :: ds, place, fresh⟩))
    (hmark : (fresh && c == '#') = false) (hread : Lexeme.read c ds = .token kind n) :
    (tokensWithin (budget + 1) ⟨cs, p, lineStart⟩).1 =
      (tokensWithin budget ⟨(c :: ds).drop n, place.afterAll ((c :: ds).take n), false⟩).1.map
        (⟨kind, String.ofList ((c :: ds).take n), place⟩ :: ·) := by
  rw [tokensWithin, nextGap, hgap]
  simp only [hmark, hread, skip]
  rfl

/-- The scanner behind a directive line that is passed over. -/
theorem spells_directive {budget n : Nat} {cs : List Char} {before : String} {ts : List Token}
    (hdirective : directive cs = .ok n) (hb : cs.length < budget)
    (h : ((skip ⟨'#' :: cs, .behind before, true⟩ n).tokensWithin budget).1 = .ok ts)
    (ih : ∀ {rest : List Char} {before : String}, rest.length < budget →
      (tokensWithin budget ⟨rest, .behind before, true⟩).1 = .ok ts → Spells before true rest ts) :
    Spells before true ('#' :: cs) ts := by
  obtain ⟨body, rest, rfl, rfl, hbody, hafter⟩ := directive_ok hdirective
  have htake : ('#' :: (body ++ rest)).take (body.length + 1) = '#' :: body := by simp
  have hdrop : ('#' :: (body ++ rest)).drop (body.length + 1) = rest := by simp
  rw [skip_eq, htake, hdrop] at h
  rw [List.length_append] at hb
  rcases hafter with rfl | ⟨more, rfl⟩
  · rw [tokensWithin_nil] at h
    cases h
    rw [List.append_nil]
    exact .finish (.lastDirective hbody)
  · -- The line feed that ends the directive belongs to the same gap.
    rw [List.length_cons] at hb
    rw [tokensWithin_newline (by omega), Location.after_behind] at h
    exact .directive hbody (ih (by omega) h)

/-- A scanner behind `before` that comes to the end has read tokens that spell the rest of the
text. -/
theorem spells_tokensWithin {budget : Nat} {cs : List Char} {before : String} {lineStart : Bool}
    {ts : List Token} (hb : cs.length < budget)
    (h : (tokensWithin budget ⟨cs, .behind before, lineStart⟩).1 = .ok ts) :
    Spells before lineStart cs ts := by
  induction budget generalizing cs before lineStart ts with
  | zero => exact absurd hb (Nat.not_lt_zero _)
  | succ budget ih =>
    unfold tokensWithin at h
    split at h
    · cases h
    · next s hgap =>
      obtain ⟨passed, hrest, hplace, hsep⟩ := passGap_none hgap
      obtain ⟨rest, place, fresh⟩ := s
      dsimp only at h hrest hplace hsep
      rw [Location.afterAll_behind] at hplace
      subst hrest hplace
      rw [List.length_append] at hb
      cases rest with
      | nil =>
        cases h
        have hpassed := hsep true [] (fun _ => ⟨rfl, rfl⟩) .nil
        rw [List.append_nil] at hpassed ⊢
        exact .finish hpassed
      | cons c cs =>
        -- More may be added to the gap: a directive is part of the gap before the next token.
        have hpassed (last : Bool) (more : List Char) (hmore : Separates fresh last more) :
            Separates lineStart last (passed ++ more) :=
          hsep last more (fun hnil => absurd hnil (List.cons_ne_nil c cs)) hmore
        rw [List.length_cons] at hb
        dsimp only at h
        split at h
        · next hmark =>
          obtain ⟨rfl, hc⟩ := Bool.and_eq_true_iff.mp hmark
          obtain rfl : c = '#' := eq_of_beq hc
          split at h
          · next n hdirective =>
            exact .prepend hpassed (spells_directive hdirective (by omega) h ih)
          · cases h
        · split at h
          · cases h
          · next kind n hread =>
            obtain ⟨others, hothers, rfl⟩ := exists_of_map h
            have hgap := hpassed false [] .nil
            have hdrop : ((c :: cs).drop n).length < budget := by
              rw [List.length_drop, List.length_cons]
              have hn := (Lexeme.read_token hread).2
              omega
            rw [List.append_nil] at hgap
            rw [skip_eq] at hothers
            exact .read hgap hread (ih hdrop hothers)

/-- A lexical fault is told with the place of a character of the text, or of its end. -/
theorem within_tokensWithin {source : String} {budget : Nat} {cs : List Char} {before : String}
    {lineStart : Bool} {e : Diagnostic} (hs : source = before ++ String.ofList cs)
    (h : (tokensWithin budget ⟨cs, .behind before, lineStart⟩).1 = .error e) :
    ∃ f p, e = .lexical f p ∧ p.Within source := by
  induction budget generalizing cs before lineStart with
  | zero => cases h
  | succ budget ih =>
    unfold tokensWithin at h
    split at h
    · next opened s hgap =>
      cases h
      obtain ⟨passed, rest, rfl, rfl⟩ := passGap_some hgap
      refine ⟨_, _, rfl, before ++ String.ofList passed, String.ofList rest, ?_,
        Location.afterAll_behind _ _⟩
      rw [hs, String.ofList_append, String.append_assoc]
    · next s hgap =>
      obtain ⟨passed, hrest, hplace, -⟩ := passGap_none hgap
      obtain ⟨rest, place, fresh⟩ := s
      dsimp only at h hrest hplace
      rw [Location.afterAll_behind] at hplace
      subst hrest hplace
      rw [String.ofList_append, ← String.append_assoc] at hs
      -- However many characters are skipped, the place is that of what stands behind them.
      have hafter (n : Nat) : source = before ++ String.ofList passed ++
          String.ofList (rest.take n) ++ String.ofList (rest.drop n) := by
        rw [String.append_assoc, ← String.ofList_append, List.take_append_drop, hs]
      cases rest with
      | nil => cases h
      | cons c cs =>
        dsimp only at h
        split at h
        · split at h
          · next n hdirective =>
            rw [skip_eq] at h
            exact ih (hafter n) h
          · cases h
            exact ⟨_, _, rfl, _, _, hs, rfl⟩
        · split at h
          · next fault n taken hread =>
            cases h
            rw [skip_eq]
            exact ⟨_, _, rfl, _, _, hafter n, rfl⟩
          · next kind n hread =>
            have hothers := error_of_map h
            rw [skip_eq] at hothers
            exact ih (hafter n) hothers

end Scanner

def Token.stop (t : Token) : Nat := t.place.offset + t.text.utf8ByteSize

/-- The tokens of a source text. Each is the part of the source that begins at its place; they
follow each other without overlap; what stands before each of them, from the one before it or from
the beginning of the source on, separates tokens; and only the last is the mark of the end, which
stands behind all of the source. -/
structure Faithful (source : String) (ts : List Token) : Prop where
  spelled : ∀ t ∈ ts, ∃ before after, source = before ++ t.text ++ after ∧ t.place = .behind before
  ordered : ts.Pairwise fun t u => t.place.offset < u.place.offset ∧ t.stop ≤ u.place.offset
  separated : ∀ us t vs, ts = us ++ t :: vs → ∃ before gap after, source = before ++ gap ++ after ∧
    before.utf8ByteSize = us.getLast?.elim 0 Token.stop ∧
    (before ++ gap).utf8ByteSize = t.place.offset ∧ Separates us.isEmpty vs.isEmpty gap.toList
  ended : ∃ us, ts = us ++ [.atEnd (.behind source)] ∧ ∀ t ∈ us, t.kind ≠ .eof

namespace Spells

variable {source before : String} {fresh : Bool} {rest : List Char} {ts : List Token}

theorem source_eq {gap : List Char} {text : String}
    (hs : source = before ++ String.ofList (gap ++ text.toList ++ rest)) :
    source = before ++ String.ofList gap ++ text ++ String.ofList rest := by
  rw [hs, String.ofList_append, String.ofList_append, String.ofList_toList]
  simp only [String.append_assoc]

theorem ne_nil (h : Spells before fresh rest ts) : ts ≠ [] := by
  cases h <;> exact List.cons_ne_nil _ _

/-- Every token is the part of the source that begins at its place. -/
theorem spelled (h : Spells before fresh rest ts) (hs : source = before ++ String.ofList rest) :
    ∀ t ∈ ts, ∃ front back, source = front ++ t.text ++ back ∧ t.place = .behind front := by
  induction h with
  | @finish before fresh gap hg =>
    intro t ht
    obtain rfl := List.mem_singleton.mp ht
    refine ⟨before ++ String.ofList gap, "", ?_, rfl⟩
    rw [String.append_empty, hs]
    exact String.append_empty.symm
  | @token before fresh gap rest t ts hg hkind htext hplace h ih =>
    have hsource := source_eq hs
    exact List.forall_mem_cons.mpr ⟨⟨_, _, hsource, hplace⟩, ih hsource⟩

/-- No token begins before the text that it is read from. -/
theorem le_offset (h : Spells before fresh rest ts) :
    ∀ t ∈ ts, before.utf8ByteSize ≤ t.place.offset := by
  induction h with
  | @finish before fresh gap hg =>
    intro t ht
    obtain rfl := List.mem_singleton.mp ht
    have hsize : (before ++ String.ofList gap).utf8ByteSize =
        before.utf8ByteSize + (String.ofList gap).utf8ByteSize := String.utf8ByteSize_append
    exact (Nat.le_add_right _ _).trans_eq hsize.symm
  | @token before fresh gap rest t ts hg hkind htext hplace h ih =>
    rw [String.utf8ByteSize_append, String.utf8ByteSize_append] at ih
    have hoffset : t.place.offset = before.utf8ByteSize + (String.ofList gap).utf8ByteSize := by
      rw [hplace]
      exact String.utf8ByteSize_append
    refine List.forall_mem_cons.mpr ⟨by omega, fun u hu => ?_⟩
    have hu := ih u hu
    omega

/-- Tokens follow each other without overlap. -/
theorem ordered (h : Spells before fresh rest ts) :
    ts.Pairwise fun t u => t.place.offset < u.place.offset ∧ t.stop ≤ u.place.offset := by
  induction h with
  | finish hg => exact List.pairwise_singleton _ _
  | @token before fresh gap rest t ts hg hkind htext hplace h ih =>
    refine List.pairwise_cons.mpr ⟨fun u hu => ?_, ih⟩
    have hle := h.le_offset u hu
    have hpos : 0 < t.text.utf8ByteSize := Nat.pos_of_ne_zero fun he =>
      htext (String.utf8ByteSize_eq_zero_iff.mp he)
    have hoffset : t.place.offset = (before ++ String.ofList gap).utf8ByteSize := by
      rw [hplace]
      rfl
    rw [String.utf8ByteSize_append, ← hoffset] at hle
    unfold Token.stop
    omega

/-- What stands before a token, from the one before it on, separates tokens. -/
theorem separated (h : Spells before fresh rest ts) (hs : source = before ++ String.ofList rest) :
    ∀ us t vs, ts = us ++ t :: vs → ∃ front gap back, source = front ++ gap ++ back ∧
      front.utf8ByteSize = us.getLast?.elim before.utf8ByteSize Token.stop ∧
      (front ++ gap).utf8ByteSize = t.place.offset ∧
      Separates (fresh && us.isEmpty) vs.isEmpty gap.toList := by
  induction h with
  | @finish before fresh gap hg =>
    intro us t vs hts
    obtain ⟨rfl, rfl, rfl⟩ : us = [] ∧ t = .atEnd (.behind (before ++ String.ofList gap)) ∧
      vs = [] := by
      cases us with
      | nil =>
        obtain ⟨rfl, rfl⟩ := List.cons.inj hts
        exact ⟨rfl, rfl, rfl⟩
      | cons u us => simp at hts
    refine ⟨before, String.ofList gap, "", ?_, rfl, rfl, ?_⟩
    · rw [hs, String.append_empty]
    · rw [String.toList_ofList, List.isEmpty_nil, Bool.and_true]
      exact hg
  | @token before fresh gap rest t ts hg hkind htext hplace h ih =>
    intro us u vs hts
    have hsource := source_eq hs
    cases us with
    | nil =>
      obtain ⟨rfl, rfl⟩ := List.cons.inj hts
      have hempty : ts.isEmpty = false := List.isEmpty_eq_false_iff.mpr h.ne_nil
      refine ⟨before, String.ofList gap, t.text ++ String.ofList rest, ?_, rfl, ?_, ?_⟩
      · rw [hsource, String.append_assoc]
      · rw [hplace]
        rfl
      · rw [String.toList_ofList, List.isEmpty_nil, Bool.and_true, hempty]
        exact hg
    | cons t' us =>
      obtain ⟨rfl, htail⟩ := List.cons.inj hts
      obtain ⟨front, gap', back, hsplit, hstart, hend, hsep⟩ := ih hsource us u vs htail
      refine ⟨front, gap', back, hsplit, ?_, hend, ?_⟩
      · -- The gap before the next token begins where this one ends.
        have hstop : (before ++ String.ofList gap ++ t.text).utf8ByteSize = t.stop := by
          rw [String.utf8ByteSize_append, Token.stop, hplace]
          rfl
        rw [hstart, hstop, List.getLast?_cons]
        cases us.getLast? <;> rfl
      · simpa using hsep

/-- The last token is the mark of the end, and no other is. -/
theorem ended (h : Spells before fresh rest ts) (hs : source = before ++ String.ofList rest) :
    ∃ us, ts = us ++ [.atEnd (.behind source)] ∧ ∀ t ∈ us, t.kind ≠ .eof := by
  induction h with
  | finish hg => exact ⟨[], by rw [hs]; rfl, fun t ht => absurd ht List.not_mem_nil⟩
  | @token before fresh gap rest t ts hg hkind htext hplace h ih =>
    have hsource := source_eq hs
    obtain ⟨us, rfl, hus⟩ := ih hsource
    exact ⟨t :: us, rfl, List.forall_mem_cons.mpr ⟨hkind, hus⟩⟩

end Spells

/-- The tokens of a source text spell it. -/
theorem spells_tokenize {source : String} {ts : List Token} (h : tokenize source = .ok ts) :
    Spells "" true source.toList ts :=
  Scanner.spells_tokensWithin (Nat.lt_succ_self _) h

/-- The scanner fails at a place of the source. -/
theorem within_tokenize {source : String} {e : Diagnostic} (h : tokenize source = .error e) :
    ∃ f p, e = .lexical f p ∧ p.Within source := by
  have hs : source = "" ++ String.ofList source.toList := by
    rw [String.ofList_toList, String.empty_append]
  exact Scanner.within_tokensWithin hs h

/-- Wherever a source text has tokens, these and the separating texts between them make up all of
it, and each token tells its own place. -/
theorem tokenize_faithful {source : String} {ts : List Token} (h : tokenize source = .ok ts) :
    Faithful source ts := by
  have hspells := spells_tokenize h
  have hs : source = "" ++ String.ofList source.toList := by
    rw [String.ofList_toList, String.empty_append]
  refine ⟨hspells.spelled hs, hspells.ordered, fun us t vs hts => ?_, hspells.ended hs⟩
  obtain ⟨before, gap, after, hsplit, hstart, hend, hsep⟩ := hspells.separated hs us t vs hts
  rw [Bool.true_and] at hsep
  exact ⟨before, gap, after, hsplit, hstart, hend, hsep⟩

/-- A text with an empty directive behind a comment of two lines, characters of several bytes, and a
comment that ends with the source. -/
def gappedSource : String := "/* é\n*/ # \t\n int s = \"ü\\n\"; // ∀\r\n//x"

/-- The comment, the directive and the characters of several bytes are all in the gaps. -/
theorem tokenize_faithful_gapped : ∃ ts, tokenize gappedSource = .ok ts ∧
    ts.map (·.place.offset) = [14, 18, 20, 22, 28, 41] ∧ Faithful gappedSource ts := by
  have hcheck : (tokenize gappedSource).toOption.any
      (·.map (·.place.offset) == [14, 18, 20, 22, 28, 41]) = true := by
    decide +kernel
  obtain ⟨ts, hts, hoffsets⟩ := exists_of_any hcheck
  exact ⟨ts, hts, eq_of_beq hoffsets, tokenize_faithful hts⟩

end StackC
