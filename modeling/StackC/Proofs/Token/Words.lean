import StackC.Token.Scanner

namespace StackC

def IsWord (s : String) : Prop := ∀ c ∈ s.toList, Lexeme.isNameChar c = true

namespace Lexeme

theorem string_ne_ident (n k : Nat) (bytes : List UInt8) (cs : List Char) :
    string n bytes cs ≠ .token .ident k := by
  fun_induction string n bytes cs with
  | case5 n bytes c cs b he ih => exact ih
  | case7 n bytes c cs h₁ h₂ h₃ h₄ ih => exact ih
  | _ => exact nofun

theorem closeCharacter_ne_ident (value : UInt8) (n k : Nat) (cs : List Char) :
    closeCharacter value n cs ≠ .token .ident k := by
  fun_cases closeCharacter value n cs <;> exact nofun

theorem character_ne_ident (k : Nat) (cs : List Char) : character cs ≠ .token .ident k := by
  fun_cases character cs with
  | case3 | case5 => exact closeCharacter_ne_ident _ _ _ _
  | _ => exact nofun

theorem number_ne_ident (k : Nat) (cs : List Char) : number cs ≠ .token .ident k := by
  unfold number
  dsimp only
  split
  · split
    · exact nofun
    · split <;> exact nofun
  · split <;> exact nofun

theorem punctuator_ne_ident (k : Nat) (c : Char) (cs : List Char) :
    punctuator c cs ≠ .token .ident k := by
  unfold punctuator
  split <;> exact nofun

/-- Only words are read as identifiers. -/
theorem read_ident {c : Char} {cs : List Char} {n : Nat} (h : read c cs = .token .ident n) :
    (c :: cs).take n = (c :: cs).takeWhile isNameChar := by
  unfold read at h
  split at h
  · exact absurd h (string_ne_ident _ _ _ _)
  split at h
  · exact absurd h (character_ne_ident _ _)
  split at h
  · exact absurd h (number_ne_ident _ _)
  split at h
  · have hn : ((c :: cs).takeWhile isNameChar).length = n := (Reading.token.inj h).2
    have hpre : (c :: cs).takeWhile isNameChar <+: c :: cs := List.takeWhile_prefix _
    rw [← hn]
    exact (List.prefix_iff_eq_take.mp hpre).symm
  · exact absurd h (punctuator_ne_ident _ _ _)

end Lexeme

def Worded (ts : List Token) : Prop := ∀ t ∈ ts, t.kind = .ident → IsWord t.text

/-- All identifiers of a source text are words. -/
theorem Scanner.worded_tokensWithin {budget : Nat} {s : Scanner} {ts : List Token}
    (h : (s.tokensWithin budget).1 = .ok ts) : Worded ts := by
  have hend (p : Location) : Worded [.atEnd p] := by
    intro t ht hk
    rw [List.mem_singleton.mp ht] at hk
    cases hk
  induction budget generalizing s ts with
  | zero =>
    cases h
    exact hend _
  | succ budget ih =>
    unfold tokensWithin at h
    split at h
    · cases h
    · next s' hgap =>
      split at h
      · cases h
        exact hend _
      · next c cs hrest =>
        split at h
        · split at h
          · exact ih h
          · cases h
        · dsimp only at h
          split at h
          · cases h
          · next kind n hread =>
            -- The token is the text that was read, and the others come from the rest.
            obtain ⟨rest, hts, rfl⟩ : ∃ rest, (Scanner.tokensWithin budget
                (Scanner.skip { s' with lineStart := false } n)).1 = .ok rest ∧
                ⟨kind, String.ofList (s'.rest.take n), s'.place⟩ :: rest = ts := by
              cases hr : (Scanner.tokensWithin budget
                  (Scanner.skip { s' with lineStart := false } n)).1 with
              | error e =>
                rw [hr] at h
                cases h
              | ok rest =>
                rw [hr] at h
                exact ⟨rest, rfl, Except.ok.inj h⟩
            intro t ht hk
            rcases List.mem_cons.mp ht with rfl | ht
            · intro x hx
              have hk : kind = .ident := hk
              subst hk
              rw [String.toList_ofList, hrest, Lexeme.read_ident hread] at hx
              exact List.all_eq_true.mp List.all_takeWhile x hx
            · exact ih hts t ht hk

theorem worded_tokenize {source : String} {ts : List Token} (h : tokenize source = .ok ts) :
    Worded ts :=
  Scanner.worded_tokensWithin h

end StackC
