import StackC.Diagnostic.Basic

namespace StackC

def Diagnostic.Located (e : Diagnostic) : Prop := ∀ f, e ≠ .emission f

theorem located_lexical (f : LexicalFault) (p : Location) :
    (Diagnostic.lexical f p).Located := nofun

theorem located_grammar (f : GrammarFault) (p : Location) :
    (Diagnostic.grammar f p).Located := nofun

theorem located_declaration (f : DeclarationFault) (p : Location) :
    (Diagnostic.declaration f p).Located := nofun

theorem located_typing (f : TypingFault) (p : Location) : (Diagnostic.typing f p).Located := nofun

/-- A computation gives a result that satisfies `Q`, or fails for a fault of the source text. -/
def Yields {α : Type} (x : Except Diagnostic α) (Q : α → Prop) : Prop :=
  match x with
  | .ok a => Q a
  | .error e => e.Located

namespace Yields

variable {α β : Type} {x : Except Diagnostic α} {Q : α → Prop}

theorem ok {a : α} (h : Q a) : Yields (.ok a) Q := h

theorem pure {a : α} (h : Q a) : Yields (Pure.pure a) Q := h

theorem error {e : Diagnostic} (h : e.Located) : Yields (.error e) Q := h

theorem throw {e : Diagnostic} (h : e.Located) :
    Yields (MonadExcept.throw e : Except Diagnostic α) Q := h

/-- Faults of either part are faults of the source text. -/
theorem bind {f : α → Except Diagnostic β} {T : β → Prop} (hx : Yields x Q)
    (hf : ∀ a, Q a → Yields (f a) T) : Yields (x >>= f) T := by
  cases x with
  | ok a => exact hf a hx
  | error e => exact hx

theorem mono {T : α → Prop} (hx : Yields x Q) (h : ∀ a, Q a → T a) : Yields x T := by
  cases x with
  | ok a => exact h a hx
  | error e => exact hx

theorem and {T : α → Prop} (hx : Yields x Q) (ht : Yields x T) : Yields x fun a => Q a ∧ T a := by
  cases x with
  | ok a => exact ⟨hx, ht⟩
  | error e => exact hx

theorem map {f : α → β} {T : β → Prop} (hx : Yields x Q) (h : ∀ a, Q a → T (f a)) :
    Yields (x.map f) T := by
  cases x with
  | ok a => exact h a hx
  | error e => exact hx

theorem of_ok (hx : Yields x Q) {a : α} (h : x = .ok a) : Q a := by
  subst h
  exact hx

theorem of_error (hx : Yields x Q) {e : Diagnostic} (h : x = .error e) : e.Located := by
  subst h
  exact hx

end Yields

/-- A test that is passed is passed by a result. -/
theorem exists_of_any {ε α : Type} {x : Except ε α} {test : α → Bool}
    (h : x.toOption.any test = true) : ∃ a, x = .ok a ∧ test a = true := by
  cases x with
  | ok a => exact ⟨a, rfl, h⟩
  | error e => cases h

theorem of_any {ε α : Type} {x : Except ε α} {test : α → Bool} {a : α} (hx : x = .ok a)
    (h : x.toOption.any test = true) : test a = true := by
  subst hx
  exact h

end StackC
