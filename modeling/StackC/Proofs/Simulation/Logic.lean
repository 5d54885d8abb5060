import StackC.Proofs.Simulation.Stack

namespace StackC

namespace Semantics

namespace Run

variable {σ α β : Type} {x : Run σ α} {f : α → Run σ β} {s s' : σ} {r : Except Exit β}

/-- A sequence has an outcome exactly if its first part is left by an exit, or has a result from
which the second part goes on. -/
theorem bind_eq_some : (x >>= f) s = some (r, s') ↔
    (∃ a s₁, x s = some (.ok a, s₁) ∧ f a s₁ = some (r, s')) ∨
      ∃ e, x s = some (.error e, s') ∧ r = .error e := by
  have hb : (x >>= f) s = (x s).bind fun p => ExceptT.bindCont f p.1 p.2 := rfl
  rw [hb]
  rcases hx : x s with _ | ⟨e | a, s₁⟩
  · simp
  · constructor
    · intro h
      cases h
      exact .inr ⟨e, rfl, rfl⟩
    · rintro (⟨_, _, h, -⟩ | ⟨_, h, rfl⟩)
      · cases h
      · cases h
        rfl
  · constructor
    · intro h
      exact .inl ⟨a, s₁, rfl, h⟩
    · rintro (⟨_, _, h, hf⟩ | ⟨_, h, -⟩)
      · cases h
        exact hf
      · cases h

end Run

end Semantics

namespace Simulation

open Assembly Machine Semantics

def isPush : Line → Bool
  | .instr (.push _) => true
  | _ => false

/-- The number of lines that push a register: a bound for the slots that come into use. -/
def pushes (ls : List Line) : Nat := ls.countP isPush

@[simp] theorem pushes_nil : pushes [] = 0 := rfl

@[simp] theorem pushes_append (as bs : List Line) : pushes (as ++ bs) = pushes as + pushes bs :=
  List.countP_append

@[simp] theorem pushes_cons (x : Line) (ls : List Line) :
    pushes (x :: ls) = pushes ls + if isPush x then 1 else 0 :=
  List.countP_cons

/-- Which exits of a computation are dealt with, and what holds where they lead. -/
structure Handler (σ : Type) where
  takes : Exit → Prop
  post : Exit → σ → State → Prop

variable {σ α β : Type}

def Handler.Accepts (E : Handler σ) : Except Exit α → Prop
  | .ok _ => True
  | .error e => E.takes e

/-- What holds of the machine where a computation has come to: behind its code if it has a result,
and where the handler says if it was left by an exit. -/
def Lands (K : Setting) (R : σ → Memory → Prop) (E : Handler σ) (i : Nat) (after : α → List Word)
    (r : Except Exit α) (s : σ) (st : State) : Prop :=
  match r with
  | .ok a => At K R i s (after a) st
  | .error e => E.post e s st

/-- The lines do what the computation does. They find the operands `stk`, and a result `a` leaves
the operands `after a`. -/
def Implements (K : Setting) (R : σ → Memory → Prop) (E : Handler σ) (ls : List Line)
    (stk : List Word) (x : Run σ α) (after : α → List Word) : Prop :=
  ∀ i s st r s', CodeAt K.prog i ls → 8 * (stk.length + pushes ls) ≤ K.room → At K R i s stk st →
    x s = some (r, s') → E.Accepts r →
    Reaches K.world K.prog (Lands K R E (i + ls.length) after r s') st

def Moves (K : Setting) (R : σ → Memory → Prop) (ls : List Line) (stk stk' : List Word) : Prop :=
  ∀ i (s : σ) st, CodeAt K.prog i ls → 8 * (stk.length + pushes ls) ≤ K.room → At K R i s stk st →
    Reaches K.world K.prog (At K R (i + ls.length) s stk') st

namespace Implements

variable {K : Setting} {R : σ → Memory → Prop} {E : Handler σ} {as bs ls : List Line}
  {stk stk' : List Word} {x : Run σ α} {f : α → Run σ β}

/-- Code that implements two computations implements one after the other. -/
theorem bind {mid : α → List Word} {after : β → List Word} (h : Implements K R E as stk x mid)
    (hm : ∀ a, (mid a).length ≤ stk.length + pushes as)
    (hf : ∀ a, Implements K R E bs (mid a) (f a) after) :
    Implements K R E (as ++ bs) stk (x >>= f) after := by
  intro i s st r s' hc hroom hat hx he
  rw [pushes_append] at hroom
  rcases Run.bind_eq_some.mp hx with ⟨a, s₁, ha, hr⟩ | ⟨e, ha, rfl⟩
  · refine (h i s st _ s₁ hc.left (by omega) hat ha trivial).trans fun st₁ h₁ => ?_
    have hlen := hm a
    rw [List.length_append, ← Nat.add_assoc]
    exact hf a _ s₁ st₁ r s' hc.right (by omega) h₁ hr he
  · exact h i s st (.error e) s' hc.left (by omega) hat ha he

/-- A result that needs no code comes first. -/
theorem ofOption_bind {y : Option α} {after : β → List Word}
    (h : ∀ a, y = some a → Implements K R E ls stk (f a) after) :
    Implements K R E ls stk (Run.ofOption y >>= f) after := by
  intro i s st r s' hc hroom hat hx he
  rcases Run.bind_eq_some.mp hx with ⟨a, s₁, ha, hr⟩ | ⟨e, ha, -⟩
  · cases y with
    | none => exact nomatch ha
    | some b =>
      cases ha
      exact h a rfl i s st r s' hc hroom hat hr he
  · cases y with
    | none => exact nomatch ha
    | some b => exact nomatch ha

/-- A value that depends on no state. -/
theorem ofOption {y : Option α} {after : α → List Word}
    (h : ∀ a, y = some a → Moves K R ls stk (after a)) :
    Implements K R E ls stk (Run.ofOption y) after := by
  intro i s st r s' hc hroom hat hx he
  cases y with
  | none => exact nomatch hx
  | some a =>
    cases hx
    exact h a rfl i s st hc hroom hat

theorem pure {a : α} {after : α → List Word} (h : Moves K R ls stk (after a)) :
    Implements K R E ls stk (Pure.pure a) after := by
  intro i s st r s' hc hroom hat hx he
  cases hx
  exact h i s st hc hroom hat

end Implements

end Simulation

end StackC
