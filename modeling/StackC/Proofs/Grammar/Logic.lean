import StackC.Grammar.Unit
import StackC.Proofs.Diagnostic
import StackC.Proofs.Token.Words

/-!
Reasoning about readers. All that matters of the tokens here is that identifiers are words; a `View`
is the rest of the state, and `Keeps` relates the views before and after a reader that succeeds.
-/

namespace StackC

/-- The state of a reading without its tokens and the count of structs. -/
structure View where
  scopes : Scopes
  program : Program
  locals : Option (List VarId)
  loopDepth : Nat
  strings : Nat

def ParseState.view (s : ParseState) : View :=
  ⟨s.scopes, s.program, s.locals, s.loopDepth, s.stringCount⟩

namespace Parse

variable {α β : Type}

/-- A result satisfies `Q`, or the fault is one of the source text. -/
def Outcome (Q : α → ParseState → Prop) : EStateM.Result Diagnostic ParseState α → Prop
  | .ok a s => Q a s
  | .error e _ => e.Located

theorem Outcome.mono {Q Q' : α → ParseState → Prop} {r : EStateM.Result Diagnostic ParseState α}
    (h : Outcome Q r) (hq : ∀ a s, Q a s → Q' a s) : Outcome Q' r := by
  cases r with
  | ok a s => exact hq a s h
  | error e s => exact h

/-- A reader goes on from what the reader before it has left. -/
theorem Outcome.bind {m : Parse α} {f : α → Parse β} {Q : α → ParseState → Prop}
    {Q' : β → ParseState → Prop} {s : ParseState} (hm : Outcome Q (m s))
    (hf : ∀ a s', Q a s' → Outcome Q' (f a s')) : Outcome Q' ((m >>= f) s) := by
  have he : (m >>= f) s = EStateM.bind m f s := rfl
  rw [he, EStateM.bind]
  cases hr : m s with
  | ok a s' =>
    rw [hr] at hm
    exact hf a s' hm
  | error e s' =>
    rw [hr] at hm
    exact hm

/-- From the view `v` the reader leads to a view that `R` allows, and its result satisfies `Q`
there. -/
def Keeps (R : View → View → Prop) (m : Parse α) (v : View) (Q : α → View → Prop) : Prop :=
  ∀ s, s.view = v → Worded s.ahead →
    Outcome (fun a s' => Worded s'.ahead ∧ R v s'.view ∧ Q a s'.view) (m s)

structure Evolution (R : View → View → Prop) : Prop where
  refl : ∀ {a b}, R a b → R b b
  trans : ∀ {a b c}, R a b → R b c → R a c

def Calm (m : Parse α) (P : α → Prop) : Prop := ∀ v, Keeps (· = ·) m v fun a _ => P a

theorem evolution_eq : Evolution (· = ·) := ⟨fun _ => rfl, Eq.trans⟩

section

variable {R : View → View → Prop} {v : View} {m : Parse α} {Q Q' : α → View → Prop}
  {T : β → View → Prop}

namespace Keeps

theorem pure {a : α} (hr : R v v) (hq : Q a v) : Keeps R (Pure.pure a) v Q := by
  rintro s rfl hw
  exact ⟨hw, hr, hq⟩

theorem throw {e : Diagnostic} (h : e.Located) : Keeps R (MonadExcept.throw e : Parse α) v Q :=
  fun _ _ _ => h

/-- Readers that keep an evolution are composed. -/
theorem bind {f : α → Parse β} (hR : Evolution R) (hm : Keeps R m v Q)
    (hf : ∀ a w, R v w → Q a w → Keeps R (f a) w T) : Keeps R (m >>= f) v T :=
  fun s hs hw => (hm s hs hw).bind fun a s' ha =>
    (hf a s'.view ha.2.1 ha.2.2 s' rfl ha.1).mono fun _ _ hb =>
      ⟨hb.1, hR.trans ha.2.1 hb.2.1, hb.2.2⟩

/-- A calm reader before another one does not count. -/
theorem calm_bind {f : α → Parse β} {P : α → Prop} (hm : Calm m P)
    (hf : ∀ a, P a → Keeps R (f a) v T) : Keeps R (m >>= f) v T :=
  fun s hs hw => (hm v s hs hw).bind fun a s' ha => hf a ha.2.2 s' ha.2.1.symm ha.1

theorem state_bind {f : ParseState → Parse β}
    (hf : ∀ s, s.view = v → Worded s.ahead → Keeps R (f s) v T) : Keeps R (get >>= f) v T :=
  fun s hs hw => hf s hs hw s hs hw

theorem get_bind {f : ParseState → Parse β} (hf : ∀ s, s.view = v → Keeps R (f s) v T) :
    Keeps R (get >>= f) v T :=
  state_bind fun s hs _ => hf s hs

/-- The relation may change with the postcondition. -/
theorem weaken {R' : View → View → Prop} (hm : Keeps R m v Q)
    (h : ∀ a w, R v w → Q a w → R' v w ∧ Q' a w) : Keeps R' m v Q' :=
  fun s hs hw => (hm s hs hw).mono fun a s' ha => ⟨ha.1, h a s'.view ha.2.1 ha.2.2⟩

theorem mono (hm : Keeps R m v Q) (h : ∀ a w, R v w → Q a w → Q' a w) : Keeps R m v Q' :=
  hm.weaken fun a w hr hq => ⟨hr, h a w hr hq⟩

theorem of_calm {P : α → Prop} (hr : R v v) (hm : Calm m P) : Keeps R m v fun a _ => P a :=
  (hm v).weaken fun _ _ hw ha => ⟨hw ▸ hr, ha⟩

/-- A reader between two changes of the state. -/
theorem between {T : View → View → Prop} {before after : ParseState → ParseState} {w : View}
    (hbefore : ∀ s : ParseState, (before s).ahead = s.ahead)
    (hafter : ∀ s : ParseState, (after s).ahead = s.ahead)
    (hb : ∀ s : ParseState, s.view = v → (before s).view = w) (hm : Keeps T m w Q)
    (h : ∀ a (s : ParseState), T w s.view → Q a s.view → R v (after s).view ∧ Q' a (after s).view) :
    Keeps R (Parse.between before after m) v Q' := by
  intro s hs hw
  have hm := hm (before s) (hb s hs) (hbefore s ▸ hw)
  unfold Parse.between
  cases hr : m (before s) with
  | ok a s' =>
    rw [hr] at hm
    exact ⟨hafter s' ▸ hm.1, h a s' hm.2.1 hm.2.2⟩
  | error e s' =>
    rw [hr] at hm
    exact hm

end Keeps

/-- A change of the state that takes the view `v` to `w`. -/
theorem keeps_modify {g : ParseState → ParseState} {w : View} {Q : Unit → View → Prop}
    (ha : ∀ s : ParseState, Worded s.ahead → Worded (g s).ahead)
    (hg : ∀ s : ParseState, s.view = v → (g s).view = w) (hr : R v w) (hq : Q () w) :
    Keeps R (modify g) v Q := by
  intro s hs hw
  exact ⟨ha s hw, by rw [hg s hs]; exact hr, by rw [hg s hs]; exact hq⟩

end

namespace Calm

variable {m : Parse α} {P : α → Prop} {T : β → Prop}

theorem pure {a : α} (h : P a) : Calm (Pure.pure a) P := fun _ => .pure rfl h

theorem throw {e : Diagnostic} (h : e.Located) : Calm (MonadExcept.throw e : Parse α) P :=
  fun _ => .throw h

theorem bind {f : α → Parse β} (hm : Calm m P) (hf : ∀ a, P a → Calm (f a) T) : Calm (m >>= f) T :=
  fun v => .calm_bind hm fun a ha => hf a ha v

theorem get_bind {f : ParseState → Parse β} (hf : ∀ s, Calm (f s) T) : Calm (get >>= f) T :=
  fun v => .get_bind fun s _ => hf s v

end Calm

/-- Rounds of a reader up to the first that gives nothing. -/
theorem keeps_collectWithin {R : View → View → Prop} {v : View} {item : Parse (Option α)}
    {Q : α → View → Prop} (hR : Evolution R) (hQ : ∀ a w w', R w w' → Q a w → Q a w')
    (hv : R v v) (hi : ∀ w, R v w → Keeps R item w fun o w' => ∀ a ∈ o, Q a w') (ts : List Token) :
    Keeps R (collectWithin item ts) v fun as w => ∀ a ∈ as, Q a w := by
  induction ts generalizing v with
  | nil => exact .pure hv (by simp)
  | cons t ts ih =>
    refine .bind hR (hi v hv) fun o w hw ho => ?_
    cases o with
    | none => exact .pure (hR.refl hw) (by simp)
    | some a =>
      have htail := ih (hR.refl hw) fun w' hw' => hi w' (hR.trans hw hw')
      refine .bind hR htail fun as w' hw' has => .pure (hR.refl hw') ?_
      exact List.forall_mem_cons.mpr ⟨hQ a w w' hw' (ho a rfl), has⟩

theorem calm_rounds : Calm rounds fun _ => True := fun _ => .get_bind fun _ _ => .pure rfl trivial

theorem keeps_collect {R : View → View → Prop} {v : View} {item : Parse (Option α)}
    {Q : α → View → Prop} (hR : Evolution R) (hQ : ∀ a w w', R w w' → Q a w → Q a w')
    (hv : R v v) (hi : ∀ w, R v w → Keeps R item w fun o w' => ∀ a ∈ o, Q a w') :
    Keeps R (collect item) v fun as w => ∀ a ∈ as, Q a w :=
  .calm_bind calm_rounds fun ts _ => keeps_collectWithin hR hQ hv hi ts

/-- A property that each step keeps is kept by the loop. -/
theorem keeps_growWithin {R : View → View → Prop} {v : View} {step : α → Parse (Option α)}
    {Q : α → View → Prop} (hR : Evolution R) (hQ : ∀ a w w', R w w' → Q a w → Q a w')
    (hv : R v v) (hi : ∀ a w, R v w → Q a w → Keeps R (step a) w fun o w' => ∀ b ∈ o, Q b w')
    (ts : List Token) (a : α) (ha : Q a v) : Keeps R (growWithin step ts a) v Q := by
  induction ts generalizing v a with
  | nil => exact .pure hv ha
  | cons t ts ih =>
    refine .bind hR (hi a v hv ha) fun o w hw ho => ?_
    cases o with
    | none => exact .pure (hR.refl hw) (hQ a v w hw ha)
    | some b => exact ih (hR.refl hw) (fun a w' hw' => hi a w' (hR.trans hw hw')) b (ho b rfl)

theorem keeps_grow {R : View → View → Prop} {v : View} {step : α → Parse (Option α)}
    {Q : α → View → Prop} (hR : Evolution R) (hQ : ∀ a w w', R w w' → Q a w → Q a w')
    (hv : R v v) (hi : ∀ a w, R v w → Q a w → Keeps R (step a) w fun o w' => ∀ b ∈ o, Q b w')
    (a : α) (ha : Q a v) : Keeps R (grow step a) v Q :=
  .calm_bind calm_rounds fun ts _ => keeps_growWithin hR hQ hv hi ts a ha

/-! Readers that only look at tokens or take some. -/

theorem keeps_grammarFault {R : View → View → Prop} {v : View} {Q : α → View → Prop}
    (f : GrammarFault) : Keeps R (grammarFault f) v Q :=
  .get_bind fun _ _ => .throw (located_grammar _ _)

theorem keeps_declarationFault {R : View → View → Prop} {v : View} {Q : α → View → Prop}
    (f : DeclarationFault) (p : Location) : Keeps R (declarationFault f p) v Q :=
  .throw (located_declaration _ _)

theorem keeps_typingFault {R : View → View → Prop} {v : View} {Q : α → View → Prop}
    (f : TypingFault) (p : Location) : Keeps R (typingFault f p) v Q :=
  .throw (located_typing _ _)

theorem view_advance (s : ParseState) : s.advance.view = s.view := by
  unfold ParseState.advance
  split <;> rfl

/-- Taking a token leaves words only. -/
theorem worded_advance (s : ParseState) (h : Worded s.ahead) : Worded s.advance.ahead := by
  unfold ParseState.advance
  split
  · exact h
  · next t ts hs =>
    rw [hs] at h
    exact fun u hu => h u (List.mem_cons_of_mem t hu)

/-- The next identifier is a word. -/
theorem worded_next (s : ParseState) (h : Worded s.ahead) (hk : s.next.kind = .ident) :
    IsWord s.next.text := by
  unfold ParseState.next at hk ⊢
  cases hs : s.ahead with
  | nil =>
    rw [hs] at hk
    cases hk
  | cons t ts =>
    rw [hs] at hk
    exact h t (hs ▸ List.mem_cons_self) hk

theorem calm_next : Calm next fun t => t.kind = .ident → IsWord t.text :=
  fun _ => .state_bind fun s _ hw => .pure rfl (worded_next s hw)

theorem calm_here : Calm here fun _ => True := .get_bind fun _ => .pure trivial

theorem calm_lastPlace : Calm lastPlace fun _ => True := .get_bind fun _ => .pure trivial

theorem calm_atEnd : Calm atEnd fun _ => True := .get_bind fun _ => .pure trivial

theorem calm_check (text : String) : Calm (check text) fun _ => True :=
  .get_bind fun _ => .pure trivial

theorem calm_atType : Calm atType fun _ => True := .get_bind fun _ => .pure trivial

theorem calm_advance : Calm advance fun _ => True :=
  fun _ => keeps_modify worded_advance (fun s hs => (view_advance s).trans hs) rfl trivial

theorem calm_checkSecond (text : String) : Calm (checkSecond text) fun _ => True :=
  .get_bind fun s => by split <;> exact .pure trivial

theorem calm_atTypeSecond : Calm atTypeSecond fun _ => True :=
  .get_bind fun s => by split <;> exact .pure trivial

theorem calm_endsSecond : Calm endsSecond fun _ => True :=
  .get_bind fun s => by split <;> exact .pure trivial

theorem calm_accept (text : String) : Calm (accept text) fun _ => True := by
  refine .bind (calm_check text) fun b _ => ?_
  split
  · exact .bind calm_advance fun _ _ => .pure trivial
  · exact .pure trivial

theorem calm_acceptOne (table : List (String × α)) : Calm (acceptOne table) fun _ => True := by
  refine .bind calm_next fun t _ => ?_
  split
  · split
    · exact .bind calm_advance fun _ _ => .pure trivial
    · exact .pure trivial
  · exact .pure trivial

theorem calm_expect (text context : String) : Calm (expect text context) fun _ => True := by
  refine .bind (calm_accept text) fun b _ => ?_
  split
  · exact .pure trivial
  · exact .bind calm_next fun t _ _ => keeps_grammarFault _

/-- An identifier is a word. -/
theorem calm_identifier : Calm identifier fun r => IsWord r.1 := by
  refine .bind calm_next fun t ht => ?_
  split
  · next hk => exact .bind calm_advance fun _ _ => .pure (ht hk)
  · exact fun _ => keeps_grammarFault _

theorem calm_number : Calm number fun _ => True := by
  refine .bind calm_next fun t _ => ?_
  split
  · exact .bind calm_advance fun _ _ => .pure trivial
  · exact fun _ => keeps_grammarFault _

/-- One or more items with commas between them. -/
theorem keeps_separated {R : View → View → Prop} {v : View} {item : Parse α}
    {Q : α → View → Prop} (hR : Evolution R) (hQ : ∀ a w w', R w w' → Q a w → Q a w')
    (hv : R v v) (hi : ∀ w, R v w → Keeps R item w Q) :
    Keeps R (separated item) v fun as w => ∀ a ∈ as, Q a w := by
  refine .bind hR (hi v hv) fun a w hw ha => ?_
  refine .bind hR (keeps_collect hR hQ (hR.refl hw) fun w' hw' => ?_) fun as w' hw' has =>
    .pure (hR.refl hw') (List.forall_mem_cons.mpr ⟨hQ a w w' hw' ha, has⟩)
  refine .calm_bind (calm_accept ",") fun b _ => ?_
  split
  · refine .bind hR (hi w' (hR.trans hw hw')) fun a w'' hw'' ha => .pure (hR.refl hw'') ?_
    rintro _ ⟨⟩
    exact ha
  · exact .pure (hR.refl hw') (by simp)

end Parse

end StackC
