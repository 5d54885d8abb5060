import StackC.Grammar.Unit
import StackC.Proofs.Lists

namespace StackC

namespace ParseState

def Past (s : ParseState) (rest : List Token) (s' : ParseState) : Prop :=
  s' = { s with ahead := rest, last := s'.last }

variable {s s' s'' : ParseState} {rest ts : List Token} {t : Token}

theorem Past.ahead (h : s.Past rest s') : s'.ahead = rest := by
  rw [h]

theorem Past.scopes (h : s.Past rest s') : s'.scopes = s.scopes := by
  rw [h]

theorem Past.program (h : s.Past rest s') : s'.program = s.program := by
  rw [h]

theorem past_self (h : s.ahead = rest) : s.Past rest s := by
  subst h
  rfl

theorem Past.trans (h : s.Past rest s') (h' : s'.Past ts s'') : s.Past ts s'' := by
  unfold Past at h h' ⊢
  rw [h', h]

/-- Two readings from the same state differ only in how far they have come. -/
theorem Past.rebase (h : s.Past rest s') (h' : s.Past ts s'') : s'.Past ts s'' := by
  unfold Past at h h' ⊢
  rw [h', h]

theorem past_advance (h : s.ahead = t :: ts) : s.Past ts s.advance := by
  unfold Past advance
  rw [h]

theorem next_of_ahead (h : s.ahead = t :: ts) : s.next = t := by
  rw [next, h, List.headD_cons]

end ParseState

namespace Parse

variable {α β : Type} {x : Parse α} {f : α → Parse β} {s s' : ParseState} {t : Token}
  {ts rest mid : List Token} {text : String}

theorem bind_of_ok {a : α} (h : x s = .ok a s') : (x >>= f) s = f a s' := by
  have hb : (x >>= f) s = EStateM.bind x f s := rfl
  rw [hb, EStateM.bind, h]

theorem bind_of_error {e : Diagnostic} (h : x s = .error e s') : (x >>= f) s = .error e s' := by
  have hb : (x >>= f) s = EStateM.bind x f s := rfl
  rw [hb, EStateM.bind, h]

/-- Where two steps have succeeded, each of them has. -/
theorem exists_of_bind {m : Parse α} {f : α → Parse β} {s u : ParseState} {b : β}
    (h : (m >>= f) s = .ok b u) : ∃ a t, m s = .ok a t ∧ f a t = .ok b u := by
  cases hm : m s with
  | ok a t =>
    rw [bind_of_ok hm] at h
    exact ⟨a, t, rfl, h⟩
  | error e t =>
    rw [bind_of_error hm] at h
    cases h

theorem get_ok (s : ParseState) : (get : Parse ParseState) s = .ok s s := rfl

theorem accept_of_isReserved (h : s.next.isReserved text = true) :
    accept text s = .ok true s.advance := by
  have hcheck : check text s = .ok true s := congrArg (EStateM.Result.ok · s) h
  rw [accept, bind_of_ok hcheck]
  rfl

theorem accept_of_not (h : s.next.isReserved text = false) : accept text s = .ok false s := by
  have hcheck : check text s = .ok false s := congrArg (EStateM.Result.ok · s) h
  rw [accept, bind_of_ok hcheck]
  rfl

theorem expect_of_isReserved (h : s.next.isReserved text = true) (context : String) :
    expect text context s = .ok () s.advance := by
  rw [expect, bind_of_ok (accept_of_isReserved h)]
  rfl

theorem kind_of_isReserved (h : t.isReserved text = true) : t.kind = .reserved ∧ t.text = text := by
  rw [Token.isReserved, Bool.and_eq_true] at h
  exact ⟨eq_of_beq h.1, eq_of_beq h.2⟩

theorem acceptOne_of_lookup {table : List (String × α)} {a : α} (h : s.next.isReserved text = true)
    (ha : table.lookup text = some a) :
    acceptOne table s = .ok (some (a, s.next.place)) s.advance := by
  obtain ⟨hkind, htext⟩ := kind_of_isReserved h
  have hnext : next s = .ok s.next s := rfl
  rw [acceptOne, bind_of_ok hnext, if_pos hkind, htext, ha]
  rfl

/-- Nothing is taken where the table does not list the next token. -/
theorem acceptOne_of_not {table : List (String × α)}
    (h : ∀ entry ∈ table, s.next.isReserved entry.1 = false) : acceptOne table s = .ok none s := by
  have hnext : next s = .ok s.next s := rfl
  rw [acceptOne, bind_of_ok hnext]
  split
  · next hkind =>
    cases ha : table.lookup s.next.text with
    | none => rfl
    | some a =>
      -- The table lists the token, although it is none of its marks.
      have hfalse := h _ (Lists.mem_of_lookup ha)
      rw [Token.isReserved, hkind] at hfalse
      simp at hfalse
  · rfl

theorem identifier_of_kind (h : s.next.kind = .ident) :
    identifier s = .ok (s.next.text, s.next.place) s.advance := by
  have hnext : next s = .ok s.next s := rfl
  rw [identifier, bind_of_ok hnext, if_pos h]
  rfl

/-- If `ok` holds, the reading takes the tokens before `rest`, and its result satisfies `Q`;
otherwise it refuses a target with effects. -/
def Takes (x : Parse α) (s : ParseState) (ok : Bool) (Q : α → Prop) (rest : List Token) : Prop :=
  match ok with
  | true => ∃ a s', x s = .ok a s' ∧ Q a ∧ s.Past rest s'
  | false => ∃ p s', x s = .error (.typing .effectfulTarget p) s'

theorem Takes.pure {a : α} {Q : α → Prop} (h : Q a) (hs : s.ahead = rest) :
    Takes (Pure.pure a) s true Q rest :=
  ⟨a, s, rfl, h, ParseState.past_self hs⟩

/-- The reading goes on as another one does from a later state. -/
theorem Takes.of_eq {y : Parse α} {ok : Bool} {Q : α → Prop} (h : x s = y s') (hs : s.Past mid s')
    (hy : Takes y s' ok Q rest) : Takes x s ok Q rest := by
  unfold Takes at hy ⊢
  rw [h]
  cases ok with
  | true =>
    obtain ⟨a, s'', ha, hq, hs'⟩ := hy
    exact ⟨a, s'', ha, hq, hs.trans hs'⟩
  | false => exact hy

/-- A step that is known comes first. -/
theorem Takes.after {a : α} {ok : Bool} {Q : β → Prop} (hx : x s = .ok a s') (hs : s.Past mid s')
    (hf : Takes (f a) s' ok Q rest) : Takes (x >>= f) s ok Q rest :=
  .of_eq (bind_of_ok hx) hs hf

/-- The tokens of two readings are taken one after the other. -/
theorem Takes.bind {ok ok' : Bool} {P : α → Prop} {Q : β → Prop} (hx : Takes x s ok P mid)
    (hf : ∀ a s', P a → s.Past mid s' → Takes (f a) s' ok' Q rest) :
    Takes (x >>= f) s (ok && ok') Q rest := by
  cases ok with
  | true =>
    obtain ⟨a, s', hx, ha, hs⟩ := hx
    exact .after hx hs (hf a s' ha hs)
  | false =>
    obtain ⟨p, s', hx⟩ := hx
    exact ⟨p, s', bind_of_error hx⟩

/-- If `ok` holds, the reading has come to the tokens `rest` with a result that satisfies `Q`, and
goes on with the loop of `step`, for which enough rounds are left. -/
def Continues (x : Parse α) (step : α → Parse (Option α)) (s : ParseState) (ok : Bool)
    (Q : α → Prop) (rest : List Token) : Prop :=
  match ok with
  | true =>
    ∃ a s' ts, x s = growWithin step ts a s' ∧ Q a ∧ s.Past rest s' ∧ rest.length < ts.length
  | false => ∃ p s', x s = .error (.typing .effectfulTarget p) s'

variable {step : α → Parse (Option α)} {ok ok' : Bool} {P Q : α → Prop}

/-- A first operand can be followed by a loop. -/
theorem Takes.continues (h : Takes x s ok Q rest) :
    Continues (x >>= grow step) step s ok Q rest := by
  cases ok with
  | true =>
    obtain ⟨a, s', hx, ha, hs⟩ := h
    refine ⟨a, s', .atEnd s'.finish :: s'.ahead, bind_of_ok hx, ha, hs, ?_⟩
    rw [List.length_cons, hs.ahead]
    exact Nat.lt_succ_self _
  | false =>
    obtain ⟨p, s', hx⟩ := h
    exact ⟨p, s', bind_of_error hx⟩

/-- One round of the loop. -/
theorem Continues.round (h : Continues x step s ok P mid) (hlen : rest.length < mid.length)
    (hstep : ∀ a s', P a → s.Past mid s' →
      Takes (step a) s' ok' (fun r => ∃ b, r = some b ∧ Q b) rest) :
    Continues x step s (ok && ok') Q rest := by
  cases ok with
  | false => exact h
  | true =>
    obtain ⟨a, s', ts, hx, ha, hs, hts⟩ := h
    cases ts with
    | nil => exact absurd hts (Nat.not_lt_zero _)
    | cons t ts =>
      rw [List.length_cons] at hts
      have hround := hstep a s' ha hs
      cases ok' with
      | true =>
        obtain ⟨_, s'', hb, ⟨b, rfl, hq⟩, hs'⟩ := hround
        refine ⟨b, s'', ts, ?_, hq, hs.trans hs', by omega⟩
        rw [hx, growWithin, bind_of_ok hb]
      | false =>
        obtain ⟨p, s'', he⟩ := hround
        refine ⟨p, s'', ?_⟩
        rw [hx, growWithin, bind_of_error he]

/-- The loop ends where no further round is to be read. -/
theorem Continues.finish (h : Continues x step s ok Q rest)
    (hstep : ∀ a s', s.Past rest s' → step a s' = .ok none s') : Takes x s ok Q rest := by
  cases ok with
  | false => exact h
  | true =>
    obtain ⟨a, s', ts, hx, ha, hs, hts⟩ := h
    refine ⟨a, s', ?_, ha, hs⟩
    rw [hx]
    cases ts with
    | nil => rfl
    | cons t ts =>
      rw [growWithin, bind_of_ok (hstep a s' hs)]
      rfl

end Parse

end StackC
