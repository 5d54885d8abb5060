import StackC.Proofs.ParsingProgress

/-!
Readings in a row. Whatever a reading comes to, it leaves no scope, loop or function open, it has
not gone back or past the mark of the end, and the file scope binds all that it bound before. So
the next reading starts from a state like the first one did.
-/

namespace StackC

namespace ParseState

def afterReadings (tokens : List Token) : Nat → ParseState
  | 0 => ofTokens tokens
  | n + 1 => (afterReadings tokens n).readProgram.2

/-- Where `n` readings by index in a row come to, if each of them ends within as many rounds as
there are tokens and needs no token behind the last one. -/
def cursorAfter (tokens : List Token) : Nat → Option Cursor
  | 0 => some ⟨marked tokens, 0, { ahead := [], finish := {} }⟩
  | n + 1 => do
    match ← Attempt.program (marked tokens).length (← cursorAfter tokens n) with
    | .ok _ c => return c
    | .error _ c => return c

/-- What holds behind a reading that began in `s` with the cursor at `c`. -/
structure Restored (tokens : List Token) (s s' : ParseState) (c c' : Cursor) : Prop where
  varsDepth : s'.scopes.vars.length = 1
  tagsDepth : s'.scopes.tags.length = 1
  loopDepth : s'.loopDepth = 0
  locals : s'.locals = none
  /-- The reading by index leaves the same state behind. -/
  state : s' = c'.state.facing s'
  index_le : c.index ≤ c'.index
  /-- The index is that of a token, the next one. -/
  next : ∃ t, (marked tokens)[c'.index]? = some t ∧ t.kind = s'.next.kind ∧ t.place = s'.next.place
  /-- No mark of the end has been passed. -/
  passed : ∀ t ∈ (marked tokens).take c'.index, t.kind ≠ .eof
  /-- A reading that succeeds has come to the end. -/
  finished : ∀ p, s.readProgram.1 = .ok p → s'.next.kind = .eof
  vars : ∀ name id, s.scopes.fileVar? name = some id → s'.scopes.fileVar? name = some id
  tags : ∀ name t, s.scopes.tags.outermost? name = some t → s'.scopes.tags.outermost? name = some t

structure Resting (tokens : List Token) (s : ParseState) : Prop where
  ahead : s.ahead <:+ body tokens
  finish : s.finish = (ofTokens tokens).finish
  atFile : s.scopes.AtFile
  loopDepth : s.loopDepth = 0
  locals : s.locals = none

theorem resting_ofTokens (tokens : List Token) : (ofTokens tokens).Resting tokens :=
  ⟨List.suffix_refl _, rfl, ⟨rfl, rfl⟩, rfl, rfl⟩

/-- Reading a program gives back the scopes. -/
theorem restores_readProgram {s : ParseState} (hl : s.locals = none) : s.Restores s.readProgram.2 :=
  (leaves_readProgram (placed_true s) hl).1.restores

/-- A reading that begins between two readings also ends there. -/
theorem Resting.readProgram {tokens : List Token} {s : ParseState} (h : s.Resting tokens) :
    s.readProgram.2.Resting tokens := by
  have hr := restores_readProgram h.locals
  exact ⟨hr.ahead.trans h.ahead, hr.finish.trans h.finish, hr.scopes.atFile h.atFile,
    hr.loopDepth.trans h.loopDepth, hr.locals_eq_none h.locals⟩

/-- However many readings have been made, the state is one between two readings. -/
theorem resting_afterReadings (tokens : List Token) (n : Nat) :
    (afterReadings tokens n).Resting tokens := by
  induction n with
  | zero => exact resting_ofTokens tokens
  | succ n ih => exact ih.readProgram

/-- Readings in a row by index come to what the readings in a row come to. -/
theorem shows_cursorAfter (tokens : List Token) (n : Nat) :
    ∃ c, cursorAfter tokens n = some c ∧ c.Shows tokens (afterReadings tokens n) := by
  induction n with
  | zero => exact ⟨_, rfl, inside_ofTokens tokens, rfl, (Nat.sub_self _).symm, rfl⟩
  | succ n ih =>
    obtain ⟨c, hc, hshows⟩ := ih
    have hle := hshows.inside.length_le
    have hmirrors := Attempt.traces_program (length_body_lt tokens) hshows (Nat.lt_succ_of_le hle)
    simp only [cursorAfter, afterReadings, readProgram, hc, Option.bind_eq_bind, Option.bind_some]
    generalize Attempt.program _ c = r at hmirrors
    generalize Parse.program _ = r' at hmirrors
    cases hmirrors with
    | ok hs => exact ⟨_, rfl, hs⟩
    | error hs => exact ⟨_, rfl, hs⟩

/-- The next token is the one at the position reached. -/
theorem Inside.next {tokens : List Token} {s : ParseState} (h : s.Inside tokens) :
    ∃ t, (marked tokens)[s.position tokens]? = some t ∧ t.kind = s.next.kind ∧
      t.place = s.next.place := by
  unfold ParseState.next
  cases hs : s.ahead with
  | nil => exact h.at_end hs
  | cons t ts => exact ⟨t, (h.at_token hs).1, rfl, rfl⟩

/-- Every declaration takes a token, so that as many rounds as there are tokens come to the end. -/
theorem ahead_topLevelsWithin {g : Grammar} (hg : g.Honest fun _ => True) {n : Nat}
    {s s' : ParseState} (hl : s.locals = none) (hn : s.ahead.length ≤ n)
    (h : Parse.topLevelsWithin g n s = .ok () s') :
    s'.ahead = [] := by
  induction n generalizing s with
  | zero =>
    cases h
    exact List.length_eq_zero_iff.mp (Nat.le_zero.mp hn)
  | succ n ih =>
    rw [Parse.topLevelsWithin,
      Parse.bind_of_ok (show Parse.atEnd s = .ok s.ahead.isEmpty s from rfl)] at h
    by_cases hs : s.ahead.isEmpty = true
    · rw [if_pos hs] at h
      cases h
      exact List.isEmpty_iff.mp hs
    · rw [if_neg hs] at h
      cases ht : Parse.topLevel g s with
      | error e t =>
        rw [Parse.bind_of_error ht] at h
        cases h
      | ok u t =>
        rw [Parse.bind_of_ok ht] at h
        obtain ⟨hleaves, htaken, -⟩ := (Parse.abides_topLevel hg (placed_true s) hl).of_ok ht
        have hlt := htaken trivial
        exact ih (hleaves.restores.locals_eq_none hl) (by omega) h

/-- A reading of a program is a run over declarations. -/
theorem readProgram_eq (s : ParseState) : s.readProgram =
    match Parse.topLevelsWithin (.ofDepth s.ahead.length) s.ahead.length s with
    | .ok () s' => (.ok s'.program, { s' with program := {} })
    | .error e s' => (.error e, s') := by
  rw [readProgram, Parse.program, Parse.bind_of_ok (Parse.get_ok s)]
  cases h : Parse.topLevelsWithin (.ofDepth s.ahead.length) s.ahead.length s with
  | ok u s' =>
    rw [Parse.bind_of_ok h]
    rfl
  | error e s' => rw [Parse.bind_of_error h]

/-- A reading succeeds only at the end of the text. -/
theorem ahead_readProgram {s : ParseState} (hl : s.locals = none) {p : Program}
    (h : s.readProgram.1 = .ok p) : s.readProgram.2.ahead = [] := by
  rw [readProgram_eq] at h ⊢
  cases hr : Parse.topLevelsWithin (.ofDepth s.ahead.length) s.ahead.length s with
  | ok u s' =>
    have hahead : s'.ahead = [] :=
      ahead_topLevelsWithin (Grammar.honest_ofDepth _) hl (Nat.le_refl _) hr
    exact hahead
  | error e s' =>
    rw [hr] at h
    cases h

/-- After each of any number of readings the state is in order, and so is the index that the reading
by index has come to. -/
theorem restored_afterReadings (tokens : List Token) (n : Nat) :
    ∃ c c', cursorAfter tokens n = some c ∧ cursorAfter tokens (n + 1) = some c' ∧
      Restored tokens (afterReadings tokens n) (afterReadings tokens (n + 1)) c c' := by
  have hs := resting_afterReadings tokens n
  have hs' := resting_afterReadings tokens (n + 1)
  have hr : (afterReadings tokens n).Restores (afterReadings tokens (n + 1)) :=
    restores_readProgram hs.locals
  have hkept := hr.scopes hs.atFile.rooted
  obtain ⟨c, hc, hshows⟩ := shows_cursorAfter tokens n
  obtain ⟨c', hc', hshows'⟩ := shows_cursorAfter tokens (n + 1)
  exact ⟨c, c', hc, hc', {
    varsDepth := hs'.atFile.vars
    tagsDepth := hs'.atFile.tags
    loopDepth := hs'.loopDepth
    locals := hs'.locals
    state := hshows'.state
    index_le := by
      rw [hshows.index, hshows'.index]
      exact Nat.sub_le_sub_left hr.length_le _
    next := hshows'.index ▸ hshows'.inside.next
    passed := hshows'.index ▸ kind_of_mem_take
    finished := fun p hp => by
      have hahead : (afterReadings tokens (n + 1)).ahead = [] := ahead_readProgram hs.locals hp
      rw [ParseState.next, hahead]
      rfl
    vars := hkept.vars
    tags := hkept.tags }⟩

end ParseState

end StackC
