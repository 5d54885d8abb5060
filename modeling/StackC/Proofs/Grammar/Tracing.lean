import StackC.Proofs.Grammar.Attempts
import StackC.Proofs.Grammar.Positions
import StackC.Proofs.Grammar.Relocation

/-!
A reading by index traces a reader: it needs no token behind the last one, it ends within its
bounds, and it comes to what the reader comes to. The number of tokens ahead bounds the rounds and
the depth that it needs, since a reader uses another one, or itself once more, only behind a token
it has taken.
-/

namespace StackC

namespace ParseState

def facing (s s' : ParseState) : ParseState :=
  { s with ahead := s'.ahead, finish := s'.finish, last := s'.last }

structure Inside (tokens : List Token) (s : ParseState) : Prop where
  ahead : s.ahead <:+ body tokens
  finish : s.finish = (ofTokens tokens).finish
  /-- If a token has been taken, the place of the last one is known. -/
  last : s.ahead.length < (body tokens).length →
    (marked tokens)[s.position tokens - 1]?.map (·.place) = some s.last

theorem inside_ofTokens (tokens : List Token) : (ofTokens tokens).Inside tokens :=
  ⟨List.suffix_refl _, rfl, fun h => absurd h (Nat.lt_irrefl _)⟩

variable {tokens : List Token} {s : ParseState} {t : Token} {ts : List Token}

theorem Inside.length_le (h : s.Inside tokens) :
    s.ahead.length ≤ (body tokens).length := h.ahead.length_le

/-- What stands at the index of the next token and behind it. -/
theorem Inside.drop_marked (h : s.Inside tokens) : ∃ e more,
    (marked tokens).drop (s.position tokens) = s.ahead ++ e :: more ∧ e.kind = .eof ∧
    e.place = s.finish := by
  obtain ⟨e, more, hmarked, hkind, hplace⟩ := marked_eq tokens
  refine ⟨e, more, ?_, hkind, hplace.trans h.finish.symm⟩
  rw [hmarked, position,
    List.drop_append_of_le_length (Nat.sub_le _ _), ← List.suffix_iff_eq_drop.mp h.ahead]

/-- At the end the next token by index is a mark of the end. -/
theorem Inside.at_end (h : s.Inside tokens) (hs : s.ahead = []) :
    ∃ e, (marked tokens)[s.position tokens]? = some e ∧ e.kind = .eof ∧ e.place = s.finish := by
  obtain ⟨e, more, hdrop, hkind, hplace⟩ := h.drop_marked
  refine ⟨e, ?_, hkind, hplace⟩
  rw [← List.head?_drop, hdrop, hs]
  rfl

/-- The tokens at the position reached are those ahead. -/
theorem Inside.at_token (h : s.Inside tokens) (hs : s.ahead = t :: ts) :
    (marked tokens)[s.position tokens]? = some t ∧ t.kind ≠ .eof := by
  obtain ⟨e, more, hdrop, -⟩ := h.drop_marked
  have hmem : t ∈ s.ahead := by rw [hs]; exact List.mem_cons_self
  refine ⟨?_, kind_of_mem_body (h.ahead.subset hmem)⟩
  rw [← List.head?_drop, hdrop, hs]
  rfl

/-- Taking a token moves the position on by one. -/
theorem Inside.position_advance (h : s.Inside tokens) (hs : s.ahead = t :: ts) :
    s.advance.position tokens = s.position tokens + 1 := by
  have hle := h.length_le
  unfold position advance
  rw [hs] at hle ⊢
  rw [List.length_cons] at hle ⊢
  dsimp only
  omega

theorem Inside.advance (h : s.Inside tokens) (hs : s.ahead = t :: ts) :
    s.advance.Inside tokens where
  ahead := by
    have hsuffix := h.ahead
    rw [hs] at hsuffix
    rw [ParseState.advance, hs]
    exact (List.suffix_cons t ts).trans hsuffix
  finish := by
    rw [ParseState.advance, hs]
    exact h.finish
  last _ := by
    rw [h.position_advance hs, Nat.add_sub_cancel, (h.at_token hs).1, ParseState.advance, hs]
    rfl

end ParseState

open ParseState (marked body)

structure Cursor.Shows (tokens : List Token) (c : Cursor) (s : ParseState) : Prop where
  inside : s.Inside tokens
  list : c.tokens = marked tokens
  index : c.index = s.position tokens
  state : s = c.state.facing s

/-- The rest of the state may change. -/
theorem Cursor.Shows.withState {tokens : List Token} {c : Cursor} {s : ParseState}
    (h : c.Shows tokens s) (t : ParseState) :
    ({ c with state := t } : Cursor).Shows tokens (t.facing s) :=
  ⟨{ h.inside with }, h.list, h.index, rfl⟩

theorem Cursor.Shows.map {tokens : List Token} {c : Cursor} {s : ParseState} (h : c.Shows tokens s)
    {f : ParseState → ParseState} (hf : ∀ s s', f (s.facing s') = (f s).facing s') :
    ({ c with state := f c.state } : Cursor).Shows tokens (f s) ∧ (f s).ahead = s.ahead := by
  have hfs : f s = (f c.state).facing s := by
    rw [← hf, ← h.state]
  rw [hfs]
  exact ⟨h.withState _, rfl⟩

namespace Attempt

open Parse (Never Always IfSome)

variable {tokens : List Token} {α β : Type}

/-- A reading by index and a reader come to the same, and the tokens ahead of the reader, which were
`k`, have become fewer if `taken` holds of the result. -/
inductive Mirrors (tokens : List Token) (taken : α → Prop) (k : Nat) :
    Option (EStateM.Result Diagnostic Cursor α) → EStateM.Result Diagnostic ParseState α → Prop
  | ok {a : α} {c : Cursor} {s : ParseState} (shown : c.Shows tokens s) (le : s.ahead.length ≤ k)
    (lt : taken a → s.ahead.length < k) : Mirrors tokens taken k (some (.ok a c)) (.ok a s)
  | error {e : Diagnostic} {c : Cursor} {s : ParseState} (shown : c.Shows tokens s)
    (le : s.ahead.length ≤ k) : Mirrors tokens taken k (some (.error e c)) (.error e s)

def Traces (tokens : List Token) (n : Nat) (taken : α → Prop) (x : Attempt α)
    (y : Parse α) : Prop :=
  ∀ ⦃c s⦄, c.Shows tokens s → s.ahead.length < n → Mirrors tokens taken s.ahead.length (x c) (y s)

theorem bind_of_ok {x : Attempt α} {f : α → Attempt β} {c c' : Cursor} {a : α}
    (h : x c = some (.ok a c')) : (x >>= f) c = f a c' := by
  have he : (x >>= f) c = Attempt.bind x f c := rfl
  rw [he, Attempt.bind, h]

theorem bind_of_error {x : Attempt α} {f : α → Attempt β} {c c' : Cursor} {e : Diagnostic}
    (h : x c = some (.error e c')) : (x >>= f) c = some (.error e c') := by
  have he : (x >>= f) c = Attempt.bind x f c := rfl
  rw [he, Attempt.bind, h]

namespace Mirrors

variable {taken d : α → Prop} {k : Nat} {x : Attempt α} {y : Parse α} {c : Cursor} {s : ParseState}

theorem mono {r : Option (EStateM.Result Diagnostic Cursor α)}
    {r' : EStateM.Result Diagnostic ParseState α} (h : Mirrors tokens d k r r')
    (hd : ∀ a, taken a → d a) : Mirrors tokens taken k r r' := by
  cases h with
  | ok hs hle hlt => exact .ok hs hle fun ha => hlt (hd _ ha)
  | error hs hle => exact .error hs hle

/-- A result for which the first reader or the second has taken a token. -/
theorem bind {taken : β → Prop} {f : α → Attempt β} {f' : α → Parse β}
    (h : Mirrors tokens d k (x c) (y s))
    (hf : ∀ a c' s', c'.Shows tokens s' → s'.ahead.length ≤ k → (d a → s'.ahead.length < k) →
      Mirrors tokens (fun b => taken b ∧ ¬d a) s'.ahead.length (f a c') (f' a s')) :
    Mirrors tokens taken k ((x >>= f) c) ((y >>= f') s) := by
  generalize hx : x c = r at h
  generalize hy : y s = r' at h
  cases h with
  | error hs hle =>
    rw [bind_of_error hx, Parse.bind_of_error hy]
    exact .error hs hle
  | @ok a c' s' hs hle hlt =>
    rw [bind_of_ok hx, Parse.bind_of_ok hy]
    have hrest := hf a c' s' hs hle hlt
    generalize f a c' = r at hrest
    generalize f' a s' = r' at hrest
    cases hrest with
    | error hs' hle' => exact .error hs' (hle'.trans hle)
    | @ok b c'' s'' hs' hle' hlt' =>
      refine .ok hs' (hle'.trans hle) fun hb => ?_
      -- One of the two readers has taken a token, and neither gives one back.
      by_cases hda : d a
      · exact Nat.lt_of_le_of_lt hle' (hlt hda)
      · exact Nat.lt_of_lt_of_le (hlt' ⟨hb, hda⟩) hle

end Mirrors

namespace Traces

variable {n m : Nat} {taken d : α → Prop} {x : Attempt α} {y : Parse α}

/-- A reader that is never used. -/
theorem zero : Traces tokens 0 taken x y := fun _ _ _ hn => absurd hn (Nat.not_lt_zero _)

theorem mono (h : Traces tokens m taken x y) (hle : n ≤ m) : Traces tokens n taken x y :=
  fun _ _ hs hn => h hs (Nat.lt_of_lt_of_le hn hle)

theorem weaken (h : Traces tokens n d x y) (hd : ∀ a, taken a → d a) : Traces tokens n taken x y :=
  fun _ _ hs hn => (h hs hn).mono hd

/-- What has taken a token for sure may also count as having taken none. -/
theorem free (h : Traces tokens n taken x y) : Traces tokens n Never x y :=
  h.weaken fun _ => False.elim

theorem pure {a : α} (ha : ¬taken a) : Traces tokens n taken (Pure.pure a) (Pure.pure a) :=
  fun _ _ hs _ => .ok hs (Nat.le_refl _) fun h => absurd h ha

/-- The end of a reader that gives a result and takes nothing more. -/
theorem done (a : α) : Traces tokens n Never (Pure.pure a) (Pure.pure a) := .pure id

theorem nothing : Traces tokens n IfSome (Pure.pure (none : Option α)) (Pure.pure none) :=
  .pure Bool.false_ne_true

variable {taken : β → Prop} {f : α → Attempt β} {f' : α → Parse β}

/-- Where the first reader has taken a token, fewer are ahead of the second one. -/
theorem branch (h : Traces tokens (n + 1) d x y)
    (htaken : ∀ a, d a → Traces tokens n Never (f a) (f' a))
    (hnot : ∀ a, ¬d a → Traces tokens (n + 1) taken (f a) (f' a)) :
    Traces tokens (n + 1) taken (x >>= f) (y >>= f') := by
  intro c s hs hn
  refine (h hs hn).bind fun a c' s' hs' hle hlt => ?_
  by_cases ha : d a
  · have hn' := Nat.lt_of_lt_of_le (hlt ha) (Nat.le_of_lt_succ hn)
    exact (htaken a ha hs' hn').mono fun _ hb => absurd ha hb.2
  · exact (hnot a ha hs' (Nat.lt_of_le_of_lt hle hn)).mono fun _ hb => hb.1

theorem bind (h : Traces tokens n Never x y) (hf : ∀ a, Traces tokens n taken (f a) (f' a)) :
    Traces tokens n taken (x >>= f) (y >>= f') := by
  cases n with
  | zero => exact .zero
  | succ n => exact h.branch (fun _ => False.elim) fun a _ => hf a

theorem first (h : Traces tokens (n + 1) Always x y)
    (hf : ∀ a, Traces tokens n Never (f a) (f' a)) :
    Traces tokens (n + 1) taken (x >>= f) (y >>= f') :=
  h.branch (fun a _ => hf a) fun _ ha => absurd trivial ha

/-- As `first`, where it does not matter that fewer tokens are ahead. -/
theorem first' (h : Traces tokens n Always x y) (hf : ∀ a, Traces tokens n Never (f a) (f' a)) :
    Traces tokens n taken (x >>= f) (y >>= f') := by
  cases n with
  | zero => exact .zero
  | succ n => exact h.first fun a => (hf a).mono (Nat.le_succ n)

end Traces

variable {n : Nat} {taken : α → Prop} {c : Cursor} {s : ParseState}

/-- Looking up the next token by its index gives the token that the reader sees. -/
theorem next_of_shows (hs : c.Shows tokens s) : next c = some (.ok s.next c) := by
  unfold next ParseState.next
  rw [hs.list, hs.index]
  cases ha : s.ahead with
  | nil =>
    obtain ⟨e, he, hkind, hplace⟩ := hs.inside.at_end ha
    rw [he, Option.map_some, if_pos hkind, hplace]
    rfl
  | cons t ts =>
    obtain ⟨ht, hkind⟩ := hs.inside.at_token ha
    rw [ht, Option.map_some, if_neg hkind]
    rfl

/-- The next token is a mark of the end exactly if no token is ahead. -/
theorem next_eof_iff (hs : c.Shows tokens s) : s.next.kind = .eof ↔ s.ahead = [] := by
  unfold ParseState.next
  cases ha : s.ahead with
  | nil => exact ⟨fun _ => rfl, fun _ => rfl⟩
  | cons t ts => exact ⟨fun h => absurd h (hs.inside.at_token ha).2, fun h => by cases h⟩

/-- Taking a token moves the index on. -/
theorem advance_of_shows {t : Token} {ts : List Token} (hs : c.Shows tokens s)
    (ha : s.ahead = t :: ts) :
    ∃ c', advance c = some (.ok () c') ∧ c'.Shows tokens s.advance := by
  obtain ⟨ht, hkind⟩ := hs.inside.at_token ha
  refine ⟨{ c with index := c.index + 1 }, ?_, hs.inside.advance ha, hs.list, ?_, ?_⟩
  · rw [advance, hs.list, hs.index, ht, Option.map_some, if_neg hkind, ← hs.index, ← hs.list]
  · rw [hs.inside.position_advance ha, ← hs.index]
  · have hstate := hs.state
    rw [ParseState.advance, ha]
    rw [hstate]
    rfl

/-- A look at the next token. -/
theorem Traces.look {f : Token → Attempt α} {f' : Token → Parse α}
    (h : ∀ c s, c.Shows tokens s → s.ahead.length < n →
      Mirrors tokens taken s.ahead.length (f s.next c) (f' s.next s)) :
    Traces tokens n taken (next >>= f) (Parse.next >>= f') := by
  intro c s hs hn
  rw [bind_of_ok (next_of_shows hs)]
  exact h c s hs hn

theorem traces_next : Traces tokens n Never next Parse.next := by
  intro c s hs _
  rw [next_of_shows hs]
  exact .ok hs (Nat.le_refl _) False.elim

theorem traces_here : Traces tokens n Never here Parse.here :=
  .bind traces_next fun t => .done t.place

theorem check_of_shows (hs : c.Shows tokens s) (text : String) :
    check text c = some (.ok (s.next.isReserved text) c) :=
  bind_of_ok (next_of_shows hs)

theorem traces_check (text : String) : Traces tokens n Never (check text) (Parse.check text) :=
  .bind traces_next fun t => .done (t.isReserved text)

theorem traces_atType : Traces tokens n Never atType Parse.atType :=
  .bind traces_next fun t => .done (Parse.beginsType t)

theorem traces_atEnd : Traces tokens n Never atEnd Parse.atEnd := by
  intro c s hs _
  have hsame : (s.next.kind == .eof) = s.ahead.isEmpty := by
    rw [Bool.eq_iff_iff, beq_iff_eq, List.isEmpty_iff]
    exact next_eof_iff hs
  have hend : atEnd c = some (.ok (s.next.kind == .eof) c) := bind_of_ok (next_of_shows hs)
  rw [hend, hsame]
  exact .ok hs (Nat.le_refl _) False.elim

/-- Where fewer tokens are ahead than there are, one has been taken. -/
theorem traces_lastPlace (hn : n ≤ (body tokens).length) :
    Traces tokens n Never lastPlace Parse.lastPlace := by
  intro c s hs hlt
  have hlast := hs.inside.last (Nat.lt_of_lt_of_le hlt hn)
  obtain ⟨t, ht, hplace⟩ := Option.map_eq_some_iff.mp hlast
  have hc : lastPlace c = some (.ok s.last c) := by
    rw [lastPlace, hs.list, hs.index, ht, Option.map_some, hplace]
  rw [hc]
  exact .ok hs (Nat.le_refl _) False.elim

/-- Before a token there is one behind it, be it the mark of the end. -/
theorem second_of_shows {test : Token → Bool} (htest : ∀ t, t.kind = .eof → test t = false)
    (hs : c.Shows tokens s) (hk : s.next.kind ≠ .eof) :
    second test c = some (.ok (s.ahead.tail.head?.any test) c) := by
  obtain ⟨t, ts, hts⟩ := List.exists_cons_of_ne_nil (mt (next_eof_iff hs).mpr hk)
  obtain ⟨e, more, hdrop, hend, -⟩ := hs.inside.drop_marked
  have hget : (marked tokens)[s.position tokens + 1]? = (ts ++ e :: more).head? := by
    rw [← List.head?_drop, ← List.drop_drop, hdrop, hts]
    rfl
  rw [second, hs.list, hs.index, hget, hts]
  cases ts with
  -- Behind the last token stands the mark of the end, which passes no test.
  | nil =>
    simp only [List.nil_append, List.head?_cons, Option.any_some, htest e hend, List.tail_cons,
      List.head?_nil, Option.any_none]
  | cons u us => rfl

/-- A look at the token behind the next one, which is not a mark of the end. -/
theorem mirrors_second {test : Token → Bool} {m : Parse Bool} {f : Bool → Attempt α}
    {f' : Bool → Parse α} {k : Nat} (hm : ∀ s, m s = .ok (s.ahead.tail.head?.any test) s)
    (htest : ∀ t, t.kind = .eof → test t = false) (hs : c.Shows tokens s) (hk : s.next.kind ≠ .eof)
    (hf : ∀ b, Mirrors tokens taken k (f b c) (f' b s)) :
    Mirrors tokens taken k ((second test >>= f) c) ((m >>= f') s) := by
  rw [bind_of_ok (second_of_shows htest hs hk), Parse.bind_of_ok (hm s)]
  exact hf _

/-- Takes the next token, which is not a mark of the end. -/
theorem mirrors_take {x : Attempt α} {y : Parse α} (hs : c.Shows tokens s) (hk : s.next.kind ≠ .eof)
    (hn : s.ahead.length < n + 1) (h : Traces tokens n Never x y) :
    Mirrors tokens taken s.ahead.length ((do advance; x) c) ((do Parse.advance; y) s) := by
  obtain ⟨t, ts, ha⟩ := List.exists_cons_of_ne_nil (mt (next_eof_iff hs).mpr hk)
  obtain ⟨c', hc', hs'⟩ := advance_of_shows hs ha
  have hadvance : Parse.advance s = .ok () s.advance := rfl
  have hlen : s.advance.ahead.length = ts.length := by rw [ParseState.advance, ha]
  rw [bind_of_ok hc', Parse.bind_of_ok hadvance]
  rw [ha, List.length_cons] at hn ⊢
  have hrest := h hs' (by omega)
  generalize x c' = r at hrest
  generalize y s.advance = r' at hrest
  cases hrest with
  | error hs'' hle => exact .error hs'' (by omega)
  | ok hs'' hle _ => exact .ok hs'' (by omega) fun _ => by omega

theorem Traces.throw (e : Diagnostic) :
    Traces tokens n taken (aside (MonadExcept.throw e)) (MonadExcept.throw e) :=
  fun _ _ hs _ => .error hs (Nat.le_refl _)

theorem traces_grammarFault (f : GrammarFault) :
    Traces tokens n taken (grammarFault f) (Parse.grammarFault f) :=
  .bind traces_here fun _ => .throw _

/-- A token is accepted by both or by neither. -/
theorem traces_accept (text : String) : Traces tokens n (· = true) (accept text)
    (Parse.accept text) := by
  intro c s hs _
  have hcheck := check_of_shows hs text
  have hcheck' : Parse.check text s = .ok (s.next.isReserved text) s := rfl
  rw [accept, Parse.accept, bind_of_ok hcheck, Parse.bind_of_ok hcheck']
  split
  · next h =>
    exact mirrors_take hs (Parse.kind_ne_eof_of_isReserved h) (Nat.lt_succ_self _) (.done true)
  · exact .ok hs (Nat.le_refl _) fun h => by cases h

/-- What follows depends on whether the token is there. -/
theorem mirrors_accept {text : String} {x y : Attempt α} {x' y' : Parse α} (hs : c.Shows tokens s)
    (hn : s.ahead.length < n + 1) (hx : Traces tokens n Never x x')
    (hy : Mirrors tokens taken s.ahead.length (y c) (y' s)) :
    Mirrors tokens taken s.ahead.length ((do if ← accept text then x else y) c)
      ((do if ← Parse.accept text then x' else y') s) := by
  have hcheck := check_of_shows hs text
  cases h : s.next.isReserved text with
  | false =>
    rw [h] at hcheck
    have hc : accept text c = some (.ok false c) := bind_of_ok hcheck
    rw [bind_of_ok hc, Parse.bind_of_ok (Parse.accept_of_not h)]
    exact hy
  | true =>
    have hk := Parse.kind_ne_eof_of_isReserved h
    obtain ⟨t, ts, ha⟩ := List.exists_cons_of_ne_nil (mt (next_eof_iff hs).mpr hk)
    obtain ⟨c', hadvance, -⟩ := advance_of_shows hs ha
    rw [h] at hcheck
    have hc : accept text c = some (.ok true c') := (bind_of_ok hcheck).trans (bind_of_ok hadvance)
    have htake : Mirrors tokens taken s.ahead.length ((do advance; x) c)
        ((do Parse.advance; x') s) :=
      mirrors_take hs hk hn hx
    rw [bind_of_ok hadvance] at htake
    rw [bind_of_ok hc, Parse.bind_of_ok (Parse.accept_of_isReserved h)]
    exact htake

theorem Traces.accept {text : String} {x y : Attempt α} {x' y' : Parse α}
    (hx : Traces tokens n Never x x') (hy : Traces tokens (n + 1) taken y y') :
    Traces tokens (n + 1) taken (do if ← accept text then x else y)
      (do if ← Parse.accept text then x' else y') :=
  fun _ _ hs hn => mirrors_accept hs hn hx (hy hs hn)

/-- As `accept`, where it does not matter that fewer tokens are ahead. -/
theorem Traces.accept' {text : String} {x y : Attempt α} {x' y' : Parse α}
    (hx : Traces tokens n Never x x') (hy : Traces tokens n taken y y') :
    Traces tokens n taken (do if ← Attempt.accept text then x else y)
      (do if ← Parse.accept text then x' else y') := by
  cases n with
  | zero => exact .zero
  | succ n => exact .accept (hx.mono (Nat.le_succ n)) hy

theorem traces_acceptOne (table : List (String × β)) :
    Traces tokens n IfSome (acceptOne table) (Parse.acceptOne table) := by
  refine .look fun c s hs _ => ?_
  split
  · next hk =>
    cases table.lookup s.next.text with
    | some b => exact mirrors_take hs (hk ▸ TokenKind.noConfusion) (Nat.lt_succ_self _) (.done _)
    | none => exact .ok hs (Nat.le_refl _) fun h => by cases h
  · exact .ok hs (Nat.le_refl _) fun h => by cases h

/-- What follows depends on which of the tokens is there. -/
theorem Traces.acceptOne {table : List (String × β)} {f : Option (β × Location) → Attempt α}
    {f' : Option (β × Location) → Parse α}
    (hsome : ∀ b p, Traces tokens n Never (f (some (b, p))) (f' (some (b, p))))
    (hnone : Traces tokens (n + 1) taken (f none) (f' none)) :
    Traces tokens (n + 1) taken (acceptOne table >>= f) (Parse.acceptOne table >>= f') := by
  refine .branch (traces_acceptOne table) (fun o ho => ?_) fun o ho => ?_
  · obtain ⟨⟨b, p⟩, rfl⟩ := Option.isSome_iff_exists.mp ho
    exact hsome b p
  · obtain rfl := Option.not_isSome_iff_eq_none.mp ho
    exact hnone

/-- As `acceptOne`, where it does not matter that fewer tokens are ahead. -/
theorem Traces.acceptOne' {table : List (String × β)} {f : Option (β × Location) → Attempt α}
    {f' : Option (β × Location) → Parse α}
    (hsome : ∀ b p, Traces tokens n Never (f (some (b, p))) (f' (some (b, p))))
    (hnone : Traces tokens n taken (f none) (f' none)) :
    Traces tokens n taken (Attempt.acceptOne table >>= f) (Parse.acceptOne table >>= f') := by
  cases n with
  | zero => exact .zero
  | succ n => exact .acceptOne (fun b p => (hsome b p).mono (Nat.le_succ n)) hnone

theorem traces_expect (text context : String) :
    Traces tokens n Always (expect text context) (Parse.expect text context) := by
  cases n with
  | zero => exact .zero
  | succ n => exact .accept (.done ()) (.bind traces_next fun _ => traces_grammarFault _)

theorem Traces.expect {text context : String} {x : Attempt α} {y : Parse α}
    (h : Traces tokens n Never x y) :
    Traces tokens (n + 1) taken (do Attempt.expect text context; x)
      (do Parse.expect text context; y) :=
  .first (traces_expect text context) fun _ => h

theorem Traces.expect' {text context : String} {x : Attempt α} {y : Parse α}
    (h : Traces tokens n Never x y) :
    Traces tokens n taken (do Attempt.expect text context; x) (do Parse.expect text context; y) :=
  .first' (traces_expect text context) fun _ => h

theorem traces_identifier : Traces tokens n Always identifier Parse.identifier := by
  refine .look fun c s hs hn => ?_
  split
  · next hk => exact mirrors_take hs (hk ▸ TokenKind.noConfusion) (Nat.lt_succ_self _) (.done _)
  · exact traces_grammarFault _ hs hn

theorem traces_number : Traces tokens n Always number Parse.number := by
  refine .look fun c s hs hn => ?_
  cases hk : s.next.kind with
  | num v => exact mirrors_take hs (hk ▸ TokenKind.noConfusion) (Nat.lt_succ_self _) (.done _)
  | _ => exact traces_grammarFault _ hs hn

/-- A look at the next token and, if it is the given one, at the token behind it. -/
theorem Traces.checkBoth {text : String} {test : Token → Bool} {m : Parse Bool}
    (hm : ∀ s, m s = .ok (s.ahead.tail.head?.any test) s)
    (htest : ∀ t, t.kind = .eof → test t = false)
    {x y : Attempt α} {x' y' : Parse α} (hx : Traces tokens n taken x x')
    (hy : Traces tokens n taken y y') :
    Traces tokens n taken (do if ← checkBoth text test then x else y)
      (do if (← Parse.check text) && (← m) then x' else y') := by
  intro c s hs hn
  have hcheck := check_of_shows hs text
  have hcheck' : Parse.check text s = .ok (s.next.isReserved text) s := rfl
  have hboth : Attempt.checkBoth text test c =
      some (.ok (s.next.isReserved text && s.ahead.tail.head?.any test) c) := by
    rw [Attempt.checkBoth, bind_of_ok hcheck]
    cases h : s.next.isReserved text with
    | false => rfl
    | true => exact second_of_shows htest hs (Parse.kind_ne_eof_of_isReserved h)
  rw [bind_of_ok hboth, Parse.bind_of_ok hcheck', Parse.bind_of_ok (hm s)]
  split
  · exact hx hs hn
  · exact hy hs hn

/-- The mark of the end is not taken, and all else is. -/
theorem traces_advance : Traces tokens n Never advance Parse.advance := by
  intro c s hs _
  have hadvance : Parse.advance s = .ok () s.advance := rfl
  rw [hadvance]
  cases ha : s.ahead with
  | nil =>
    obtain ⟨e, he, hkind, -⟩ := hs.inside.at_end ha
    have hc : advance c = some (.ok () c) := by
      rw [advance, hs.list, hs.index, he, Option.map_some, if_pos hkind]
    have hstay : s.advance = s := by rw [ParseState.advance, ha]
    rw [hc, hstay]
    exact .ok hs (by rw [ha]) False.elim
  | cons t ts =>
    obtain ⟨c', hc', hs'⟩ := advance_of_shows hs ha
    have hlen : s.advance.ahead = ts := by rw [ParseState.advance, ha]
    rw [hc']
    exact .ok hs' (by rw [hlen]; exact Nat.le_succ _) False.elim

/-- The tokens ahead bound the rounds of the reader. -/
theorem Traces.rounds {x : Attempt α} {f : List Token → Parse α}
    (h : ∀ m ≤ n, ∀ ts, m ≤ ts.length → Traces tokens m taken x (f ts)) :
    Traces tokens n taken x (Parse.rounds >>= f) := by
  intro c s hs hn
  -- The rounds of the reader are one more than the tokens ahead, for the mark of the end.
  exact h (s.ahead.length + 1) hn (.atEnd s.finish :: s.ahead) (Nat.le_refl _) hs
    (Nat.lt_succ_self _)

/-- As each round takes a token, neither loop runs out of rounds. -/
theorem traces_collectWithin {item : Attempt (Option α)} {item' : Parse (Option α)}
    (hi : Traces tokens n IfSome item item') {m r : Nat} (hm : m ≤ n) (hr : m ≤ r) {ts : List Token}
    (hts : m ≤ ts.length) :
    Traces tokens m Never (collect item r) (Parse.collectWithin item' ts) := by
  -- By the bound on the tokens ahead: a round that gives something takes a token.
  induction m generalizing r ts with
  | zero => exact .zero
  | succ m ih =>
    obtain ⟨r, rfl⟩ := Nat.exists_eq_succ_of_ne_zero (Nat.ne_zero_of_lt hr)
    obtain ⟨t, ts, rfl⟩ := List.exists_cons_of_length_pos (Nat.lt_of_lt_of_le (Nat.succ_pos m) hts)
    refine .branch (hi.mono hm) (fun o ho => ?_) fun o ho => ?_
    · obtain ⟨a, rfl⟩ := Option.isSome_iff_exists.mp ho
      have hrest := ih (Nat.le_of_succ_le hm) (Nat.le_of_succ_le_succ hr)
        (Nat.le_of_succ_le_succ hts)
      exact .bind hrest fun as => .done (a :: as)
    · obtain rfl := Option.not_isSome_iff_eq_none.mp ho
      exact .done []

theorem traces_collect {item : Attempt (Option α)} {item' : Parse (Option α)}
    (hi : Traces tokens n IfSome item item') {r : Nat} (hr : n ≤ r) :
    Traces tokens n Never (collect item r) (Parse.collect item') :=
  .rounds fun _ hm _ hts => traces_collectWithin hi hm (Nat.le_trans hm hr) hts

/-- The same of a loop that acts on its own result. -/
theorem traces_growWithin {step : α → Attempt (Option α)} {step' : α → Parse (Option α)}
    (hi : ∀ a, Traces tokens n IfSome (step a) (step' a)) {m r : Nat} (hm : m ≤ n) (hr : m ≤ r)
    {ts : List Token} (hts : m ≤ ts.length) (a : α) :
    Traces tokens m Never (grow step r a) (Parse.growWithin step' ts a) := by
  induction m generalizing r ts a with
  | zero => exact .zero
  | succ m ih =>
    obtain ⟨r, rfl⟩ := Nat.exists_eq_succ_of_ne_zero (Nat.ne_zero_of_lt hr)
    obtain ⟨t, ts, rfl⟩ := List.exists_cons_of_length_pos (Nat.lt_of_lt_of_le (Nat.succ_pos m) hts)
    refine .branch ((hi a).mono hm) (fun o ho => ?_) fun o ho => ?_
    · obtain ⟨b, rfl⟩ := Option.isSome_iff_exists.mp ho
      exact ih (Nat.le_of_succ_le hm) (Nat.le_of_succ_le_succ hr) (Nat.le_of_succ_le_succ hts) b
    · obtain rfl := Option.not_isSome_iff_eq_none.mp ho
      exact .done a

theorem traces_grow {step : α → Attempt (Option α)} {step' : α → Parse (Option α)}
    (hi : ∀ a, Traces tokens n IfSome (step a) (step' a)) {r : Nat} (hr : n ≤ r) (a : α) :
    Traces tokens n Never (grow step r a) (Parse.grow step' a) :=
  .rounds fun _ hm _ hts => traces_growWithin hi hm (Nat.le_trans hm hr) hts a

theorem traces_separated {item : Attempt α} {item' : Parse α}
    (hi : Traces tokens n Never item item') {r : Nat} (hr : n ≤ r) :
    Traces tokens n Never (separated item r) (Parse.separated item') := by
  have hitem : Traces tokens n IfSome
      (do if ← accept "," then return some (← item) else return none)
      (do if ← Parse.accept "," then return some (← item') else return none) :=
    .accept' (.bind hi fun a => .done (some a)) .nothing
  exact .bind hi fun a => .bind (traces_collect hitem hr) fun as => .done (a :: as)

/-- A change that does not look at tokens may stand around a reading. -/
theorem Traces.between {x : Attempt α} {y : Parse α} {before after : ParseState → ParseState}
    (hb : ∀ s s', before (s.facing s') = (before s).facing s')
    (ha : ∀ s s', after (s.facing s') = (after s).facing s') (h : Traces tokens n taken x y) :
    Traces tokens n taken (between before after x) (Parse.between before after y) := by
  intro c s hs hn
  obtain ⟨hbefore, hlen⟩ := hs.map hb
  have hbody := h hbefore (by rw [hlen]; exact hn)
  rw [hlen] at hbody
  unfold Attempt.between Parse.between
  generalize x _ = r at hbody
  generalize y _ = r' at hbody
  cases hbody with
  | ok hs' hle hlt =>
    obtain ⟨hafter, hlen'⟩ := hs'.map ha
    refine .ok hafter ?_ fun ht => ?_
    · rw [hlen']
      exact hle
    · rw [hlen']
      exact hlt ht
  | error hs' hle =>
    obtain ⟨hafter, hlen'⟩ := hs'.map ha
    refine .error hafter ?_
    rw [hlen']
    exact hle

theorem traces_inScope {x : Attempt α} {y : Parse α} (h : Traces tokens n taken x y) :
    Traces tokens n taken (inScope x) (Parse.inScope y) :=
  .between (fun _ _ => rfl) (fun _ _ => rfl) h

theorem traces_inLoop {x : Attempt α} {y : Parse α} (h : Traces tokens n taken x y) :
    Traces tokens n taken (inLoop x) (Parse.inLoop y) :=
  .between (fun _ _ => rfl) (fun _ _ => rfl) h

theorem traces_inFunction {x : Attempt α} {y : Parse α} (h : Traces tokens n taken x y) :
    Traces tokens n taken (inFunction x) (Parse.inFunction y) :=
  .between (fun _ _ => rfl) (fun _ _ => rfl) h

def Tokenless (x : Parse α) : Prop :=
  ∀ s s', x (s.facing s') = match x s with
    | .ok a t => .ok a (t.facing s')
    | .error e t => .error e (t.facing s')

namespace Tokenless

variable {x : Parse α} {f : α → Parse β}

theorem pure (a : α) : Tokenless (Pure.pure a) := fun _ _ => rfl

theorem throw (e : Diagnostic) : Tokenless (MonadExcept.throw e : Parse α) := fun _ _ => rfl

theorem bind (hx : Tokenless x) (hf : ∀ a, Tokenless (f a)) : Tokenless (x >>= f) := by
  intro s s'
  have h := hx s s'
  cases hr : x s with
  | error e t =>
    rw [hr] at h
    rw [Parse.bind_of_error hr, Parse.bind_of_error h]
  | ok a t =>
    rw [hr] at h
    rw [Parse.bind_of_ok hr, Parse.bind_of_ok h]
    exact hf a t s'

/-- A question to the state that is not about tokens. -/
theorem get {f : ParseState → Parse α} (hq : ∀ s s', f (s.facing s') = f s)
    (hf : ∀ s, Tokenless (f s)) :
    Tokenless (MonadState.get >>= f) := by
  intro s s'
  rw [Parse.bind_of_ok (Parse.get_ok _), Parse.bind_of_ok (Parse.get_ok _), hq]
  exact hf s s s'

theorem modify {f : ParseState → ParseState} (h : ∀ s s', f (s.facing s') = (f s).facing s') :
    Tokenless (modify f) :=
  fun s s' => congrArg (EStateM.Result.ok PUnit.unit) (h s s')

/-- A step that depends on no token is the same by index. -/
theorem traces (h : Tokenless x) : Traces tokens n Never (aside x) x := by
  intro c s hs _
  have hx := h c.state s
  rw [← hs.state] at hx
  rw [hx, aside]
  cases x c.state with
  | ok a t => exact .ok (hs.withState t) (Nat.le_refl _) False.elim
  | error e t => exact .error (hs.withState t) (Nat.le_refl _)

end Tokenless

/-- What follows depends on the state, but on none of its tokens. -/
theorem Traces.ask {q : ParseState → β} {f : β → Attempt α} {f' : ParseState → Parse α}
    (hq : ∀ s s', q (s.facing s') = q s) (hf : ∀ s, Traces tokens n taken (f (q s)) (f' s)) :
    Traces tokens n taken (ask q >>= f) (get >>= f') := by
  intro c s hs hn
  have hqs : q c.state = q s := by rw [hs.state, hq]
  have hc : Attempt.ask q c = some (.ok (q s) c) := by rw [Attempt.ask, hqs]
  rw [bind_of_ok hc, Parse.bind_of_ok (Parse.get_ok s)]
  exact hf s hs hn

theorem tokenless_declarationFault (f : DeclarationFault) (p : Location) :
    Tokenless (Parse.declarationFault f p : Parse α) :=
  .throw _

theorem tokenless_newVar (v : Var) : Tokenless (Parse.newVar v) := fun _ _ => rfl

theorem tokenless_declareLocal (name : String) (t : CType) (p : Location) :
    Tokenless (Parse.declareLocal name t p) := by
  refine .bind (tokenless_newVar _) fun id => .get (fun _ _ => rfl) fun s => ?_
  cases s.scopes.declareVar? name id with
  | none => exact tokenless_declarationFault _ p
  | some scopes =>
    refine .bind (.modify fun _ _ => rfl) fun _ => .get (fun _ _ => rfl) fun s => ?_
    cases s.locals with
    | none => exact tokenless_declarationFault _ p
    | some ids => exact .bind (.modify fun _ _ => rfl) fun _ => .pure id

theorem tokenless_stringLiteral (bytes : List UInt8) : Tokenless (Parse.stringLiteral bytes) := by
  refine .get (fun _ _ => rfl) fun s => .bind (.modify fun _ _ => rfl) fun _ => ?_
  exact .bind (tokenless_newVar _) fun id => .bind (.modify fun _ _ => rfl) fun _ => .pure id

theorem tokenless_checkFrame (p : Location) : Tokenless (Parse.checkFrame p) := by
  refine .get (fun _ _ => rfl) fun s => ?_
  dsimp only
  split
  · exact tokenless_declarationFault _ p
  · exact .pure ()

theorem tokenless_applyDimensions (outermost : Bool) (t : CType)
    (dims : List (Option Nat × Location)) :
    Tokenless (Parse.applyDimensions outermost t dims) := by
  induction dims generalizing outermost with
  | nil => exact .pure t
  | cons d dims ih =>
    refine .bind (ih false) fun element => ?_
    split
    · exact tokenless_declarationFault _ _
    · split
      · exact tokenless_declarationFault _ _
      · split
        · exact tokenless_declarationFault _ _
        · exact .pure _

theorem tokenless_checkObject (d : Declarator) : Tokenless (Parse.checkObject d) := by
  unfold Parse.checkObject
  split
  · exact tokenless_declarationFault _ _
  · exact .pure ()

theorem tokenless_declareStruct (tag : Option String) (fields : List (String × CType))
    (p : Location) :
    Tokenless (Parse.declareStruct tag fields p) := by
  refine .bind (.modify fun _ _ => rfl) fun _ => .get (fun _ _ => rfl) fun s => ?_
  cases Layout.ofFields s.structCount tag fields with
  | error name => exact tokenless_declarationFault _ p
  | ok l =>
    cases tag with
    | none => exact .pure _
    | some name =>
      dsimp only
      cases s.scopes.declareTag? name (.structOf l) with
      | none => exact tokenless_declarationFault _ p
      | some scopes => exact .bind (.modify fun _ _ => rfl) fun _ => .pure _

theorem tokenless_update (op : BinaryOp) (target value : Node) (p : Location) :
    Tokenless (Parse.update op target value p) := by
  unfold Parse.update
  split
  · exact .throw _
  · exact .pure _

theorem tokenless_applyPrefix (mark : Parse.PrefixMark) (p : Location) (e : Node) :
    Tokenless (Parse.applyPrefix mark p e) := by
  cases mark with
  | increment | decrement => exact tokenless_update _ _ _ _
  | _ => exact .pure _

theorem tokenless_namedVariable (name : String) (p : Location) :
    Tokenless (Parse.namedVariable name p) := by
  refine .get (fun _ _ => rfl) fun s => ?_
  cases s.scopes.var? name with
  | none => exact tokenless_declarationFault _ p
  | some id => exact .pure _

theorem tokenless_initialBytes (t : CType) (init : Option Initializer) :
    Tokenless (Parse.initialBytes t init) := by
  cases init with
  | none => exact .pure none
  | some init =>
    unfold Parse.initialBytes
    dsimp only
    cases init.data t with
    | ok bytes => exact .pure _
    | error e => exact .throw e

/-- Entering a global variable depends on no token. -/
theorem tokenless_bindGlobal (d : Declarator) (t : CType) (bytes : Option (List UInt8)) :
    Tokenless (Parse.bindGlobal d t bytes) := by
  intro s s'
  rw [Parse.bindGlobal, Parse.bind_of_ok (Parse.get_ok _), Parse.bind_of_ok (Parse.get_ok _)]
  -- The state is stored as a whole, so that the rule for questions to the state does not apply.
  have hscopes : (s.facing s').scopes = s.scopes := rfl
  have hprogram : (s.facing s').program = s.program := rfl
  rw [hscopes, hprogram]
  cases s.scopes.innermostVar? d.name with
  | none =>
    refine Tokenless.bind (tokenless_newVar _) (fun id => .get (fun _ _ => rfl) fun s => ?_) s s'
    cases s.scopes.declareVar? d.name id with
    | none => exact tokenless_declarationFault _ _
    | some scopes => exact .modify fun _ _ => rfl
  | some id =>
    dsimp only
    cases s.program.var? id with
    | none => rfl
    | some v =>
      dsimp only
      split
      · rfl
      · cases bytes with
        | none => rfl
        | some bytes => rcases v.storage with _ | _ | _ <;> rfl

theorem tokenless_declareParams (ds : List Declarator) : Tokenless (Parse.declareParams ds) := by
  induction ds with
  | nil => exact .pure []
  | cons d ds ih =>
    exact .bind (tokenless_declareLocal _ _ _) fun id => .bind ih fun ids => .pure (id :: ids)

/-- Nor does entering a function. -/
theorem tokenless_registerFunction (f : Function) (isDefinition : Bool) :
    Tokenless (Parse.registerFunction f isDefinition) := by
  intro s s'
  rw [Parse.registerFunction, Parse.bind_of_ok (Parse.get_ok _), Parse.bind_of_ok (Parse.get_ok _)]
  have hscopes : (s.facing s').scopes = s.scopes := rfl
  have hprogram : (s.facing s').program = s.program := rfl
  rw [hscopes, hprogram]
  split
  · rfl
  · cases s.program.function? f.name with
    | none => rfl
    | some earlier =>
      dsimp only
      split
      · rfl
      · split
        · rfl
        · split
          · rfl
          · rfl

mutual

/-- Nor do the stores of an initializer. -/
theorem tokenless_stores (target : Node) (t : CType) :
    (init : Initializer) → Tokenless (init.stores target t)
  | .expr value => by
    unfold Initializer.stores
    split
    · exact tokenless_declarationFault _ _
    · exact tokenless_declarationFault _ _
    · exact .pure _
  | .str bytes p => by
    unfold Initializer.stores
    split
    · dsimp only
      split
      · exact tokenless_declarationFault _ p
      · split
        · exact tokenless_declarationFault _ p
        · exact .pure _
    · exact tokenless_declarationFault _ p
    · exact .bind (tokenless_stringLiteral bytes) fun id => .pure _
  | .list items p => by
    unfold Initializer.stores
    split
    · dsimp only
      split
      · exact tokenless_declarationFault _ p
      · exact .bind (tokenless_elementStores target _ p 0 items) fun _ => .pure _
    · split
      · exact tokenless_declarationFault _ p
      · exact tokenless_memberStores target p _ items
    · match items with
      | [] => exact tokenless_declarationFault _ p
      | [item] => exact tokenless_stores target t item
      | _ :: _ :: _ => exact tokenless_declarationFault _ p

theorem tokenless_elementStores (target : Node) (base : CType) (p : Location) (i : Nat) :
    (items : List Initializer) → Tokenless (Initializer.elementStores target base p i items)
  | [] => .pure []
  | item :: items => by
    unfold Initializer.elementStores
    refine .bind (tokenless_stores _ base item) fun front => ?_
    exact .bind (tokenless_elementStores target base p (i + 1) items) fun _ => .pure _

theorem tokenless_memberStores (target : Node) (p : Location) (members : List (Member CType)) :
    (items : List Initializer) → Tokenless (Initializer.memberStores target p members items)
  | [] => by
    unfold Initializer.memberStores
    exact .pure _
  | item :: items => by
    unfold Initializer.memberStores
    cases members with
    | nil => exact .pure []
    | cons m members =>
      refine .bind (tokenless_stores _ m.type item) fun front => ?_
      exact .bind (tokenless_memberStores target p members items) fun _ => .pure _

end

end Attempt

end StackC
