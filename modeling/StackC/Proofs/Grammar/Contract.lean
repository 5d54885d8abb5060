import StackC.Proofs.Chains
import StackC.Proofs.Grammar.Reading
import StackC.Proofs.Program.Places

/-!
What a reader does to the state, whether it succeeds or fails. Tokens are taken from the front,
every scope and loop that was opened is closed again, and what the file scope binds stays bound. A
contract adds that the places told are allowed ones, and for which results a token has been taken
for sure.
-/

namespace StackC

namespace Scopes

structure Rooted (s : Scopes) : Prop where
  vars : s.vars ≠ []
  tags : s.tags ≠ []

theorem rooted_enter (s : Scopes) : s.enter.Rooted := ⟨List.cons_ne_nil _ _, List.cons_ne_nil _ _⟩

theorem Rooted.lt_length_enter {s : Scopes} (h : s.Rooted) : 1 < s.enter.vars.length :=
  Nat.succ_lt_succ (List.length_pos_iff.mpr h.vars)

structure AtFile (s : Scopes) : Prop where
  vars : s.vars.length = 1
  tags : s.tags.length = 1

theorem AtFile.rooted {s : Scopes} (h : s.AtFile) : s.Rooted :=
  ⟨List.ne_nil_of_length_eq_add_one h.vars, List.ne_nil_of_length_eq_add_one h.tags⟩

/-- The chains are as long as before, and the file scope still binds what it bound. -/
structure Kept (s s' : Scopes) : Prop where
  varsLength : s'.vars.length = s.vars.length
  tagsLength : s'.tags.length = s.tags.length
  vars : ∀ name id, s.vars.outermost? name = some id → s'.vars.outermost? name = some id
  tags : ∀ name t, s.tags.outermost? name = some t → s'.tags.outermost? name = some t

theorem Kept.rooted {s s' : Scopes} (h : s.Kept s') (hs : s.Rooted) : s'.Rooted where
  vars := List.ne_nil_of_length_pos (h.varsLength ▸ List.length_pos_iff.mpr hs.vars)
  tags := List.ne_nil_of_length_pos (h.tagsLength ▸ List.length_pos_iff.mpr hs.tags)

/-- Scopes with a file scope are kept; without one, a scope that is entered could not be left. -/
def Restores (s s' : Scopes) : Prop := s.Rooted → s.Kept s'

theorem Restores.refl (s : Scopes) : s.Restores s :=
  fun _ => ⟨rfl, rfl, fun _ _ => id, fun _ _ => id⟩

theorem Restores.trans {s s' s'' : Scopes} (h : s.Restores s') (h' : s'.Restores s'') :
    s.Restores s'' := by
  intro hs
  have hk := h hs
  have hk' := h' (hk.rooted hs)
  exact ⟨hk'.varsLength.trans hk.varsLength, hk'.tagsLength.trans hk.tagsLength,
    fun name id hid => hk'.vars name id (hk.vars name id hid),
    fun name t ht => hk'.tags name t (hk.tags name t ht)⟩

/-- A new binding in the innermost scope hides none of the file scope. -/
theorem outermost?_bind {α : Type} {link : List (String × α)} {outer : Chain α}
    {name other : String} {a b : α} (hn : link.lookup name = none)
    (h : Chain.outermost? (link :: outer) other = some a) :
    Chain.outermost? (((name, b) :: link) :: outer) other = some a := by
  rw [Chain.outermost?_eq] at h ⊢
  by_cases houter : outer = []
  · subst houter
    exact Chain.lookup_cons_of_none hn h
  · rw [Chain.file_cons houter] at h ⊢
    exact h

/-- A declaration keeps the number of scopes and what the file scope binds. -/
theorem restores_declareVar {s s' : Scopes} {name : String} {x : VarId}
    (h : s.declareVar? name x = some s') : s.Restores s' := by
  obtain ⟨link, outer, hvars, hfree, rfl⟩ := declareVar?_eq_some.mp h
  refine fun _ => ⟨by rw [hvars]; rfl, rfl, fun other id hid => ?_, fun _ _ => id⟩
  rw [hvars] at hid
  exact outermost?_bind hfree hid

theorem restores_declareTag {s s' : Scopes} {name : String} {t : CType}
    (h : s.declareTag? name t = some s') : s.Restores s' := by
  obtain ⟨link, outer, htags, hfree, rfl⟩ := declareTag?_eq_some.mp h
  refine fun _ => ⟨rfl, by rw [htags]; rfl, fun _ _ => id, fun other u hu => ?_⟩
  rw [htags] at hu
  exact outermost?_bind hfree hu

theorem outermost?_cons {α : Type} {c : Chain α} (hc : c ≠ []) (link : List (String × α))
    (name : String) : Chain.outermost? (link :: c) name = c.outermost? name := by
  rw [Chain.outermost?_eq, Chain.outermost?_eq, Chain.file_cons hc]

theorem outermost?_tail {α : Type} {c : Chain α} (hc : 1 < c.length) (name : String) :
    Chain.outermost? c.tail name = c.outermost? name := by
  rw [Chain.outermost?_eq, Chain.outermost?_eq, Chain.file_tail hc]

/-- The scope that was entered is left again. -/
theorem Restores.leave {s s' : Scopes} (h : s.enter.Restores s') : s.Restores s'.leave := by
  intro hs
  have hk := h s.rooted_enter
  have hvars : s'.vars.length = s.vars.length + 1 := hk.varsLength
  have htags : s'.tags.length = s.tags.length + 1 := hk.tagsLength
  have hv : 1 < s'.vars.length := by
    have hpos := List.length_pos_iff.mpr hs.vars
    omega
  have ht : 1 < s'.tags.length := by
    have hpos := List.length_pos_iff.mpr hs.tags
    omega
  rw [leave_of_lt hv]
  refine ⟨?_, ?_, fun name id hid => ?_, fun name t hid => ?_⟩
  · rw [List.length_tail, hvars, Nat.add_sub_cancel]
  · rw [List.length_tail, htags, Nat.add_sub_cancel]
  · rw [outermost?_tail hv]
    exact hk.vars name id ((outermost?_cons hs.vars [] name).trans hid)
  · rw [outermost?_tail ht]
    exact hk.tags name t ((outermost?_cons hs.tags [] name).trans hid)

/-- At file level no scope is open afterwards either. -/
theorem Restores.atFile {s s' : Scopes} (h : s.Restores s') (hs : s.AtFile) : s'.AtFile where
  vars := (h hs.rooted).varsLength.trans hs.vars
  tags := (h hs.rooted).tagsLength.trans hs.tags

end Scopes

variable {P : Location → Prop}

namespace ParseState

structure Placed (P : Location → Prop) (s : ParseState) : Prop where
  ahead : ∀ t ∈ s.ahead, P t.place
  finish : P s.finish
  functions : ∀ f ∈ s.program.functions, f.Placed P

/-- Where all places are allowed, every state has allowed places. -/
theorem placed_true (s : ParseState) : s.Placed fun _ => True :=
  ⟨fun _ _ => trivial, trivial, fun _ _ => ⟨trivial, fun _ _ _ _ => trivial⟩⟩

/-- The next token has an allowed place, and so has the mark of the end. -/
theorem Placed.next {s : ParseState} (h : s.Placed P) : P s.next.place := by
  unfold ParseState.next
  cases hs : s.ahead with
  | nil => exact h.finish
  | cons t ts => exact h.ahead t (hs ▸ List.mem_cons_self)

structure Restores (s s' : ParseState) : Prop where
  ahead : s'.ahead <:+ s.ahead
  finish : s'.finish = s.finish
  scopes : s.scopes.Restores s'.scopes
  loopDepth : s'.loopDepth = s.loopDepth
  locals : s'.locals.isSome = s.locals.isSome

theorem Restores.refl (s : ParseState) :
    s.Restores s := ⟨List.suffix_refl _, rfl, .refl _, rfl, rfl⟩

theorem Restores.trans {s s' s'' : ParseState} (h : s.Restores s') (h' : s'.Restores s'') :
    s.Restores s'' where
  ahead := h'.ahead.trans h.ahead
  finish := h'.finish.trans h.finish
  scopes := h.scopes.trans h'.scopes
  loopDepth := h'.loopDepth.trans h.loopDepth
  locals := h'.locals.trans h.locals

theorem Restores.length_le {s s' : ParseState} (h : s.Restores s') :
    s'.ahead.length ≤ s.ahead.length :=
  h.ahead.length_le

theorem Restores.locals_eq_none {s s' : ParseState} (h : s.Restores s') (hl : s.locals = none) :
    s'.locals = none := by
  have hsome := h.locals
  rw [hl] at hsome
  exact Option.isNone_iff_eq_none.mp (Option.isSome_eq_false_iff.mp hsome)

/-- A reader may go from `s` to `s'`, which has allowed places only. The place of the token taken
last is allowed from the first token on. -/
structure Leaves (P : Location → Prop) (s s' : ParseState) : Prop where
  restores : s.Restores s'
  placed : s'.Placed P
  last : P s.last ∨ s'.ahead.length < s.ahead.length → P s'.last

/-- No token has been taken. -/
theorem leaves_of {s s' : ParseState} (hr : s.Restores s') (hp : s'.Placed P)
    (ha : s'.ahead = s.ahead) (hl : s'.last = s.last) : s.Leaves P s' := by
  refine ⟨hr, hp, fun h => ?_⟩
  rw [hl]
  exact h.resolve_right (ha ▸ Nat.lt_irrefl _)

theorem Leaves.refl {s : ParseState} (h : s.Placed P) :
    s.Leaves P s := leaves_of (.refl s) h rfl rfl

/-- Readers can be run one after the other. -/
theorem Leaves.trans {s s' s'' : ParseState} (h : s.Leaves P s') (h' : s'.Leaves P s'') :
    s.Leaves P s'' := by
  refine ⟨h.restores.trans h'.restores, h'.placed, fun hs => h'.last ?_⟩
  rcases hs with hl | hlt
  · exact .inl (h.last (.inl hl))
  · -- The first token was taken either before `s'` or after it.
    by_cases htaken : s'.ahead.length < s.ahead.length
    · exact .inl (h.last (.inr htaken))
    · exact .inr (Nat.lt_of_lt_of_le hlt (Nat.le_of_not_lt htaken))

/-- The program may change, as long as its functions keep to allowed places. -/
theorem leaves_program {s : ParseState} (hs : s.Placed P) {p : Program}
    (hp : ∀ f ∈ p.functions, f.Placed P) : s.Leaves P { s with program := p } :=
  leaves_of { Restores.refl s with } { hs with functions := hp } rfl rfl

theorem leaves_scopes {s : ParseState} (hs : s.Placed P) {x : Scopes} (hx : s.scopes.Restores x) :
    s.Leaves P { s with scopes := x } :=
  leaves_of { Restores.refl s with scopes := hx } { hs with } rfl rfl

/-- Taking a token leaves the state in order. -/
theorem leaves_advance {s : ParseState} (h : s.Placed P) : s.Leaves P s.advance := by
  unfold advance
  cases hs : s.ahead with
  | nil => exact .refl h
  | cons t ts =>
    have hahead := List.forall_mem_cons.mp (hs ▸ h.ahead)
    exact ⟨⟨by rw [hs]; exact List.suffix_cons t ts, rfl, .refl _, rfl, rfl⟩,
      { h with ahead := hahead.2 }, fun _ => hahead.1⟩

end ParseState

namespace Parse

variable {α β : Type}

def Never (_ : α) : Prop := False

def Always (_ : α) : Prop := True

def IfSome (o : Option α) : Prop := o.isSome = true

/-- From the state `s` the reader succeeds with a result that satisfies `Q`, having taken a token if
`c` holds of it, or it fails with a diagnostic that tells an allowed place. -/
def Abides (P : Location → Prop) (c : α → Prop) (m : Parse α) (s : ParseState) (Q : α → Prop) :
    Prop :=
  match m s with
  | .ok a s' => s.Leaves P s' ∧ (c a → s'.ahead.length < s.ahead.length) ∧ Q a
  | .error e s' => s.Leaves P s' ∧ e.Placed P

def Contract (P : Location → Prop) (c : α → Prop) (m : Parse α) (Q : α → Prop) : Prop :=
  ∀ s : ParseState, s.Placed P → Abides P c m s Q

namespace Abides

variable {c : α → Prop} {d : β → Prop} {m : Parse α} {f : α → Parse β} {s : ParseState}
  {Q : α → Prop} {T : β → Prop}

/-- What a reader has done that succeeded. -/
theorem of_ok (h : Abides P c m s Q) {a : α} {s' : ParseState} (hm : m s = .ok a s') :
    s.Leaves P s' ∧ (c a → s'.ahead.length < s.ahead.length) ∧ Q a := by
  unfold Abides at h
  rw [hm] at h
  exact h

/-- What a reader has done that failed. -/
theorem of_error (h : Abides P c m s Q) {e : Diagnostic} {s' : ParseState}
    (hm : m s = .error e s') :
    s.Leaves P s' ∧ e.Placed P := by
  unfold Abides at h
  rw [hm] at h
  exact h

/-- A result for which the first reader or the second has taken a token. -/
theorem bind_of (hm : Abides P c m s Q)
    (hf : ∀ a s', s.Leaves P s' → (c a → s'.ahead.length < s.ahead.length) → Q a →
      Abides P (fun b => d b ∧ ¬c a) (f a) s' T) : Abides P d (m >>= f) s T := by
  have he : (m >>= f) s = EStateM.bind m f s := rfl
  rw [Abides, he, EStateM.bind]
  cases hr : m s with
  | error e s' => exact hm.of_error hr
  | ok a s' =>
    obtain ⟨hs, hc, ha⟩ := hm.of_ok hr
    have hfa := hf a s' hs hc ha
    dsimp only
    cases hr' : f a s' with
    | error e s'' =>
      obtain ⟨hs', he⟩ := hfa.of_error hr'
      exact ⟨hs.trans hs', he⟩
    | ok b s'' =>
      obtain ⟨hs', hd, hb⟩ := hfa.of_ok hr'
      refine ⟨hs.trans hs', fun hdb => ?_, hb⟩
      have hle := hs.restores.length_le
      have hle' := hs'.restores.length_le
      -- One of the two readers has taken a token, and neither gives one back.
      by_cases hca : c a
      · exact Nat.lt_of_le_of_lt hle' (hc hca)
      · exact Nat.lt_of_lt_of_le (hd ⟨hdb, hca⟩) hle

/-- A weaker promise about the result is kept as well. -/
theorem mono {c' : α → Prop} {Q' : α → Prop} (h : Abides P c m s Q) (hc : ∀ a, c' a → c a)
    (hq : ∀ a, Q a → Q' a) : Abides P c' m s Q' := by
  unfold Abides at h ⊢
  cases hr : m s with
  | ok a s' =>
    rw [hr] at h
    exact ⟨h.1, fun ha => h.2.1 (hc a ha), hq a h.2.2⟩
  | error e s' =>
    rw [hr] at h
    exact h

theorem pure {a : α} (hs : s.Placed P) (hc : ¬c a) (hq : Q a) : Abides P c (Pure.pure a) s Q :=
  ⟨.refl hs, fun ha => absurd ha hc, hq⟩

theorem throw {e : Diagnostic} (hs : s.Placed P) (he : e.Placed P) :
    Abides P c (MonadExcept.throw e) s Q :=
  ⟨.refl hs, he⟩

/-- The first reader may take no token. -/
theorem bind (hm : Abides P Never m s Q)
    (hf : ∀ a s', s.Leaves P s' → Q a → Abides P d (f a) s' T) : Abides P d (m >>= f) s T :=
  hm.bind_of fun a s' hs _ ha => (hf a s' hs ha).mono (fun _ hd => hd.1) fun _ => id

/-- The first reader takes a token. -/
theorem first (hm : Abides P Always m s Q)
    (hf : ∀ a s', s.Leaves P s' → P s'.last → Q a → Abides P Never (f a) s' T) :
    Abides P d (m >>= f) s T :=
  hm.bind_of fun a s' hs hc ha =>
    (hf a s' hs (hs.last (.inr (hc trivial))) ha).mono (fun _ hd => absurd trivial hd.2) fun _ => id

theorem get_bind {f : ParseState → Parse β} (hf : Abides P d (f s) s T) :
    Abides P d (get >>= f) s T :=
  hf

/-- The first step is known to change nothing. -/
theorem after {a : α} (hm : m s = .ok a s) (hf : Abides P d (f a) s T) :
    Abides P d (m >>= f) s T := by
  unfold Abides
  rw [bind_of_ok hm]
  exact hf

theorem modify {g : ParseState → ParseState} (h : s.Leaves P (g s)) :
    Abides P Never (modify g) s fun _ => True :=
  ⟨h, False.elim, trivial⟩

theorem set {s' : ParseState} (h : s.Leaves P s') :
    Abides P Never (set s' : Parse PUnit) s fun _ => True :=
  ⟨h, False.elim, trivial⟩

/-- A reader between two changes of the state that take no token. -/
theorem between {before after : ParseState → ParseState} (hb : (before s).ahead = s.ahead)
    (ha : ∀ s', (after s').ahead = s'.ahead) (hm : Abides P c m (before s) Q)
    (h : ∀ s', (before s).Leaves P s' → s.Leaves P (after s')) :
    Abides P c (between before after m) s Q := by
  unfold Abides Parse.between
  cases hr : m (before s) with
  | ok a s' =>
    obtain ⟨hs, hc, hq⟩ := hm.of_ok hr
    refine ⟨h s' hs, fun hca => ?_, hq⟩
    rw [ha, ← hb]
    exact hc hca
  | error e s' =>
    obtain ⟨hs, he⟩ := hm.of_error hr
    exact ⟨h s' hs, he⟩

end Abides

namespace Contract

variable {c : α → Prop} {d : β → Prop} {m : Parse α} {f : α → Parse β} {Q : α → Prop} {T : β → Prop}

theorem mono {Q' : α → Prop} (h : Contract P c m Q) (hq : ∀ a, Q a → Q' a) : Contract P c m Q' :=
  fun s hs => (h s hs).mono (fun _ => id) hq

/-- What has taken a token for sure may also count as having taken none. -/
theorem free (h : Contract P c m Q) : Contract P Never m Q :=
  fun s hs => (h s hs).mono (fun _ => False.elim) fun _ => id

theorem pure {a : α} (hc : ¬c a) (hq : Q a) : Contract P c (Pure.pure a) Q :=
  fun _ hs => .pure hs hc hq

theorem throw {e : Diagnostic} (he : e.Placed P) : Contract P c (MonadExcept.throw e) Q :=
  fun _ hs => .throw hs he

theorem bind (hm : Contract P Never m Q) (hf : ∀ a, Q a → Contract P d (f a) T) :
    Contract P d (m >>= f) T :=
  fun s hs => (hm s hs).bind fun a s' hs' ha => hf a ha s' hs'.placed

theorem first (hm : Contract P Always m Q) (hf : ∀ a, Q a → Contract P Never (f a) T) :
    Contract P d (m >>= f) T :=
  fun s hs => (hm s hs).first fun a s' hs' _ ha => hf a ha s' hs'.placed

theorem get_bind {f : ParseState → Parse β}
    (hf : ∀ s : ParseState, s.Placed P → Abides P d (f s) s T) :
    Contract P d (get >>= f) T :=
  fun s hs => .get_bind (hf s hs)

end Contract

/-- The end of a reader that gives a result and takes nothing more. -/
theorem contract_return {a : α} {Q : α → Prop} (h : Q a) : Contract P Never (Pure.pure a) Q :=
  .pure id h

variable {c : α → Prop} {Q : α → Prop}

theorem contract_next : Contract P Never next fun t => P t.place :=
  .get_bind fun _ hs => .pure hs id hs.next

theorem contract_here : Contract P Never here P :=
  .get_bind fun _ hs => .pure hs id hs.next

theorem abides_lastPlace {s : ParseState} (hs : s.Placed P) (hl : P s.last) :
    Abides P Never lastPlace s P :=
  .get_bind (.pure hs id hl)

theorem contract_atEnd : Contract P Never atEnd fun _ => True :=
  .get_bind fun _ hs => .pure hs id trivial

theorem contract_check (text : String) : Contract P Never (check text) fun _ => True :=
  .get_bind fun _ hs => .pure hs id trivial

theorem contract_atType : Contract P Never atType fun _ => True :=
  .get_bind fun _ hs => .pure hs id trivial

theorem contract_rounds : Contract P Never rounds fun _ => True :=
  .get_bind fun _ hs => .pure hs id trivial

theorem contract_checkSecond (text : String) : Contract P Never (checkSecond text) fun _ => True :=
  .get_bind fun _ hs => by split <;> exact .pure hs id trivial

theorem contract_atTypeSecond : Contract P Never atTypeSecond fun _ => True :=
  .get_bind fun _ hs => by split <;> exact .pure hs id trivial

theorem contract_grammarFault (f : GrammarFault) : Contract P c (grammarFault f) Q :=
  .bind contract_here fun _ hp => .throw (placed_grammar hp)

theorem contract_declarationFault (f : DeclarationFault) {p : Location} (hp : P p) :
    Contract P c (declarationFault f p) Q :=
  .throw (placed_declaration hp)

theorem contract_typingFault (f : TypingFault) {p : Location} (hp : P p) :
    Contract P c (typingFault f p) Q :=
  .throw (placed_typing hp)

theorem contract_advance : Contract P Never advance fun _ => True :=
  fun _ hs => .modify (ParseState.leaves_advance hs)

/-- Where the next token is not the mark of the end, there is one to take. -/
theorem abides_advance {s : ParseState} (hs : s.Placed P) (hk : s.next.kind ≠ .eof) :
    Abides P Always advance s fun _ => True := by
  refine ⟨ParseState.leaves_advance hs, fun _ => ?_, trivial⟩
  unfold ParseState.next at hk
  unfold ParseState.advance
  cases hs : s.ahead with
  | nil =>
    rw [hs] at hk
    exact absurd rfl hk
  | cons t ts => exact Nat.lt_succ_self _

/-- Takes the next token, which is not the mark of the end, and gives something. -/
theorem abides_take {s : ParseState} {a : α} (hs : s.Placed P) (hk : s.next.kind ≠ .eof)
    (ha : Q a) :
    Abides P c (advance >>= fun _ => Pure.pure a) s Q :=
  (abides_advance hs hk).first fun _ _ hs' _ _ => .pure hs'.placed id ha

theorem kind_ne_eof_of_isReserved {t : Token} {text : String} (h : t.isReserved text = true) :
    t.kind ≠ .eof := by
  rw [Token.isReserved, Bool.and_eq_true] at h
  rw [eq_of_beq h.1]
  exact TokenKind.noConfusion

/-- Takes the given token or none. -/
theorem contract_accept (text : String) : Contract P (· = true) (accept text) fun _ => True := by
  refine .get_bind fun s hs => ?_
  split
  · next h => exact abides_take hs (kind_ne_eof_of_isReserved h) trivial
  · exact .pure hs Bool.false_ne_true trivial

/-- A reader that goes on in one of two ways, by whether it takes the given token. -/
theorem Abides.accept {text : String} {x y : Parse α} {s : ParseState} (hs : s.Placed P)
    (hx : Contract P Never x Q) (hy : Abides P c y s Q) :
    Abides P c (do if ← accept text then x else y) s Q := by
  cases h : s.next.isReserved text with
  | true =>
    have htake := (abides_advance hs (kind_ne_eof_of_isReserved h)).first (d := c)
      fun _ s' hs' _ _ =>
      hx s' hs'.placed
    unfold Abides
    rw [bind_of_ok (accept_of_isReserved h)]
    exact htake
  | false => exact .after (accept_of_not h) hy

theorem Contract.accept {text : String} {x y : Parse α} (hx : Contract P Never x Q)
    (hy : Contract P c y Q) : Contract P c (do if ← accept text then x else y) Q :=
  fun s hs => .accept hs hx (hy s hs)

/-- The place that is told is that of the token taken. -/
theorem contract_acceptOne (table : List (String × α)) :
    Contract P IfSome (acceptOne table) fun o => ∀ r ∈ o, P r.2 := by
  have hnone {s : ParseState} (hs : s.Placed P) :
      Abides P IfSome (Pure.pure none : Parse (Option (α × Location))) s fun o => ∀ r ∈ o, P r.2 :=
    .pure hs Bool.false_ne_true fun _ hr => absurd hr (Option.not_mem_none _)
  refine .get_bind fun s hs => ?_
  split
  · next hk =>
    split
    · refine abides_take hs (hk ▸ TokenKind.noConfusion) ?_
      rintro _ ⟨⟩
      exact hs.next
    · exact hnone hs
  · exact hnone hs

/-- A reader that goes on by the entry of a table, or without one and then takes a token itself. -/
theorem Contract.acceptOne {table : List (String × α)} {f : Option (α × Location) → Parse β}
    {d : β → Prop} {T : β → Prop} (hs : ∀ a p, P p → Contract P Never (f (some (a, p))) T)
    (hn : Contract P d (f none) T) : Contract P d (acceptOne table >>= f) T := by
  refine fun s h => (contract_acceptOne table s h).bind_of fun o s' hs' _ ho => ?_
  cases o with
  | none => exact (hn s' hs'.placed).mono (fun _ h => h.1) fun _ => id
  | some r =>
    exact (hs r.1 r.2 (ho r rfl) s' hs'.placed).mono (fun _ h => absurd rfl h.2) fun _ => id

theorem contract_expect (text context : String) :
    Contract P Always (expect text context) fun _ => True :=
  .accept (contract_return trivial) (.bind contract_next fun _ _ => contract_grammarFault _)

/-- An identifier is taken, or its absence is told at the next place. -/
theorem contract_identifier : Contract P Always identifier fun r => P r.2 := by
  refine .get_bind fun s hs => ?_
  split
  · next hk => exact abides_take hs (hk ▸ TokenKind.noConfusion) hs.next
  · exact contract_grammarFault _ s hs

theorem contract_number : Contract P Always number fun _ => True := by
  refine .get_bind fun s hs => ?_
  split
  · next hk => exact abides_take hs (hk ▸ TokenKind.noConfusion) trivial
  · exact contract_grammarFault _ s hs

/-- What holds of each item holds of all that are collected. -/
theorem contract_collectWithin {item : Parse (Option α)}
    (h : Contract P Never item fun o => ∀ a ∈ o, Q a) (ts : List Token) :
    Contract P Never (collectWithin item ts) fun as => ∀ a ∈ as, Q a := by
  induction ts with
  | nil => exact contract_return fun a ha => absurd ha List.not_mem_nil
  | cons t ts ih =>
    refine .bind h fun o ho => ?_
    cases o with
    | none => exact contract_return fun a ha => absurd ha List.not_mem_nil
    | some a =>
      exact .bind ih fun as has => contract_return (List.forall_mem_cons.mpr ⟨ho a rfl, has⟩)

theorem contract_collect {item : Parse (Option α)}
    (h : Contract P Never item fun o => ∀ a ∈ o, Q a) :
    Contract P Never (collect item) fun as => ∀ a ∈ as, Q a :=
  .bind contract_rounds fun ts _ => contract_collectWithin h ts

/-- What each step keeps is kept by the loop. -/
theorem contract_growWithin {step : α → Parse (Option α)}
    (h : ∀ a, Q a → Contract P Never (step a) fun o => ∀ b ∈ o, Q b) (ts : List Token) {a : α}
    (ha : Q a) :
    Contract P Never (growWithin step ts a) Q := by
  induction ts generalizing a with
  | nil => exact contract_return ha
  | cons t ts ih =>
    refine .bind (h a ha) fun o ho => ?_
    cases o with
    | none => exact contract_return ha
    | some b => exact ih (ho b rfl)

theorem contract_grow {step : α → Parse (Option α)}
    (h : ∀ a, Q a → Contract P Never (step a) fun o => ∀ b ∈ o, Q b) {a : α} (ha : Q a) :
    Contract P Never (grow step a) Q :=
  .bind contract_rounds fun ts _ => contract_growWithin h ts ha

/-- The end of a round that gives something. -/
theorem contract_some {a : α} (h : Q a) :
    Contract P Never (Pure.pure (some a)) fun o => ∀ b ∈ o, Q b :=
  contract_return fun _ hb => Option.mem_some.mp hb ▸ h

/-- The end of a round that gives nothing. -/
theorem contract_none : Contract P IfSome (Pure.pure (none : Option α)) fun o => ∀ b ∈ o, Q b :=
  .pure Bool.false_ne_true fun b hb => absurd hb (Option.not_mem_none b)

theorem contract_comma {item : Parse α} (h : Contract P Never item Q) :
    Contract P IfSome (do if ← accept "," then return some (← item) else return none)
      fun o => ∀ a ∈ o, Q a :=
  .accept (.bind h fun _ ha => contract_some ha) contract_none

/-- The first item takes a token, so the list does. -/
theorem contract_separated {item : Parse α} (h : Contract P Always item Q) :
    Contract P Always (separated item) fun as => ∀ a ∈ as, Q a :=
  .first h fun _ ha => .bind (contract_collect (contract_comma h.free).free) fun _ has =>
    contract_return (List.forall_mem_cons.mpr ⟨ha, has⟩)

/-- The scope that is opened is closed again, also where the body fails. -/
theorem contract_inScope {m : Parse α} (h : Contract P c m Q) : Contract P c (inScope m) Q := by
  intro s hs
  refine .between rfl (fun _ => rfl) (h _ { hs with }) fun s' hs' => ?_
  exact ⟨{ hs'.restores with scopes := hs'.restores.scopes.leave }, { hs'.placed with }, hs'.last⟩

/-- The loop is left again, also where the body fails. -/
theorem contract_inLoop {m : Parse α} (h : Contract P c m Q) : Contract P c (inLoop m) Q := by
  intro s hs
  refine .between rfl (fun _ => rfl) (h _ { hs with }) fun s' hs' => ?_
  have hloops : s'.loopDepth = s.loopDepth + 1 := hs'.restores.loopDepth
  exact ⟨{ hs'.restores with loopDepth := by rw [hloops]; rfl }, { hs'.placed with }, hs'.last⟩

/-- A function is not read inside another. -/
theorem abides_inFunction {m : Parse α} {s : ParseState} (h : Contract P c m Q) (hs : s.Placed P)
    (hl : s.locals = none) : Abides P c (inFunction m) s Q := by
  refine .between rfl (fun _ => rfl) (h _ { hs with }) fun s' hs' => ?_
  exact ⟨{ hs'.restores with scopes := hs'.restores.scopes.leave, locals := by rw [hl] },
    { hs'.placed with }, hs'.last⟩

theorem contract_newVar (v : Var) : Contract P Never (newVar v) fun _ => True :=
  fun _ hs => ⟨ParseState.leaves_program hs hs.functions, False.elim, trivial⟩

/-- A name that is taken is told at the place of its second declaration. -/
theorem contract_declareLocal (name : String) (t : CType) {p : Location} (hp : P p) :
    Contract P Never (declareLocal name t p) fun _ => True := by
  refine .bind (contract_newVar _) fun x _ => .get_bind fun s hs => ?_
  cases hd : s.scopes.declareVar? name x with
  | none => exact contract_declarationFault _ hp s hs
  | some scopes =>
    have hscopes := ParseState.leaves_scopes hs (Scopes.restores_declareVar hd)
    refine .bind (.modify hscopes) fun _ s' hs' _ => .get_bind ?_
    cases hl : s'.locals with
    | none => exact contract_declarationFault _ hp s' hs'.placed
    | some ids =>
      exact .bind (.modify (ParseState.leaves_of { ParseState.Restores.refl s' with
        locals := by rw [hl]; rfl } { hs'.placed with } rfl rfl)) fun _ s'' hs'' _ =>
          .pure hs''.placed id trivial

/-- A string literal adds a variable and binds nothing. -/
theorem contract_stringLiteral (bytes : List UInt8) :
    Contract P Never (stringLiteral bytes) fun _ => True := by
  refine .get_bind fun s hs => ?_
  refine .bind (.modify
    (ParseState.leaves_of { ParseState.Restores.refl s with } { hs with } rfl rfl))
    fun _ s' hs' _ => ?_
  refine .bind (contract_newVar _ s' hs'.placed) fun x s'' hs'' _ => ?_
  exact .bind (.modify (ParseState.leaves_program hs''.placed hs''.placed.functions))
    fun _ t ht _ =>
    .pure ht.placed id trivial

end Parse

end StackC
