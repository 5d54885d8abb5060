import StackC.Proofs.Grammar.Outcomes
import StackC.Proofs.Grammar.Statements

/-!
A declaration read on its own and the same declaration read as part of a longer text. In the
longer text more tokens follow, more functions and file-level names are known, and variables have
larger numbers. As long as tokens are left over, a reader that succeeds on the short text does the
same on the long one.
-/

namespace StackC

/-- What surrounds a declaration in a longer text: the tokens behind it, and the variables, the file
scope and the functions that are known there. The functions known without the neighborhood are
listed as well. -/
structure Neighborhood where
  rest : List Token
  vars : Array Var
  globals : List VarId
  file : List (String × VarId)
  own : List Function
  functions : List Function

namespace Neighborhood

variable {K : Neighborhood}

def shift (K : Neighborhood) (id : Nat) : Nat := K.vars.size + id

theorem shift_inj (K : Neighborhood) {i j : Nat} :
    K.shift i = K.shift j ↔ i = j := Nat.add_right_inj

theorem ne_shift {i : Nat} (h : i < K.vars.size) (j : Nat) : i ≠ K.shift j :=
  Nat.ne_of_lt (Nat.lt_of_lt_of_le h (Nat.le_add_right _ _))

def shiftBinding (K : Neighborhood) (b : String × VarId) : String × VarId := (b.1, K.shift b.2)

def Scoped (K : Neighborhood) (s s' : Scopes) : Prop :=
  ∃ inner : Chain VarId, s.vars = inner ++ [[]] ∧
    s'.vars = inner.map (·.map K.shiftBinding) ++ [K.file]

theorem Scoped.length {s s' : Scopes} (h : K.Scoped s s') : s'.vars.length = s.vars.length := by
  obtain ⟨inner, hs, hs'⟩ := h
  rw [hs, hs', List.length_append, List.length_append, List.length_map]
  rfl

theorem Scoped.file {s s' : Scopes} (h : K.Scoped s s') : s.vars.file = [] := by
  obtain ⟨inner, hs, -⟩ := h
  rw [hs, Chain.file, List.getLast?_concat]
  rfl

theorem Scoped.around {s s' : Scopes} (h : K.Scoped s s') : s'.vars.file = K.file := by
  obtain ⟨inner, -, hs'⟩ := h
  rw [hs', Chain.file, List.getLast?_concat]
  rfl

/-- Looking up a name in shifted bindings gives the shifted variable. -/
theorem lookup_shift (name : String) (l : List (String × VarId)) :
    (l.map K.shiftBinding).lookup name = (l.lookup name).map K.shift := by
  induction l with
  | nil => rfl
  | cons b l ih =>
    rw [List.map_cons, List.lookup_cons, List.lookup_cons, ih]
    have hname : (K.shiftBinding b).1 = b.1 := rfl
    rw [hname]
    cases name == b.1 <;> rfl

/-- A new scope is empty in both texts. -/
theorem Scoped.enter {s s' : Scopes} (h : K.Scoped s s') : K.Scoped s.enter s'.enter := by
  obtain ⟨inner, hs, hs'⟩ := h
  exact ⟨[] :: inner, congrArg (List.cons []) hs, congrArg (List.cons []) hs'⟩

/-- Leaving a scope leads to scopes that bind the same names. -/
theorem Scoped.leave {s s' : Scopes} (h : K.Scoped s s') : K.Scoped s.leave s'.leave := by
  unfold Scopes.leave
  rw [h.length]
  split
  · next hlt =>
    obtain ⟨inner, hs, hs'⟩ := h
    cases inner with
    | nil =>
      rw [hs] at hlt
      exact absurd hlt (Nat.lt_irrefl 1)
    | cons link inner => exact ⟨inner, congrArg List.tail hs, congrArg List.tail hs'⟩
  · exact h

/-- A name that the short text binds is bound in the longer one. -/
theorem Scoped.var? {s s' : Scopes} (h : K.Scoped s s') {name : String} {id : VarId}
    (hid : s.var? name = some id) : s'.var? name = some (K.shift id) := by
  obtain ⟨inner, hs, hs'⟩ := h
  have hfind : (inner.map (·.map K.shiftBinding)).findSome? (·.lookup name) =
      (inner.findSome? (·.lookup name)).map K.shift := by
    clear hs hs'
    induction inner with
    | nil => rfl
    | cons link inner ih =>
      rw [List.map_cons, List.findSome?_cons, List.findSome?_cons, lookup_shift, ih]
      cases link.lookup name <;> rfl
  rw [Scopes.var?, hs, Chain.find?, List.findSome?_append] at hid
  rw [Scopes.var?, hs', Chain.find?, List.findSome?_append, hfind]
  cases hf : inner.findSome? (·.lookup name) with
  | some k =>
    rw [hf] at hid
    cases hid
    rfl
  | none =>
    rw [hf] at hid
    cases hid

/-- A name that can be declared in the short text can be declared in the longer one. -/
theorem Scoped.declareVar {s s' t : Scopes} (h : K.Scoped s s') (hopen : 1 < s.vars.length)
    {name : String} {id : VarId} (hd : s.declareVar? name id = some t) :
    ∃ t', s'.declareVar? name (K.shift id) = some t' ∧ K.Scoped t t' := by
  obtain ⟨link, outer, hvars, hfree, rfl⟩ := Scopes.declareVar?_eq_some.mp hd
  obtain ⟨inner, hs, hs'⟩ := h
  cases inner with
  | nil =>
    rw [hs] at hopen
    exact absurd hopen (Nat.lt_irrefl 1)
  | cons x inner =>
    obtain ⟨rfl, rfl⟩ := List.cons.inj (hvars.symm.trans hs)
    have hfree' : (link.map K.shiftBinding).lookup name = none := by
      rw [lookup_shift, hfree]
      rfl
    refine ⟨_, Scopes.declareVar?_eq_some.mpr ⟨_, _, hs', hfree', rfl⟩,
      ((name, id) :: link) :: inner, rfl, rfl⟩

/-- The variables of the longer text are those that were known before and then those of the short
text, with the same types. -/
structure Extends (K : Neighborhood) (vars vars' : Array Var) : Prop where
  size : vars'.size = K.vars.size + vars.size
  types : ∀ i, vars'[K.shift i]?.map (·.type) = vars[i]?.map (·.type)
  old : ∀ i, i < K.vars.size → vars'[i]? = K.vars[i]?

/-- A new variable has the same type in both texts. -/
theorem Extends.push {vars vars' : Array Var} (h : K.Extends vars vars') {x x' : Var}
    (ht : x'.type = x.type) : K.Extends (vars.push x) (vars'.push x') where
  size := by
    rw [Array.size_push, Array.size_push, h.size]
    rfl
  types i := by
    have hi : K.shift i = vars'.size ↔ i = vars.size := by
      rw [h.size]
      exact K.shift_inj
    rw [Array.getElem?_push, Array.getElem?_push]
    by_cases hlast : i = vars.size
    · rw [if_pos (hi.mpr hlast), if_pos hlast, Option.map_some, Option.map_some, ht]
    · rw [if_neg (mt hi.mp hlast), if_neg hlast, h.types]
  old i hi := by
    have hne : i ≠ vars'.size := by
      rw [h.size]
      exact ne_shift hi _
    rw [Array.getElem?_push, if_neg hne, h.old i hi]

theorem Extends.setType {p p' : Program} (h : K.Extends p.vars p'.vars) (id : VarId) (t : CType) :
    K.Extends (p.setType id t).vars (p'.setType (K.shift id) t).vars where
  size := by
    rw [Program.setType, Program.setType, Program.modifyVar, Program.modifyVar, Array.size_modify,
      Array.size_modify, h.size]
  types i := by
    rw [View.getElem?_setType, View.getElem?_setType]
    by_cases hid : id = i
    · have hsome := congrArg (Option.map fun _ => t) (h.types i)
      rw [if_pos (K.shift_inj.mpr hid), if_pos hid, Option.map_map, Option.map_map]
      rw [Option.map_map, Option.map_map] at hsome
      exact hsome
    · rw [if_neg (mt K.shift_inj.mp hid), if_neg hid, h.types]
  old i hi := by
    rw [View.getElem?_setType, if_neg (ne_shift hi id).symm, h.old i hi]

/-- The types of the variables that the short text numbers. -/
theorem Extends.varTypes {p p' : Program} (h : K.Extends p.vars p'.vars) (ids : List VarId) :
    Parse.varTypes p' (ids.map K.shift) = Parse.varTypes p ids := by
  unfold Parse.varTypes Program.var?
  rw [List.map_map]
  exact List.map_congr_left fun id _ => h.types id

/-- A frame takes the same room in both texts. -/
theorem Extends.total {vars vars' : Array Var} (h : K.Extends vars vars') (ids : List VarId) :
    Frame.total vars' (ids.map K.shift) = Frame.total vars ids := by
  have hsize (id : VarId) : Frame.varSize vars' (K.shift id) = Frame.varSize vars id := by
    have ht := h.types id
    unfold Frame.varSize
    cases hv : vars[id]? with
    | none =>
      rw [hv, Option.map_none, Option.map_eq_none_iff] at ht
      rw [ht]
    | some v =>
      rw [hv, Option.map_some, Option.map_eq_some_iff] at ht
      obtain ⟨v', hv', hty⟩ := ht
      rw [hv']
      exact congrArg CType.size hty
  unfold Frame.total
  rw [List.foldr_map]
  simp only [hsize]

/-- The state `s'` is that of the longer text where `s` is that of the short one. -/
structure Embeds (K : Neighborhood) (s s' : ParseState) : Prop where
  ahead : s'.ahead = s.ahead ++ K.rest
  -- The file scopes may differ in their tags, so that no struct type may be read.
  plain : ∀ t ∈ s.ahead, t.isReserved "struct" = false
  scopes : K.Scoped s.scopes s'.scopes
  vars : K.Extends s.program.vars s'.program.vars
  globals : ∀ id ∈ K.globals, id ∈ s'.program.globals
  -- The functions change only where one of them is entered, and the neighborhood then changes with
  -- them.
  own : s.program.functions = K.own
  functions : s'.program.functions = K.functions
  known : ∀ name, (s.program.function? name).isSome = true →
    (s'.program.function? name).isSome = true
  locals : s'.locals = s.locals.map (·.map K.shift)
  rooted : s.scopes.Rooted
  inside : s.locals.isSome = true → 1 < s.scopes.vars.length
  loopDepth : s'.loopDepth = s.loopDepth

/-- As long as tokens are left, the next token is the same. -/
theorem Embeds.next {s s' : ParseState} (h : K.Embeds s s') (hs : s.ahead ≠ []) :
    s'.next = s.next := by
  obtain ⟨t, ts, ht⟩ := List.exists_cons_of_ne_nil hs
  rw [ParseState.next, ParseState.next, h.ahead, ht]
  rfl

/-- Taking a token keeps the two readings in step. -/
theorem Embeds.advance {s s' : ParseState} (h : K.Embeds s s') (hs : s.ahead ≠ []) :
    K.Embeds s.advance s'.advance := by
  obtain ⟨t, ts, ht⟩ := List.exists_cons_of_ne_nil hs
  have ht' : s'.ahead = t :: (ts ++ K.rest) := by
    rw [h.ahead, ht]
    rfl
  unfold ParseState.advance
  rw [ht, ht']
  exact { h with ahead := rfl, plain := (List.forall_mem_cons.mp (ht ▸ h.plain)).2 }

end Neighborhood

namespace Parse

variable {α β : Type} {K : Neighborhood}

/-- Whatever `m` does in the short text with tokens left over, `m'` does in the longer one, with a
result that `A` relates to that of `m`. -/
structure Repeats (K : Neighborhood) (m m' : Parse α) (A : α → α → Prop) : Prop where
  alone : ∀ {s t : ParseState} {a : α}, m s = .ok a t → s.Restores t ∧ ∃ a', A a a'
  agrees : ∀ {s s' t : ParseState} {a : α}, K.Embeds s s' → m s = .ok a t → t.ahead ≠ [] →
    ∃ a' t', m' s' = .ok a' t' ∧ K.Embeds t t' ∧ A a a'

/-- Tokens that are left over at the end were left over before. -/
theorem ahead_ne_nil {s t : ParseState} (h : s.Restores t) (ht : t.ahead ≠ []) : s.ahead ≠ [] := by
  intro hs
  have hsuffix := h.ahead
  rw [hs] at hsuffix
  exact ht (List.suffix_nil.mp hsuffix)

theorem restores_of_contract {c : α → Prop} {Q : α → Prop} {m : Parse α}
    (hc : Contract (fun _ => True) c m Q) {s t : ParseState} {a : α} (h : m s = .ok a t) :
    s.Restores t :=
  ((hc s s.placed_true).of_ok h).1.restores

structure Within (K : Neighborhood) (n : Nat) (m m' : Parse α) (A : α → α → Prop) : Prop where
  alone : ∀ {s t : ParseState} {a : α}, m s = .ok a t → s.Restores t ∧ ∃ a', A a a'
  agrees : ∀ {s s' t : ParseState} {a : α}, K.Embeds s s' → s.ahead.length < n → m s = .ok a t →
    t.ahead ≠ [] → ∃ a' t', m' s' = .ok a' t' ∧ K.Embeds t t' ∧ A a a'

theorem Repeats.within {m m' : Parse α} {A : α → α → Prop} (h : Repeats K m m' A) (n : Nat) :
    Within K n m m' A :=
  ⟨h.alone, fun hs _ => h.agrees hs⟩

theorem Repeats.of_within {m m' : Parse α} {A : α → α → Prop} (h : ∀ n, Within K n m m' A) :
    Repeats K m m' A :=
  ⟨(h 0).alone, fun {s _ _ _} hs => (h (s.ahead.length + 1)).agrees hs (Nat.lt_succ_self _)⟩

namespace Within

variable {n : Nat} {m m' : Parse α} {f f' : α → Parse β} {A : α → α → Prop} {B : β → β → Prop}

/-- A loop without rounds left over is never reached. -/
theorem zero {a a' : α} (h : A a a') : Within K 0 (Pure.pure a) m' A where
  alone hm := by
    cases hm
    exact ⟨.refl _, a', h⟩
  agrees _ hlt := absurd hlt (Nat.not_lt_zero _)

/-- Behind the first reader fewer than `k a` tokens are ahead, where `a` is its result. -/
theorem bind (k : α → Nat) (hm : Within K n m m' A)
    (hk : ∀ {s t a}, m s = .ok a t → s.ahead.length < n → t.ahead.length < k a)
    (hf : ∀ a a', A a a' → Within K (k a) (f a) (f' a') B) :
    Within K n (m >>= f) (m' >>= f') B where
  alone h := by
    obtain ⟨a, t, ha, hb⟩ := exists_of_bind h
    obtain ⟨hst, a', haa⟩ := hm.alone ha
    obtain ⟨htu, hbb⟩ := (hf a a' haa).alone hb
    exact ⟨hst.trans htu, hbb⟩
  agrees hs hlen h hu := by
    obtain ⟨a, t, ha, hb⟩ := exists_of_bind h
    obtain ⟨-, a₀, haa₀⟩ := hm.alone ha
    -- What is left over in the end was left over behind the first reader, which therefore agrees.
    have ht := ahead_ne_nil ((hf a a₀ haa₀).alone hb).1 hu
    obtain ⟨a', t', ha', hts, haa⟩ := hm.agrees hs hlen ha ht
    obtain ⟨b', u', hb', hus, hbb⟩ := (hf a a' haa).agrees hts (hk ha hlen) hb hu
    exact ⟨b', u', (bind_of_ok ha').trans hb', hus, hbb⟩

theorem after (hm : Within K n m m' A) (hf : ∀ a a', A a a' → Within K n (f a) (f' a') B) :
    Within K n (m >>= f) (m' >>= f') B :=
  .bind (fun _ => n) hm (fun h hlt => Nat.lt_of_le_of_lt (hm.alone h).1.length_le hlt) hf

/-- The first reader takes a token. -/
theorem first {Q : α → Prop} (hm : Repeats K m m' A) (hc : Contract (fun _ => True) Always m Q)
    (hf : ∀ a a', A a a' → Within K n (f a) (f' a') B) :
    Within K (n + 1) (m >>= f) (m' >>= f') B := by
  refine .bind (fun _ => n) (hm.within _) (fun {s _ _} h hlt => ?_) hf
  exact Nat.lt_of_lt_of_le (((hc s s.placed_true).of_ok h).2.1 trivial) (Nat.le_of_lt_succ hlt)

/-- The first reader takes a token if it gives something. -/
theorem firstIfSome {m m' : Parse (Option α)} {f f' : Option α → Parse β} {Q : Option α → Prop}
    (hm : Repeats K m m' (Option.Rel A)) (hc : Contract (fun _ => True) IfSome m Q)
    (hnone : Within K (n + 1) (f none) (f' none) B)
    (hsome : ∀ a a', A a a' → Within K n (f (some a)) (f' (some a')) B) :
    Within K (n + 1) (m >>= f) (m' >>= f') B := by
  refine .bind (fun o => o.elim (n + 1) fun _ => n) (hm.within _) (fun {s t o} h hlt => ?_)
    fun o o' ho => ?_
  · cases o with
    | none => exact Nat.lt_of_le_of_lt (hm.alone h).1.length_le hlt
    | some a =>
      exact Nat.lt_of_lt_of_le (((hc s s.placed_true).of_ok h).2.1 rfl) (Nat.le_of_lt_succ hlt)
  · cases ho with
    | none => exact hnone
    | some ha => exact hsome _ _ ha

/-- The loop comes first. -/
theorem andThen (hm : Within K n m m' A) (hf : ∀ a a', A a a' → Repeats K (f a) (f' a') B) :
    Within K n (m >>= f) (m' >>= f') B :=
  hm.after fun a a' ha => (hf a a' ha).within n

end Within

namespace Repeats

variable {m m' : Parse α} {f f' : α → Parse β} {A : α → α → Prop} {B : β → β → Prop}

theorem pure {a a' : α} (h : A a a') : Repeats K (Pure.pure a) (Pure.pure a') A where
  alone hm := by
    cases hm
    exact ⟨.refl _, a', h⟩
  agrees hs hm _ := by
    cases hm
    exact ⟨a', _, rfl, hs, h⟩

/-- A reader that always fails. -/
theorem never (h : ∀ s a t, m s ≠ .ok a t) : Repeats K m m' A where
  alone hm := absurd hm (h _ _ _)
  agrees _ hm := absurd hm (h _ _ _)

theorem bind (hm : Repeats K m m' A) (hf : ∀ a a', A a a' → Repeats K (f a) (f' a') B) :
    Repeats K (m >>= f) (m' >>= f') B :=
  .of_within fun n => (hm.within n).andThen hf

/-- A reader whose result is the same in both texts. -/
theorem bind_eq (hm : Repeats K m m' Eq) (hf : ∀ a, Repeats K (f a) (f' a) B) :
    Repeats K (m >>= f) (m' >>= f') B :=
  hm.bind fun a _ h => h ▸ hf a

theorem mono {A' : α → α → Prop} (hm : Repeats K m m' A) (h : ∀ a a', A a a' → A' a a') :
    Repeats K m m' A' where
  alone ha := by
    obtain ⟨hs, a', haa⟩ := hm.alone ha
    exact ⟨hs, a', h _ a' haa⟩
  agrees hs ha ht := by
    obtain ⟨a', t', ha', hts, haa⟩ := hm.agrees hs ha ht
    exact ⟨a', t', ha', hts, h _ a' haa⟩

/-- A reader that looks at the next token only. -/
theorem look {x : Token → α} (h : ∀ s, m s = .ok (x s.next) s) : Repeats K m m Eq where
  alone hm := by
    rw [h] at hm
    cases hm
    exact ⟨.refl _, _, rfl⟩
  agrees hs hm ht := by
    rw [h] at hm
    cases hm
    exact ⟨_, _, h _, hs, by rw [hs.next ht]⟩

end Repeats

theorem repeats_grammarFault {m' : Parse α} {A : α → α → Prop} (f : GrammarFault) :
    Repeats K (grammarFault f) m' A :=
  .never fun _ _ _ h => by cases h

theorem repeats_declarationFault {m' : Parse α} {A : α → α → Prop} (f : DeclarationFault)
    (p : Location) :
    Repeats K (declarationFault f p) m' A :=
  .never fun _ _ _ h => by cases h

theorem repeats_typingFault {m' : Parse α} {A : α → α → Prop} (f : TypingFault) (p : Location) :
    Repeats K (typingFault f p) m' A :=
  .never fun _ _ _ h => by cases h

theorem repeats_next : Repeats K next next Eq := .look (x := id) fun _ => rfl

theorem repeats_here : Repeats K here here Eq := .look (x := Token.place) fun _ => rfl

theorem repeats_check (text : String) : Repeats K (check text) (check text) Eq :=
  .look (x := fun t => t.isReserved text) fun _ => rfl

theorem repeats_atType : Repeats K atType atType Eq := .look (x := beginsType) fun _ => rfl

theorem repeats_lastPlace : Repeats K lastPlace lastPlace fun _ _ => True where
  alone h := by
    cases h
    exact ⟨.refl _, {}, trivial⟩
  agrees hs h _ := by
    cases h
    exact ⟨_, _, rfl, hs, trivial⟩

theorem repeats_atEnd : Repeats K atEnd atEnd Eq where
  alone h := by
    cases h
    exact ⟨.refl _, _, rfl⟩
  agrees hs h ht := by
    cases h
    refine ⟨_, _, rfl, hs, ?_⟩
    obtain ⟨u, us, hu⟩ := List.exists_cons_of_ne_nil ht
    rw [hs.ahead, hu]
    rfl

theorem repeats_advance : Repeats K advance advance Eq where
  alone h := by
    have hr := restores_of_contract contract_advance h
    cases h
    exact ⟨hr, _, rfl⟩
  agrees hs h ht := by
    have hr := restores_of_contract contract_advance h
    cases h
    exact ⟨_, _, rfl, hs.advance (ahead_ne_nil hr ht), rfl⟩

/-- A token that is met in the short text is met in the longer one. -/
theorem repeats_accept (text : String) : Repeats K (accept text) (accept text) Eq := by
  refine .bind_eq (repeats_check text) fun b => ?_
  split
  · exact .bind_eq repeats_advance fun _ => .pure rfl
  · exact .pure rfl

/-- What follows depends on whether the token is there. -/
theorem Repeats.accept {text : String} {x x' y y' : Parse α} {A : α → α → Prop}
    (hx : Repeats K x x' A) (hy : Repeats K y y' A) :
    Repeats K (do if ← accept text then x else y) (do if ← accept text then x' else y') A := by
  refine .bind_eq (repeats_accept text) fun b => ?_
  split
  · exact hx
  · exact hy

theorem Within.accept {n : Nat} {text : String} {x x' y y' : Parse α} {A : α → α → Prop}
    (hx : Within K n x x' A) (hy : Within K n y y' A) :
    Within K n (do if ← accept text then x else y) (do if ← accept text then x' else y') A := by
  refine .after ((repeats_accept text).within n) fun b _ hb => ?_
  subst hb
  split
  · exact hx
  · exact hy

theorem repeats_acceptOne (table : List (String × α)) :
    Repeats K (acceptOne table) (acceptOne table) Eq := by
  refine .bind_eq repeats_next fun t => ?_
  split
  · split
    · exact .bind_eq repeats_advance fun _ => .pure rfl
    · exact .pure rfl
  · exact .pure rfl

/-- What follows depends on which of the tokens is there. -/
theorem Repeats.acceptOne {table : List (String × α)} {f f' : Option (α × Location) → Parse β}
    {B : β → β → Prop} (hsome : ∀ a p, Repeats K (f (some (a, p))) (f' (some (a, p))) B)
    (hnone : Repeats K (f none) (f' none) B) :
    Repeats K (acceptOne table >>= f) (acceptOne table >>= f') B := by
  refine .bind_eq (repeats_acceptOne table) fun o => ?_
  cases o with
  | none => exact hnone
  | some r => exact hsome r.1 r.2

theorem repeats_expect (text context : String) :
    Repeats K (expect text context) (expect text context) Eq :=
  .accept (.pure rfl) (.bind repeats_next fun _ _ _ => repeats_grammarFault _)

theorem Repeats.expect {text context : String} {x x' : Parse α} {A : α → α → Prop}
    (h : Repeats K x x' A) :
    Repeats K (do expect text context; x) (do expect text context; x') A :=
  .bind_eq (repeats_expect text context) fun _ => h

theorem repeats_identifier : Repeats K identifier identifier Eq := by
  refine .bind_eq repeats_next fun t => ?_
  split
  · exact .bind_eq repeats_advance fun _ => .pure rfl
  · exact repeats_grammarFault _

theorem repeats_number : Repeats K number number Eq := by
  refine .bind_eq repeats_next fun t => ?_
  split
  · exact .bind_eq repeats_advance fun _ => .pure rfl
  · exact repeats_grammarFault _

/-- The rounds of the short text do not run out, so that the longer text needs no more of them. -/
theorem Repeats.rounds {f f' : List Token → Parse α} {A : α → α → Prop}
    (hf : ∀ ts ts', ts.length ≤ ts'.length → Within K ts.length (f ts) (f' ts') A) :
    Repeats K (rounds >>= f) (rounds >>= f') A where
  alone {s _ _} h := (hf (.atEnd s.finish :: s.ahead) _ (Nat.le_refl _)).alone h
  agrees {s s' _ _} hs h := by
    refine (hf _ (.atEnd s'.finish :: s'.ahead) ?_).agrees hs (Nat.lt_succ_self _) h
    rw [hs.ahead, List.length_cons, List.length_cons, List.length_append]
    omega

/-- The rounds of a loop in the longer text are at least as many. -/
theorem within_collectWithin {item item' : Parse (Option α)} {A : α → α → Prop}
    {Q : Option α → Prop} (hi : Repeats K item item' (Option.Rel A))
    (hc : Contract (fun _ => True) IfSome item Q)
    (ts ts' : List Token) (hle : ts.length ≤ ts'.length) :
    Within K ts.length (collectWithin item ts) (collectWithin item' ts') (List.Forall₂ A) := by
  -- By the rounds. A round that gives something takes a token, so that the bound goes down with
  -- them.
  induction ts generalizing ts' with
  | nil => exact .zero .nil
  | cons x ts ih =>
    obtain ⟨x', ts', rfl⟩ :=
      List.exists_cons_of_length_pos (Nat.lt_of_lt_of_le (Nat.succ_pos _) hle)
    refine .firstIfSome hi hc ((Repeats.pure .nil).within _) fun a a' ha => ?_
    exact (ih ts' (Nat.le_of_succ_le_succ hle)).andThen fun as as' has => .pure (.cons ha has)

theorem repeats_collect {item item' : Parse (Option α)} {A : α → α → Prop} {Q : Option α → Prop}
    (hi : Repeats K item item' (Option.Rel A)) (hc : Contract (fun _ => True) IfSome item Q) :
    Repeats K (collect item) (collect item') (List.Forall₂ A) :=
  .rounds (within_collectWithin hi hc)

theorem within_growWithin {step step' : α → Parse (Option α)} {A : α → α → Prop}
    {Q : Option α → Prop} (hi : ∀ a a', A a a' → Repeats K (step a) (step' a') (Option.Rel A))
    (hc : ∀ a, Contract (fun _ => True) IfSome (step a) Q) {a a' : α} (ha : A a a')
    (ts ts' : List Token)
    (hle : ts.length ≤ ts'.length) :
    Within K ts.length (growWithin step ts a) (growWithin step' ts' a') A := by
  induction ts generalizing ts' a a' with
  | nil => exact .zero ha
  | cons x ts ih =>
    obtain ⟨x', ts', rfl⟩ :=
      List.exists_cons_of_length_pos (Nat.lt_of_lt_of_le (Nat.succ_pos _) hle)
    exact .firstIfSome (hi a a' ha) (hc a) ((Repeats.pure ha).within _) fun b b' hb =>
      ih hb ts' (Nat.le_of_succ_le_succ hle)

theorem repeats_grow {step step' : α → Parse (Option α)} {A : α → α → Prop} {Q : Option α → Prop}
    (hi : ∀ a a', A a a' → Repeats K (step a) (step' a') (Option.Rel A))
    (hc : ∀ a, Contract (fun _ => True) IfSome (step a) Q) {a a' : α} (ha : A a a') :
    Repeats K (grow step a) (grow step' a') A :=
  .rounds (within_growWithin hi hc ha)

theorem repeats_separated {item item' : Parse α} {A : α → α → Prop} {Q : α → Prop}
    (hi : Repeats K item item' A) (hc : Contract (fun _ => True) Never item Q) :
    Repeats K (separated item) (separated item') (List.Forall₂ A) := by
  refine .bind hi fun a a' ha => ?_
  refine .bind (repeats_collect ?_ (contract_comma hc)) fun as as' has => .pure (.cons ha has)
  exact .accept (.bind hi fun a a' ha => .pure (.some ha)) (.pure .none)

/-- What a body between two changes of the state has done. -/
theorem exists_of_between {m : Parse α} {before after : ParseState → ParseState}
    {s t : ParseState} {a : α} (h : between before after m s = .ok a t) :
    ∃ u, m (before s) = .ok a u ∧ t = after u := by
  unfold between at h
  cases hr : m (before s) with
  | error e u =>
    rw [hr] at h
    cases h
  | ok b u =>
    rw [hr] at h
    cases h
    exact ⟨u, rfl, rfl⟩

theorem between_of_ok {m : Parse α} {before after : ParseState → ParseState}
    {s u : ParseState} {a : α} (h : m (before s) = .ok a u) :
    between before after m s = .ok a (after u) := by
  rw [between, h]

/-- A scope is opened and closed in both texts alike. -/
theorem repeats_inScope {m m' : Parse α} {A : α → α → Prop} (h : Repeats K m m' A) :
    Repeats K (inScope m) (inScope m') A where
  alone hm := by
    obtain ⟨u, hr, rfl⟩ := exists_of_between hm
    obtain ⟨hu, hA⟩ := h.alone hr
    exact ⟨{ hu with scopes := hu.scopes.leave }, hA⟩
  agrees {s s' t a} hs hm ht := by
    obtain ⟨u, hr, rfl⟩ := exists_of_between hm
    have henter : K.Embeds { s with scopes := s.scopes.enter }
      { s' with scopes := s'.scopes.enter } :=
      { hs with
        scopes := hs.scopes.enter
        rooted := s.scopes.rooted_enter
        inside := fun _ => hs.rooted.lt_length_enter }
    obtain ⟨a', u', hr', hu, haa⟩ := h.agrees henter hr ht
    refine ⟨a', _, between_of_ok hr', ?_, haa⟩
    have hrestored := (h.alone hr).1
    -- The scopes that are open behind the body are those from before it.
    have hkept := hrestored.scopes.leave hs.rooted
    refine { hu with
      scopes := hu.scopes.leave, rooted := hkept.rooted hs.rooted, inside := fun hl => ?_ }
    exact hkept.varsLength ▸ hs.inside (hrestored.locals ▸ hl)

theorem repeats_inLoop {m m' : Parse α} {A : α → α → Prop} (h : Repeats K m m' A) :
    Repeats K (inLoop m) (inLoop m') A where
  alone hm := by
    obtain ⟨u, hr, rfl⟩ := exists_of_between hm
    obtain ⟨hu, hA⟩ := h.alone hr
    exact ⟨{ hu with loopDepth := by rw [hu.loopDepth]; rfl }, hA⟩
  agrees {s s' t a} hs hm ht := by
    obtain ⟨u, hr, rfl⟩ := exists_of_between hm
    have henter : K.Embeds { s with loopDepth := s.loopDepth + 1 }
      { s' with loopDepth := s'.loopDepth + 1 } :=
      { hs with loopDepth := congrArg (· + 1) hs.loopDepth }
    obtain ⟨a', u', hr', hu, haa⟩ := h.agrees henter hr ht
    exact ⟨a', _, between_of_ok hr', { hu with loopDepth := congrArg (· - 1) hu.loopDepth }, haa⟩

def withLocal (s : ParseState) (name : String) (t : CType) (scopes : Scopes) (ids : List VarId) :
    ParseState :=
  { s with
    program := (s.program.addVar ⟨name, t, .onFrame⟩).1, scopes := scopes,
    locals := some (ids ++ [s.program.vars.size]) }

/-- How a local is declared. -/
theorem declareLocal_of {name : String} {t : CType} {p : Location} {s : ParseState}
    {scopes : Scopes} {ids : List VarId}
    (hd : s.scopes.declareVar? name s.program.vars.size = some scopes)
    (hl : s.locals = some ids) :
    declareLocal name t p s = .ok s.program.vars.size (withLocal s name t scopes ids) := by
  have hnew : newVar ⟨name, t, .onFrame⟩ s =
    .ok s.program.vars.size { s with program := (s.program.addVar ⟨name, t, .onFrame⟩).1 } := rfl
  have hscopes : (modify ({ · with scopes := scopes }) : Parse Unit)
      { s with program := (s.program.addVar ⟨name, t, .onFrame⟩).1 } =
    .ok () { s with program := (s.program.addVar ⟨name, t, .onFrame⟩).1, scopes := scopes } := rfl
  rw [declareLocal, bind_of_ok hnew, bind_of_ok (get_ok _), hd]
  dsimp only
  rw [bind_of_ok hscopes, bind_of_ok (get_ok _), hl]
  rfl

/-- A local can be declared in a function only, under a name that its scope does not bind. -/
theorem declareLocal_ok {name : String} {t : CType} {p : Location} {s u : ParseState} {id : VarId}
    (h : declareLocal name t p s = .ok id u) : id = s.program.vars.size ∧ ∃ scopes ids,
      s.scopes.declareVar? name id = some scopes ∧ s.locals = some ids ∧
      u = withLocal s name t scopes ids := by
  obtain ⟨x, s₁, hnew, h⟩ := exists_of_bind h
  cases hnew
  obtain ⟨s₂, s₃, hget, h⟩ := exists_of_bind h
  cases hget
  cases hd : s.scopes.declareVar? name s.program.vars.size with
  | none =>
    rw [hd] at h
    cases h
  | some scopes =>
    rw [hd] at h
    obtain ⟨_, s₂, hmodify, h⟩ := exists_of_bind h
    cases hmodify
    obtain ⟨_, s₃, hget, h⟩ := exists_of_bind h
    cases hget
    cases hl : s.locals with
    | none =>
      rw [hl] at h
      cases h
    | some ids =>
      rw [hl] at h
      cases h
      exact ⟨rfl, scopes, ids, hd, rfl, rfl⟩

/-- The local of the longer text has the shifted number. -/
theorem repeats_declareLocal (name : String) (t : CType) (p : Location) :
    Repeats K (declareLocal name t p) (declareLocal name t p) fun id id' => id' = K.shift id where
  alone h := ⟨restores_of_contract (contract_declareLocal name t trivial) h, _, rfl⟩
  agrees {s s' u id} hs h _ := by
    obtain ⟨rfl, scopes, ids, hd, hl, rfl⟩ := declareLocal_ok h
    have hopen := hs.inside (by rw [hl]; rfl)
    have hkept := Scopes.restores_declareVar hd hs.rooted
    obtain ⟨scopes', hd', hscopes⟩ := hs.scopes.declareVar hopen hd
    have hsize : s'.program.vars.size = K.shift s.program.vars.size := hs.vars.size
    have hl' : s'.locals = some (ids.map K.shift) := by
      rw [hs.locals, hl]
      rfl
    rw [← hsize] at hd'
    refine ⟨_, _, declareLocal_of hd' hl', ?_, hsize⟩
    refine { hs with
      scopes := hscopes, vars := hs.vars.push rfl, locals := ?_, rooted := hkept.rooted hs.rooted
      inside := fun _ => hkept.varsLength ▸ hopen }
    rw [withLocal, withLocal, hsize]
    simp

def withLiteral (s : ParseState) (bytes : List UInt8) : ParseState :=
  let literal := View.literal s.stringCount bytes
  { s with
    stringCount := s.stringCount + 1
    program := (s.program.addVar literal).1.addGlobal s.program.vars.size }

theorem stringLiteral_eq (s : ParseState) (bytes : List UInt8) :
    stringLiteral bytes s = .ok s.program.vars.size (withLiteral s bytes) := rfl

/-- String literals may have different numbers. -/
theorem repeats_stringLiteral (bytes : List UInt8) :
    Repeats K (stringLiteral bytes) (stringLiteral bytes) fun _ _ => True where
  alone h := ⟨restores_of_contract (contract_stringLiteral bytes) h, 0, trivial⟩
  agrees {s s' u id} hs h _ := by
    rw [stringLiteral_eq] at h
    cases h
    refine ⟨_, _, stringLiteral_eq s' bytes, ?_, trivial⟩
    exact { hs with
      vars := hs.vars.push rfl
      globals := fun id hid => List.mem_append_left _ (hs.globals id hid) }

theorem repeats_setType {id id' : VarId} (h : id' = K.shift id) (t : CType) :
    Repeats K (modify fun s => { s with program := s.program.setType id t })
      (modify fun s => { s with program := s.program.setType id' t }) Eq where
  alone hm := ⟨restores_of_contract (contract_modifyVar id t) hm, _, rfl⟩
  agrees hs hm _ := by
    subst h
    cases hm
    exact ⟨_, _, rfl, { hs with vars := hs.vars.setType id t }, rfl⟩

/-- The locals of the function have the same sizes, so the check comes to the same. -/
theorem repeats_checkFrame (p : Location) : Repeats K (checkFrame p) (checkFrame p) Eq where
  alone h := ⟨restores_of_contract (contract_checkFrame trivial) h, _, rfl⟩
  agrees {s s' u _} hs h _ := by
    have htotal : Frame.total s'.program.vars (s'.locals.getD []) =
        Frame.total s.program.vars (s.locals.getD []) := by
      rw [← hs.vars.total, hs.locals]
      cases s.locals <;> rfl
    rw [checkFrame, bind_of_ok (get_ok _)] at h ⊢
    rw [htotal]
    split at h
    · cases h
    · next hfits =>
      cases h
      rw [if_neg hfits]
      exact ⟨_, _, rfl, hs, rfl⟩

end Parse

end StackC
