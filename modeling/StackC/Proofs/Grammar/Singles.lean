import StackC.Proofs.Grammar.Programs
import StackC.Proofs.Grammar.Relocation
import StackC.Proofs.Program.Declarations

/-!
One function or one global variable, read on its own and as part of a longer text. What follows
the declaration is met only where the declaration ends, so the last token is treated apart. The
declaration is followed up to where it is entered into the program.
-/

namespace StackC

namespace Parse

variable {K : Neighborhood} {g g' : Grammar} {s s' t : ParseState} {text : String}

def single (g : Grammar) : Parse Unit := do
  let base ← baseType g
  let d ← declarator base
  if ← check "(" then
    function g d
  else
    globalVariable g d
    expect ";" "after global declaration"

/-- A token is accepted exactly if it is the given one. -/
theorem accept_ok {b : Bool} (h : accept text s = .ok b t) :
    b = s.next.isReserved text ∧ t = if b then s.advance else s := by
  cases hr : s.next.isReserved text with
  | true =>
    rw [accept_of_isReserved hr] at h
    cases h
    exact ⟨rfl, rfl⟩
  | false =>
    rw [accept_of_not hr] at h
    cases h
    exact ⟨rfl, rfl⟩

theorem expect_ok {context : String} (h : expect text context s = .ok () t) :
    s.next.isReserved text = true ∧ t = s.advance := by
  obtain ⟨b, u, hb, h⟩ := exists_of_bind h
  obtain ⟨hr, hu⟩ := accept_ok hb
  cases b with
  | true =>
    cases h
    exact ⟨hr.symm, hu⟩
  | false => cases h

theorem ahead_ne_nil_of_isReserved (h : s.next.isReserved text = true) : s.ahead ≠ [] := by
  intro hs
  rw [ParseState.next, hs] at h
  cases h

theorem agrees_accept (hs : K.Embeds s s') (hne : s.ahead ≠ []) {b : Bool}
    (h : accept text s = .ok b t) :
    ∃ t', accept text s' = .ok b t' ∧ K.Embeds t t' := by
  obtain ⟨rfl, rfl⟩ := accept_ok h
  have hnext := hs.next hne
  cases hr : s.next.isReserved text with
  | true => exact ⟨_, accept_of_isReserved (hnext ▸ hr), hs.advance hne⟩
  | false => exact ⟨_, accept_of_not (hnext ▸ hr), hs⟩

theorem agrees_expect (hs : K.Embeds s s') {context : String}
    (h : expect text context s = .ok () t) :
    expect text context s' = .ok () s'.advance ∧ K.Embeds t s'.advance := by
  obtain ⟨hr, rfl⟩ := expect_ok h
  have hne := ahead_ne_nil_of_isReserved hr
  exact ⟨expect_of_isReserved (hs.next hne ▸ hr) context, hs.advance hne⟩

/-- A block does not end before its closing brace. -/
theorem ahead_ne_nil_of_blockItem {statement : Parse Node} {o : Option Node}
    (h : blockItem g statement s = .ok o t) : s.ahead ≠ [] := by
  intro hs
  have hr : s.next.isReserved closeBrace = false := by
    rw [ParseState.next, hs]
    rfl
  have hempty : s.ahead.isEmpty = true := by
    rw [hs]
    rfl
  have hend : atEnd s = .ok true s := congrArg (EStateM.Result.ok · s) hempty
  rw [blockItem, bind_of_ok (accept_of_not hr), if_neg Bool.false_ne_true, bind_of_ok hend] at h
  cases h

/-- The items of a block end with its closing brace. -/
theorem blockItem_none {statement : Parse Node} (h : blockItem g statement s = .ok none t) :
    s.next.isReserved closeBrace = true ∧ t = s.advance := by
  obtain ⟨b, u, hb, h⟩ := exists_of_bind h
  obtain ⟨hr, hu⟩ := accept_ok hb
  cases b with
  | true =>
    cases h
    exact ⟨hr.symm, hu⟩
  | false =>
    obtain ⟨b, v, -, h⟩ := exists_of_bind h
    cases b with
    | true => cases h
    | false =>
      obtain ⟨b, w, -, h⟩ := exists_of_bind h
      cases b with
      | true | false =>
        obtain ⟨n, x, -, h⟩ := exists_of_bind h
        cases h

theorem blockItem_of_brace (statement : Parse Node) (h : s.next.isReserved closeBrace = true) :
    blockItem g statement s = .ok none s.advance := by
  rw [blockItem, bind_of_ok (accept_of_isReserved h)]
  rfl

theorem ahead_ne_nil_of_items {statement : Parse Node} {ts : List Token} {ns : List Node}
    (hlen : s.ahead.length < ts.length)
    (h : collectWithin (blockItem g statement) ts s = .ok ns t) :
    s.ahead ≠ [] := by
  obtain ⟨x, ts, rfl⟩ := List.exists_cons_of_length_pos (Nat.lt_of_le_of_lt (Nat.zero_le _) hlen)
  obtain ⟨o, u, ho, -⟩ := exists_of_bind h
  exact ahead_ne_nil_of_blockItem ho

/-- The items of a block agree also where the closing brace is the last token of the short text. -/
theorem agrees_itemsWithin (hg : g.Refines K g') {ts ts' : List Token} {ns : List Node}
    (hs : K.Embeds s s') (hlen : s.ahead.length < ts.length) (hle : ts.length ≤ ts'.length)
    (h : collectWithin (blockItem g (statement g)) ts s = .ok ns t) :
    ∃ ns' t', collectWithin (blockItem g' (statement g')) ts' s' = .ok ns' t' ∧ K.Embeds t t' := by
  induction ts generalizing ts' s s' ns with
  | nil => exact absurd hlen (Nat.not_lt_zero _)
  | cons x ts ih =>
    obtain ⟨x', ts', rfl⟩ :=
      List.exists_cons_of_length_pos (Nat.lt_of_lt_of_le (Nat.succ_pos _) hle)
    obtain ⟨o, u, ho, h⟩ := exists_of_bind h
    cases o with
    | none =>
      -- The brace is taken in both texts, whether or not a token follows it.
      cases h
      obtain ⟨hbrace, rfl⟩ := blockItem_none ho
      have hne := ahead_ne_nil_of_isReserved hbrace
      exact ⟨[], _, bind_of_ok (blockItem_of_brace _ (hs.next hne ▸ hbrace)), hs.advance hne⟩
    | some n =>
      obtain ⟨ns, v, hns, hv⟩ := exists_of_bind h
      cases hv
      have hlt := ((contract_blockItem hg.honest s s.placed_true).of_ok ho).2.1 rfl
      have hrounds : u.ahead.length < ts.length :=
        Nat.lt_of_lt_of_le hlt (Nat.le_of_lt_succ hlen)
      obtain ⟨o', u', ho', hu, hoo⟩ :=
        (repeats_blockItem hg).agrees hs ho (ahead_ne_nil_of_items hrounds hns)
      cases hoo with
      | some hn =>
        obtain ⟨ns', t', hns', htt⟩ := ih hu hrounds (Nat.le_of_succ_le_succ hle) hns
        exact ⟨_ :: ns', t', (bind_of_ok ho').trans (bind_of_ok hns'), htt⟩

/-- The closing brace may be the last token of the short text. -/
theorem agrees_items (hg : g.Refines K g') {ns : List Node} (hs : K.Embeds s s')
    (h : items g s = .ok ns t) : ∃ ns' t', items g' s' = .ok ns' t' ∧ K.Embeds t t' := by
  have hrounds (s : ParseState) : rounds s = .ok (.atEnd s.finish :: s.ahead) s := rfl
  rw [items, collect, bind_of_ok (hrounds s)] at h
  rw [items, collect, bind_of_ok (hrounds s')]
  refine agrees_itemsWithin hg hs (Nat.lt_succ_self _) ?_ h
  rw [hs.ahead, List.length_cons, List.length_cons, List.length_append]
  omega

def heading (g : Grammar) (d : Declarator) : Parse (List VarId × Bool) := do
  expect "(" "after function name"
  let r ← parameterList g
  let params ← declareParams r.1
  checkFrame d.place
  return (params, r.2)

def entry (d : Declarator) (r : List VarId × Bool) : Function :=
  { name := d.name, returnType := d.type, params := r.1, locals := r.1, variadic := r.2,
    body := none, place := d.place }

def enterFunction (g : Grammar) (d : Declarator) (r : List VarId × Bool) (isDefinition : Bool) :
    Parse Unit := do
  registerFunction (entry d r) isDefinition
  if isDefinition then functionBody g d.name else return ()

theorem function_eq {d : Declarator} (h : (d.type.isArray || d.type.isStruct) = false) :
    function g d = inFunction (do
      let r ← heading g d
      let last ← accept ";"
      enterFunction g d r (!last)) := by
  unfold function
  rw [h, if_neg Bool.false_ne_true]
  simp only [heading, enterFunction, entry, bind_assoc, pure_bind]

theorem repeats_heading (hg : g.Refines K g') (d : Declarator) :
    Repeats K (heading g d) (heading g' d) fun r r' => r' = (r.1.map K.shift, r.2) := by
  refine .expect (.bind_eq (repeats_parameterList hg) fun r => ?_)
  refine .bind (repeats_declareParams r.1) fun ids ids' hids => ?_
  exact .bind_eq (repeats_checkFrame d.place) fun _ => .pure (by rw [hids])

def atEntry (s : ParseState) : ParseState := { s with scopes := s.scopes.enter, locals := some [] }

def atExit (s : ParseState) : ParseState := { s with scopes := s.scopes.leave, locals := none }

theorem embeds_atEntry (hs : K.Embeds s s') : K.Embeds (atEntry s) (atEntry s') :=
  { hs with
    scopes := hs.scopes.enter
    locals := rfl
    rooted := s.scopes.rooted_enter
    inside := fun _ => hs.rooted.lt_length_enter }

theorem between_congr {α : Type} {m m' : Parse α} {before before' after : ParseState → ParseState}
    (h : m (before s) = m' (before' s)) :
    between before after m s = between before' after m' s := by
  rw [between, between, h]

/-- A function that is read on its own reaches in the longer text the point where it is entered into
the program. -/
theorem function_reaches (hg : g.Refines K g') {d : Declarator} (hs : K.Embeds s s')
    (h : function g d s = .ok () t) :
    ∃ r isDefinition w u u' v, heading g d (atEntry s) = .ok r w ∧
      accept ";" w = .ok (!isDefinition) u ∧ enterFunction g d r isDefinition u = .ok () v ∧
      t = atExit v ∧ K.Embeds u u' ∧
      function g' d s' =
        between (fun _ => u') atExit
          (enterFunction g' d (r.1.map K.shift, r.2) isDefinition) s' := by
  cases hret : d.type.isArray || d.type.isStruct with
  | true =>
    rw [function, hret] at h
    cases h
  | false =>
    rw [function_eq hret] at h
    obtain ⟨v, hbody, rfl⟩ := exists_of_between h
    obtain ⟨r, w, hr, hbody⟩ := exists_of_bind hbody
    obtain ⟨last, u, hlast, hbody⟩ := exists_of_bind hbody
    -- Something follows the heading: the semicolon or the brace of the body.
    have hne : w.ahead ≠ [] := by
      obtain ⟨hnext, hu⟩ := accept_ok hlast
      cases last with
      | true => exact ahead_ne_nil_of_isReserved hnext.symm
      | false =>
        have henter : Contract (fun _ => True) Always (enterFunction g d r true) fun _ => True :=
          .bind (contract_registerFunction trivial rfl true) fun _ _ =>
            contract_functionBody hg.honest d.name
        have hlt := ((henter u u.placed_true).of_ok hbody).2.1 trivial
        rw [show w = u from hu.symm]
        exact List.length_pos_iff.mp (Nat.lt_of_le_of_lt (Nat.zero_le _) hlt)
    obtain ⟨_, w', hr', hw, rfl⟩ := (repeats_heading hg d).agrees (embeds_atEntry hs) hr hne
    obtain ⟨u', hlast', hu⟩ := agrees_accept hw hne hlast
    refine ⟨r, !last, w, u, u', v, hr, by rw [Bool.not_not]; exact hlast, hbody, rfl, hu, ?_⟩
    rw [function_eq hret]
    exact between_congr ((bind_of_ok hr').trans (bind_of_ok hlast'))

def reopening (f e : Function) : Function :=
  { e with params := f.params, place := f.place, body := some (.block (.bare f.place) []) }

/-- The ways in which a function is entered. -/
theorem registerFunction_ok {f : Function} {isDefinition : Bool}
    (h : registerFunction f isDefinition s = .ok () t) : s.scopes.fileVar? f.name = none ∧
      ((s.program.function? f.name = none ∧ t = { s with
          program := s.program.addFunction
            (if isDefinition then f else { f with locals := [] }) }) ∨
        ∃ e, s.program.function? f.name = some e ∧ sameSignature s.program e f = true ∧
          (isDefinition = false ∧ t = s ∨ isDefinition = true ∧ e.body.isSome = false ∧ t = { s with
            program := s.program.modifyFunction f.name (reopening f) })) := by
  obtain ⟨s₁, s₂, hget, h⟩ := exists_of_bind h
  cases hget
  cases hfree : s.scopes.fileVar? f.name with
  | some id =>
    rw [hfree] at h
    cases h
  | none =>
    refine ⟨rfl, ?_⟩
    rw [hfree] at h
    cases he : s.program.function? f.name with
    | none =>
      rw [he] at h
      cases h
      exact Or.inl ⟨rfl, rfl⟩
    | some e =>
      rw [he] at h
      cases hsame : sameSignature s.program e f with
      | false =>
        simp only [hsame] at h
        cases h
      | true =>
        simp only [hsame] at h
        refine Or.inr ⟨e, rfl, hsame, ?_⟩
        cases isDefinition with
        | false =>
          cases h
          exact Or.inl ⟨rfl, rfl⟩
        | true =>
          cases hbody : e.body.isSome with
          | true =>
            simp only [hbody] at h
            cases h
          | false =>
            simp only [hbody] at h
            cases h
            exact Or.inr ⟨rfl, rfl, rfl⟩

/-- A function is entered if its name is free and all declarations of it agree. -/
theorem registerFunction_of {f : Function} {isDefinition : Bool}
    (hfree : s.scopes.fileVar? f.name = none)
    (hsame : ∀ e, s.program.function? f.name = some e → sameSignature s.program e f = true)
    (hopen : isDefinition = true → s.program.defines f.name = false) :
    ∃ t, registerFunction f isDefinition s = .ok () t := by
  rw [registerFunction, bind_of_ok (get_ok s), hfree]
  cases he : s.program.function? f.name with
  | none => exact ⟨_, rfl⟩
  | some e =>
    simp only [hsame e he]
    cases isDefinition with
    | false => exact ⟨s, rfl⟩
    | true =>
      have hbody := hopen rfl
      rw [Program.defines, he, Option.any_some] at hbody
      simp only [hbody]
      exact ⟨_, rfl⟩

theorem sameSignature_iff {p : Program} {e f : Function} :
    sameSignature p e f = true ↔ e.signature p = f.signature p := by
  simp [sameSignature, Function.signature, and_assoc]

structure Entered (p : Program) (f : Function) (p' : Program) (hasBody : Bool → Prop) : Prop where
  others : ∀ other, other ≠ f.name → p'.function? other = p.function? other
  entry : ∃ e, p'.function? f.name = some e ∧ e.signature p = f.signature p ∧
    (e.params = f.params ∨ ∃ e₀, p.function? f.name = some e₀ ∧ e.params = e₀.params) ∧
    hasBody e.body.isSome

/-- What entering a function does, by its result. -/
theorem entered_registerFunction {f : Function} {isDefinition : Bool} (hf : f.body = none)
    (h : registerFunction f isDefinition s = .ok () t) :
    Entered s.program f t.program fun b => isDefinition = false → b = s.program.defines f.name := by
  obtain ⟨-, ⟨hnone, rfl⟩ | ⟨e, he, hsame, ⟨rfl, rfl⟩ | ⟨rfl, -, rfl⟩⟩⟩ := registerFunction_ok h
  · have hname : (if isDefinition then f else { f with locals := [] } : Function).name =
      f.name := by
      cases isDefinition <;> rfl
    constructor
    case others =>
      intro other ho
      rw [Program.function?_addFunction, hname, if_neg (Ne.symm ho)]
    case entry =>
      refine ⟨_, by rw [Program.function?_addFunction, if_pos hname], ?_⟩
      have hdefines : s.program.defines f.name = false := by
        rw [Program.defines, hnone]
        rfl
      cases isDefinition with
      | true => exact ⟨rfl, Or.inl rfl, fun h => by cases h⟩
      | false =>
        exact ⟨rfl, Or.inl rfl, fun _ => by rw [hdefines, if_neg Bool.false_ne_true, hf]; rfl⟩
  · constructor
    case others => exact fun _ _ => rfl
    case entry =>
      refine ⟨e, he, sameSignature_iff.mp hsame, Or.inr ⟨e, he, rfl⟩, fun _ => ?_⟩
      rw [Program.defines, he]
      rfl
  · have hsignature := sameSignature_iff.mp hsame
    constructor
    case others =>
      intro other ho
      rw [Program.function?_modifyFunction (g := reopening f) (fun _ => rfl), if_neg ho]
    case entry =>
      refine ⟨reopening f e, ?_, ?_, Or.inl rfl, fun h => by cases h⟩
      · rw [Program.function?_modifyFunction (g := reopening f) (fun _ => rfl), if_pos rfl, he]
        rfl
      · simp only [Function.signature, Signature.mk.injEq] at hsignature ⊢
        exact ⟨hsignature.1, rfl, hsignature.2.2⟩

def completion (ids : List VarId) (body : Node) (f : Function) : Function :=
  { f with locals := ids, body := some body }

def Completes (isDefinition : Bool) (name : String) (p p' : Program) : Prop :=
  (isDefinition = false → p'.functions = p.functions) ∧
    (isDefinition = true → ∃ ids body,
      p'.functions = (p.modifyFunction name (completion ids body)).functions)

theorem completes_announcement {name : String} {p p' : Program} (h : p'.functions = p.functions) :
    Completes false name p p' :=
  ⟨fun _ => h, fun hb => absurd hb Bool.false_ne_true⟩

theorem completes_definition {name : String} {p p' : Program} {ids : List VarId} {body : Node}
    (h : p'.functions = (p.modifyFunction name (completion ids body)).functions) :
    Completes true name p p' :=
  ⟨fun hb => absurd hb.symm Bool.false_ne_true, fun _ => ⟨ids, body, h⟩⟩

/-- The body completes the function that has been entered, and no other. -/
theorem Entered.completes {p q p' : Program} {f : Function} {isDefinition : Bool}
    (h : Entered p f q fun b => isDefinition = false → b = p.defines f.name)
    (hc : Completes isDefinition f.name q p') :
    Entered p f p' fun b => b = (isDefinition || p.defines f.name) := by
  obtain ⟨e, he, hsig, hparams, hbody⟩ := h.entry
  cases isDefinition with
  | false =>
    have hfun := Program.function?_congr (hc.1 rfl)
    exact ⟨fun other ho => (hfun other).trans (h.others other ho), e, (hfun f.name).trans he,
      hsig, hparams, hbody rfl⟩
  | true =>
    obtain ⟨ids, body, hfs⟩ := hc.2 rfl
    have hfun (other : String) := Program.function?_congr hfs other
    constructor
    case others =>
      intro other ho
      rw [hfun, Program.function?_modifyFunction (g := completion ids body) (fun _ => rfl),
        if_neg ho, h.others other ho]
    case entry =>
      refine ⟨completion ids body e, ?_, hsig, hparams, rfl⟩
      rw [hfun, Program.function?_modifyFunction (g := completion ids body) (fun _ => rfl),
        if_pos rfl, he]
      rfl

end Parse

def Neighborhood.knowing (K : Neighborhood) (own functions : List Function) : Neighborhood :=
  { K with own := own, functions := functions }

def ParseState.withFunctions (s : ParseState) (fs : List Function) : ParseState :=
  { s with program := { s.program with functions := fs } }

theorem Neighborhood.Embeds.knowing {K : Neighborhood} {s s' : ParseState} (hs : K.Embeds s s')
    {own functions : List Function}
    (hknown : ∀ name, ((s.withFunctions own).program.function? name).isSome = true →
      ((s'.withFunctions functions).program.function? name).isSome = true) :
    (K.knowing own functions).Embeds (s.withFunctions own) (s'.withFunctions functions) where
  ahead := hs.ahead
  plain := hs.plain
  scopes := hs.scopes
  vars := ⟨hs.vars.size, hs.vars.types, hs.vars.old⟩
  globals := hs.globals
  own := rfl
  functions := rfl
  known := hknown
  locals := hs.locals
  rooted := hs.rooted
  inside := hs.inside
  loopDepth := hs.loopDepth

namespace Parse

variable {K : Neighborhood} {g g' : Grammar} {s s' t : ParseState}

/-- The two bodies may differ, but both functions are defined. -/
theorem functionBody_agrees (hg : g.Refines K g') (hs : K.Embeds s s') {name : String}
    (h : functionBody g name s = .ok () t) : ∃ x x' ids ids' body body', K.Embeds x x' ∧
      t = x.withFunctions (x.program.modifyFunction name (completion ids body)).functions ∧
      functionBody g' name s' =
        .ok () (x'.withFunctions
          (x'.program.modifyFunction name (completion ids' body')).functions) := by
  obtain ⟨⟨⟩, u, hu, h⟩ := exists_of_bind h
  obtain ⟨hu', hus⟩ := agrees_expect hs hu
  obtain ⟨p, v, hp, h⟩ := exists_of_bind h
  cases hp
  obtain ⟨ns, x, hns, h⟩ := exists_of_bind h
  cases h
  obtain ⟨ns', x', hns', hx⟩ := agrees_items hg hus hns
  have hlast : lastPlace s'.advance = .ok s'.advance.last s'.advance := rfl
  refine ⟨x, x', x.locals.getD [], x'.locals.getD [], _, .block (.bare s'.advance.last) ns',
    hx, rfl, ?_⟩
  rw [functionBody, bind_of_ok hu', bind_of_ok hlast, bind_of_ok hns']
  rfl

theorem registerFunction_frame {f : Function} {isDefinition : Bool}
    (h : registerFunction f isDefinition s = .ok () t) :
    t = s.withFunctions t.program.functions := by
  obtain ⟨-, ⟨-, rfl⟩ | ⟨e, -, -, ⟨-, rfl⟩ | ⟨-, -, rfl⟩⟩⟩ := registerFunction_ok h
  all_goals rfl

theorem isSome_function?_modifyFunction {f : Function → Function} (hf : ∀ e, (f e).name = e.name)
    (p : Program) (name other : String) :
    ((p.modifyFunction name f).function? other).isSome = (p.function? other).isSome := by
  rw [Program.function?_modifyFunction hf]
  split
  · next h =>
    rw [h, Option.isSome_map]
  · rfl

theorem functions_modifyFunction_congr {p : Program} {fs : List Function} (h : p.functions = fs)
    (name : String) (f : Function → Function) :
    (p.modifyFunction name f).functions =
      (Program.modifyFunction { functions := fs } name f).functions := by
  rw [Program.modifyFunction, h, Program.modifyFunction]

/-- Where the function can be entered in the longer text, its body is read there as well. -/
theorem enterFunction_agrees (hg : ∀ K : Neighborhood, g.Refines K g') (hs : K.Embeds s s')
    {d : Declarator} {r r' : List VarId × Bool} {isDefinition : Bool}
    (h : enterFunction g d r isDefinition s = .ok () t) {w' : ParseState}
    (hw' : registerFunction (entry d r') isDefinition s' = .ok () w') :
    ∃ t', enterFunction g' d r' isDefinition s' = .ok () t' ∧
      Completes isDefinition d.name w'.program t'.program ∧
      (K.knowing t.program.functions t'.program.functions).Embeds t t' := by
  obtain ⟨⟨⟩, w, hw, h⟩ := exists_of_bind h
  have hentered := entered_registerFunction rfl hw
  have hentered' := entered_registerFunction rfl hw'
  have hknown (name : String) (hn : (w.program.function? name).isSome = true) :
      (w'.program.function? name).isSome = true := by
    by_cases he : name = d.name
    · obtain ⟨e, hsome, -⟩ := hentered'.entry
      rw [he, show w'.program.function? d.name = some e from hsome]
      rfl
    · rw [hentered.others name he] at hn
      rw [hentered'.others name he]
      exact hs.known name hn
  have hframe := registerFunction_frame hw
  have hframe' := registerFunction_frame hw'
  have hws : (K.knowing w.program.functions w'.program.functions).Embeds w w' := by
    rw [hframe, hframe'] at hknown ⊢
    exact hs.knowing hknown
  cases isDefinition with
  | false =>
    cases h
    exact ⟨w', bind_of_ok hw', completes_announcement rfl, hws⟩
  | true =>
    obtain ⟨x, x', ids, ids', body, body', hx, rfl, hbody⟩ := functionBody_agrees (hg _) hws h
    have hfunctions := functions_modifyFunction_congr hx.functions d.name (completion ids' body')
    refine ⟨_, (bind_of_ok hw').trans hbody, completes_definition hfunctions,
      hx.knowing fun name hn => ?_⟩
    have hkept := isSome_function?_modifyFunction (f := completion ids body)
      (fun _ => rfl) x.program d.name name
    have hkept' :=
      isSome_function?_modifyFunction (f := completion ids' body') (fun _ => rfl) x'.program
        d.name name
    exact hkept'.trans (hx.known name (hkept.symm.trans hn))

/-- The parameters are variables of the program. -/
theorem keeps_heading (hg : g.Sound) (d : Declarator) {v : View} (hv : v.Valid) :
    Keeps View.Grows (heading g d) v fun r w => ∀ id ∈ r.1, ∃ x, w.vars[id]? = some x := by
  refine .calm_bind (calm_expect _ _) fun _ _ => ?_
  have hlist := (keeps_parameterList hg hv).weaken fun _ _ hr hds => ⟨hr.toLeads.toGrows, hds⟩
  refine .bind View.evolution_grows hlist fun r w hw hds => ?_
  refine .bind View.evolution_grows (keeps_declareParams hds hw.valid) fun ids u hu hids => ?_
  have hframe : Keeps View.Grows (checkFrame d.place) u fun _ w => w = u :=
    (calm_checkFrame d.place u).weaken fun _ _ he _ => ⟨he ▸ .refl hu.valid, he.symm⟩
  refine .bind View.evolution_grows hframe fun _ z hz he => ?_
  subst he
  refine .pure (.refl hz.valid) fun id hid => ?_
  obtain ⟨x, hx, -⟩ := hids.2 id hid
  exact ⟨x, hx⟩

/-- A function that is entered as the only one. Its body leaves the variables from before it
alone. -/
theorem enterFunction_alone (hg : g.Sound) (hv : s.view.Valid) (hw : Worded s.ahead)
    {d : Declarator} {r : List VarId × Bool} {isDefinition : Bool}
    (h : enterFunction g d r isDefinition s = .ok () t)
    (hempty : s.program.functions = []) :
    (∀ (id : VarId) (x : Var), s.program.vars[id]? = some x → t.program.vars[id]? = some x) ∧
      t.scopes.vars.file = s.scopes.vars.file ∧
      ∃ e, t.program.functions = [e] ∧ e.name = d.name ∧ e.returnType = d.type ∧ e.params = r.1 ∧
        e.variadic = r.2 ∧ e.body.isSome = isDefinition := by
  obtain ⟨⟨⟩, w, hreg, h⟩ := exists_of_bind h
  have hnone (name : String) : s.program.function? name = none := by
    rw [Program.function?, hempty]
    rfl
  obtain ⟨-, ⟨-, hadd⟩ | ⟨e, he, -⟩⟩ := registerFunction_ok hreg
  · have hfunctions : w.program.functions =
        [if isDefinition then entry d r else { entry d r with locals := [] }] := by
      rw [hadd, Program.addFunction, hempty]
      rfl
    cases isDefinition with
    | false =>
      cases h
      exact ⟨fun id x hx => by rw [hadd]; exact hx, by rw [hadd], _, hfunctions, rfl, rfl,
        rfl, rfl, rfl⟩
    | true =>
      obtain ⟨⟨⟩, u, hu, h⟩ := exists_of_bind h
      obtain ⟨-, rfl⟩ := expect_ok hu
      obtain ⟨p, _, hp, h⟩ := exists_of_bind h
      cases hp
      obtain ⟨ns, y, hns, h⟩ := exists_of_bind h
      cases h
      have hvalid : w.view.Valid := by
        rw [hadd]
        exact { hv with }
      have hworded : Worded w.ahead := by
        rw [hadd]
        exact hw
      have hkeeps := keeps_items hg (view_advance w ▸ hvalid) w.advance rfl
        (worded_advance w hworded)
      rw [hns, view_advance] at hkeeps
      have hgrows := hkeeps.2.1.toGrows
      refine ⟨fun id x hx => hgrows.vars id x ?_, hgrows.fileVars.trans ?_,
        completion (y.locals.getD []) (.block (.bare w.advance.last) ns) (entry d r), ?_, rfl, rfl,
        rfl, rfl, rfl⟩
      · rw [hadd]
        exact hx
      · rw [hadd]
        rfl
      · have hy : y.program.functions = [entry d r] := hgrows.functions.trans hfunctions
        refine (functions_modifyFunction_congr hy d.name _).trans ?_
        simp [Program.modifyFunction, Program.modifyFirst, completion, entry]
  · rw [hnone] at he
    cases he

def initialValue (g : Grammar) (d : Declarator) : Parse (CType × Option (List UInt8)) := do
  checkObject d
  let init ← optionalInitializer g
  let t := init.elim d.type (·.complete d.type)
  if t.isIncompleteArray then
    declarationFault (.arraySizeMissing d.name) d.place
  else
    let bytes ← initialBytes t init
    return (t, bytes)

theorem repeats_optionalInitializer (hg : g.Refines K g') :
    Repeats K (optionalInitializer g) (optionalInitializer g') (Option.Rel (Initializer.Alike K)) :=
  .accept (.bind (repeats_initializer hg) fun _ _ h => .pure (.some h)) (.pure .none)

theorem repeats_initialBytes (t : CType) {init init' : Option Initializer}
    (h : Option.Rel (Initializer.Alike K) init init') :
    Repeats K (initialBytes t init) (initialBytes t init') Eq := by
  cases h with
  | none => exact .pure rfl
  | @some i i' hi =>
    rw [initialBytes, initialBytes]
    cases hd : i.data t with
    | error e => exact .never fun _ _ _ h => by cases h
    | ok bytes =>
      rw [hi.data t bytes hd]
      exact .pure rfl

theorem repeats_initialValue (hg : g.Refines K g') (d : Declarator) :
    Repeats K (initialValue g d) (initialValue g' d) Eq := by
  refine .bind_eq (repeats_checkObject d) fun _ => ?_
  refine .bind (repeats_optionalInitializer hg) fun init init' hinit => ?_
  have htype : init'.elim d.type (·.complete d.type) = init.elim d.type (·.complete d.type) := by
    cases hinit with
    | none => rfl
    | some hi => exact hi.complete_eq d.type
  rw [htype]
  dsimp only
  split
  · exact repeats_declarationFault _ _
  · exact .bind_eq (repeats_initialBytes _ hinit) fun _ => .pure rfl

theorem checkObject_cases (d : Declarator) (s : ParseState) :
    checkObject d s = .ok () s ∨ ∃ e, checkObject d s = .error e s := by
  unfold checkObject
  split
  · exact Or.inr ⟨_, rfl⟩
  · exact Or.inl rfl

/-- A global variable is entered once its value has been read. -/
theorem globalVariable_eq {d : Declarator} (hf : s.program.function? d.name = none) :
    globalVariable g d s = (do let r ← initialValue g d; bindGlobal d r.1 r.2) s := by
  rcases checkObject_cases d s with hc | ⟨e, hc⟩
  · rw [globalVariable, bind_of_ok hc, bind_of_ok (get_ok s), hf, initialValue, bind_assoc,
      bind_of_ok hc, bind_assoc]
    refine congrFun (congrArg (optionalInitializer g >>= ·) (funext fun init => ?_)) s
    dsimp only
    split
    · rfl
    · rw [bind_assoc]
      rfl
  · rw [globalVariable, bind_of_error hc, initialValue, bind_assoc, bind_of_error hc]

/-- A name of a function is refused for a global variable. -/
theorem globalVariable_of_function {d : Declarator}
    (hf : (s.program.function? d.name).isSome = true) :
    globalVariable g d s ≠ .ok () t := by
  intro h
  obtain ⟨⟨⟩, u, hu, h⟩ := exists_of_bind h
  rcases checkObject_cases d s with hc | ⟨e, hc⟩
  · cases hc.symm.trans hu
    obtain ⟨_, _, hget, h⟩ := exists_of_bind h
    cases hget
    rw [if_pos hf] at h
    cases h
  · cases hc.symm.trans hu

def moreGlobals (g : Grammar) (base : CType) : Parse Unit := do
  let _ ← collect do
    if ← accept "," then
      let d ← declarator base
      globalVariable g d
      return some ()
    else
      return none
  expect ";" "after global declaration"

theorem topLevel_eq (g : Grammar) : topLevel g = (do
    let base ← baseType g
    if ← accept ";" then return ()
    else
      let d ← declarator base
      if ← check "(" then function g d
      else
        globalVariable g d
        moreGlobals g base) := rfl

theorem isReserved_of_ne {t : Token} {a b : String} (h : t.isReserved a = true) (hab : a ≠ b) :
    t.isReserved b = false := by
  obtain ⟨-, htext⟩ := kind_of_isReserved h
  rw [Token.isReserved, htext, beq_eq_false_iff_ne.mpr hab, Bool.and_false]

theorem collect_of_none {α : Type} {item : Parse (Option α)} (h : item s = .ok none s) :
    collect item s = .ok [] s := by
  have hrounds : rounds s = .ok (.atEnd s.finish :: s.ahead) s := rfl
  rw [collect, bind_of_ok hrounds, collectWithin, bind_of_ok h]
  rfl

theorem grow_of_none {α : Type} {step : α → Parse (Option α)} {a : α} (h : step a s = .ok none s) :
    grow step a s = .ok a s := by
  have hrounds : rounds s = .ok (.atEnd s.finish :: s.ahead) s := rfl
  rw [grow, bind_of_ok hrounds, growWithin, bind_of_ok h]
  rfl

theorem moreGlobals_of_semicolon {base : CType} (h : s.next.isReserved ";" = true) :
    moreGlobals g base s = .ok () s.advance := by
  have hcomma := accept_of_not (isReserved_of_ne h (b := ",") (by decide))
  rw [moreGlobals, bind_of_ok (collect_of_none ((bind_of_ok hcomma).trans rfl))]
  exact expect_of_isReserved h _

/-- A declarator does not begin with a semicolon. -/
theorem declarator_of_semicolon {base : CType} (h : s.next.isReserved ";" = true) {d : Declarator} :
    declarator base s ≠ .ok d t := by
  intro hd
  have hstar := accept_of_not (isReserved_of_ne h (b := "*") (by decide))
  have hstars : stars base s = .ok base s := grow_of_none ((bind_of_ok hstar).trans rfl)
  rw [declarator, bind_of_ok hstars] at hd
  obtain ⟨r, u, hr, -⟩ := exists_of_bind hd
  have hnext : next s = .ok s.next s := rfl
  have hkind : s.next.kind ≠ .ident := by
    rw [(kind_of_isReserved h).1]
    exact TokenKind.noConfusion
  rw [identifier, bind_of_ok hnext, if_neg hkind] at hr
  cases hr

/-- What is read alike in both texts: the declared name and its type. The rest is read by the
reader of functions or by that of global variables. -/
theorem single_reaches (hg : g.Refines K g') (hs : K.Embeds s s') (h : single g s = .ok () t) :
    ∃ base d w u u', baseType g s = .ok base w ∧ declarator base w = .ok d u ∧ K.Embeds u u' ∧
      (function g d u = .ok () t ∧ topLevel g' s' = function g' d u' ∨
        ∃ v, globalVariable g d u = .ok () v ∧ expect ";" "after global declaration" v = .ok () t ∧
          topLevel g' s' = (do globalVariable g' d; moreGlobals g' base) u') := by
  obtain ⟨base, w, hbase, h⟩ := exists_of_bind h
  obtain ⟨d, u, hd, h⟩ := exists_of_bind h
  obtain ⟨b, _, hb, h⟩ := exists_of_bind h
  cases hb
  have hu : u.ahead ≠ [] := by
    cases hparen : u.next.isReserved "(" with
    | true => exact ahead_ne_nil_of_isReserved hparen
    | false =>
      rw [hparen] at h
      obtain ⟨⟨⟩, v, hv, h⟩ := exists_of_bind h
      have hne := ahead_ne_nil_of_isReserved (expect_ok h).1
      exact ahead_ne_nil (restores_of_contract (contract_globalVariable hg.honest trivial) hv) hne
  have hw : w.ahead ≠ [] := ahead_ne_nil (restores_of_contract (contract_declarator base) hd) hu
  obtain ⟨_, w', hbase', hws, rfl⟩ := (repeats_baseType hg).agrees hs hbase hw
  have hsemi : w'.next.isReserved ";" = false := by
    rw [hws.next hw]
    cases hr : w.next.isReserved ";" with
    | true => exact absurd hd (declarator_of_semicolon hr)
    | false => rfl
  obtain ⟨_, u', hd', hus, rfl⟩ := (repeats_declarator base).agrees hws hd hu
  have hcheck : check "(" u' = .ok (u.next.isReserved "(") u' := by
    rw [← hus.next hu]
    rfl
  refine ⟨base, d, w, u, u', hbase, hd, hus, ?_⟩
  have htop : topLevel g' s' = (if u.next.isReserved "(" = true then function g' d
      else do globalVariable g' d; moreGlobals g' base) u' := by
    rw [topLevel_eq, bind_of_ok hbase', bind_of_ok (accept_of_not hsemi), if_neg Bool.false_ne_true,
      bind_of_ok hd', bind_of_ok hcheck]
  rw [htop]
  cases hparen : u.next.isReserved "(" with
  | true =>
    rw [hparen] at h
    exact Or.inl ⟨h, rfl⟩
  | false =>
    rw [hparen] at h
    obtain ⟨⟨⟩, v, hv, h⟩ := exists_of_bind h
    exact Or.inr ⟨v, hv, h, rfl⟩

end Parse

end StackC
