import StackC.Proofs.Grammar.Singles
import StackC.Proofs.Restoration

/-!
A text of several declarations is accepted exactly if its declarations, each of which is accepted
on its own, are compatible with each other. The order in which they stand shows neither in whether
the text is accepted nor in what the program then says about functions and global variables.
-/

namespace StackC

def Program.declaration? (p : Program) (scopes : Scopes) : Option Declaration :=
  match p.functions, scopes.vars.file with
  | [f], [] => some (.function f.name (f.signature p) f.body.isSome)
  | [], [(name, _)] => (p.object? scopes name).map fun o => .global name o.1 o.2
  | _, _ => none

def Token.isPlain (t : Token) : Bool :=
  t.kind != .eof && !t.isReserved "struct" &&
    (t.kind != .ident || t.text.toList.all Lexeme.isNameChar)

/-- What the tokens declare, if they are one function or one global variable that is accepted on its
own. -/
def declaration? (tokens : List Token) : Option Declaration :=
  if tokens.all Token.isPlain then
    match Parse.single (.ofDepth tokens.length) (.ofTokens tokens) with
    | .ok () s => if s.ahead.isEmpty then s.program.declaration? s.scopes else none
    | .error _ _ => none
  else none

structure Written where
  tokens : List Token
  declaration : Declaration
  reads : declaration? tokens = some declaration

namespace Neighborhood

def around (p : Program) (scopes : Scopes) (rest : List Token) : Neighborhood :=
  { rest := rest, vars := p.vars, globals := p.globals, file := scopes.vars.file, own := [],
    functions := p.functions }

/-- The longer text still has the variables that were known before. -/
theorem Embeds.keeps {K : Neighborhood} {p : Program} {s s' : ParseState} (h : K.Embeds s s')
    (hvars : K.vars = p.vars) (hglobals : K.globals = p.globals) : p.Keeps s'.program where
  vars i hi := by
    rw [← hvars] at hi ⊢
    exact h.vars.old i hi
  size := by
    rw [h.vars.size, hvars]
    exact Nat.le_add_right _ _
  globals id hid := h.globals id (hglobals ▸ hid)

end Neighborhood

/-- The state between two declarations, those before which are `ds`. -/
structure ParseState.AtFileLevel (ds : List Declaration) (s : ParseState) : Prop where
  atFile : s.scopes.vars.length = 1
  locals : s.locals = none
  loopDepth : s.loopDepth = 0
  known : Known ds s.program s.scopes

/-- A declaration that is read behind others has these for a neighborhood. -/
theorem embeds_around {ds : List Declaration} {s : ParseState} (h : s.AtFileLevel ds)
    {ts rest : List Token} (ha : s.ahead = ts ++ rest)
    (hts : ∀ t ∈ ts, t.isReserved "struct" = false) (p : Location) :
    (Neighborhood.around s.program s.scopes rest).Embeds { ahead := ts, finish := p } s where
  ahead := ha
  plain := hts
  scopes := ⟨[], rfl, Chain.eq_file_of_length h.atFile⟩
  vars :=
    { size := rfl
      types := fun i => by
        have hout : s.program.vars[(Neighborhood.around s.program s.scopes rest).shift i]? = none :=
          Array.getElem?_eq_none (Nat.le_add_right _ _)
        rw [hout]
        rfl
      old := fun _ _ => rfl }
  globals _ hid := hid
  own := rfl
  functions := rfl
  known _ hn := by cases hn
  locals := h.locals
  rooted := ⟨List.cons_ne_nil _ _, List.cons_ne_nil _ _⟩
  inside hl := by cases hl
  loopDepth := h.loopDepth

/-- From `s` the reader reads one more declaration `d` behind `ds`, if `d` fits to all of them. -/
def Parse.Adds (m : Parse Unit) (s : ParseState) (ds : List Declaration) (d : Declaration)
    (rest : List Token) : Prop :=
  ((∀ a ∈ ds, a.Fits d) → ∃ t, m s = .ok () t ∧ t.ahead = rest ∧ t.AtFileLevel (ds ++ [d])) ∧
    ((∃ a ∈ ds, ¬a.Fits d) → ∀ t, m s ≠ .ok () t)

namespace Parse

variable {ds : List Declaration} {p : Program} {scopes : Scopes} {rest : List Token}
  {g g' : Grammar} {s s' t t' u u' : ParseState} {d : Declarator}

/-- Behind the heading of a function its parameters are variables. -/
theorem valid_behind_heading (hg : g.Sound) (htop : u.view.Top) (hw : Worded u.ahead)
    {r : List VarId × Bool} {w : ParseState} (hr : heading g d (atEntry u) = .ok r w) {b : Bool}
    (hb : accept ";" w = .ok b s) :
    s.view.Valid ∧ Worded s.ahead ∧ ∀ id ∈ r.1, ∃ x, s.program.vars[id]? = some x := by
  have hheading := keeps_heading hg d (valid_opened htop) (atEntry u) rfl hw
  rw [hr] at hheading
  obtain ⟨hworded, hgrows, hparams⟩ := hheading
  obtain ⟨-, rfl⟩ := accept_ok hb
  cases b with
  | false => exact ⟨hgrows.valid, hworded, hparams⟩
  | true =>
    have hview := view_advance w
    have hprogram : w.advance.program = w.program := congrArg View.program hview
    exact ⟨hview ▸ hgrows.valid, worded_advance w hworded, hprogram ▸ hparams⟩

theorem varTypes_congr {q : Program} {ids : List VarId}
    (h : ∀ id ∈ ids, q.vars[id]? = p.vars[id]?) : varTypes q ids = varTypes p ids :=
  List.map_congr_left fun id hid => congrArg (Option.map (·.type)) (h id hid)

/-- Variables that are kept keep their types. -/
theorem varTypes_of_kept {q : Program} {ids : List VarId}
    (h : ∀ id ∈ ids, ∃ x, p.vars[id]? = some x ∧ q.vars[id]? = some x) :
    varTypes q ids = varTypes p ids := by
  refine varTypes_congr fun id hid => ?_
  obtain ⟨x, hx, hx'⟩ := h id hid
  rw [hx, hx']

/-- A function that was known before has the same signature as before. -/
theorem signature_eq (hk : Known ds p scopes) (hs : (Neighborhood.around p scopes rest).Embeds s s')
    {name : String} {e : Function} (he : p.function? name = some e) :
    e.signature s'.program = e.signature p := by
  unfold Function.signature
  rw [varTypes_congr fun id hid => hs.vars.old id (hk.params name e he id hid)]

/-- A function can be entered behind `ds` exactly if its declaration fits to all of them. -/
theorem registerFunction_iff (hk : Known ds p scopes)
    (hs : (Neighborhood.around p scopes rest).Embeds s s') (f : Function) (isDefinition : Bool) :
    (∃ t, registerFunction f isDefinition s' = .ok () t) ↔
      ∀ a ∈ ds, a.Fits (.function f.name (f.signature s'.program) isDefinition) := by
  have hfile : s'.scopes.fileVar? f.name = scopes.fileVar? f.name :=
    Scopes.fileVar?_congr hs.scopes.around f.name
  have hfunction : s'.program.function? f.name = p.function? f.name :=
    Program.function?_congr hs.functions f.name
  constructor
  · rintro ⟨t, h⟩ a ha
    obtain ⟨hfree, hcases⟩ := registerFunction_ok h
    rw [hfunction] at hcases
    cases a with
    | global n u x =>
      rintro rfl
      have htype := (hk.type f.name u).mpr ⟨x, ha⟩
      rw [Program.object?, ← hfile, hfree] at htype
      cases htype
    | function n σ i =>
      rintro rfl
      obtain ⟨e, he, rfl⟩ := Option.map_eq_some_iff.mp ((hk.signature f.name σ).mpr ⟨i, ha⟩)
      rcases hcases with ⟨hnone, -⟩ | ⟨e', he', hsame, hcase⟩
      · cases hnone.symm.trans he
      · cases he'.symm.trans he
        refine ⟨(signature_eq hk hs he).symm.trans (sameSignature_iff.mp hsame), ?_⟩
        rintro ⟨rfl, rfl⟩
        have hdefines := (hk.defines f.name).mpr ⟨_, ha⟩
        rw [Program.defines, he, Option.any_some] at hdefines
        rcases hcase with ⟨hdef, -⟩ | ⟨-, hbody, -⟩
        · cases hdef
        · cases hbody.symm.trans hdefines
  · intro hfits
    refine registerFunction_of ?_ (fun e he => ?_) fun hdef => ?_
    · exact hfile.trans (hk.fileVar?_eq_none hfits)
    · rw [hfunction] at he
      obtain ⟨i, hi⟩ := hk.exists_function he
      exact sameSignature_iff.mpr ((signature_eq hk hs he).trans (hfits _ hi rfl).1)
    · rw [Program.defines, hfunction]
      cases hd : (p.function? f.name).any (·.body.isSome) with
      | false => rfl
      | true =>
        obtain ⟨σ, hσ⟩ := (hk.defines f.name).mp hd
        exact absurd ⟨rfl, hdef⟩ (hfits _ hσ rfl).2

/-- The declaration that a function is when it is read on its own. -/
theorem declaration?_function {r : List VarId × Bool} {isDefinition : Bool} (hsound : g.Sound)
    (hvalid : s.view.Valid) (hworded : Worded s.ahead) (hempty : s.program.functions = [])
    (hfile : s.scopes.vars.file = []) (hparams : ∀ id ∈ r.1, ∃ x, s.program.vars[id]? = some x)
    (h : enterFunction g d r isDefinition s = .ok () t) :
    (∀ id ∈ r.1, ∃ x, s.program.vars[id]? = some x ∧ t.program.vars[id]? = some x) ∧
      (atExit t).program.declaration? (atExit t).scopes =
        some (.function d.name ((entry d r).signature s.program) isDefinition) := by
  obtain ⟨hvars, hfiles, e, he, hname, hreturn, heparams, hvariadic, hbody⟩ :=
    enterFunction_alone hsound hvalid hworded h hempty
  have hkept (id : VarId) (hid : id ∈ r.1) :
      ∃ x, s.program.vars[id]? = some x ∧ t.program.vars[id]? = some x := by
    obtain ⟨x, hx⟩ := hparams id hid
    exact ⟨x, hx, hvars id x hx⟩
  refine ⟨hkept, ?_⟩
  have hscope : (atExit t).scopes.vars.file = [] :=
    (Scopes.file_leave t.scopes).trans (hfiles.trans hfile)
  have hfunctions : (atExit t).program.functions = [e] := he
  have hsignature : e.signature (atExit t).program = (entry d r).signature s.program := by
    rw [Function.signature, hreturn, heparams, hvariadic]
    exact congrArg (Signature.mk d.type · r.2) (varTypes_of_kept hkept)
  rw [Program.declaration?, hfunctions, hscope]
  dsimp only
  rw [hsignature, hname, hbody]

/-- The program behind a function that has been entered behind `ds`. -/
theorem known_entered (hk : Known ds p scopes)
    (hs : (Neighborhood.around p scopes rest).Embeds s s') {own functions : List Function}
    (ht : ((Neighborhood.around p scopes rest).knowing own functions).Embeds t t')
    {ids : List VarId}
    (hids : ∀ id ∈ ids, ∃ x, s.program.vars[id]? = some x ∧ t.program.vars[id]? = some x)
    {f : Function}
    (hf : f.params = ids.map (Neighborhood.around p scopes rest).shift) {isDefinition : Bool}
    (he : Entered s'.program f t'.program fun b => b = (isDefinition || s'.program.defines f.name))
    (hfits : ∀ a ∈ ds, a.Fits (.function f.name (f.signature s'.program) isDefinition))
    {scopes' : Scopes}
    (hfile : scopes'.vars.file = scopes.vars.file) :
    Known (ds ++ [.function f.name (f.signature s'.program) isDefinition]) t'.program scopes' := by
  obtain ⟨e, hsome, hsignature, hparams, hbody⟩ := he.entry
  have hfunction (name : String) : s'.program.function? name = p.function? name :=
    Program.function?_congr hs.functions name
  -- The parameters are those of this declaration or of an earlier one.
  have hkept : (∀ id ∈ e.params, id < t'.program.vars.size) ∧
      varTypes t'.program e.params = varTypes s'.program e.params := by
    rcases hparams with hnew | ⟨e₀, he₀, hold⟩
    · rw [hnew, hf, hs.vars.varTypes]
      refine ⟨fun id hid => ?_, (ht.vars.varTypes ids).trans (varTypes_of_kept hids)⟩
      obtain ⟨i, hi, rfl⟩ := List.mem_map.mp hid
      obtain ⟨x, -, hx⟩ := hids i hi
      have hsize : t'.program.vars.size = p.vars.size + t.program.vars.size := ht.vars.size
      rw [hsize]
      exact Nat.add_lt_add_left (Known.lt_size hx) _
    · rw [hfunction] at he₀
      rw [hold]
      refine ⟨fun id hid => Nat.lt_of_lt_of_le (hk.params f.name e₀ he₀ id hid)
        (ht.keeps rfl rfl).size, ?_⟩
      refine varTypes_congr fun id hid => ?_
      have hlt := hk.params f.name e₀ he₀ id hid
      exact (ht.vars.old id hlt).trans (hs.vars.old id hlt).symm
  have hshown : e.signature t'.program = f.signature s'.program := by
    rw [← hsignature, Function.signature, hkept.2, Function.signature]
  have hdefines : e.body.isSome = (isDefinition || p.defines f.name) := by
    rw [hbody, Program.defines, hfunction, Program.defines]
  rw [← hshown] at hfits ⊢
  exact hk.function (ht.keeps rfl rfl) hfile
    (fun other ho => (he.others other ho).trans (hfunction other)) hsome hkept.1 hdefines hfits

/-- A function that is accepted on its own is accepted behind compatible declarations, and adds to
what the program shows. -/
theorem function_adds (hg : ∀ K : Neighborhood, g.Refines K g') (hsound : g.Sound)
    (hk : Known ds p scopes) (hu : (Neighborhood.around p scopes rest).Embeds u u')
    (htop : u.view.Top) (hw : Worded u.ahead)
    (h : function g d u = .ok () t) (hend : t.ahead = []) :
    ∃ D, t.program.declaration? t.scopes = some D ∧ (function g' d).Adds u' ds D rest := by
  have hrestores := ((abides_function (hg (.around p scopes rest)).honest
    (P := fun _ => True) trivial u.placed_true htop.locals).of_ok h).1.restores
  obtain ⟨r, isDefinition, w, x, x', v, hhead, haccept, henter, rfl, hx, hlong⟩ :=
    function_reaches (hg _) hu h
  obtain ⟨hvalid, hworded, hparams⟩ := valid_behind_heading hsound htop hw hhead haccept
  obtain ⟨hkept, hdeclared⟩ :=
    declaration?_function hsound hvalid hworded hx.own hx.scopes.file hparams henter
  refine ⟨_, hdeclared, ?_⟩
  -- The longer text numbers the parameters anew; their types are the same.
  have hsignature : (entry d (r.1.map (Neighborhood.around p scopes rest).shift, r.2)).signature
    x'.program = (entry d r).signature x.program :=
    congrArg (Signature.mk d.type · r.2) (hx.vars.varTypes r.1)
  rw [← hsignature]
  -- Only here can the two texts part: the longer one may know the name already.
  have hregister := registerFunction_iff hk hx
    (entry d (r.1.map (Neighborhood.around p scopes rest).shift, r.2)) isDefinition
  constructor
  case left =>
    intro hfits
    obtain ⟨w', hw'⟩ := hregister.mpr hfits
    obtain ⟨t', ht', hcompletes, hembeds⟩ := enterFunction_agrees hg hx henter hw'
    have hentered := (entered_registerFunction rfl hw').completes hcompletes
    refine ⟨atExit t', hlong.trans (between_of_ok ht'), ?_, ?_⟩
    · have hahead : t'.ahead = v.ahead ++ rest := hembeds.ahead
      rw [show v.ahead = [] from hend, List.nil_append] at hahead
      exact hahead
    · have hfile : t'.scopes.leave.vars.file = scopes.vars.file :=
        (Scopes.file_leave t'.scopes).trans hembeds.scopes.around
      have hlength : v.scopes.leave.vars.length = 1 :=
        (hrestores.scopes hu.rooted).varsLength.trans htop.atFile
      exact ⟨hembeds.scopes.leave.length.trans hlength, rfl,
        hembeds.loopDepth.trans (hrestores.loopDepth.trans htop.loopDepth),
        known_entered hk hx hembeds hkept rfl hentered hfits hfile⟩
  case right =>
    rintro ⟨a, ha, hfit⟩ t' ht'
    rw [hlong] at ht'
    obtain ⟨y, hy, -⟩ := exists_of_between ht'
    obtain ⟨⟨⟩, w', hw', -⟩ := exists_of_bind hy
    exact hfit (hregister.mp ⟨w', hw'⟩ a ha)

theorem innermostVar?_eq {scopes : Scopes} (h : scopes.vars.length = 1) (name : String) :
    scopes.innermostVar? name = scopes.fileVar? name := by
  rw [Scopes.innermostVar?, Chain.innermost?_eq_file h, Scopes.fileVar?, Chain.outermost?_eq]

/-- A global variable with a new name is added to the program and to the file scope. -/
theorem bindGlobal_of_free {ty : CType} {bytes : Option (List UInt8)}
    (hfile : s.scopes.vars.length = 1) (hfree : s.scopes.fileVar? d.name = none) :
    bindGlobal d ty bytes s = .ok () { s with
      program := s.program.withGlobal ⟨d.name, ty, .global bytes⟩
      scopes := s.scopes.withFileVar d.name s.program.vars.size } := by
  have hnew : newVar ⟨d.name, ty, .global bytes⟩ s = .ok s.program.vars.size
    { s with program := (s.program.addVar ⟨d.name, ty, .global bytes⟩).1 } := rfl
  have hdeclare : s.scopes.declareVar? d.name s.program.vars.size =
      some (s.scopes.withFileVar d.name s.program.vars.size) := by
    rw [Scopes.fileVar?, Chain.outermost?_eq] at hfree
    refine Scopes.declareVar?_eq_some.mpr ⟨_, _, Chain.eq_file_of_length hfile, hfree, ?_⟩
    rw [Scopes.withFileVar, Chain.inner_eq_nil hfile]
    rfl
  rw [bindGlobal, bind_of_ok (get_ok s), innermostVar?_eq hfile, hfree]
  dsimp only
  rw [bind_of_ok hnew, bind_of_ok (get_ok _), hdeclare]
  rfl

/-- A further declaration of a global variable adds at most its initial bytes. -/
theorem bindGlobal_of_bound {ty : CType} {bytes : Option (List UInt8)}
    (hfile : s.scopes.vars.length = 1) {id : VarId} {v : Var}
    (hid : s.scopes.fileVar? d.name = some id) (hv : s.program.var? id = some v)
    (htype : v.type = ty)
    (hbytes : ¬(bytes.isSome = true ∧ (v.object?.bind Prod.snd).isSome = true)) :
    bindGlobal d ty bytes s = .ok () { s with program := s.program.withBytes id bytes } := by
  rw [bindGlobal, bind_of_ok (get_ok s), innermostVar?_eq hfile, hid]
  dsimp only
  rw [hv]
  dsimp only
  rw [if_neg (not_not_intro htype)]
  cases bytes with
  | none => rfl
  | some b =>
    cases hstorage : v.storage with
    | onFrame => rfl
    | global init =>
      cases init with
      | none => rfl
      | some b' => exact absurd ⟨rfl, by rw [Var.object?, hstorage]; rfl⟩ hbytes

/-- A further declaration is accepted only with the same type, and with initial bytes only if
there were none. -/
theorem bindGlobal_ok {ty : CType} {bytes : Option (List UInt8)} (hfile : s.scopes.vars.length = 1)
    {id : VarId} {v : Var} (hid : s.scopes.fileVar? d.name = some id)
    (hv : s.program.var? id = some v)
    (h : bindGlobal d ty bytes s = .ok () t) :
    v.type = ty ∧ ¬(bytes.isSome = true ∧ (v.object?.bind Prod.snd).isSome = true) := by
  rw [bindGlobal, bind_of_ok (get_ok s), innermostVar?_eq hfile, hid] at h
  dsimp only at h
  rw [hv] at h
  dsimp only at h
  by_cases htype : v.type = ty
  · refine ⟨htype, ?_⟩
    rintro ⟨hb, hv⟩
    obtain ⟨b, rfl⟩ := Option.isSome_iff_exists.mp hb
    rw [if_neg (not_not_intro htype)] at h
    cases hstorage : v.storage with
    | onFrame =>
      rw [Var.object?, hstorage] at hv
      cases hv
    | global init =>
      cases init with
      | none =>
        rw [Var.object?, hstorage] at hv
        cases hv
      | some b' =>
        rw [hstorage] at h
        cases h
  · rw [if_pos htype] at h
    cases h

/-- A global variable that fits to all of `ds` is entered behind them. -/
theorem bindGlobal_adds (hk : Known ds s.program s.scopes) (hfile : s.scopes.vars.length = 1)
    {ty : CType} {bytes : Option (List UInt8)}
    (hfits : ∀ a ∈ ds, a.Fits (.global d.name ty bytes)) :
    ∃ q scopes', bindGlobal d ty bytes s = .ok () { s with program := q, scopes := scopes' } ∧
      scopes'.vars.length = 1 ∧ Known (ds ++ [.global d.name ty bytes]) q scopes' := by
  cases hid : s.scopes.fileVar? d.name with
  | none =>
    refine ⟨_, _, bindGlobal_of_free hfile hid, ?_, hk.withGlobal hid hfits⟩
    rw [Scopes.withFileVar, Chain.inner_eq_nil hfile]
    rfl
  | some id =>
    -- The variable shows the type of some earlier declaration, and bytes only if one of them has
    -- bytes.
    obtain ⟨v, hv, -, hobject, hsome⟩ := hk.object?_of_bound hid
    have hshown := Known.object?_of_isSome hsome
    obtain ⟨x, hx⟩ := (hk.type d.name v.type).mp (by rw [hobject, hshown]; rfl)
    have htype := (hfits _ hx rfl).1
    refine ⟨_, _, bindGlobal_of_bound hfile hid hv htype ?_, hfile, hk.withBytes hid hv htype hfits⟩
    rintro ⟨hbytes, hinit⟩
    obtain ⟨b, hb⟩ := Option.isSome_iff_exists.mp hinit
    obtain ⟨u, hu⟩ := (hk.bytes d.name b).mp (by rw [hobject, hb])
    exact (hfits _ hu rfl).2 ⟨rfl, hbytes⟩

/-- Only what fits to all of `ds` is entered behind them. -/
theorem fits_of_bindGlobal (hk : Known ds s.program s.scopes) (hfile : s.scopes.vars.length = 1)
    (hfunction : s.program.function? d.name = none) {ty : CType} {bytes : Option (List UInt8)}
    (h : bindGlobal d ty bytes s = .ok () t) (a : Declaration) (ha : a ∈ ds) :
    a.Fits (.global d.name ty bytes) := by
  cases a with
  | function n σ i =>
    rintro rfl
    have hsome := (hk.signature d.name σ).mpr ⟨i, ha⟩
    rw [Program.signature?, hfunction] at hsome
    cases hsome
  | global n u x =>
    rintro rfl
    have htype := (hk.type d.name u).mpr ⟨x, ha⟩
    cases hid : s.scopes.fileVar? d.name with
    | none =>
      rw [Program.object?, hid] at htype
      cases htype
    | some id =>
      obtain ⟨v, hv, -, hobject, hsome⟩ := hk.object?_of_bound hid
      obtain ⟨hty, hbytes⟩ := bindGlobal_ok hfile hid hv h
      rw [hobject, Known.object?_of_isSome hsome, Option.map_some, Option.some_inj] at htype
      refine ⟨htype.symm.trans hty, ?_⟩
      rintro ⟨hx, hb⟩
      obtain ⟨b, rfl⟩ := Option.isSome_iff_exists.mp hx
      have hinit := (hk.bytes d.name b).mpr ⟨u, ha⟩
      rw [hobject] at hinit
      exact hbytes ⟨hb, by rw [hinit]; rfl⟩

theorem ahead_advance (s : ParseState) : s.advance.ahead = s.ahead.tail := by
  unfold ParseState.advance
  cases h : s.ahead with
  | nil => exact h
  | cons t ts => rfl

theorem atFileLevel_advance (h : s.AtFileLevel ds) : s.advance.AtFileLevel ds := by
  unfold ParseState.advance
  split
  · exact h
  · exact { h with }

/-- The declaration that a global variable is when it is read on its own. -/
theorem declaration?_global {ty : CType} {bytes : Option (List UInt8)} {name : String}
    (hfunctions : p.functions = []) (hfile : scopes.vars.file = []) :
    (p.withGlobal ⟨name, ty, .global bytes⟩).declaration? (scopes.withFileVar name p.vars.size) =
      some (.global name ty bytes) := by
  have hnone : (p.withGlobal ⟨name, ty, .global bytes⟩).functions = [] := hfunctions
  have hone : (scopes.withFileVar name p.vars.size).vars.file = [(name, p.vars.size)] := by
    rw [Known.file_withFileVar, hfile]
  have hglobal : p.vars.size ∈ (p.withGlobal ⟨name, ty, .global bytes⟩).globals :=
    List.mem_append_right _ (List.mem_singleton_self _)
  rw [Program.declaration?, hnone, hone]
  dsimp only
  rw [Program.object?, Known.fileVar?_withFileVar, Option.bind_some, if_pos hglobal,
    Known.var?_withGlobal]
  rfl

/-- A global variable that is read on its own. Its type and its bytes are read in the longer text
as well; here they become those of a new name. -/
theorem globalVariable_reaches (hg : g.Refines (.around p scopes rest) g')
    (hu : (Neighborhood.around p scopes rest).Embeds u u') (htop : u.view.Top)
    (h : globalVariable g d u = .ok () s) (hs : s.ahead ≠ []) :
    ∃ ty bytes x x', u.Restores x ∧ x.ahead ≠ [] ∧ (Neighborhood.around p scopes rest).Embeds x x' ∧
      initialValue g' d u' = .ok (ty, bytes) x' ∧ s = { x with
        program := x.program.withGlobal ⟨d.name, ty, .global bytes⟩
        scopes := x.scopes.withFileVar d.name x.program.vars.size } := by
  have hnone : u.program.function? d.name = none := by
    rw [Program.function?, hu.own]
    rfl
  rw [globalVariable_eq hnone] at h
  obtain ⟨⟨ty, bytes⟩, x, hx, hbind⟩ := exists_of_bind h
  have hne := ahead_ne_nil (restores_of_contract (contract_bindGlobal trivial ty bytes) hbind) hs
  have hrestores := ((repeats_initialValue hg d).alone hx).1
  obtain ⟨_, x', hx', hxx, rfl⟩ := (repeats_initialValue hg d).agrees hu hx hne
  have hfree : x.scopes.fileVar? d.name = none := by
    rw [Scopes.fileVar?, Chain.outermost?_eq, hxx.scopes.file]
    rfl
  have hlength := (hrestores.scopes hu.rooted).varsLength.trans htop.atFile
  rw [bindGlobal_of_free hlength hfree] at hbind
  cases hbind
  exact ⟨ty, bytes, x, x', hrestores, hne, hxx, hx', rfl⟩

/-- A global variable that is accepted on its own is accepted behind compatible declarations, and
adds to what the program shows. -/
theorem globalVariable_adds (hg : g.Refines (.around p scopes rest) g') (hk : Known ds p scopes)
    (hu : (Neighborhood.around p scopes rest).Embeds u u') (htop : u.view.Top)
    (h : globalVariable g d u = .ok () s) (hs : expect ";" "after global declaration" s = .ok () t)
    (hend : t.ahead = []) (base : CType) :
    ∃ D, t.program.declaration? t.scopes = some D ∧
      (do globalVariable g' d; moreGlobals g' base).Adds u' ds D rest := by
  obtain ⟨hsemi, rfl⟩ := expect_ok hs
  obtain ⟨ty, bytes, x, x', hrestores, hne, hxx, hx', rfl⟩ :=
    globalVariable_reaches hg hu htop h (ahead_ne_nil_of_isReserved hsemi)
  refine ⟨.global d.name ty bytes, ?_, ?_⟩
  · have hview := view_advance { x with
      program := x.program.withGlobal ⟨d.name, ty, .global bytes⟩
      scopes := x.scopes.withFileVar d.name x.program.vars.size }
    rw [show ParseState.program _ = _ from congrArg View.program hview,
      show ParseState.scopes _ = _ from congrArg View.scopes hview]
    exact declaration?_global hxx.own hxx.scopes.file
  -- An initializer may have added string literals, of which the declarations say nothing.
  have hkx : Known ds x'.program x'.scopes :=
    hk.keeps (hxx.keeps rfl rfl) hxx.functions hxx.scopes.around
  have hlength : x'.scopes.vars.length = 1 :=
    hxx.scopes.length.trans ((hrestores.scopes hu.rooted).varsLength.trans htop.atFile)
  constructor
  case left =>
    intro hfits
    have hf : u'.program.function? d.name = none :=
      (Program.function?_congr hu.functions d.name).trans (hk.function?_eq_none hfits)
    obtain ⟨q, scopes', hbind, hclosed, hknown⟩ := bindGlobal_adds hkx hlength hfits
    have hglobal := (globalVariable_eq hf).trans ((bind_of_ok hx').trans hbind)
    have hsemi' : x'.next.isReserved ";" = true := hxx.next hne ▸ hsemi
    refine ⟨_, (bind_of_ok hglobal).trans (moreGlobals_of_semicolon hsemi'), ?_, atFileLevel_advance
      ⟨hclosed, ?_, hxx.loopDepth.trans (hrestores.loopDepth.trans htop.loopDepth), hknown⟩⟩
    · have hlast : x.ahead.tail = [] := by
        rw [ahead_advance] at hend
        exact hend
      obtain ⟨z, zs, hz⟩ := List.exists_cons_of_ne_nil hne
      rw [hz, List.tail_cons] at hlast
      rw [ahead_advance, show x'.ahead = x.ahead ++ rest from hxx.ahead, hz, hlast]
      rfl
    · rw [show x'.locals = x.locals.map _ from hxx.locals, hrestores.locals_eq_none htop.locals]
      rfl
  case right =>
    rintro ⟨a, ha, hfit⟩ t' ht'
    obtain ⟨⟨⟩, y, hy, -⟩ := exists_of_bind ht'
    cases hf : u'.program.function? d.name with
    | some f => exact globalVariable_of_function (by rw [hf]; rfl) hy
    | none =>
      rw [globalVariable_eq hf, bind_of_ok hx'] at hy
      have hf' : x'.program.function? d.name = none :=
        (Program.function?_congr (hxx.functions.trans hu.functions.symm) d.name).trans hf
      exact hfit (fits_of_bindGlobal hkx hlength hf' hy a ha)

theorem Adds.of_eq {m m' : Parse Unit} {D : Declaration} (h : m' s' = m s)
    (ha : m.Adds s ds D rest) :
    m'.Adds s' ds D rest := by
  unfold Adds
  rw [h]
  exact ha

theorem takeWhile_of_isPlain {ts : List Token} (h : ∀ t ∈ ts, t.isPlain = true) (us : List Token) :
    (ts ++ us).takeWhile (·.kind != .eof) = ts ++ us.takeWhile (·.kind != .eof) := by
  refine List.takeWhile_append_of_pos fun t ht => ?_
  have hplain := h t ht
  rw [Token.isPlain, Bool.and_eq_true, Bool.and_eq_true] at hplain
  exact hplain.1.1

theorem worded_of_isPlain {ts : List Token} (h : ∀ t ∈ ts, t.isPlain = true) : Worded ts := by
  intro t ht hk c hc
  have hplain := h t ht
  rw [Token.isPlain, Bool.and_eq_true, hk] at hplain
  exact List.all_eq_true.mp hplain.2 c hc

theorem not_struct_of_isPlain {t : Token} (h : t.isPlain = true) :
    t.isReserved "struct" = false := by
  rw [Token.isPlain, Bool.and_eq_true, Bool.and_eq_true] at h
  exact Bool.not_eq_true' _ |>.mp h.1.2

/-- Tokens without a mark of the end all lie ahead. -/
theorem ofTokens_eq {ts : List Token} (h : ∀ t ∈ ts, t.isPlain = true) :
    ∃ p, ParseState.ofTokens ts = { ahead := ts, finish := p } := by
  have hbody := takeWhile_of_isPlain h []
  rw [List.append_nil, List.takeWhile_nil, List.append_nil] at hbody
  refine ⟨(ParseState.ofTokens ts).finish, ?_⟩
  unfold ParseState.ofTokens
  rw [hbody]

/-- Tokens that declare something are read to their end as one declaration. -/
theorem declaration?_eq_some {ts : List Token} {D : Declaration} (h : declaration? ts = some D) :
    (∀ t ∈ ts, t.isPlain = true) ∧ ∃ t, single (.ofDepth ts.length) (.ofTokens ts) = .ok () t ∧
      t.ahead = [] ∧ t.program.declaration? t.scopes = some D := by
  unfold declaration? at h
  split at h
  · next hplain =>
    refine ⟨List.all_eq_true.mp hplain, ?_⟩
    cases hr : single (.ofDepth ts.length) (.ofTokens ts) with
    | error e t =>
      rw [hr] at h
      cases h
    | ok _ t =>
      rw [hr] at h
      dsimp only at h
      split at h
      · next hempty => exact ⟨t, rfl, List.isEmpty_iff.mp hempty, h⟩
      · cases h
  · cases h

/-- What the name and the type of a declaration leave behind. -/
theorem top_behind_declarator (hsound : g.Sound) (htop : s.view.Top) (hw : Worded s.ahead)
    {base : CType} (hbase : baseType g s = .ok base t) (hd : declarator base t = .ok d u) :
    u.view.Top ∧ Worded u.ahead := by
  have hkeeps := (keeps_baseType hsound.baseType htop.valid).leads.top htop s rfl hw
  rw [hbase] at hkeeps
  have hcalm := calm_declarator hkeeps.2.2 t.view t rfl hkeeps.1
  rw [hd] at hcalm
  exact ⟨hcalm.2.1 ▸ hkeeps.2.1, hcalm.1⟩

/-- What is read as one function or one global variable declares something, and behind other
declarations it adds this to them. -/
theorem single_adds {ts : List Token} {n : Nat} (hplain : ∀ t ∈ ts, t.isPlain = true)
    (ht : single (.ofDepth ts.length) (.ofTokens ts) = .ok () t) (hend : t.ahead = [])
    (hn : ts.length ≤ n)
    (hs : s.AtFileLevel ds) (ha : s.ahead = ts ++ rest) :
    ts ≠ [] ∧ ∃ D, t.program.declaration? t.scopes = some D ∧
      (topLevel (.ofDepth n)).Adds s ds D rest := by
  have htop := top_ofTokens ts
  have hworded : Worded (ParseState.ofTokens ts).ahead := worded_ofTokens (worded_of_isPlain hplain)
  obtain ⟨p, htokens⟩ := ofTokens_eq hplain
  rw [htokens] at ht htop hworded
  have hsound := Grammar.sound_ofDepth ts.length
  have hstart := embeds_around hs ha (fun t ht => not_struct_of_isPlain (hplain t ht)) p
  obtain ⟨base, d, v, u, u', hbase, hd, hu, hcase⟩ :=
    single_reaches (Grammar.refines_ofDepth hn) hstart ht
  obtain ⟨hutop, huworded⟩ := top_behind_declarator hsound htop hworded hbase hd
  obtain ⟨-, htaken, -⟩ :=
    (contract_baseType (Grammar.honest_ofDepth _) _ (ParseState.placed_true _)).of_ok hbase
  refine ⟨List.length_pos_iff.mp (Nat.lt_of_le_of_lt (Nat.zero_le _) (htaken trivial)), ?_⟩
  rcases hcase with ⟨hfunction, hlong⟩ | ⟨x, hglobal, hsemi, hlong⟩
  · obtain ⟨D, hD, hadds⟩ :=
      function_adds (fun K => Grammar.refines_ofDepth hn) hsound hs.known hu hutop huworded
        hfunction hend
    exact ⟨D, hD, hadds.of_eq hlong⟩
  · obtain ⟨D, hD, hadds⟩ :=
      globalVariable_adds (Grammar.refines_ofDepth hn) hs.known hu hutop hglobal hsemi hend base
    exact ⟨D, hD, hadds.of_eq hlong⟩

/-- One more round of the reader takes one more written declaration. -/
theorem topLevel_adds (w : Written) {n : Nat} (hn : w.tokens.length ≤ n) (hs : s.AtFileLevel ds)
    (ha : s.ahead = w.tokens ++ rest) :
    w.tokens ≠ [] ∧ (topLevel (.ofDepth n)).Adds s ds w.declaration rest := by
  obtain ⟨hplain, t, ht, hend, hD⟩ := declaration?_eq_some w.reads
  obtain ⟨hne, D, hD', hadds⟩ := single_adds hplain ht hend hn hs ha
  cases hD.symm.trans hD'
  exact ⟨hne, hadds⟩

/-- Every function and every global variable that is accepted on its own is a declaration. -/
theorem isSome_declaration?_iff {ts : List Token} : (declaration? ts).isSome = true ↔
    (∀ t ∈ ts, t.isPlain = true) ∧
      ∃ t, single (.ofDepth ts.length) (.ofTokens ts) = .ok () t ∧ t.ahead = [] := by
  constructor
  · intro h
    obtain ⟨D, hD⟩ := Option.isSome_iff_exists.mp h
    obtain ⟨hplain, t, ht, hend, -⟩ := declaration?_eq_some hD
    exact ⟨hplain, t, ht, hend⟩
  · rintro ⟨hplain, t, ht, hend⟩
    have hstart : ({ ahead := ts, finish := {} } : ParseState).AtFileLevel [] :=
      ⟨rfl, rfl, rfl, known_nil⟩
    obtain ⟨-, D, hD, -⟩ :=
      single_adds hplain ht hend (Nat.le_refl _) hstart (List.append_nil ts).symm
    rw [declaration?, if_pos (List.all_eq_true.mpr hplain), ht]
    dsimp only
    rw [if_pos (List.isEmpty_iff.mpr hend), hD]
    rfl

theorem topLevelsWithin_of_nil (n : Nat) (h : s.ahead = []) : topLevelsWithin g n s = .ok () s := by
  cases n with
  | zero => rfl
  | succ n =>
    have hempty : s.ahead.isEmpty = true := by
      rw [h]
      rfl
    have hend : atEnd s = .ok true s := congrArg (EStateM.Result.ok · s) hempty
    rw [topLevelsWithin, bind_of_ok hend]
    rfl

theorem topLevelsWithin_of_ne (n : Nat) (h : s.ahead ≠ []) :
    topLevelsWithin g (n + 1) s = (do topLevel g; topLevelsWithin g n) s := by
  have hempty : s.ahead.isEmpty = false := List.isEmpty_eq_false_iff.mpr h
  have hend : atEnd s = .ok false s := congrArg (EStateM.Result.ok · s) hempty
  rw [topLevelsWithin, bind_of_ok hend]
  rfl

/-- A run over declarations, by what one of them adds. -/
theorem topLevelsWithin_adds (ws : List Written) {n k : Nat} (hn : ∀ w ∈ ws, w.tokens.length ≤ n)
    (hs : s.AtFileLevel ds) (hc : Compatible ds) (ha : s.ahead = (ws.map (·.tokens)).flatten)
    (hk : s.ahead.length ≤ k) :
    (Compatible (ds ++ ws.map (·.declaration)) → ∃ t, topLevelsWithin (.ofDepth n) k s = .ok () t ∧
      t.AtFileLevel (ds ++ ws.map (·.declaration))) ∧
    ∀ t, topLevelsWithin (.ofDepth n) k s = .ok () t →
    Compatible (ds ++ ws.map (·.declaration)) := by
  -- The declarations read so far move from `ws` to the end of `ds`, which stays compatible.
  induction ws generalizing ds s k with
  | nil =>
    rw [List.map_nil, List.append_nil]
    exact ⟨fun _ => ⟨s, topLevelsWithin_of_nil k ha, hs⟩, fun _ _ => hc⟩
  | cons w ws ih =>
    obtain ⟨hw, hws⟩ := List.forall_mem_cons.mp hn
    rw [List.map_cons, List.flatten_cons] at ha
    obtain ⟨hne, hfits, hmisfit⟩ := topLevel_adds w hw hs ha
    have hpos := List.length_pos_iff.mpr hne
    have hlen := congrArg List.length ha
    rw [List.length_append] at hlen
    -- A declaration has tokens, so there is a round left for it.
    obtain ⟨k, rfl⟩ : ∃ j, k = j + 1 := ⟨k - 1, by omega⟩
    have hahead : s.ahead ≠ [] := List.length_pos_iff.mp (by omega)
    rw [topLevelsWithin_of_ne k hahead, List.map_cons, List.append_cons]
    constructor
    · intro hcompatible
      have hfront := hcompatible.sublist (List.sublist_append_left _ _)
      obtain ⟨t, ht, hrest, hlevel⟩ := hfits fun a => hfront.fits_last
      have hrounds : t.ahead.length ≤ k := by
        rw [hrest]
        omega
      obtain ⟨u, hu, hulevel⟩ := (ih hws hlevel hfront hrest hrounds).1 hcompatible
      exact ⟨u, (bind_of_ok ht).trans hu, hulevel⟩
    · intro u hu
      obtain ⟨⟨⟩, t, ht, hu⟩ := exists_of_bind hu
      have hall : ∀ a ∈ ds, a.Fits w.declaration := by
        intro a ha
        by_contra hfit
        exact hmisfit ⟨a, ha, hfit⟩ t ht
      obtain ⟨t', ht', hrest, hlevel⟩ := hfits hall
      cases ht.symm.trans ht'
      have hrounds : t.ahead.length ≤ k := by
        rw [hrest]
        omega
      exact (ih hws hlevel (hc.concat hall) hrest hrounds).2 u hu

end Parse

def reading (ws : List Written) (p : Location) : Except Diagnostic Program × ParseState :=
  (ParseState.ofTokens ((ws.map (·.tokens)).flatten ++ [.atEnd p])).readProgram

theorem ofTokens_append {ts : List Token} (h : ∀ t ∈ ts, t.isPlain = true) (p : Location) :
    ParseState.ofTokens (ts ++ [.atEnd p]) = { ahead := ts, finish := p } := by
  have hbody : (ts ++ [Token.atEnd p]).takeWhile (·.kind != .eof) = ts := by
    rw [Parse.takeWhile_of_isPlain h]
    exact List.append_nil ts
  unfold ParseState.ofTokens
  dsimp only
  rw [hbody, List.drop_left]
  rfl

theorem isPlain_of_mem_flatten {ws : List Written} {t : Token}
    (h : t ∈ (ws.map (·.tokens)).flatten) :
    t.isPlain = true := by
  obtain ⟨ts, hts, ht⟩ := List.mem_flatten.mp h
  obtain ⟨w, -, rfl⟩ := List.mem_map.mp hts
  exact (Parse.declaration?_eq_some w.reads).1 t ht

/-- A text of compatible declarations is accepted and shows what they say, and no other text is
accepted. -/
theorem reading_cases (ws : List Written) (p : Location) :
    (Compatible (ws.map (·.declaration)) → ∃ program, (reading ws p).1 = .ok program ∧
      Declares (ws.map (·.declaration)) program (reading ws p).2.scopes) ∧
    ∀ program, (reading ws p).1 = .ok program → Compatible (ws.map (·.declaration)) := by
  have hn (w : Written) (hw : w ∈ ws) : w.tokens.length ≤ (ws.map (·.tokens)).flatten.length :=
    (List.sublist_flatten_of_mem (List.mem_map_of_mem hw)).length_le
  have hstart :
      ({ ahead := (ws.map (·.tokens)).flatten, finish := p } : ParseState).AtFileLevel [] :=
    ⟨rfl, rfl, rfl, known_nil⟩
  obtain ⟨haccepts, hcompatible⟩ := Parse.topLevelsWithin_adds ws hn hstart .nil rfl (Nat.le_refl _)
  rw [List.nil_append] at haccepts hcompatible
  rw [reading, ofTokens_append (fun _ => isPlain_of_mem_flatten) p, ParseState.readProgram_eq]
  constructor
  · intro hc
    obtain ⟨t, ht, hlevel⟩ := haccepts hc
    rw [ht]
    exact ⟨t.program, rfl, hlevel.known.toDeclares⟩
  · intro program h
    cases hr : Parse.topLevelsWithin (.ofDepth (ws.map (·.tokens)).flatten.length)
        (ws.map (·.tokens)).flatten.length
          { ahead := (ws.map (·.tokens)).flatten, finish := p } with
    | ok _ t => exact hcompatible t hr
    | error e t =>
      rw [hr] at h
      cases h

/-- A text of declarations each of which is accepted on its own is accepted exactly if the
declarations are compatible. The program then shows what they say. In any other order they are
accepted as well, and the program shows the same. -/
theorem accepts_iff_compatible (ws : List Written) (p : Location) :
    ((∃ program, (reading ws p).1 = .ok program) ↔ Compatible (ws.map (·.declaration))) ∧
    ∀ program, (reading ws p).1 = .ok program →
      Declares (ws.map (·.declaration)) program (reading ws p).2.scopes ∧
      ∀ (ws' : List Written) (p' : Location), ws'.Perm ws →
        ∃ program', (reading ws' p').1 = .ok program' ∧
        program.SameInterface (reading ws p).2.scopes program' (reading ws' p').2.scopes := by
  obtain ⟨haccepts, hcompatible⟩ := reading_cases ws p
  refine ⟨⟨?_, fun h => ?_⟩, fun program h => ?_⟩
  · rintro ⟨program, h⟩
    exact hcompatible program h
  · obtain ⟨program, hprogram, -⟩ := haccepts h
    exact ⟨program, hprogram⟩
  · obtain ⟨program', hprogram, hdeclares⟩ := haccepts (hcompatible program h)
    cases h.symm.trans hprogram
    refine ⟨hdeclares, fun ws' p' hperm => ?_⟩
    have hmap := hperm.map (·.declaration)
    obtain ⟨program', hprogram', hdeclares'⟩ :=
      (reading_cases ws' p').1 ((hcompatible program h).perm hmap)
    exact ⟨program', hprogram', hdeclares.sameInterface hdeclares' fun d => hmap.mem_iff⟩

def tokensOf (source : String) : List Token :=
  match tokenize source with
  | .ok tokens => tokens.filter (·.kind != .eof)
  | .error _ => []

def twiceDeclared : List Written :=
  [⟨tokensOf "int f(int a[4]) \x7b int b = *a; return f(&b); \x7d",
      .function "f" ⟨.int, [some (.pointerTo .int)], false⟩ true, by decide +kernel⟩,
    ⟨tokensOf "int f(int *b);", .function "f" ⟨.int, [some (.pointerTo .int)], false⟩
      false, by decide +kernel⟩,
    ⟨tokensOf "char g[3];", .global "g" (.arrayOf .char (some 3)) none, by decide +kernel⟩,
    ⟨tokensOf "char g[] = \"ab\";",
      .global "g" (.arrayOf .char (some 3)) (some [97, 98, 0]), by decide +kernel⟩]

/-- The second order of the declarations is accepted as well, and shows the same. -/
theorem accepts_twiceDeclared :
    Compatible (twiceDeclared.map (·.declaration)) ∧
    ∃ program program', (reading twiceDeclared {}).1 = .ok program ∧
      (reading twiceDeclared.reverse {}).1 = .ok program' ∧
      program.SameInterface (reading twiceDeclared {}).2.scopes program'
        (reading twiceDeclared.reverse {}).2.scopes := by
  have hok : (reading twiceDeclared {}).1.isOk = true := by decide +kernel
  have haccepts : ∃ program, (reading twiceDeclared {}).1 = .ok program := by
    cases h : (reading twiceDeclared {}).1 with
    | ok program => exact ⟨program, rfl⟩
    | error e =>
      rw [h] at hok
      cases hok
  obtain ⟨hiff, horder⟩ := accepts_iff_compatible twiceDeclared {}
  obtain ⟨program, hprogram⟩ := haccepts
  obtain ⟨program', hprogram', hsame⟩ :=
    (horder program hprogram).2 twiceDeclared.reverse {} (List.reverse_perm twiceDeclared)
  exact ⟨hiff.mp ⟨program, hprogram⟩, program, program', hprogram, hprogram', hsame⟩

end StackC
