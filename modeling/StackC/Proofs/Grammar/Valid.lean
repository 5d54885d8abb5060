import StackC.Proofs.Chains
import StackC.Proofs.Grammar.Logic
import StackC.Proofs.Program.Valid

namespace StackC

namespace View

def vars (v : View) : Array Var := v.program.vars

def localIds (v : View) : List VarId := v.locals.getD []

def literalName (n : Nat) : String := s!".L..str.{n}"

def literal (n : Nat) (bytes : List UInt8) : Var :=
  ⟨literalName n, .arrayOf .char (some (bytes ++ [0]).length), .global (some (bytes ++ [0]))⟩

theorem isLocal_literal (n : Nat) (bytes : List UInt8) : (literal n bytes).isLocal = false := rfl

theorem filled_literal (n : Nat) (bytes : List UInt8) : (literal n bytes).Filled := by
  intro b hb
  cases hb
  exact (Nat.one_mul _).symm

/-- What a reading relies on: types are well formed, initial bytes are those of all of a variable,
and its size is bounded unless it is a local whose declaration has not ended; a name of the file
scope is that of a global variable, a name of an inner scope that of a local of the function being
read. -/
structure Valid (v : View) : Prop where
  formed : ∀ (id : VarId) (x : Var), v.vars[id]? = some x → x.type.Formed
  filled : ∀ (id : VarId) (x : Var), v.vars[id]? = some x → x.Filled
  measured : ∀ (id : VarId) (x : Var), v.vars[id]? = some x → x.Measured ∨ id ∈ v.localIds
  tags : ∀ link ∈ v.scopes.tags, ∀ b ∈ link, b.2.Built
  globals : ∀ id ∈ v.program.globals, ∃ x, v.vars[id]? = some x ∧ x.isLocal = false
  locals : ∀ id ∈ v.localIds, ∃ x, v.vars[id]? = some x ∧ x.isLocal = true
  globalsNodup : v.program.globals.Nodup
  localsNodup : v.localIds.Nodup
  fileVars : ∀ b ∈ v.scopes.vars.file, b.2 ∈ v.program.globals
  innerVars : ∀ link ∈ v.scopes.vars.inner, ∀ b ∈ link, b.2 ∈ v.localIds
  inside : v.locals.isSome = true → v.scopes.vars.inner ≠ []
  chained : v.scopes.vars ≠ []

theorem Valid.types {v : View} (hv : v.Valid) (id : VarId) (x : Var) (hx : v.vars[id]? = some x) :
    x.type.Sound :=
  (hv.formed id x hx).sound

/-- The globals of `w` that are not globals of `v` hold string literals, which are numbered on. -/
def Numbers (v w : View) : Prop :=
  ∃ ids, w.program.globals = v.program.globals ++ ids ∧ w.strings = v.strings + ids.length ∧
    ∀ i id, ids[i]? = some id → ∃ bytes, w.vars[id]? = some (literal (v.strings + i) bytes)

structure Grows (v w : View) : Prop where
  valid : w.Valid
  functions : w.program.functions = v.program.functions
  fileVars : w.scopes.vars.file = v.scopes.vars.file
  vars : ∀ (id : VarId) (x : Var), v.vars[id]? = some x → w.vars[id]? = some x
  literals : v.Numbers w
  locals : v.localIds <+: w.localIds
  fresh : ∀ id ∈ w.localIds, id ∈ v.localIds ∨ v.vars.size ≤ id
  isSome : w.locals.isSome = v.locals.isSome
  depth : w.scopes.vars.length = v.scopes.vars.length
  loopDepth : w.loopDepth = v.loopDepth

def Fits (v : View) : Prop := Frame.total v.vars v.localIds ≤ maxFrameSize

structure Leads (v w : View) : Prop extends Grows v w where
  fits : v.Fits → w.Fits

/-- Readers that read no string literal add no global. -/
theorem numbers_of_eq {v w : View} (hg : w.program.globals = v.program.globals)
    (hs : w.strings = v.strings) : v.Numbers w := by
  refine ⟨[], ?_, hs, fun i id hi => ?_⟩
  · rw [hg, List.append_nil]
  · rw [List.getElem?_nil] at hi
    cases hi

/-- String literals are numbered on from where the numbers have come to. -/
theorem Numbers.trans {u v w : View} (h : u.Numbers v) (k : v.Numbers w)
    (hkeep : ∀ (id : VarId) (x : Var), v.vars[id]? = some x → w.vars[id]? = some x) :
    u.Numbers w := by
  obtain ⟨ids, hids, hcount, hnew⟩ := h
  obtain ⟨ids', hids', hcount', hnew'⟩ := k
  refine ⟨ids ++ ids', ?_, ?_, fun i id hi => ?_⟩
  · rw [hids', hids, List.append_assoc]
  · rw [hcount', hcount, List.length_append, Nat.add_assoc]
  · rw [List.getElem?_append] at hi
    split at hi
    · obtain ⟨bytes, hx⟩ := hnew i id hi
      exact ⟨bytes, hkeep id _ hx⟩
    · next hlt =>
      -- The count of `v` stands behind the literals that `u` had still to read.
      obtain ⟨bytes, hx⟩ := hnew' _ id hi
      have hnumber : v.strings + (i - ids.length) = u.strings + i := by omega
      exact ⟨bytes, hnumber ▸ hx⟩

theorem Grows.globals {v w : View} (h : v.Grows w) : v.program.globals <+: w.program.globals := by
  obtain ⟨ids, hids, -⟩ := h.literals
  exact hids ▸ List.prefix_append _ ids

theorem Grows.refl {v : View} (h : v.Valid) : v.Grows v :=
  ⟨h, rfl, rfl, fun _ _ => id, numbers_of_eq rfl rfl, List.prefix_refl _, fun _ => Or.inl, rfl, rfl,
    rfl⟩

/-- Variables are only added. -/
theorem Grows.size_le {v w : View} (h : v.Grows w) : v.vars.size ≤ w.vars.size := by
  by_contra hlt
  have hx := h.vars w.vars.size _ (Array.getElem?_eq_getElem (Nat.lt_of_not_le hlt))
  exact absurd (Array.getElem?_eq_some_iff.mp hx).1 (Nat.lt_irrefl _)

/-- Readers inside of a declaration can be run one after the other. -/
theorem Grows.trans {u v w : View} (h : u.Grows v) (k : v.Grows w) : u.Grows w where
  valid := k.valid
  functions := k.functions.trans h.functions
  fileVars := k.fileVars.trans h.fileVars
  vars id x hx := k.vars id x (h.vars id x hx)
  literals := h.literals.trans k.literals k.vars
  locals := h.locals.trans k.locals
  fresh id hid := by
    rcases k.fresh id hid with hid | hid
    · exact h.fresh id hid
    · exact Or.inr (h.size_le.trans hid)
  isSome := k.isSome.trans h.isSome
  depth := k.depth.trans h.depth
  loopDepth := k.loopDepth.trans h.loopDepth

theorem evolution_grows : Parse.Evolution Grows := ⟨fun h => .refl h.valid, Grows.trans⟩

theorem Leads.refl {v : View} (h : v.Valid) : v.Leads v := ⟨.refl h, id⟩

theorem Leads.trans {u v w : View} (h : u.Leads v) (k : v.Leads w) : u.Leads w :=
  ⟨h.toGrows.trans k.toGrows, fun hu => k.fits (h.fits hu)⟩

theorem evolution_leads : Parse.Evolution Leads := ⟨fun h => .refl h.valid, Leads.trans⟩

structure Retags (v w : View) : Prop extends Leads v w where
  program : w.program = v.program
  sameLocals : w.locals = v.locals

theorem Retags.refl {v : View} (h : v.Valid) : v.Retags v := ⟨.refl h, rfl, rfl⟩

theorem evolution_retags : Parse.Evolution Retags :=
  ⟨fun h => .refl h.valid, fun h k => ⟨h.toLeads.trans k.toLeads, k.program.trans h.program,
    k.sameLocals.trans h.sameLocals⟩⟩

def names (v : View) : Names where
  vars id := id ∈ v.localIds ∨ id ∈ v.program.globals
  functions name := (v.program.function? name).isSome = true

def Shapes (v : View) (r : Role) (n : Node) : Prop := Shaped v.names r (decide (0 < v.loopDepth)) n

theorem Grows.var {v w : View} (h : v.Grows w) {id : VarId} (hv : v.names.vars id) :
    w.names.vars id :=
  hv.imp (fun hl => h.locals.subset hl) fun hg => h.globals.subset hg

theorem Grows.function {v w : View} (h : v.Grows w) {name : String} (hv : v.names.functions name) :
    w.names.functions name := by
  simpa only [names, Program.function?, h.functions] using hv

/-- What is well formed stays well formed. -/
theorem Grows.shapes {v w : View} (h : v.Grows w) {r : Role} {n : Node} (hn : v.Shapes r n) :
    w.Shapes r n := by
  have hm : Shaped w.names r (decide (0 < v.loopDepth)) n :=
    hn.mono (fun _ => h.var) fun _ => h.function
  unfold Shapes
  rw [h.loopDepth]
  exact hm

theorem Valid.varSize_eq {v w : View} (hv : v.Valid)
    (h : ∀ (id : VarId) (x : Var), v.vars[id]? = some x → w.vars[id]? = some x) {id : VarId}
    (hid : id ∈ v.localIds) : Frame.varSize w.vars id = Frame.varSize v.vars id := by
  obtain ⟨x, hx, -⟩ := hv.locals id hid
  simp only [Frame.varSize, hx, h id x hx]

/-- Readers that declare no local leave the frame as it is. -/
theorem Grows.leads {v w : View} (hv : v.Valid) (h : v.Grows w) (hl : w.localIds = v.localIds) :
    v.Leads w := by
  refine ⟨h, fun hf => ?_⟩
  unfold Fits
  rw [hl, Frame.total_congr fun id hid => hv.varSize_eq h.vars hid]
  exact hf

end View

namespace Parse

open View

def Anyhow (_ _ : View) : Prop := True

theorem evolution_anyhow : Evolution Anyhow := ⟨fun _ => trivial, fun _ _ => trivial⟩

theorem keeps_update {g : ParseState → ParseState} (G : View → View)
    (hg : ∀ s : ParseState, (g s).view = G s.view) (v : View)
    (ha : ∀ s : ParseState, (g s).ahead = s.ahead := by exact fun _ => rfl) :
    Keeps Anyhow (modify g) v fun _ w => w = G v :=
  keeps_modify (fun s hw => ha s ▸ hw) (fun s hs => (hg s).trans (congrArg G hs)) trivial rfl

theorem keeps_newVar (x : Var) (v : View) :
    Keeps Anyhow (newVar x) v fun id w =>
      id = v.vars.size ∧ w = { v with program := (v.program.addVar x).1 } := by
  rintro s rfl hw
  exact ⟨hw, trivial, rfl, rfl⟩

/-- What a declaration of a local does. -/
theorem keeps_declareLocal (name : String) (t : CType) (p : Location) (v : View) :
    Keeps Anyhow (declareLocal name t p) v fun id w =>
      id = v.vars.size ∧ ∃ scopes ids, v.scopes.declareVar? name id = some scopes ∧
        v.locals = some ids ∧ w = { v with
          scopes := scopes, program := (v.program.addVar ⟨name, t, .onFrame⟩).1,
          locals := some (ids ++ [id]) } := by
  refine .bind evolution_anyhow (keeps_newVar _ v) fun id w _ hw => ?_
  obtain ⟨rfl, rfl⟩ := hw
  refine .get_bind fun s hs => ?_
  cases hd : s.scopes.declareVar? name v.vars.size with
  | none => exact keeps_declarationFault _ _
  | some scopes =>
    rw [show s.scopes = v.scopes from congrArg View.scopes hs] at hd
    refine .bind evolution_anyhow (keeps_update ({ · with scopes := scopes }) (fun _ => rfl) _)
      fun _ w _ hw => ?_
    subst hw
    refine .get_bind fun s hs => ?_
    cases hl : s.locals with
    | none => exact keeps_declarationFault _ _
    | some ids =>
      rw [show s.locals = v.locals from congrArg View.locals hs] at hl
      refine .bind evolution_anyhow (keeps_update
        ({ · with locals := some (ids ++ [v.vars.size]) }) (fun _ => rfl) _) fun _ w _ hw => ?_
      exact .pure trivial ⟨rfl, scopes, ids, hd, hl, hw⟩

/-- What a string literal does. -/
theorem keeps_stringLiteral (bytes : List UInt8) (v : View) :
    Keeps Anyhow (stringLiteral bytes) v fun id w =>
      id = v.vars.size ∧ w = { v with
        strings := v.strings + 1
        program := (v.program.addVar (literal v.strings bytes)).1.addGlobal id } := by
  refine .get_bind fun s hs => ?_
  have hcount : s.stringCount = v.strings := congrArg View.strings hs
  dsimp only
  rw [hcount]
  refine .bind evolution_anyhow
    (keeps_update ({ · with strings := v.strings + 1 }) (fun _ => rfl) v) fun _ w _ hw => ?_
  subst hw
  refine .bind evolution_anyhow (keeps_newVar (literal v.strings bytes) _) fun id u _ hu => ?_
  obtain ⟨rfl, rfl⟩ := hu
  refine .bind evolution_anyhow (keeps_update
    (fun u => { u with program := u.program.addGlobal v.vars.size }) (fun _ => rfl) _)
    fun _ u _ hu => ?_
  exact .pure trivial ⟨rfl, hu⟩

end Parse

namespace Scopes

/-- A binding in the innermost scope leaves the others alone. -/
theorem inner_declareVar {s s' : Scopes} {name : String} {id : VarId} (hs : s.vars.inner ≠ [])
    (h : s.declareVar? name id = some s') :
    s'.tags = s.tags ∧ s'.vars.file = s.vars.file ∧ ∃ link outer, s.vars.inner = link :: outer ∧
      s'.vars.inner = ((name, id) :: link) :: outer := by
  obtain ⟨link, outer, hvars, -, rfl⟩ := declareVar?_eq_some.mp h
  have houter : outer ≠ [] := by
    rintro rfl
    exact hs (by rw [hvars]; rfl)
  simp only [hvars, Chain.file_cons houter, Chain.inner_cons houter]
  exact ⟨trivial, trivial, link, Chain.inner outer, rfl, rfl⟩

theorem length_declareVar {s s' : Scopes} {name : String} {id : VarId}
    (h : s.declareVar? name id = some s') : s'.vars.length = s.vars.length := by
  obtain ⟨link, outer, hvars, -, rfl⟩ := declareVar?_eq_some.mp h
  rw [hvars]
  rfl

theorem file_declareVar {s s' : Scopes} {name : String} {id : VarId} (hs : s.vars.length = 1)
    (h : s.declareVar? name id = some s') :
    s'.tags = s.tags ∧ s'.vars.file = (name, id) :: s.vars.file ∧
      ∀ b ∈ s.vars.file, b.1 ≠ name := by
  obtain ⟨link, outer, hvars, hfree, rfl⟩ := declareVar?_eq_some.mp h
  obtain rfl : outer = [] := by
    rw [hvars] at hs
    exact List.length_eq_zero_iff.mp (Nat.succ.inj hs)
  rw [hvars]
  exact ⟨rfl, rfl, Chain.ne_of_lookup hfree⟩

end Scopes

namespace View

theorem getElem?_addVar {p : Program} {x y : Var} {id : VarId}
    (h : p.vars[id]? = some y) : (p.addVar x).1.vars[id]? = some y := by
  have hlt : id < p.vars.size := (Array.getElem?_eq_some_iff.mp h).1
  rw [Program.addVar, Array.getElem?_push_lt hlt]
  exact h ▸ (Array.getElem?_eq_getElem hlt).symm

theorem getElem?_addVar_self (p : Program) (x : Var) :
    (p.addVar x).1.vars[p.vars.size]? = some x := by
  rw [Program.addVar]
  exact Array.getElem?_push_size

/-- Every variable after an addition was there before or is the one added. -/
theorem getElem?_addVar_cases {p : Program} {x y : Var} {id : VarId}
    (h : (p.addVar x).1.vars[id]? = some y) :
    p.vars[id]? = some y ∨ id = p.vars.size ∧ y = x := by
  rw [Program.addVar, Array.getElem?_push] at h
  split at h
  · next he => exact Or.inr ⟨he, (Option.some.inj h).symm⟩
  · exact Or.inl h

/-- A number in use is below that of the next variable. -/
theorem lt_of_var {p : Program} {x : Var} {id : VarId} (h : p.vars[id]? = some x) :
    id < p.vars.size :=
  (Array.getElem?_eq_some_iff.mp h).1

/-- The declaration of a local keeps the invariant. -/
theorem Valid.declareLocal {v : View} (hv : v.Valid) {name : String} {t : CType} (ht : t.Formed)
    {scopes : Scopes} {ids : List VarId} (hd : v.scopes.declareVar? name v.vars.size = some scopes)
    (hl : v.locals = some ids) : v.Grows { v with
      scopes := scopes, program := (v.program.addVar ⟨name, t, .onFrame⟩).1,
      locals := some (ids ++ [v.vars.size]) } := by
  have hids : v.localIds = ids := by rw [localIds, hl]; rfl
  obtain ⟨htags, hfile, link, outer, hx, hx'⟩ :=
    Scopes.inner_declareVar (hv.inside (by rw [hl]; rfl)) hd
  have hold (id : VarId) (hid : id ∈ ids) : id ≠ v.vars.size := by
    rintro rfl
    obtain ⟨y, hy, -⟩ := hv.locals _ (hids ▸ hid)
    exact absurd (lt_of_var hy) (Nat.lt_irrefl _)
  refine ⟨?_, rfl, hfile, fun id y hy => getElem?_addVar hy, numbers_of_eq rfl rfl, ?_, ?_, ?_,
    Scopes.length_declareVar hd, rfl⟩
  · refine ⟨fun id y hy => ?_, fun id y hy => ?_, fun id y hy => ?_, htags ▸ hv.tags,
      fun id hid => ?_, fun id hid => ?_, hv.globalsNodup, ?_, fun b hb => ?_,
      fun scope hs b hb => ?_, fun _ => ?_, ?_⟩
    · rcases getElem?_addVar_cases hy with hy | ⟨-, rfl⟩
      · exact hv.formed id y hy
      · exact ht
    · rcases getElem?_addVar_cases hy with hy | ⟨-, rfl⟩
      · exact hv.filled id y hy
      · exact .of_isLocal rfl
    · rcases getElem?_addVar_cases hy with hy | ⟨rfl, -⟩
      · exact (hv.measured id y hy).imp_right fun hid => List.mem_append_left _ (hids ▸ hid)
      · exact Or.inr (List.mem_append_right ids List.mem_cons_self)
    · obtain ⟨y, hy, hg⟩ := hv.globals id hid
      exact ⟨y, getElem?_addVar hy, hg⟩
    · rcases List.mem_append.mp hid with hid | hid
      · obtain ⟨y, hy, hg⟩ := hv.locals id (hids ▸ hid)
        exact ⟨y, getElem?_addVar hy, hg⟩
      · obtain rfl := List.mem_singleton.mp hid
        exact ⟨_, getElem?_addVar_self _ _, rfl⟩
    · refine List.nodup_append.mpr ⟨hids ▸ hv.localsNodup, List.nodup_singleton _, ?_⟩
      intro a ha b hb
      obtain rfl := List.mem_singleton.mp hb
      exact hold a ha
    · exact hv.fileVars b (hfile ▸ hb)
    · simp only [hx', List.mem_cons] at hs
      rcases hs with rfl | hs
      · rcases List.mem_cons.mp hb with rfl | hb
        · exact List.mem_append_right ids List.mem_cons_self
        · exact List.mem_append_left _ (hids ▸ hv.innerVars link (hx ▸ List.mem_cons_self) b hb)
      · have hscope := hx ▸ List.mem_cons_of_mem link hs
        exact List.mem_append_left _ (hids ▸ hv.innerVars scope hscope b hb)
    · rw [hx']
      exact List.cons_ne_nil _ _
    · exact List.ne_nil_of_length_pos
        (Scopes.length_declareVar hd ▸ List.length_pos_iff.mpr hv.chained)
  · rw [hids]
    exact List.prefix_append _ _
  · intro id hid
    rcases List.mem_append.mp hid with hid | hid
    · exact Or.inl (hids ▸ hid)
    · exact Or.inr (List.mem_singleton.mp hid).ge
  · rw [hl]
    rfl

/-- So does a new global variable. -/
theorem Valid.addGlobalVar {v : View} (hv : v.Valid) {x : Var} (ht : x.type.Formed) (hf : x.Filled)
    (hm : x.Measured) (hx : x.isLocal = false) (strings : Nat) : Valid { v with
      strings := strings, program := (v.program.addVar x).1.addGlobal v.vars.size } := by
  refine ⟨fun id y hy => ?_, fun id y hy => ?_, fun id y hy => ?_, hv.tags, fun id hid => ?_,
    fun id hid => ?_, ?_, hv.localsNodup, fun b hb => List.mem_append_left _ (hv.fileVars b hb),
    hv.innerVars, hv.inside, hv.chained⟩
  · rcases getElem?_addVar_cases hy with hy | ⟨-, rfl⟩
    · exact hv.formed id y hy
    · exact ht
  · rcases getElem?_addVar_cases hy with hy | ⟨-, rfl⟩
    · exact hv.filled id y hy
    · exact hf
  · rcases getElem?_addVar_cases hy with hy | ⟨-, rfl⟩
    · exact hv.measured id y hy
    · exact Or.inl hm
  · rcases List.mem_append.mp hid with hid | hid
    · obtain ⟨y, hy, hg⟩ := hv.globals id hid
      exact ⟨y, getElem?_addVar hy, hg⟩
    · obtain rfl := List.mem_singleton.mp hid
      exact ⟨x, getElem?_addVar_self _ _, hx⟩
  · obtain ⟨y, hy, hg⟩ := hv.locals id hid
    exact ⟨y, getElem?_addVar hy, hg⟩
  · refine List.nodup_append.mpr ⟨hv.globalsNodup, List.nodup_singleton _, ?_⟩
    intro a ha b hb
    obtain rfl := List.mem_singleton.mp hb
    rintro rfl
    obtain ⟨y, hy, -⟩ := hv.globals _ ha
    exact absurd (lt_of_var hy) (Nat.lt_irrefl _)

theorem Valid.addLiteral {v : View} (hv : v.Valid) (bytes : List UInt8) : v.Grows { v with
      strings := v.strings + 1
      program := (v.program.addVar (literal v.strings bytes)).1.addGlobal v.vars.size } := by
  have ht : (literal v.strings bytes).type.Formed := Or.inr ⟨_, _, .primitive .char, rfl, rfl⟩
  have hm : (literal v.strings bytes).Measured := Or.inr (Or.inl ⟨_, rfl⟩)
  refine ⟨hv.addGlobalVar ht (filled_literal _ bytes) hm rfl _, rfl, rfl,
    fun id y hy => getElem?_addVar hy, ?_, List.prefix_refl _, fun _ => Or.inl, rfl, rfl, rfl⟩
  refine ⟨[v.vars.size], rfl, rfl, fun i id hi => ?_⟩
  cases i with
  | zero =>
    cases hi
    exact ⟨bytes, getElem?_addVar_self _ _⟩
  | succ i => cases hi

def entered (v : View) : View := { v with scopes := v.scopes.enter }

def left (v : View) : View := { v with scopes := v.scopes.leave }

theorem Valid.entered {v : View} (hv : v.Valid) : v.entered.Valid :=
  { hv with
    tags := by
      intro link hs b hb
      rcases List.mem_cons.mp hs with rfl | hs
      · exact nomatch hb
      · exact hv.tags link hs b hb
    fileVars := by
      intro b hb
      rw [show v.entered.scopes.vars = [] :: v.scopes.vars from rfl,
        Chain.file_cons hv.chained] at hb
      exact hv.fileVars b hb
    innerVars := by
      intro link hs b hb
      rw [show v.entered.scopes.vars = [] :: v.scopes.vars from rfl,
        Chain.inner_cons hv.chained] at hs
      rcases List.mem_cons.mp hs with rfl | hs
      · exact nomatch hb
      · exact hv.innerVars link hs b hb
    inside := by
      intro _
      rw [show v.entered.scopes.vars = [] :: v.scopes.vars from rfl,
        Chain.inner_cons hv.chained]
      exact List.cons_ne_nil _ _
    chained := List.cons_ne_nil _ _ }

/-- A scope that is left takes its own bindings with it and nothing else. -/
theorem Leads.left {v w : View} (hv : v.Valid) (h : v.entered.Leads w) : v.Leads w.left := by
  have hw := h.valid
  have hdepth : w.scopes.vars.length = v.scopes.vars.length + 1 := h.depth
  have hopen : 1 < w.scopes.vars.length := by
    have hpos := List.length_pos_iff.mpr hv.chained
    omega
  have hleave : w.left.scopes = ⟨w.scopes.vars.tail, w.scopes.tags.tail⟩ := Scopes.leave_of_lt hopen
  have hlength : w.left.scopes.vars.length = v.scopes.vars.length := by
    rw [hleave, List.length_tail, hdepth, Nat.add_sub_cancel]
  have hfile : w.left.scopes.vars.file = w.scopes.vars.file := w.scopes.file_leave
  have hinner : w.left.scopes.vars.inner = w.scopes.vars.inner.tail := by
    rw [hleave, Chain.inner_tail hopen]
  have hfileVars : w.left.scopes.vars.file = v.scopes.vars.file :=
    hfile.trans (h.fileVars.trans (Chain.file_cons hv.chained []))
  refine ⟨⟨{ hw with tags := ?_, fileVars := ?_, innerVars := ?_, inside := ?_, chained := ?_ },
    h.functions, hfileVars, h.vars, h.literals, h.locals, h.fresh, h.isSome, hlength,
    h.loopDepth⟩, h.fits⟩
  · rw [hleave]
    exact fun link hs => hw.tags link (List.mem_of_mem_tail hs)
  · rw [hfile]
    exact hw.fileVars
  · rw [hinner]
    exact fun link hs => hw.innerVars link (List.mem_of_mem_tail hs)
  · intro hl
    have hin := List.length_pos_iff.mpr (hv.inside (h.isSome ▸ hl))
    refine List.ne_nil_of_length_pos ?_
    rw [Chain.length_inner] at hin ⊢
    rw [hlength]
    exact hin
  · exact List.ne_nil_of_length_pos (hlength ▸ List.length_pos_iff.mpr hv.chained)

def looped (v : View) : View := { v with loopDepth := v.loopDepth + 1 }

theorem Leads.unlooped {v w : View} (h : v.looped.Leads w) :
    v.Leads { w with loopDepth := w.loopDepth - 1 } :=
  { h with
    valid := { h.valid with }
    loopDepth := by
      rw [show w.loopDepth = v.loopDepth + 1 from h.loopDepth]
      rfl }

end View

namespace Parse

open View

variable {α : Type} {m : Parse α} {v : View} {Q Q' : α → View → Prop}

theorem keeps_inScope (hv : v.Valid) (hm : Keeps Leads m v.entered Q)
    (h : ∀ a w, v.entered.Leads w → Q a w → Q' a w.left) : Keeps Leads (inScope m) v Q' :=
  .between (fun _ => rfl) (fun _ => rfl) (fun s hs => by rw [← hs]; rfl) hm fun a s hl hq =>
    ⟨hl.left hv, h a s.view hl hq⟩

theorem keeps_inLoop (hm : Keeps Leads m v.looped Q)
    (h : ∀ a w, v.looped.Leads w → Q a w → Q' a { w with loopDepth := w.loopDepth - 1 }) :
    Keeps Leads (inLoop m) v Q' :=
  .between (fun _ => rfl) (fun _ => rfl) (fun s hs => by rw [← hs]; rfl) hm fun a s hl hq =>
    ⟨hl.unlooped, h a s.view hl hq⟩

theorem keeps_literal_variable (hv : v.Valid) (bytes : List UInt8) :
    Keeps Leads (stringLiteral bytes) v fun id w => w.names.vars id := by
  refine (keeps_stringLiteral bytes v).weaken fun id w _ hw => ?_
  obtain ⟨rfl, rfl⟩ := hw
  refine ⟨(hv.addLiteral bytes).leads hv rfl, Or.inr ?_⟩
  exact List.mem_append_right _ List.mem_cons_self

end Parse

end StackC
