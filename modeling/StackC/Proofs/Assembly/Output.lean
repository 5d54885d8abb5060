import StackC.Proofs.Acceptance
import StackC.Proofs.Assembly.Text
import StackC.Proofs.Emission.Labels
import StackC.Proofs.Emission.Operands
import StackC.Proofs.WellScoped

namespace StackC

open Assembly Emission

structure Program.Named (p : Program) : Prop where
  filled : ∀ (id : VarId) (x : Var), p.vars[id]? = some x → x.Filled
  data : ∀ x ∈ p.data, IsName x.name
  apart : (p.data.map (·.name)).Nodup
  words : ∀ f ∈ p.functions, IsWord f.name
  functions : ∀ f ∈ p.functions, ∀ x ∈ p.data, x.name ≠ f.name

/-- The names of a program that was read are words or names of string literals, and they differ. -/
theorem View.Top.named {v : View} (h : v.Top) : v.program.Named where
  filled := h.valid.filled
  data x hx := by
    obtain ⟨id, hid, hx⟩ := Program.mem_data.mp hx
    obtain ⟨y, hy, hname⟩ := h.symbols.globals id hid
    cases hy.symm.trans hx
    rcases hname with hbound | ⟨k, -, hname⟩
    · exact Or.inl (h.symbols.words _ hbound)
    · exact Or.inr ⟨k, hname⟩
  apart := by
    refine List.pairwise_map.mpr (List.pairwise_filterMap.mpr ?_)
    exact h.symbols.apart.imp fun hab x hx y hy => hab x y hx hy
  words f hf := (h.symbols.functions f hf).1
  functions f hf x hx := by
    obtain ⟨hword, hfree⟩ := h.symbols.functions f hf
    obtain ⟨id, hid, hx⟩ := Program.mem_data.mp hx
    obtain ⟨y, hy, hname⟩ := h.symbols.globals id hid
    cases hy.symm.trans hx
    rcases hname with hbound | ⟨k, -, hname⟩
    · exact hfree _ hbound
    · -- No function has the name of a string literal.
      intro he
      rw [← he, hname] at hword
      exact not_isWord_literalName k hword

/-- Elaboration keeps the names. -/
theorem Program.Named.elaborated {p : Program} (h : p.Named) {fs : List Function}
    (hfs : List.Forall₂ (Typing.ElaboratesFunction p) p.functions fs) :
    Named { p with functions := fs } where
  filled := h.filled
  data := h.data
  apart := h.apart
  words f hf := by
    obtain ⟨e, he, hf⟩ := Lists.exists_left_of_forall₂ hfs hf
    exact hf.name ▸ h.words e he
  functions f hf := by
    obtain ⟨e, he, hf⟩ := Lists.exists_left_of_forall₂ hfs hf
    exact hf.name ▸ h.functions e he

/-- An analyzed program has names of its own for its data and functions. -/
theorem yields_analyze_named (source : String) : Yields (analyze source) Program.Named := by
  refine yields_analyze_of source fun v htop => ?_
  exact .bind (Typing.yields_mapM fun f _ => Typing.yields_elaborateFunction v.program f)
    fun fs hfs =>
    .pure (htop.named.elaborated hfs)

namespace Emission

variable {p : Program} {f : Function} {b : Block} {body : Node} {x : Line}

/-- The lines of the data name global variables only. -/
theorem spelled_dataSection (h : p.Named) : ∀ x ∈ dataSection p, x.Spelled := by
  intro x hx
  rcases mem_dataSection hx with rfl | ⟨v, hv, rfl | rfl⟩ | ⟨b, rfl⟩ | ⟨n, rfl⟩
  · exact List.forall_mem_nil _
  · exact List.forall_mem_singleton.mpr (h.data v hv)
  · exact List.forall_mem_singleton.mpr (h.data v hv)
  · exact List.forall_mem_nil _
  · exact List.forall_mem_nil _

/-- A neutral line names nothing. -/
theorem names_of_neutral (h : isNeutral x = true) : x.names = [] := by
  have hlabel {l : Label} (hl : l.isNumbered = true) : l.names = [] := by
    cases l with
    | numbered r n => rfl
    | functionEnd | symbol => cases hl
  cases x with
  | label l => exact hlabel h
  | directive d => cases h
  | instr i =>
    cases i with
    | jump l | jumpIf c l => exact hlabel h
    | leaSymbol | call => cases h
    | _ => rfl

/-- The data that the body of a function takes the address of. -/
theorem mem_data_of_locates (hp : p.Valid) (hf : f ∈ p.functions) (hbody : f.body = some body)
    {i : Info} {id : VarId} (hm : Node.Within (.var i id) body) {name : String} {dst : Reg}
    (h : Locates (.ofFunction p f) id (.leaSymbol name dst)) : ∃ v ∈ p.data, v.name = name := by
  cases h with
  | @inData v hv hl =>
    rcases (hp.bodyScoped hf hbody).vars i id hm with hlocal | hglobal
    · -- A local lies on the frame and has no symbol.
      obtain ⟨x, hx, hlocal⟩ := hp.local_var hf hlocal
      cases hx.symm.trans hv
      rw [hl] at hlocal
      cases hlocal
    · exact ⟨v, Program.mem_data.mpr ⟨id, hglobal, hv⟩, rfl⟩

/-- What a body refers to has a name of the output. -/
theorem Refers.spelled (hp : p.Valid) (hn : p.Named) (hf : f ∈ p.functions)
    (hbody : f.body = some body) (h : Refers (.ofFunction p f) (fun e => e.Within body) x) :
    x.Spelled := by
  cases h with
  | neutral h =>
    unfold Line.Spelled
    rw [names_of_neutral h]
    exact List.forall_mem_nil _
  | @located i id lea hm hl =>
    generalize hlea : lea = instr at hl
    cases hl with
    | onFrame => exact List.forall_mem_nil _
    | inData hv hglobal =>
      obtain ⟨v, hv, hname⟩ := mem_data_of_locates hp hf hbody hm (.inData hv hglobal)
      exact List.forall_mem_singleton.mpr (hname ▸ hn.data v hv)
  | call hm =>
    obtain ⟨g, hg, rfl⟩ := (hp.bodyScoped hf hbody).calls _ _ _ hm
    exact List.forall_mem_singleton.mpr (Or.inl (hn.words g hg))
  | leave => exact List.forall_mem_singleton.mpr (Or.inl (hn.words f hf))
  | member | argument => exact List.forall_mem_nil _
  | finish ht | again ht => exact absurd ht List.not_mem_nil

/-- All names in the text of a function are names of the program. -/
theorem Block.Of.spelled (hp : p.Valid) (hn : p.Named) (hf : f ∈ p.functions)
    (h : Block.Of p f b) : ∀ x ∈ b.lines, x.Spelled := by
  obtain ⟨hbody, hlines⟩ := h
  have hname : IsName f.name := Or.inl (hn.words f hf)
  intro x hx
  rcases List.mem_append.mp hx with hx | hx
  · have hhead : ∀ x ∈ headLines f.name (Frame.ofLocals p.vars f.locals).size, x.Spelled := by
      simp [headLines, Line.Spelled, Line.names, Label.names, hname]
    exact hhead x hx
  · rcases List.mem_append.mp hx with hx | hx
    · exact (emitsBody_refers hlines x hx).spelled hp hn hf hbody
    · have htail : ∀ x ∈ tailLines f.name, x.Spelled := by
        simp [tailLines, Line.Spelled, Line.names, Label.names, hname]
      exact htail x hx

/-- No line of a body opens a section. -/
theorem Refers.not_mem_openings {c : Context} {M : Node → Prop} (h : Refers c M x) :
    x ∉ openings := by
  cases h with
  | neutral h =>
    rintro hx
    simp only [openings, List.mem_cons, List.not_mem_nil, or_false] at hx
    rcases hx with rfl | rfl | rfl
    all_goals cases h
  | _ => simp [openings]

def outputParts (p : Program) (blocks : List Block) : List (List Line) :=
  dataSection p :: (blocks.map Block.lines ++ [[.directive .plainStack]])

theorem isSection_dataSection (h : p.Named) : IsSection (dataSection p) := by
  refine .intro (by simp [openings]) (fun x hx => ?_) fun x hx => ?_
  · exact spelled_dataSection h x (List.mem_cons_of_mem _ hx)
  · rcases mem_globalData hx with ⟨v, -, rfl | rfl⟩ | ⟨b, rfl⟩ | ⟨n, rfl⟩
    all_goals simp [openings]

/-- The text of a function is one section. -/
theorem Block.Of.isSection (hp : p.Valid) (hn : p.Named) (hf : f ∈ p.functions)
    (h : Block.Of p f b) : IsSection b.lines := by
  have hspelled := h.spelled hp hn hf
  obtain ⟨hbody, hlines⟩ := h
  refine .intro (by simp [openings]) (fun x hx => ?_) fun x hx => ?_
  · exact hspelled x (List.mem_cons_of_mem _ hx)
  · -- Behind the line that opens the section there are no directives but the one for its name.
    have hhead : ∀ x ∈ (headLines f.name (Frame.ofLocals p.vars f.locals).size).tail,
        x ∉ openings := by
      simp [headLines, openings]
    have htail : ∀ x ∈ tailLines f.name, x ∉ openings := by
      simp [tailLines, openings]
    rcases List.mem_append.mp hx with hx | hx
    · exact hhead x hx
    · rcases List.mem_append.mp hx with hx | hx
      · exact (emitsBody_refers hlines x hx).not_mem_openings
      · exact htail x hx

end Emission

/-- What is known of the output of a program whose functions have the given blocks. -/
structure Output (p : Program) (blocks : List Block) (text : String) : Prop where
  valid : p.Valid
  named : p.Named
  emits : p.emit = .ok (outputParts p blocks).flatten
  functions : List.Forall₂ (Block.Of p) (p.functions.filter (·.body.isSome)) blocks
  rendered : text = render (outputParts p blocks).flatten

/-- Every output is put together from the sections of its program. -/
theorem compile_output {source text : String} (h : compile source = .ok text) :
    ∃ p blocks, analyze source = .ok p ∧ Output p blocks text := by
  obtain ⟨p, lines, hp, hl, rfl⟩ := compile_eq_ok.mp h
  have hl' := hl
  obtain ⟨ls, n, hs, rfl⟩ := emit_eq_ok.mp hl'
  obtain ⟨blocks, rfl, hb⟩ := emitsAll_blocks hs
  have hflat : dataSection p ++ blocks.flatMap Block.lines ++ [.directive .plainStack] =
      (outputParts p blocks).flatten := by
    simp [outputParts, List.flatMap_def]
  rw [hflat] at hl ⊢
  exact ⟨p, blocks, hp, ((yields_analyze source).of_ok hp).valid,
    (yields_analyze_named source).of_ok hp, hl, hb, rfl⟩

namespace Output

variable {p : Program} {blocks : List Block} {text : String}

/-- Every block is the text of a function with a body. -/
theorem exists_function (h : Output p blocks text) {b : Block} (hb : b ∈ blocks) :
    ∃ f ∈ p.functions, f.body.isSome = true ∧ Block.Of p f b := by
  obtain ⟨f, hf, hof⟩ := Lists.exists_left_of_forall₂ h.functions hb
  obtain ⟨hf, hbody⟩ := List.mem_filter.mp hf
  exact ⟨f, hf, hbody, hof⟩

/-- Instructions stand in the functions only. -/
theorem exists_block (h : Output p blocks text) {part : List Line}
    (hpart : part ∈ outputParts p blocks) {i : Instr} (hi : .instr i ∈ part) :
    ∃ b ∈ blocks, part = b.lines ∧ ∃ f ∈ p.functions, Block.Of p f b := by
  rcases List.mem_cons.mp hpart with rfl | hpart
  · exact absurd hi (instr_not_mem_dataSection p i)
  · rcases List.mem_append.mp hpart with hpart | hpart
    · obtain ⟨b, hb, rfl⟩ := List.mem_map.mp hpart
      obtain ⟨f, hf, -, hof⟩ := h.exists_function hb
      exact ⟨b, hb, rfl, f, hf, hof⟩
    · obtain rfl := List.mem_singleton.mp hpart
      cases List.mem_singleton.mp hi

theorem isSection (h : Output p blocks text) : ∀ part ∈ outputParts p blocks, IsSection part := by
  refine List.forall_mem_cons.mpr ⟨isSection_dataSection h.named, ?_⟩
  refine List.forall_mem_append.mpr ⟨?_, List.forall_mem_singleton.mpr ?_⟩
  · intro part hpart
    obtain ⟨b, hb, rfl⟩ := List.mem_map.mp hpart
    obtain ⟨f, hf, -, hof⟩ := h.exists_function hb
    exact hof.isSection h.valid h.named hf
  · exact .intro (by simp [openings]) (List.forall_mem_nil _) (List.forall_mem_nil _)

theorem spelled (h : Output p blocks text) : ∀ x ∈ (outputParts p blocks).flatten, x.Spelled := by
  intro x hx
  obtain ⟨part, hpart, hx⟩ := List.mem_flatten.mp hx
  obtain ⟨hopen, hbody, -⟩ := h.isSection part hpart
  have hfirst : ∀ x ∈ openings, x.Spelled := by
    simp [openings, Line.Spelled, Line.names]
  rcases List.mem_cons.mp hx with rfl | hx
  · exact hfirst x hopen
  · exact hbody x hx

/-- The lines of the text are those of the output. -/
theorem linesOf_eq (h : Output p blocks text) :
    linesOf text = (outputParts p blocks).flatten.map Line.text := by
  rw [h.rendered]
  exact linesOf_render h.spelled

/-- The sections of the text are the data, the functions and the note. -/
theorem sections_eq (h : Output p blocks text) :
    sections (linesOf text) = (outputParts p blocks).map (·.map Line.text) := by
  rw [h.linesOf_eq]
  exact sections_flatten h.isSection

end Output

/-- A line that is emitted for a source text stands in the text of its output. -/
theorem exists_text_of_emit {source : String} {x : Line}
    (h : (analyze source).toOption.any
      (fun p => p.emit.toOption.any fun lines => x ∈ lines) = true) :
    ∃ text, compile source = .ok text ∧ x.text ∈ linesOf text := by
  obtain ⟨p, hp, h⟩ := exists_of_any h
  obtain ⟨lines, hl, hx⟩ := exists_of_any h
  have hc : compile source = .ok (render lines) := compile_eq_ok.mpr ⟨p, lines, hp, hl, rfl⟩
  obtain ⟨q, blocks, hq, hout⟩ := compile_output hc
  cases hq.symm.trans hp
  cases hl.symm.trans hout.emits
  refine ⟨_, hc, ?_⟩
  rw [hout.linesOf_eq]
  exact List.mem_map_of_mem (of_decide_eq_true hx)

end StackC
