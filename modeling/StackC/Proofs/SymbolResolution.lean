import StackC.Proofs.Assembly.Output
import StackC.Proofs.StackDiscipline

namespace StackC

open Assembly Emission

namespace Assembly

def Mentions (line label : String) : Prop :=
  line = label ++ ":" ∨ Jumps line label ∨ Addresses line label

structure Resolved (p : Program) (text : String) (data : List String)
    (functions : List (List String)) : Prop where
  parts : sections (linesOf text) =
    data :: (functions ++ [["  .section .note.GNU-stack,\"\",@progbits"]])
  globals : data.head? = some "  .data" ∧
    ∀ id ∈ p.globals, ∃ v, p.vars[id]? = some v ∧ v.name ++ ":" ∈ data
  bodies : List.Forall₂ (fun f part => part.head? = some "  .text" ∧ f.name ++ ":" ∈ part ∧
    ".L.return." ++ f.name ++ ":" ∈ part) (p.functions.filter (·.body.isSome)) functions
  once : ∀ line ∈ linesOf text, ∀ label, Mentions line label →
    (linesOf text).count (label ++ ":") = 1
  jumps : ∀ part ∈ sections (linesOf text), ∀ line ∈ part, ∀ label, Jumps line label →
    part ∈ functions ∧ label ++ ":" ∈ part
  addresses : ∀ line ∈ linesOf text, ∀ symbol, Addresses line symbol → symbol ++ ":" ∈ data

/-- Lines of the text that define a label are lines of the output that do. -/
theorem count_text {lines : List Line} (h : ∀ x ∈ lines, x.Spelled) {l : Label} (hl : l.Spelled) :
    (lines.map Line.text).count (l.text ++ ":") = defines l lines := by
  rw [defines, List.count, List.count, List.countP_map]
  -- No other line has the text of a definition, and labels are told apart by their texts.
  refine List.countP_congr fun x hx => ?_
  rw [Function.comp_apply, beq_iff_eq, beq_iff_eq]
  constructor
  · intro htext
    obtain ⟨l', rfl, hlabel⟩ := Line.eq_label (h x hx) htext
    rw [Label.text_inj (h _ hx) hl hlabel]
  · rintro rfl
    rfl

end Assembly

namespace Emission

variable {p : Program} {f : Function} {b : Block}

theorem label_mem_dataSection {v : Var} (h : v ∈ p.data) :
    .label (.symbol v.name) ∈ dataSection p := by
  refine List.mem_cons_of_mem _ (List.mem_flatMap.mpr ⟨v, h, ?_⟩)
  exact List.mem_append_left _ (List.mem_append_right _ List.mem_cons_self)

/-- The data of a variable define its name and no other label. -/
theorem defines_globalData (v : Var) (l : Label) :
    defines l (globalData v) = if .symbol v.name = l then 1 else 0 := by
  have hvisible : defines l (if ".L".toList.isPrefixOf v.name.toList then []
      else [Line.directive (.globl v.name)]) = 0 := by
    split <;> simp
  have hbytes (bytes : List UInt8) : defines l (bytes.map fun b => Line.directive (.byte b)) = 0 :=
    List.count_eq_zero.mpr (by simp)
  unfold globalData
  rw [defines_append, defines_append, hvisible, defines_label, defines_nil, Nat.zero_add,
    Nat.zero_add]
  cases v.storage with
  | onFrame => rfl
  | global init =>
    cases init with
    | none => rfl
    | some bytes => rw [hbytes, Nat.add_zero]

/-- The data define the name of each global variable. -/
theorem defines_flatMap_globalData (vs : List Var) (name : String) :
    defines (.symbol name) (vs.flatMap globalData) = (vs.map (·.name)).count name := by
  induction vs with
  | nil => rfl
  | cons v vs ih =>
    rw [List.flatMap_cons, defines_append, ih, defines_globalData, List.map_cons, List.count_cons,
      Nat.add_comm]
    simp only [Label.symbol.injEq, beq_iff_eq]

theorem Block.name_mem_lines (b : Block) : .label (.symbol b.name) ∈ b.lines := by
  simp [lines, headLines]

theorem Block.end_mem_lines (b : Block) : .label (.functionEnd b.name) ∈ b.lines := by
  simp [lines, tailLines]

/-- Jumps stay inside of their function. -/
theorem Block.Of.label_of_target (h : Block.Of p f b) {x : Line} (hx : x ∈ b.lines) {l : Label}
    (hl : target? x = some l) : .label l ∈ b.lines := by
  obtain ⟨depth, hd⟩ := h.disciplined
  have hframe : ∀ x ∈ headLines b.name b.frameSize ++ tailLines b.name, target? x = none := by
    simp [headLines, tailLines, target?]
  have hbody : x ∈ b.body := by
    refine Block.mem_body hx fun hx => ?_
    rw [hframe x hx] at hl
    cases hl
  -- A return jumps to the end of the function, which stands behind its body.
  by_cases hne : l = .functionEnd b.name
  · exact hne ▸ b.end_mem_lines
  · obtain ⟨i, hi⟩ := List.getElem?_of_mem hbody
    have hmem := (hd.jumps i x l hi hl hne).1
    exact List.mem_append_right _ (List.mem_append_left _ hmem)

/-- A symbol whose address is taken is one of the data. -/
theorem Block.Of.data_of_lea (hp : p.Valid) (hf : f ∈ p.functions) (h : Block.Of p f b)
    {name : String} {dst : Reg} (hx : .instr (.leaSymbol name dst) ∈ b.lines) :
    ∃ v ∈ p.data, v.name = name := by
  have hx := Block.mem_body hx (by simp [headLines, tailLines])
  obtain ⟨hbody, hlines⟩ := h
  obtain ⟨i, id, hm, hl⟩ := (emitsBody_refers hlines _ hx).of_leaSymbol
  exact mem_data_of_locates hp hf hbody hm hl

end Emission

namespace Output

variable {p : Program} {blocks : List Block} {text : String}

/-- No label is defined twice. -/
theorem defines_le_one (h : Output p blocks text) (l : Label) :
    defines l (outputParts p blocks).flatten ≤ 1 := by
  by_cases hl : ∃ name, l = .symbol name
  · -- A symbol is defined once for each of the data and for each function that has its name.
    obtain ⟨name, rfl⟩ := hl
    obtain ⟨ls, n, hs, hlines⟩ := emit_eq_ok.mp h.emits
    have hdata : defines (.symbol name) (dataSection p) = (p.data.map (·.name)).count name :=
      (defines_directive _ _ _).trans (defines_flatMap_globalData _ _)
    have hfunctions : defines (.symbol name) ls ≤ (p.functions.map (·.name)).count name :=
      emitsAll_defines_named hs (Or.inr rfl)
    have hnodup : (p.data.map (·.name) ++ p.functions.map (·.name)).Nodup := by
      refine List.nodup_append.mpr ⟨h.named.apart, h.valid.names, ?_⟩
      intro a ha b hb
      obtain ⟨v, hv, rfl⟩ := List.mem_map.mp ha
      obtain ⟨f, hf, rfl⟩ := List.mem_map.mp hb
      exact h.named.functions f hf v hv
    have hcount := List.nodup_iff_count_le_one.mp hnodup name
    rw [List.count_append] at hcount
    rw [hlines, defines_append, defines_append, hdata, defines_directive, defines_nil]
    omega
  · exact defines_emit_le_one h.valid.names h.emits fun name he => hl ⟨name, he⟩

/-- A label that stands in the output is defined by one line of its text. -/
theorem count_eq_one (h : Output p blocks text) {l : Label}
    (hl : .label l ∈ (outputParts p blocks).flatten) :
    (linesOf text).count (l.text ++ ":") = 1 := by
  rw [h.linesOf_eq, count_text h.spelled (h.spelled _ hl)]
  exact Nat.le_antisymm (h.defines_le_one l) (defines_pos_of_mem hl)

/-- A jump in the text of a section leads to a label of the same section. -/
theorem label_of_jump (h : Output p blocks text) {part : List Line}
    (hpart : part ∈ outputParts p blocks) {x : Line} (hx : x ∈ part) {label : String}
    (hjump : Jumps x.text label) :
    part ∈ blocks.map Block.lines ∧ ∃ l, l.text = label ∧ .label l ∈ part := by
  have hspelled := h.spelled x (List.mem_flatten.mpr ⟨part, hpart, hx⟩)
  obtain ⟨l, htext, hinstr⟩ := hjump.eq_instr hspelled
  have htarget : target? x = some l ∧ ∃ i, x = .instr i := by
    rcases hinstr with rfl | ⟨c, rfl⟩
    · exact ⟨rfl, _, rfl⟩
    · exact ⟨rfl, _, rfl⟩
  obtain ⟨htarget, i, rfl⟩ := htarget
  obtain ⟨b, hb, rfl, f, -, hof⟩ := h.exists_block hpart hx
  exact ⟨List.mem_map_of_mem hb, l, htext, hof.label_of_target hx htarget⟩

/-- What is addressed is the name of a global variable. -/
theorem data_of_address (h : Output p blocks text) {x : Line}
    (hx : x ∈ (outputParts p blocks).flatten) {symbol : String} (haddr : Addresses x.text symbol) :
    ∃ v ∈ p.data, v.name = symbol := by
  obtain ⟨dst, rfl⟩ := haddr.eq_instr (h.spelled x hx)
  obtain ⟨part, hpart, hx⟩ := List.mem_flatten.mp hx
  obtain ⟨b, -, rfl, f, hf, hof⟩ := h.exists_block hpart hx
  exact hof.data_of_lea h.valid hf hx

/-- The text of an output with all of its symbols resolved. -/
theorem resolved (h : Output p blocks text) :
    Resolved p text ((dataSection p).map Line.text)
      (blocks.map fun b => b.lines.map Line.text) where
  parts := by
    rw [h.sections_eq, outputParts, List.map_cons, List.map_append, List.map_map]
    rfl
  globals := by
    refine ⟨rfl, fun id hid => ?_⟩
    obtain ⟨v, hv, -⟩ := h.valid.globals id hid
    have hlabel := label_mem_dataSection (Program.mem_data.mpr ⟨id, hid, hv⟩)
    exact ⟨v, hv, List.mem_map_of_mem hlabel⟩
  bodies := by
    refine List.forall₂_map_right_iff.mpr (h.functions.imp fun f b hof => ?_)
    have hname : b.name = f.name := by
      cases hof
      rfl
    rw [← hname]
    exact ⟨rfl, List.mem_map_of_mem b.name_mem_lines, List.mem_map_of_mem b.end_mem_lines⟩
  once := by
    intro line hline label hmention
    rw [h.linesOf_eq] at hline
    obtain ⟨x, hx, rfl⟩ := List.mem_map.mp hline
    -- However a label is mentioned, a line of the output defines it.
    have hlabel : ∃ l, l.text = label ∧ .label l ∈ (outputParts p blocks).flatten := by
      rcases hmention with hdef | hjump | haddr
      · obtain ⟨l, rfl, htext⟩ := Line.eq_label (h.spelled x hx) hdef
        exact ⟨l, htext, hx⟩
      · obtain ⟨part, hpart, hx⟩ := List.mem_flatten.mp hx
        obtain ⟨-, l, htext, hl⟩ := h.label_of_jump hpart hx hjump
        exact ⟨l, htext, List.mem_flatten.mpr ⟨part, hpart, hl⟩⟩
      · obtain ⟨v, hv, rfl⟩ := h.data_of_address hx haddr
        exact ⟨.symbol v.name, rfl, List.mem_append_left _ (label_mem_dataSection hv)⟩
    obtain ⟨l, rfl, hl⟩ := hlabel
    exact h.count_eq_one hl
  jumps := by
    intro part hpart line hline label hjump
    rw [h.sections_eq] at hpart
    obtain ⟨lines, hlines, rfl⟩ := List.mem_map.mp hpart
    obtain ⟨x, hx, rfl⟩ := List.mem_map.mp hline
    obtain ⟨hblock, l, rfl, hl⟩ := h.label_of_jump hlines hx hjump
    obtain ⟨b, hb, rfl⟩ := List.mem_map.mp hblock
    exact ⟨List.mem_map_of_mem hb, List.mem_map_of_mem hl⟩
  addresses := by
    intro line hline symbol haddr
    rw [h.linesOf_eq] at hline
    obtain ⟨x, hx, rfl⟩ := List.mem_map.mp hline
    obtain ⟨v, hv, rfl⟩ := h.data_of_address hx haddr
    exact List.mem_map_of_mem (label_mem_dataSection hv)

end Output

/-- In the text of a compiled program every symbol is resolved. -/
theorem compile_resolved {source text : String} (h : compile source = .ok text) :
    ∃ p data functions, analyze source = .ok p ∧ Resolved p text data functions := by
  obtain ⟨p, blocks, hp, hout⟩ := compile_output h
  exact ⟨p, _, _, hp, hout.resolved⟩

/-- Two functions with loops that are left and repeated from inside, a function that is announced
only, and names of which one is the beginning of the other. -/
def symbolSource : String :=
  "int x; int x1; int put(char *s);
  int f(int a) \x7b
    for (int i = 0; i < a; i++) \x7b
      if (i == 2 && x) continue; while (x1) \x7b if (x) break; \x7d \x7d
    return a ? put(\"a\") : 0; \x7d
  int f1() \x7b while (x1 || f(1)) return put(\"b\"); \x7d"

/-- Names that begin alike, numbered labels and the names of string literals are all told apart. -/
theorem compile_resolved_nested :
    ∃ text p data functions, compile symbolSource = .ok text ∧ analyze symbolSource = .ok p ∧
      p.data.map (·.name) = ["x", "x1", ".L..str.0", ".L..str.1"] ∧
      p.functions.map (fun f => (f.name, f.body.isSome)) =
        [("put", false), ("f", true), ("f1", true)] ∧
      Resolved p text data functions := by
  have hcheck : (analyze symbolSource).toOption.any (fun p =>
      p.data.map (·.name) = ["x", "x1", ".L..str.0", ".L..str.1"] ∧
      p.functions.map (fun f => (f.name, f.body.isSome)) =
        [("put", false), ("f", true), ("f1", true)]) = true := by
    decide +kernel
  obtain ⟨q, hq, hnames⟩ := exists_of_any hcheck
  obtain ⟨text, htext⟩ := exists_text_of_analyze hq
  obtain ⟨p, data, functions, hp, hresolved⟩ := compile_resolved htext
  obtain rfl := Except.ok.inj (hp.symm.trans hq)
  obtain ⟨hdata, hfunctions⟩ := of_decide_eq_true hnames
  exact ⟨text, p, data, functions, htext, hp, hdata, hfunctions, hresolved⟩

end StackC
