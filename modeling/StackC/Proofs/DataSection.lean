import StackC.Proofs.Assembly.Output

namespace StackC

open Assembly Emission

namespace Assembly

def heading (name : String) : List String :=
  if ".L".toList.isPrefixOf name.toList then [name ++ ":"] else ["  .globl " ++ name, name ++ ":"]

/-- The lines for a global variable: its label, and then one line for each byte of its initial value
or a single line for as many zeros as it has bytes. -/
inductive Datum (v : Var) : List String → Prop where
  | bytes {bytes : List UInt8} (hs : v.storage = .global (some bytes))
      (hlength : bytes.length = v.type.size) :
      Datum v (heading v.name ++ bytes.map fun b => "  .byte " ++ toString b.toNat)
  | zeros (hs : v.storage = .global none) :
      Datum v (heading v.name ++ ["  .zero " ++ toString v.type.size])

end Assembly

namespace Emission

variable {p : Program}

/-- The heading of a symbol, as it is printed. -/
theorem heading_eq (name : String) :
    heading name =
      ((if ".L".toList.isPrefixOf name.toList then [] else [Line.directive (.globl name)]) ++
        [Line.label (.symbol name)]).map Line.text := by
  unfold heading
  split <;> rfl

/-- The lines of a filled global variable are those of its datum. -/
theorem datum_globalData {v : Var} (hg : v.isLocal = false) (hf : v.Filled) :
    Datum v ((globalData v).map Line.text) := by
  obtain ⟨init, hs⟩ := Var.isLocal_eq_false.mp hg
  cases init with
  | none =>
    have htext : (globalData v).map Line.text =
        heading v.name ++ ["  .zero " ++ toString v.type.size] := by
      rw [heading_eq, globalData, hs, List.map_append]
      rfl
    rw [htext]
    exact .zeros hs
  | some bytes =>
    have htext : (globalData v).map Line.text =
        heading v.name ++ bytes.map fun b => "  .byte " ++ toString b.toNat := by
      rw [heading_eq, globalData, hs, List.map_append, List.map_map]
      rfl
    rw [htext]
    exact .bytes hs (hf bytes hs)

/-- The data of global variables, one after the other. -/
theorem forall₂_datum {ids : List VarId}
    (h : ∀ id ∈ ids, ∃ v, p.vars[id]? = some v ∧ v.isLocal = false ∧ v.Filled) :
    List.Forall₂ (fun id lines => ∃ v, p.vars[id]? = some v ∧ Datum v lines) ids
      ((ids.filterMap p.var?).map fun v => (globalData v).map Line.text) := by
  induction ids with
  | nil => exact .nil
  | cons id ids ih =>
    obtain ⟨⟨v, hv, hg, hf⟩, hids⟩ := List.forall_mem_cons.mp h
    rw [List.filterMap_cons_some (show p.var? id = some v from hv), List.map_cons]
    exact .cons ⟨v, hv, datum_globalData hg hf⟩ (ih hids)

theorem map_text_dataSection (p : Program) :
    (dataSection p).map Line.text =
      "  .data" :: (p.data.map fun v => (globalData v).map Line.text).flatten := by
  rw [← List.flatMap_def, ← List.map_flatMap]
  rfl

end Emission

/-- The text of a compiled program has one section of data. It holds the lines of the global
variables in order, and every initial value is as long as its variable. -/
theorem compile_dataSection {source text : String} (h : compile source = .ok text) :
    ∃ (p : Program) (data : List (List String)) (code : List (List String)),
      analyze source = .ok p ∧
      sections (linesOf text) = ("  .data" :: data.flatten) :: code ∧
      List.Forall₂ (fun id lines => ∃ v, p.vars[id]? = some v ∧ Datum v lines) p.globals data ∧
      (∀ part ∈ code, "  .data" ∉ part) ∧
      ∀ (id : VarId) (v : Var) (bytes : List UInt8), p.vars[id]? = some v →
      v.storage = .global (some bytes) →
        bytes.length = v.type.size := by
  obtain ⟨p, blocks, hp, hout⟩ := compile_output h
  refine ⟨p, _, (outputParts p blocks).tail.map fun lines => lines.map Line.text, hp, ?_,
    forall₂_datum ?_, ?_, fun id v bytes hv => hout.named.filled id v hv bytes⟩
  · rw [hout.sections_eq, outputParts, List.map_cons, map_text_dataSection]
    rfl
  · intro id hid
    obtain ⟨v, hv, hg⟩ := hout.valid.globals id hid
    exact ⟨v, hv, hg, hout.named.filled id v hv⟩
  · intro part hpart hdata
    obtain ⟨lines, hlines, rfl⟩ := List.mem_map.mp hpart
    obtain ⟨x, hx, htext⟩ := List.mem_map.mp hdata
    rcases List.mem_append.mp hlines with hlines | hnote
    · obtain ⟨b, hb, rfl⟩ := List.mem_map.mp hlines
      obtain ⟨f, hf, -, hof⟩ := hout.exists_function hb
      -- The section of a function is opened by its first line, and no other line opens one.
      rcases List.mem_cons.mp hx with rfl | hx
      · exact absurd htext (by decide)
      · have hbody := (hof.isSection hout.valid hout.named hf).text_not_mem _
          (List.mem_map_of_mem hx)
        rw [htext] at hbody
        exact hbody List.mem_cons_self
    · obtain rfl := List.mem_singleton.mp hnote
      obtain rfl := List.mem_singleton.mp hx
      exact absurd htext (by decide)

/-- A variable that is declared again with a value, an array that takes its length from a string, a
struct, an array without a value, and a string literal. -/
def dataSource : String :=
  "int x; char s[] = \"hi\"; struct \x7b char c; int k; \x7d t = \x7b1, -2\x7d; int z[3]; int x = 258;
  char *f() \x7b return \"ok\"; \x7d"

/-- The later value of `x` is the one that counts, and its place among the data is the first one. -/
theorem compile_dataSection_filled :
    ∃ (text : String) (p : Program) (data : List (List String)) (code : List (List String)),
      compile dataSource = .ok text ∧ analyze dataSource = .ok p ∧
      p.data.map (fun v => (v.name, v.type.size, v.storage)) =
        [("x", 4, .global (some [2, 1, 0, 0])), ("s", 3, .global (some [104, 105, 0])),
          ("t", 5, .global (some [1, 254, 255, 255, 255])), ("z", 12, .global none),
          (".L..str.0", 3, .global (some [111, 107, 0]))] ∧
      sections (linesOf text) = ("  .data" :: data.flatten) :: code ∧
      List.Forall₂ (fun id lines => ∃ v, p.vars[id]? = some v ∧ Datum v lines) p.globals data ∧
      (∀ part ∈ code, "  .data" ∉ part) ∧
      ∀ (id : VarId) (v : Var) (bytes : List UInt8), p.vars[id]? = some v →
        v.storage = .global (some bytes) → bytes.length = v.type.size := by
  have hcheck : (analyze dataSource).toOption.any (fun p =>
      p.data.map (fun v => (v.name, v.type.size, v.storage)) =
        [("x", 4, .global (some [2, 1, 0, 0])), ("s", 3, .global (some [104, 105, 0])),
          ("t", 5, .global (some [1, 254, 255, 255, 255])), ("z", 12, .global none),
          (".L..str.0", 3, .global (some [111, 107, 0]))]) = true := by
    decide +kernel
  obtain ⟨q, hq, hdata⟩ := exists_of_any hcheck
  obtain ⟨text, htext⟩ := exists_text_of_analyze hq
  obtain ⟨p, data, code, hp, hrest⟩ := compile_dataSection htext
  obtain rfl := Except.ok.inj (hp.symm.trans hq)
  exact ⟨text, p, data, code, htext, hp, of_decide_eq_true hdata, hrest⟩

end StackC
