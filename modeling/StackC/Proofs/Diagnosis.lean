import StackC.Proofs.Acceptance
import StackC.Proofs.Grammar.Outcomes
import StackC.Proofs.Lexing
import StackC.Proofs.Typing.Places

namespace StackC

namespace Report

def around (r : Report) (p : Location) (line : String) : String :=
  let gutter := toString p.line
  let padding := blanks gutter.length
  let indent := blanks (p.column - 1)
  s!"error: {r.headline}\n{padding} |\n{gutter} | {line}\n{padding} | {indent}^ {r.message}"

/-- The line that a report shows is looked up by the number of its place. -/
theorem render_located (source : String) (stage : Stage) (m : String) (p : Location) :
    (located stage m p).render source = (located stage m p).around p
      (String.ofList (((textLines source.toList)[p.line - 1]?).getD [])) :=
  rfl

/-- A report on a place of the text shows the line around it. -/
theorem render_behind (stage : Stage) (m : String) (before after : String) :
    (located stage m (.behind before)).render (before ++ after) =
      (located stage m (.behind before)).around (.behind before)
        (String.ofList (lineAround before.toList after.toList)) := by
  have hindex : (Location.behind before).line - 1 = before.toList.count '\n' :=
    Nat.add_sub_cancel_left _ _
  rw [render_located, hindex, String.toList_append, getElem?_textLines]

end Report

/-- The tokens of a source text stand at places of it. -/
theorem Spells.within {source : String} {ts : List Token} (h : Spells "" true source.toList ts) :
    ∀ t ∈ ts, t.place.Within source := by
  have hs : source = "" ++ String.ofList source.toList := by
    rw [String.ofList_toList, String.empty_append]
  intro t ht
  obtain ⟨front, back, hsource, hplace⟩ := h.spelled hs t ht
  exact ⟨front, t.text ++ back, hsource.trans String.append_assoc, hplace⟩

/-- The scanner tells places of the source only. -/
theorem tells_tokenize (source : String) :
    Tells (Location.Within source)
      (tokenize source) fun ts => ts ≠ [] ∧ ∀ t ∈ ts, t.place.Within source := by
  cases h : tokenize source with
  | ok ts => exact ⟨(spells_tokenize h).ne_nil, (spells_tokenize h).within⟩
  | error e =>
    obtain ⟨f, p, rfl, hp⟩ := within_tokenize h
    exact placed_lexical hp

theorem placed_ofTokens {P : Location → Prop} {ts : List Token} (hne : ts ≠ [])
    (h : ∀ t ∈ ts, P t.place) :
    (ParseState.ofTokens ts).Placed P where
  ahead t ht := h t (List.takeWhile_subset _ ht)
  finish := by
    unfold ParseState.ofTokens
    dsimp only
    split
    · next t rest hd => exact h t (List.mem_of_mem_drop (hd ▸ List.mem_cons_self))
    · rw [List.getLast?_eq_some_getLast hne]
      exact h _ (List.getLast_mem hne)
  functions f hf := absurd hf List.not_mem_nil

/-- The parser tells places of the source only, and its trees have no others. -/
theorem tells_parse (source : String) :
    Tells (Location.Within source) (parse source)
      fun p => ∀ f ∈ p.functions, f.Placed (Location.Within source) := by
  refine .bind (Q := fun s => s.Placed (Location.Within source) ∧ s.locals = none) ?_ fun s hs =>
    (ParseState.leaves_readProgram hs.1 hs.2).2
  exact .bind (tells_tokenize source) fun ts hts => .pure ⟨placed_ofTokens hts.1 hts.2, rfl⟩

/-- So does the analysis as a whole. -/
theorem tells_analyze (source : String) :
    Tells (Location.Within source) (analyze source) fun _ => True :=
  .bind (tells_parse source) fun _ hp => Program.tells_elaborate hp

/-- The diagnostic tells the place behind a beginning of the source: the offset counts the bytes
in it, the line its line feeds, the column the characters behind the last of them. The report
shows the line around this place. -/
def Diagnostic.PointsInto (source : String) (e : Diagnostic) : Prop :=
  ∃ before after p, source = before ++ after ∧ e.report.place? = some p ∧
    p.offset = before.utf8ByteSize ∧ p.line = 1 + before.toList.count '\n' ∧
    p.column = 1 + (lastLine before.toList).length ∧
    e.report.render source =
      e.report.around p (String.ofList (lineAround before.toList after.toList))

/-- A place of the source is all that is needed to show the line around it. -/
theorem Diagnostic.Placed.pointsInto {source : String} {e : Diagnostic}
    (h : e.Placed (Location.Within source)) (hl : e.Located) : e.PointsInto source := by
  cases hr : e.report with
  | unlocated m =>
    -- Only the emission of code tells no place.
    cases e with
    | emission f => exact absurd rfl (hl f)
    | lexical | grammar | declaration | typing => cases hr
  | located stage m p =>
    obtain ⟨before, after, rfl, rfl⟩ := h p (by rw [hr]; rfl)
    unfold PointsInto
    rw [hr]
    exact ⟨before, after, _, rfl, rfl, rfl, rfl, rfl, Report.render_behind stage m before after⟩

/-- A source text that is rejected is rejected at one of its places. -/
theorem compile_error_points {source : String} {e : Diagnostic} (h : compile source = .error e) :
    e.PointsInto source := by
  cases ha : analyze source with
  | ok p =>
    obtain ⟨text, ht⟩ := exists_text_of_analyze ha
    rw [ht] at h
    cases h
  | error d =>
    rw [compile_of_analyze_error ha] at h
    cases h
    exact ((tells_analyze source).of_error ha).pointsInto ((yields_analyze source).of_error ha)

/-- A name that is not declared, behind a character of two bytes and in a line that ends with a
carriage return. -/
def undeclaredSource : String := "int f() \x7b\r\n  /* ü */ return x;\r\n\x7d\n"

theorem compile_error_points_undeclared : ∃ e, compile undeclaredSource = .error e ∧
    e.report.place? = some ⟨2, 18, 29⟩ ∧ e.PointsInto undeclaredSource := by
  have hcheck : ((analyze undeclaredSource).casesOn (motive := fun _ => Bool)
      (fun e => e.report.place? == some ⟨2, 18, 29⟩) fun _ => false) = true := by
    decide +kernel
  cases ha : analyze undeclaredSource with
  | ok p =>
    rw [ha] at hcheck
    cases hcheck
  | error e =>
    rw [ha] at hcheck
    have hc := compile_of_analyze_error ha
    exact ⟨e, hc, eq_of_beq hcheck, compile_error_points hc⟩

end StackC
