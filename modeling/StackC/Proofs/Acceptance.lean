import StackC.Proofs.Emission.Total
import StackC.Proofs.Grammar.Programs

namespace StackC

open Assembly

/-- What elaboration yields for whatever can be read is what the analysis yields. -/
theorem yields_analyze_of {Q : Program → Prop} (source : String)
    (h : ∀ v : View, v.Top → Yields v.program.elaborate Q) : Yields (analyze source) Q := by
  unfold analyze
  rcases parse_top source with ⟨v, hp, htop⟩ | ⟨e, he, hlocated⟩
  · rw [hp]
    exact h v htop
  · rw [he]
    exact .error hlocated

/-- Analysis gives an elaborated program, or it finds a fault of the source text. -/
theorem yields_analyze (source : String) : Yields (analyze source) Program.Elaborated :=
  yields_analyze_of source fun _ htop => htop.program.yields_elaborate

theorem compile_of_analyze_error {source : String} {e : Diagnostic}
    (h : analyze source = .error e) :
    compile source = .error e := by
  rw [compile, h]
  rfl

/-- Whatever can be analyzed has an output. -/
theorem exists_text_of_analyze {source : String} {p : Program} (h : analyze source = .ok p) :
    ∃ text, compile source = .ok text := by
  obtain ⟨lines, hl⟩ := ((yields_analyze source).of_ok h).emits
  exact ⟨render lines, compile_eq_ok.mpr ⟨p, lines, h, hl, rfl⟩⟩

/-- A source text is compiled exactly if it can be analyzed. Otherwise the fault is the one that the
analysis finds; the emission of code never fails. -/
theorem compile_eq_analyze (source : String) :
    ((compile source).isOk = true ↔ (analyze source).isOk = true) ∧
    (match analyze source with
      | .ok p => ∃ lines, p.emit = .ok lines ∧ compile source = .ok (render lines)
      | .error e => compile source = .error e) ∧
    ∀ f, compile source ≠ .error (.emission f) := by
  have hy := yields_analyze source
  cases ha : analyze source with
  | ok p =>
    obtain ⟨lines, hl⟩ := (hy.of_ok ha).emits
    have hc : compile source = .ok (render lines) := compile_eq_ok.mpr ⟨p, lines, ha, hl, rfl⟩
    refine ⟨?_, ⟨lines, hl, hc⟩, fun f => ?_⟩
    · rw [hc]
      exact Iff.rfl
    · rw [hc]
      nofun
  | error e =>
    have hc := compile_of_analyze_error ha
    refine ⟨?_, hc, fun f => ?_⟩
    · rw [hc]
      exact Iff.rfl
    · rw [hc]
      exact fun h => hy.of_error ha f (Except.error.inj h)

end StackC
