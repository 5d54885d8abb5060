import StackC.Proofs.Emission.Depth

/-!
The operand stack of compiled programs. In every function of an output the number of slots in use
before a line does not depend on the way the line was reached, and calls are made with the stack
pointer at a multiple of sixteen.
-/

namespace StackC

open Assembly

namespace Emission

def depthAt (zs : List (Line × Nat)) (e i : Nat) : Nat := (zs[i]?.map Prod.snd).getD e

namespace Flow

variable {S : Label → Nat → Prop} {d e : Nat} {zs : List (Line × Nat)}

theorem depthAt_zero (h : Flow S d zs e) : depthAt zs e 0 = d := by
  cases h <;> rfl

theorem depthAt_length (zs : List (Line × Nat)) (e : Nat) : depthAt zs e zs.length = e := by
  simp [depthAt]

theorem depthAt_of_get {i k : Nat} {x : Line} (hi : zs[i]? = some (x, k)) : depthAt zs e i = k := by
  simp [depthAt, hi]

/-- What holds at one line of a flow. -/
theorem at_line (h : Flow S d zs e) {i k : Nat} {x : Line} (hi : zs[i]? = some (x, k)) :
    (∃ s, slotShift? x = some s ∧ (isJump x = false → (depthAt zs e (i + 1) : Int) = k + s)) ∧
      (∀ t, target? x = some t → S t k) ∧ (isCall x = true → k % 2 = 0) := by
  induction h generalizing i with
  | nil => exact nomatch hi
  | @line y d f g zs s hk he hs hc h ih =>
    cases i with
    | zero =>
      cases hi
      refine ⟨⟨s, hk, fun _ => ?_⟩, hs, hc⟩
      have hz : depthAt ((x, k) :: zs) g 1 = depthAt zs g 0 := rfl
      rw [hz, h.depthAt_zero, he]
    | succ i => exact ih hi
  | @leave t d f g zs hs h ih =>
    cases i with
    | zero =>
      cases hi
      exact ⟨⟨0, rfl, nofun⟩, fun u hu => by cases hu; exact hs, nofun⟩
    | succ i => exact ih hi

end Flow

/-- The depths of the operand stack in a block, by the indices of its lines: the slots in use before
each line are the same on every way through the block. -/
structure Block.Disciplined (b : Block) (depth : Nat → Nat) : Prop where
  start : depth 0 = 0
  finish : depth b.body.length = 0
  moves : ∀ i x, b.body[i]? = some x → ∃ k, slotShift? x = some k ∧
    (isJump x = false → (depth (i + 1) : Int) = depth i + k)
  jumps : ∀ i x t, b.body[i]? = some x → target? x = some t → t ≠ .functionEnd b.name →
    .label t ∈ b.body ∧ ∀ j, b.body[j]? = some (.label t) → depth j = depth i
  calls : ∀ i name count, b.body[i]? = some (.instr (.call name count)) → depth i % 2 = 0

/-- Storing the arguments uses no slot. -/
theorem paced_spills {c : Context} {index : Nat} {ids : List VarId} {ls : List Line} {d : Nat}
    (h : Spills c index ids ls) : Paced c d ls d := by
  induction h with
  | nil => exact .nil
  | cons hv hw hr hk hs ih => exact .still rfl rfl rfl ih

/-- The lines of a body begin and end with no slot in use. -/
theorem emitsBody_paced {p : Program} {f : Function} {body : Node} {n n' : Nat} {ls : List Line}
    (h : EmitsBody p f body n ls n') : Paced (.ofFunction p f) 0 ls 0 := by
  obtain ⟨hs, hb⟩ := h
  exact (paced_spills hs).append ((emits_paced hb).append (.still rfl rfl rfl .nil))

/-- Every block of an output has one depth before each of its lines. -/
theorem Block.Of.disciplined {p : Program} {f : Function} {b : Block} (h : Block.Of p f b) :
    ∃ depth, b.Disciplined depth := by
  obtain ⟨hf, hb⟩ := h
  obtain ⟨zs, rfl, hz⟩ := emitsBody_paced hb
  have hget {i : Nat} {x : Line} (hi : (zs.map Prod.fst)[i]? = some x) :
      zs[i]? = some (x, depthAt zs 0 i) := by
    rw [List.getElem?_map, Option.map_eq_some_iff] at hi
    obtain ⟨⟨y, k⟩, hy, rfl⟩ := hi
    rw [hy, Flow.depthAt_of_get hy]
  refine ⟨depthAt zs 0, hz.depthAt_zero, ?_, ?_, ?_, ?_⟩
  · simpa using Flow.depthAt_length zs 0
  · intro i x hi
    exact (hz.at_line (hget hi)).1
  · intro i x t hi ht hne
    -- There is no loop around a whole function, so the target is a label of its own.
    rcases (hz.at_line (hget hi)).2.1 t ht with he | hm | ⟨u, hu, -⟩
    · exact absurd he hne
    · refine ⟨List.mem_map_of_mem hm, fun j hj => ?_⟩
      obtain ⟨m, hm⟩ := List.getElem?_of_mem hm
      have hl : (zs.map Prod.fst)[m]? = some (.label t) := by simp [hm]
      obtain rfl := index_unique ((emitsBody_fresh hb).defines_le_one t) hj hl
      exact Flow.depthAt_of_get hm
    · exact nomatch hu
  · intro i name count hi
    exact (hz.at_line (hget hi)).2.2 rfl

theorem Block.Of.frameSize_mod {p : Program} {f : Function} {b : Block} (h : Block.Of p f b) :
    b.frameSize % 16 = 0 := by
  cases h
  exact Nat.mul_mod_left _ 16

/-- The stack pointer before the line with index `i` of a block that was entered with `entry`: the
base pointer of the caller, the frame and the operand slots lie between the two. -/
def Block.stackPointer (b : Block) (depth : Nat → Nat) (entry : Int) (i : Nat) : Int :=
  entry - 8 - b.frameSize - 8 * depth i

/-- With an even number of slots in use, the stack pointer is a multiple of sixteen. -/
theorem Block.aligned {b : Block} {depth : Nat → Nat} (hs : b.frameSize % 16 = 0) {i : Nat}
    (hd : depth i % 2 = 0) {entry : Int} (he : entry % 16 = 8) :
    b.stackPointer depth entry i % 16 = 0 := by
  unfold stackPointer
  omega

end Emission

open Emission

/-- The lines that a program is compiled to are a section of data followed by one block for each
function with a body, and every block keeps to its stack. -/
theorem compile_disciplined {source text : String} (h : compile source = .ok text) :
    ∃ (p : Program) (blocks : List Block), analyze source = .ok p ∧
      p.emit = .ok (dataSection p ++ blocks.flatMap Block.lines ++ [.directive .plainStack]) ∧
      text = render (dataSection p ++ blocks.flatMap Block.lines ++ [.directive .plainStack]) ∧
      blocks.map Block.name = (p.functions.filter (·.body.isSome)).map (·.name) ∧
      ∀ b ∈ blocks, b.frameSize % 16 = 0 ∧ ∃ depth, b.Disciplined depth ∧
        ∀ i name count, b.body[i]? = some (.instr (.call name count)) →
        ∀ entry : Int, entry % 16 = 8 →
          b.stackPointer depth entry i % 16 = 0 := by
  obtain ⟨p, lines, hp, hl, rfl⟩ := compile_eq_ok.mp h
  obtain ⟨ls, n, hs, rfl⟩ := emit_eq_ok.mp hl
  obtain ⟨blocks, rfl, hb⟩ := emitsAll_blocks hs
  refine ⟨p, blocks, hp, hl, rfl, Block.names_eq hb, fun b hmem => ?_⟩
  obtain ⟨f, -, hof⟩ := Lists.exists_left_of_forall₂ hb hmem
  obtain ⟨depth, hd⟩ := hof.disciplined
  exact ⟨hof.frameSize_mod, depth, hd, fun i name count hi entry he =>
    Block.aligned hof.frameSize_mod (hd.calls i name count hi) he⟩

/-- A loop that is left from inside of an operand, and a call with an odd number of slots in use. -/
def loopSource : String :=
  "int f(int a) \x7b while (1) 1 + (\x7b if (a) break; f(a); \x7d); return a; \x7d"

/-- The slots of the operand are dropped by the jump, and one slot is set aside around the call. -/
theorem compile_disciplined_break_and_call :
    ∃ (text : String) (p : Program) (blocks : List Block), compile loopSource = .ok text ∧
      analyze loopSource = .ok p ∧
      p.emit = .ok (dataSection p ++ blocks.flatMap Block.lines ++ [.directive .plainStack]) ∧
      text = render (dataSection p ++ blocks.flatMap Block.lines ++ [.directive .plainStack]) ∧
      blocks.map Block.name = (p.functions.filter (·.body.isSome)).map (·.name) ∧
      ∀ b ∈ blocks, b.frameSize % 16 = 0 ∧ ∃ depth, b.Disciplined depth ∧
        ∀ i name count, b.body[i]? = some (.instr (.call name count)) →
        ∀ entry : Int, entry % 16 = 8 →
          b.stackPointer depth entry i % 16 = 0 := by
  have hok : (compile loopSource).isOk = true := by decide +kernel
  obtain ⟨text, hc⟩ := exists_text hok
  obtain ⟨p, blocks, hp, hl, ht, hn, hb⟩ := compile_disciplined hc
  exact ⟨text, p, blocks, hc, hp, hl, ht, hn, hb⟩

end StackC
