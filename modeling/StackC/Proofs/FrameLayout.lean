import Mathlib.Algebra.Order.BigOperators.Group.List
import Mathlib.Algebra.Ring.Nat
import Mathlib.Order.Interval.Finset.Nat
import StackC.Proofs.Acceptance
import StackC.Proofs.Emission.Operands
import StackC.Proofs.Program.Frame

namespace StackC

open Assembly

/-- Rounding up to the alignment of frames gives the least multiple that is large enough. -/
theorem isLeast_roundUp (n : Nat) : IsLeast {m | Frame.frameAlign ∣ m ∧ n ≤ m}
    (roundUp n Frame.frameAlign) := by
  constructor
  · have hdvd : Frame.frameAlign ∣ roundUp n Frame.frameAlign := Dvd.intro_left _ rfl
    exact ⟨hdvd, le_roundUp n⟩
  · intro m hm
    obtain ⟨⟨q, rfl⟩, hle⟩ := hm
    unfold roundUp Frame.frameAlign
    unfold Frame.frameAlign at hle
    omega

namespace Frame

variable {vars : Array Var} {ids : List VarId} {id id' : VarId} {k k' : Nat}

/-- The bytes of a local, counted from the base of the frame downwards: its last byte is the one
right before its offset. -/
def extent (vars : Array Var) (f : Frame) (id : VarId) : Finset Nat :=
  match f.offset? id with
  | some k => Finset.Ico (k - varSize vars id) k
  | none => ∅

theorem extent_of_offset? {f : Frame} (h : f.offset? id = some k) :
    f.extent vars id = Finset.Ico (k - varSize vars id) k := by
  rw [extent, h]

theorem total_eq_sum (vars : Array Var) (ids : List VarId) :
    total vars ids = (ids.map (varSize vars)).sum := by
  induction ids with
  | nil => rfl
  | cons id ids ih =>
    rw [List.map_cons, List.sum_cons, ← ih]
    rfl

/-- A place that is listed is the one that is found, unless a variable is listed twice. -/
theorem offset?_of_mem (hn : ids.Nodup) (h : (id, k) ∈ place vars 0 ids) :
    (ofLocals vars ids).offset? id = some k := by
  have hid : id ∈ ids := by
    rw [← map_fst_place vars 0 ids]
    exact List.mem_map_of_mem h
  obtain ⟨k', hk'⟩ := offset?_isSome vars hid
  have hmem := mem_of_offset? hk'
  have hinj : ((id, k) : VarId × Nat) = (id, k') := by
    apply List.inj_on_of_nodup_map (f := Prod.fst) _ h hmem rfl
    rw [map_fst_place]
    exact hn
  rw [hk', (Prod.mk.inj hinj).2]

/-- Every byte below the total belongs to one of the places. -/
theorem exists_place {start byte : Nat} (hlow : start ≤ byte)
    (hhigh : byte < start + total vars ids) :
    ∃ id k, (id, k) ∈ place vars start ids ∧ k - varSize vars id ≤ byte ∧ byte < k := by
  induction ids generalizing start with
  | nil => exact absurd hhigh (Nat.not_lt.mpr hlow)
  | cons x ids ih =>
    have htotal : total vars (x :: ids) = varSize vars x + total vars ids := rfl
    by_cases hx : byte < start + varSize vars x
    · refine ⟨x, start + varSize vars x, List.mem_cons_self, ?_, hx⟩
      omega
    · have hnext : start + varSize vars x ≤ byte := Nat.le_of_not_lt hx
      obtain ⟨id, k, hmem, hk⟩ := ih hnext (by omega)
      exact ⟨id, k, List.mem_cons_of_mem _ hmem, hk⟩

/-- No byte of a frame belongs to two locals. -/
theorem disjoint_extent (h : id ∈ ids) (h' : id' ∈ ids) (hne : id ≠ id') :
    Disjoint ((ofLocals vars ids).extent vars id) ((ofLocals vars ids).extent vars id') := by
  obtain ⟨k, hk⟩ := offset?_isSome vars h
  obtain ⟨k', hk'⟩ := offset?_isSome vars h'
  rw [extent_of_offset? hk, extent_of_offset? hk', Finset.disjoint_left]
  intro byte hbyte hbyte'
  rw [Finset.mem_Ico] at hbyte hbyte'
  have hsize := varSize_le_offset? hk
  have hsize' := varSize_le_offset? hk'
  rcases offset?_apart hk hk' hne with hbefore | hbefore
  · omega
  · omega

/-- Together the locals take the bytes up to the total of their sizes. -/
theorem biUnion_extent (hn : ids.Nodup) :
    ids.toFinset.biUnion ((ofLocals vars ids).extent vars) = Finset.range (total vars ids) := by
  ext byte
  rw [Finset.mem_biUnion, Finset.mem_range]
  constructor
  · rintro ⟨id, hid, hbyte⟩
    obtain ⟨k, hk⟩ := offset?_isSome vars (List.mem_toFinset.mp hid)
    rw [extent_of_offset? hk, Finset.mem_Ico] at hbyte
    have hend := (mem_place (mem_of_offset? hk)).2
    omega
  · intro hbyte
    have hsum : byte < 0 + total vars ids := by omega
    obtain ⟨id, k, hmem, hk⟩ := exists_place (Nat.zero_le byte) hsum
    have hoffset := offset?_of_mem hn hmem
    have hid : id ∈ ids := by
      rw [← map_fst_place vars 0 ids]
      exact List.mem_map_of_mem hmem
    refine ⟨id, List.mem_toFinset.mpr hid, ?_⟩
    rw [extent_of_offset? hoffset, Finset.mem_Ico]
    exact hk

end Frame

/-- What is promised of the frame of a function: every local has an offset, no byte belongs to two
locals, the locals fill the frame up to the sum of their sizes, and the frame is the least multiple
of sixteen that holds them and not too large. -/
structure Function.Framed (p : Program) (f : Function) (frame : Frame) : Prop where
  offsets : ∀ id ∈ f.locals, ∃ x k, p.vars[id]? = some x ∧ frame.offset? id = some k ∧
    x.type.size ≤ k ∧ frame.extent p.vars id = Finset.Ico (k - x.type.size) k
  apart : f.locals.Pairwise fun a b => Disjoint (frame.extent p.vars a) (frame.extent p.vars b)
  filled : f.locals.toFinset.biUnion (frame.extent p.vars) =
    Finset.range (f.locals.map (Frame.varSize p.vars)).sum
  least : IsLeast {n | 16 ∣ n ∧ (f.locals.map (Frame.varSize p.vars)).sum ≤ n} frame.size
  bounded : frame.size ≤ maxFrameSize

/-- The frame of a function that was read from a source text keeps all its promises. -/
theorem Function.Defined.framed {p : Program} {f : Function} {body : Node} (h : f.Defined p body) :
    f.Framed p (.ofLocals p.vars f.locals) where
  offsets id hid := by
    obtain ⟨x, hx, -⟩ := h.locals id hid
    obtain ⟨k, hk⟩ := Frame.offset?_isSome p.vars hid
    have hsize : Frame.varSize p.vars id = x.type.size := by rw [Frame.varSize, hx]
    refine ⟨x, k, hx, hk, ?_, ?_⟩
    · rw [← hsize]
      exact Frame.varSize_le_offset? hk
    · rw [Frame.extent_of_offset? hk, hsize]
  apart := by
    apply h.nodup.imp_of_mem
    intro a b ha hb hne
    exact Frame.disjoint_extent ha hb hne
  filled := by
    rw [← Frame.total_eq_sum]
    exact Frame.biUnion_extent h.nodup
  least := by
    rw [← Frame.total_eq_sum]
    exact isLeast_roundUp _
  bounded := by
    have hmax : Frame.frameAlign ∣ maxFrameSize := Dvd.intro_left _ rfl
    exact (isLeast_roundUp _).2 ⟨hmax, h.fits⟩

namespace Assembly

def Instr.displacement? : Instr → Option Int
  | leaFrame k _ | storeFrame _ _ k => some (-k)
  | subImm n .rsp => some n
  | _ => none

def FitsField (n : Int) : Prop := -2 ^ 31 ≤ n ∧ n < 2 ^ 31

end Assembly

namespace Emission

variable {p : Program} {f : Function} {b : Block} {i : Instr} {n : Int}

/-- Every offset in a frame of bounded size is a displacement. -/
theorem fitsField_of_le {k : Nat} (h : k ≤ maxFrameSize) : FitsField (-k) ∧ FitsField k := by
  have hmax : maxFrameSize < 2 ^ 31 := by decide
  unfold FitsField
  omega

/-- An instruction that refers to nothing opens a frame of one slot if it opens any. -/
theorem displacement_of_neutral (h : isNeutral (.instr i) = true) (hn : n ∈ i.displacement?) :
    n = 8 := by
  cases i with
  | subImm k r =>
    have hk : k = 8 := by simpa [isNeutral] using h
    subst hk
    cases r with
    | rsp => exact (Option.some.inj hn).symm
    | _ => cases hn
  | leaFrame | storeFrame => cases h
  | _ => cases hn

/-- No displacement in the text of a function is out of reach. -/
theorem Block.Of.fitsField (h : Block.Of p f b) (hf : f.Framed p (.ofLocals p.vars f.locals))
    (hi : .instr i ∈ b.lines) (hn : n ∈ i.displacement?) : FitsField n := by
  obtain ⟨hbody, hlines⟩ := h
  have hslot {id : VarId} {k : Nat} (hk : (Frame.ofLocals p.vars f.locals).offset? id = some k) :
      FitsField (-k) :=
    (fitsField_of_le ((Frame.offset?_le_size hk).trans hf.bounded)).1
  rcases List.mem_append.mp hi with hi | hi
  · -- The frame is opened by its size.
    simp only [headLines, List.mem_cons, reduceCtorEq, Line.instr.injEq, false_or,
      List.not_mem_nil, or_false] at hi
    rcases hi with rfl | rfl | rfl
    · cases hn
    · cases hn
    · cases hn
      exact (fitsField_of_le hf.bounded).2
  · rcases List.mem_append.mp hi with hi | hi
    · have href := emitsBody_refers hlines _ hi
      generalize hx : Line.instr i = x at href
      cases href with
      | neutral hneutral =>
        rw [← hx] at hneutral
        rw [displacement_of_neutral hneutral hn]
        unfold FitsField
        omega
      | located _ hl =>
        obtain rfl := Line.instr.inj hx
        cases hl with
        | onFrame hv hlocal hk =>
          cases hn
          exact hslot hk
        | inData hv hglobal => cases hn
      | argument hk =>
        obtain rfl := Line.instr.inj hx
        cases hn
        exact hslot hk
      | member | call | leave | finish | again =>
        obtain rfl := Line.instr.inj hx
        cases hn
    · simp only [tailLines, List.mem_cons, reduceCtorEq, Line.instr.injEq, false_or,
        List.not_mem_nil, or_false] at hi
      rcases hi with rfl | rfl | rfl
      · cases hn
      · cases hn
      · cases hn

end Emission

open Emission

/-- The frames of an accepted program hold its locals, and no displacement in the lines it is
compiled to is out of reach. -/
theorem analyze_framed {source : String} {p : Program} (h : analyze source = .ok p) :
    (∀ f ∈ p.functions, f.body.isSome = true → f.Framed p (.ofLocals p.vars f.locals)) ∧
    ∃ lines, p.emit = .ok lines ∧ compile source = .ok (render lines) ∧
      ∀ i, .instr i ∈ lines → ∀ n ∈ i.displacement?, FitsField n := by
  have hprogram := (yields_analyze source).of_ok h
  have hframed : ∀ f ∈ p.functions, f.body.isSome = true →
      f.Framed p (.ofLocals p.vars f.locals) := by
    intro f hf hb
    obtain ⟨body, hb⟩ := Option.isSome_iff_exists.mp hb
    exact (hprogram.valid.bodies f hf body hb).framed
  obtain ⟨lines, hl⟩ := hprogram.emits
  refine ⟨hframed, lines, hl, compile_eq_ok.mpr ⟨p, lines, h, hl, rfl⟩, fun i hi n hn => ?_⟩
  obtain ⟨ls, m, hs, rfl⟩ := emit_eq_ok.mp hl
  obtain ⟨blocks, rfl, hb⟩ := emitsAll_blocks hs
  have hmem : .instr i ∈ blocks.flatMap Block.lines := by
    simpa [instr_not_mem_dataSection] using hi
  obtain ⟨b, hblock, hi⟩ := List.mem_flatMap.mp hmem
  obtain ⟨f, hf, hof⟩ := Lists.exists_left_of_forall₂ hb hblock
  obtain ⟨hf, hbody⟩ := List.mem_filter.mp hf
  exact hof.fitsField (hframed f hf hbody) hi hn

/-- Locals in the head of a loop, in a block, and inside of the initializer of an array that takes
its length from there. -/
def crowdedSource : String :=
  "int f(int a) \x7b
    char c[] = \"ab\";
    for (int i = 0; i < 2; i++) \x7b long x[] = \x7bi, (\x7b short t = a; t; \x7d)\x7d; \x7d
    return c[0]; \x7d"

/-- The locals of the loop, of the block and of the initializer have places of their own. -/
theorem analyze_framed_crowded :
    ∃ p, analyze crowdedSource = .ok p ∧
      p.functions.map (fun f => f.locals.map (Frame.varSize p.vars)) = [[4, 3, 4, 16, 2]] ∧
      p.functions.map (fun f => f.locals.map (Frame.ofLocals p.vars f.locals).offset?) =
        [[some 4, some 7, some 11, some 27, some 29]] ∧
      p.functions.map (fun f => (Frame.ofLocals p.vars f.locals).size) = [32] ∧
      (∀ f ∈ p.functions, f.body.isSome = true → f.Framed p (.ofLocals p.vars f.locals)) ∧
      ∃ lines, p.emit = .ok lines ∧ compile crowdedSource = .ok (render lines) ∧
        ∀ i, .instr i ∈ lines → ∀ n ∈ i.displacement?, FitsField n := by
  have hcheck : (analyze crowdedSource).toOption.any (fun p =>
      p.functions.map (fun f => f.locals.map (Frame.varSize p.vars)) = [[4, 3, 4, 16, 2]] ∧
      p.functions.map (fun f => f.locals.map (Frame.ofLocals p.vars f.locals).offset?) =
        [[some 4, some 7, some 11, some 27, some 29]] ∧
      p.functions.map (fun f => (Frame.ofLocals p.vars f.locals).size) = [32]) = true := by
    decide +kernel
  obtain ⟨p, hp, hp'⟩ := exists_of_any hcheck
  obtain ⟨hsizes, hoffsets, hframes⟩ := of_decide_eq_true hp'
  exact ⟨p, hp, hsizes, hoffsets, hframes, analyze_framed hp⟩

end StackC
