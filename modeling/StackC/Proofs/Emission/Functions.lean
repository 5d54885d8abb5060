import StackC.Compile
import StackC.Proofs.Diagnostic
import StackC.Proofs.Emission.Success
import StackC.Proofs.Lists

namespace StackC

namespace Emission

open Assembly

def Context.ofFunction (p : Program) (f : Function) : Context :=
  { vars := p.vars, frame := .ofLocals p.vars f.locals, name := f.name }

inductive Spills (c : Context) : Nat → List VarId → List Line → Prop where
  | nil {index} : Spills c index [] []
  | cons {index id ids ls v w r k} (hv : c.vars[id]? = some v)
      (hw : Width.ofBytes? v.type.size = some w) (hr : argumentRegs[index]? = some r)
      (hk : c.frame.offset? id = some k) (hs : Spills c (index + 1) ids ls) :
      Spills c index (id :: ids) (.instr (.storeFrame w r k) :: ls)

def headLines (name : String) (size : Nat) : List Line :=
  [.directive .textSection, .directive (.globl name), .label (.symbol name),
    .instr (.push .rbp), .instr (.mov .rsp .rbp), .instr (.subImm size .rsp)]

def tailLines (name : String) : List Line :=
  [.label (.functionEnd name), .instr (.mov .rbp .rsp), .instr (.pop .rbp), .instr .ret]

/-- The lines between the opening of the frame and the end of a function: the arguments are stored,
the body runs, and where it ends without a return the result is zero. -/
inductive EmitsBody (p : Program) (f : Function) (body : Node) (n : Nat) :
    List Line → Nat → Prop where
  | intro {s b n'} (hs : Spills (.ofFunction p f) 0 f.params s)
      (hb : Emits (.ofFunction p f) (.statement body) 0 n b n') :
      EmitsBody p f body n (s ++ (b ++ [.instr (.movImm 0 .quad .rax)])) n'

inductive EmitsAll (p : Program) : List Function → Nat → List Line → Nat → Prop where
  | nil {n} : EmitsAll p [] n [] n
  | announced {f fs n ls n'} (hf : f.body = none) (hs : EmitsAll p fs n ls n') :
      EmitsAll p (f :: fs) n ls n'
  | defined {f fs body b ls n n₁ n₂} (hf : f.body = some body) (hb : EmitsBody p f body n b n₁)
      (hs : EmitsAll p fs n₁ ls n₂) :
      EmitsAll p (f :: fs) n
        (headLines f.name (Frame.ofLocals p.vars f.locals).size ++
          (b ++ (tailLines f.name ++ ls))) n₂

/-- An argument is stored in the slot of its parameter, as wide as the parameter is. -/
theorem spill_ok {c : Context} {index : Nat} {id : VarId} {k k' : Counters} {code : Code}
    (h : spill c index id k = .ok (code, k')) :
    ∃ v w r o, c.vars[id]? = some v ∧ Width.ofBytes? v.type.size = some w ∧
      argumentRegs[index]? = some r ∧ c.frame.offset? id = some o ∧
      code.lines = [.instr (.storeFrame w r o)] ∧ k' = k := by
  simp only [spill, bind_eq_ok, var] at h
  obtain ⟨v, k₁, hv, h⟩ := h
  cases hc : c.vars[id]? with
  | none => simp [hc, throw_ne_ok] at hv
  | some u =>
    simp only [hc, pure_eq_ok] at hv
    obtain ⟨rfl, rfl⟩ := hv
    cases hw : Width.ofBytes? v.type.size with
    | none => simp [hw, throw_ne_ok] at h
    | some w =>
      cases hr : argumentRegs[index]? with
      | none => simp [hw, hr, throw_ne_ok] at h
      | some r =>
        simp only [hw, hr, bind_eq_ok, slot] at h
        obtain ⟨o, k₂, ho, h⟩ := h
        cases hf : c.frame.offset? id with
        | none => simp [hf, throw_ne_ok] at ho
        | some m =>
          simp only [hf, pure_eq_ok] at ho
          obtain ⟨rfl, rfl⟩ := ho
          obtain ⟨rfl, rfl⟩ := pure_eq_ok.mp h
          exact ⟨v, w, r, o, rfl, hw, rfl, rfl, rfl, rfl⟩

/-- Storing arguments gives these lines and changes no counter. -/
theorem spillAll_ok {c : Context} {ids : List VarId} {index : Nat} {k k' : Counters} {code : Code}
    (h : spillAll c index ids k = .ok (code, k')) : Spills c index ids code.lines ∧ k' = k := by
  induction ids generalizing index k code k' with
  | nil =>
    cases h
    exact ⟨.nil, rfl⟩
  | cons id ids ih =>
    simp only [spillAll, bind_eq_ok] at h
    obtain ⟨a, k₁, ha, b, k₂, hb, h⟩ := h
    obtain ⟨v, w, r, o, hv, hw, hr, ho, hla, rfl⟩ := spill_ok ha
    obtain ⟨hs, rfl⟩ := ih hb
    obtain ⟨rfl, rfl⟩ := pure_eq_ok.mp h
    exact ⟨by simpa [hla] using Spills.cons hv hw hr ho hs, rfl⟩

/-- Where the lines exist, storing the arguments gives them. -/
theorem spills_gives {c : Context} {index : Nat} {ids : List VarId} {ls : List Line}
    (h : Spills c index ids ls) (k : Counters) : Gives (spillAll c index ids) k ls k := by
  induction h with
  | nil => exact ⟨.empty, rfl, rfl⟩
  | @cons index id ids ls v w r o hv hw hr hk hs ih =>
    obtain ⟨b, hb, hlb⟩ := ih
    have ha : spill c index id k = .ok (instr (.storeFrame w r o), k) := by
      simp only [spill, var, hv, pure_bind, hw, hr, slot, hk]
      rfl
    exact ⟨_, (bind_ok ha).trans ((bind_ok hb).trans rfl), by simp [hlb]⟩

/-- The code of a function is its head, its body and its tail. -/
theorem functionCode_ok {p : Program} {f : Function} {body : Node} {k k' : Counters} {code : Code}
    (h : functionCode p f body k = .ok (code, k')) :
    ∃ b, EmitsBody p f body k.labels b k'.labels ∧
      code.lines = headLines f.name (Frame.ofLocals p.vars f.locals).size ++
        (b ++ tailLines f.name) := by
  simp only [functionCode, bind_eq_ok] at h
  obtain ⟨_, k₁, hm, s, k₂, hs, b, k₃, hb, h⟩ := h
  cases hm
  obtain ⟨hsp, rfl⟩ := spillAll_ok hs
  obtain ⟨hbody, -⟩ := statement_emits hb
  obtain ⟨rfl, rfl⟩ := pure_eq_ok.mp h
  refine ⟨_, .intro hsp hbody, ?_⟩
  simp [prologue, epilogue, headLines, tailLines]

/-- Where a body has lines, its function has code. -/
theorem emitsBody_gives {p : Program} {f : Function} {body : Node} {n n' : Nat} {b : List Line}
    (h : EmitsBody p f body n b n') (d : Nat) :
    Gives (functionCode p f body) ⟨d, n⟩
      (headLines f.name (Frame.ofLocals p.vars f.locals).size ++ (b ++ tailLines f.name))
      ⟨0, n'⟩ := by
  cases h with
  | intro hs hb =>
    obtain ⟨s, hs, hls⟩ := spills_gives hs ⟨0, n⟩
    obtain ⟨b, hb, hlb⟩ := emits_gives hb
    refine ⟨_, (bind_ok rfl).trans ((bind_ok hs).trans ((bind_ok hb).trans rfl)), ?_⟩
    simp [prologue, epilogue, headLines, tailLines, hls, hlb]

/-- The code of functions is that of each of them in order. -/
theorem functionsCode_ok {p : Program} {fs : List Function} {k k' : Counters} {code : Code}
    (h : functionsCode p fs k = .ok (code, k')) : EmitsAll p fs k.labels code.lines k'.labels := by
  induction fs generalizing k code k' with
  | nil =>
    cases h
    exact .nil
  | cons f fs ih =>
    cases hf : f.body with
    | none =>
      simp only [functionsCode, hf] at h
      exact .announced hf (ih h)
    | some body =>
      simp only [functionsCode, hf, bind_eq_ok] at h
      obtain ⟨a, k₁, ha, b, k₂, hb, h⟩ := h
      obtain ⟨ls, hbody, hla⟩ := functionCode_ok ha
      obtain ⟨rfl, rfl⟩ := pure_eq_ok.mp h
      simpa [hla] using EmitsAll.defined hf hbody (ih hb)

theorem emitsAll_gives {p : Program} {fs : List Function} {n n' : Nat} {ls : List Line}
    (h : EmitsAll p fs n ls n') (d : Nat) :
    ∃ d', Gives (functionsCode p fs) ⟨d, n⟩ ls ⟨d', n'⟩ := by
  induction h generalizing d with
  | nil => exact ⟨d, .empty, rfl, rfl⟩
  | announced hf hs ih =>
    simp only [functionsCode, hf]
    exact ih d
  | defined hf hb hs ih =>
    obtain ⟨a, ha, hla⟩ := emitsBody_gives hb d
    obtain ⟨d', b, hb, hlb⟩ := ih 0
    simp only [functionsCode, hf]
    exact ⟨d', _, (bind_ok ha).trans ((bind_ok hb).trans rfl), by simp [hla, hlb]⟩

/-- The text of one function, by its name, the size of its frame, and the lines between the opening
of the frame and the end of the function. -/
structure Block where
  name : String
  frameSize : Nat
  body : List Line

def Block.lines (b : Block) : List Line :=
  headLines b.name b.frameSize ++ (b.body ++ tailLines b.name)

/-- A line of a block that is not one of its head or tail is one of its body. -/
theorem Block.mem_body {b : Block} {x : Line} (h : x ∈ b.lines)
    (hx : x ∉ headLines b.name b.frameSize ++ tailLines b.name) : x ∈ b.body := by
  rw [List.mem_append, not_or] at hx
  rcases List.mem_append.mp h with h | h
  · exact absurd h hx.1
  · exact (List.mem_append.mp h).resolve_right hx.2

inductive Block.Of (p : Program) (f : Function) : Block → Prop where
  | intro {body n ls n'} (hf : f.body = some body) (h : EmitsBody p f body n ls n') :
      Of p f ⟨f.name, (Frame.ofLocals p.vars f.locals).size, ls⟩

/-- The text of a program consists of one block for each function with a body, in order. -/
theorem emitsAll_blocks {p : Program} {fs : List Function} {n n' : Nat} {ls : List Line}
    (h : EmitsAll p fs n ls n') : ∃ blocks : List Block, ls = blocks.flatMap Block.lines ∧
      List.Forall₂ (Block.Of p) (fs.filter (·.body.isSome)) blocks := by
  induction h with
  | nil => exact ⟨[], rfl, .nil⟩
  | announced hf hs ih =>
    obtain ⟨blocks, rfl, hb⟩ := ih
    exact ⟨blocks, rfl, by simpa [hf] using hb⟩
  | @defined f fs body b ls n n₁ n₂ hf hb hs ih =>
    obtain ⟨blocks, rfl, hbs⟩ := ih
    refine ⟨⟨f.name, (Frame.ofLocals p.vars f.locals).size, b⟩ :: blocks, ?_, ?_⟩
    · simp [Block.lines]
    · rw [List.filter_cons_of_pos (by simp [hf])]
      exact .cons (.intro hf hb) hbs

theorem Block.names_eq {p : Program} {fs : List Function} {blocks : List Block}
    (h : List.Forall₂ (Block.Of p) fs blocks) : blocks.map Block.name = fs.map (·.name) := by
  induction h with
  | nil => rfl
  | cons ho h ih =>
    cases ho
    rw [List.map_cons, List.map_cons, ih]

end Emission

def Program.data (p : Program) : List Var := p.globals.filterMap p.var?

theorem Program.mem_data {p : Program} {x : Var} :
    x ∈ p.data ↔ ∃ id ∈ p.globals, p.vars[id]? = some x :=
  List.mem_filterMap

namespace Emission

open Assembly

/-- The kinds of lines that data are made of. -/
theorem mem_globalData {vs : List Var} {x : Line} (h : x ∈ vs.flatMap globalData) :
    (∃ v ∈ vs, x = .directive (.globl v.name) ∨ x = .label (.symbol v.name)) ∨
    (∃ b, x = .directive (.byte b)) ∨ ∃ n, x = .directive (.zero n) := by
  obtain ⟨v, hv, h⟩ := List.mem_flatMap.mp h
  simp only [globalData, List.mem_append, List.mem_singleton] at h
  rcases h with (h | rfl) | h
  · split at h
    · exact absurd h List.not_mem_nil
    · exact Or.inl ⟨v, hv, Or.inl (List.mem_singleton.mp h)⟩
  · exact Or.inl ⟨v, hv, Or.inr rfl⟩
  · split at h
    · obtain ⟨b, -, rfl⟩ := List.mem_map.mp h
      exact Or.inr (Or.inl ⟨b, rfl⟩)
    · exact Or.inr (Or.inr ⟨_, List.mem_singleton.mp h⟩)

/-- The lines that can stand among the data. -/
theorem mem_dataSection {p : Program} {x : Line} (h : x ∈ dataSection p) :
    x = .directive .dataSection ∨
    (∃ v ∈ p.data, x = .directive (.globl v.name) ∨ x = .label (.symbol v.name)) ∨
    (∃ b, x = .directive (.byte b)) ∨ ∃ n, x = .directive (.zero n) :=
  (List.mem_cons.mp h).imp_right mem_globalData

theorem instr_not_mem_dataSection (p : Program) (i : Instr) : .instr i ∉ dataSection p := by
  intro h
  rcases mem_dataSection h with h | ⟨v, -, h | h⟩ | ⟨b, h⟩ | ⟨n, h⟩
  all_goals cases h

end Emission

open Emission Assembly

/-- A program has an output exactly if its functions have lines. -/
theorem emit_eq_ok {p : Program} {lines : List Line} :
    p.emit = .ok lines ↔ ∃ ls n, EmitsAll p p.functions 0 ls n ∧
      lines = dataSection p ++ ls ++ [.directive .plainStack] := by
  unfold Program.emit
  cases h : (functionsCode p p.functions).run {} with
  | error e =>
    constructor
    · nofun
    · rintro ⟨ls, n, hs, -⟩
      obtain ⟨d', code, hc, -⟩ := emitsAll_gives hs 0
      exact nomatch h.symm.trans hc
  | ok r =>
    obtain ⟨code, k⟩ := r
    constructor
    · intro hl
      cases hl
      exact ⟨code.lines, k.labels, functionsCode_ok h, rfl⟩
    · rintro ⟨ls, n, hs, rfl⟩
      obtain ⟨d', code', hc, rfl⟩ := emitsAll_gives hs 0
      cases h.symm.trans hc
      rfl

/-- A source text has an output exactly if it can be analyzed and emitted, and then this is the
text of its lines. -/
theorem compile_eq_ok {source text : String} :
    compile source = .ok text ↔
      ∃ p lines, analyze source = .ok p ∧ p.emit = .ok lines ∧ text = render lines := by
  unfold compile
  cases ha : analyze source with
  | error e => exact ⟨nofun, nofun⟩
  | ok p =>
    cases he : p.emit with
    | error e =>
      constructor
      · intro h
        simp only [bind, Except.bind, Program.assembly, he] at h
        exact nomatch h
      · rintro ⟨q, lines, hq, hl, -⟩
        cases hq
        exact nomatch he.symm.trans hl
    | ok lines =>
      simp only [bind, Except.bind, Program.assembly, he]
      constructor
      · intro h
        cases h
        exact ⟨p, lines, rfl, he, rfl⟩
      · rintro ⟨q, ls, hq, hl, rfl⟩
        cases hq
        cases he.symm.trans hl
        rfl

theorem exists_text {source : String} (h : (compile source).isOk = true) :
    ∃ text, compile source = .ok text := by
  cases hc : compile source with
  | ok text => exact ⟨text, rfl⟩
  | error e =>
    rw [hc] at h
    cases h

namespace Program

def lastBody? (p : Program) : Option (Function × Node) :=
  p.functions.getLast?.bind fun f => f.body.map (f, ·)

/-- The last function and its body, and what the test tells of them. -/
theorem exists_of_lastBody? {p : Program} {test : Function × Node → Bool}
    (h : p.lastBody?.any test = true) :
    ∃ f body, f ∈ p.functions ∧ f.body = some body ∧ test (f, body) = true := by
  obtain ⟨⟨f, body⟩, hlast, htest⟩ := (Option.any_eq_true _ _).mp h
  obtain ⟨f', hf, hbody⟩ := Option.bind_eq_some_iff.mp hlast
  obtain ⟨body', hb, hpair⟩ := Option.map_eq_some_iff.mp hbody
  cases hpair
  exact ⟨f, body, List.mem_of_getLast? hf, hb, htest⟩

/-- Whether the last function only returns an expression, and the tree that is made of it has code
with which the test is content. -/
def returnsCoded (p : Program) (tree : Function → Node → Except Diagnostic Node)
    (test : Function → Node → Node → Code → Bool) : Bool :=
  p.lastBody?.any fun (f, body) =>
    match body with
    | .block _ [.ret _ (some e)] => (tree f e).toOption.any fun y =>
      (Emission.value (.ofFunction p f) y ⟨0, 0⟩).toOption.any fun r => test f e y r.1
    | _ => false

/-- The function, the expression that it returns, and the code of the tree made of it. -/
theorem exists_of_returnsCoded {p : Program} {tree : Function → Node → Except Diagnostic Node}
    {test : Function → Node → Node → Code → Bool} (h : p.returnsCoded tree test = true) :
    ∃ (f : Function) (i j : Info) (e y : Node) (code : Code) (k : Emission.Counters),
      f ∈ p.functions ∧ f.body = some (.block i [.ret j (some e)]) ∧ tree f e = .ok y ∧
      Emission.value (.ofFunction p f) y ⟨0, 0⟩ = .ok (code, k) ∧ test f e y code = true := by
  obtain ⟨f, body, hf, hb, h⟩ := exists_of_lastBody? h
  dsimp only at h
  split at h
  · next i j e =>
    obtain ⟨y, hy, h⟩ := exists_of_any h
    obtain ⟨⟨code, k⟩, hcode, htest⟩ := exists_of_any h
    exact ⟨f, i, j, e, y, code, k, hf, hb, hy, hcode, htest⟩
  · cases h

end Program

end StackC
