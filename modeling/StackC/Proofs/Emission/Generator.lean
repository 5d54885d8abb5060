import Mathlib.Logic.Relation
import StackC.Proofs.Emission.Success

/-!
The emission in single steps. A generator has a list of actions ahead of it. It carries out the
first, or replaces a task by the actions it consists of; the loops around the place it has come to
are part of its state. What it has done when nothing is left to do is what the emission yields, so
what holds along all its steps holds while code is emitted, also where that fails in the end.
-/

namespace StackC

namespace Emission

open Assembly

structure Generator where
  context : Context
  counters : Counters
  output : List Line

inductive Action where
  /-- Emits a task. -/
  | emit (t : Task)
  | push (r : Reg)
  | pop (r : Reg)
  /-- Puts out lines that do not count for the stack. -/
  | put (ls : List Line)
  /-- Gives out a label. -/
  | number
  | call (name : String) (count : Nat)
  | jumpOut (target : Label) (depth : Nat)
  /-- Emits the body of the loop with a number. -/
  | loopBody (n : Nat) (body : Node)
  | leaveLoop
  /-- Checks that as many slots are in use as were before a statement. -/
  | check (p : Location) (before : Nat)
  | fail (e : EmissionFault)

namespace Generator

def depth (g : Generator) : Nat := g.counters.depth

def labels (g : Generator) : Nat := g.counters.labels

def behind (g : Generator) (r : Code × Counters) : Generator :=
  { g with counters := r.2, output := g.output ++ r.1.lines }

def put (g : Generator) (ls : List Line) : Generator := { g with output := g.output ++ ls }

def count (g : Generator) (k : Counters) : Generator := { g with counters := k }

def enterLoop (g : Generator) (n : Nat) : Generator :=
  { g with context := g.context.inLoop n g.depth }

def leaveLoop (g : Generator) : Generator :=
  { g with context := { g.context with loops := g.context.loops.tail } }

end Generator

def locateActions (c : Context) (id : VarId) : List Action :=
  match c.vars[id]? with
  | none => [.fail (.unknownVariable id)]
  | some v =>
    if v.isLocal then
      match c.frame.offset? id with
      | none => [.fail (.noSlot v.name)]
      | some o => [.put [.instr (.leaFrame o .rax)], .push .rax]
    else [.put [.instr (.leaSymbol v.name .rax)], .push .rax]

def memberActions (m : Member CType) : List Action :=
  [.pop .rax, .put [.instr (.addImm m.offset .rax)], .push .rax]

def typedActions (x : Node) (as : CType → List Action) : List Action :=
  match x.type? with
  | none => [.fail (.untyped x.place)]
  | some t => as t

def loadActions (t : CType) : List Action :=
  if t.isArray || t.isStruct then []
  else
    match Width.ofBytes? t.size with
    | none => [.fail (.unloadable t)]
    | some w => [.pop .rax, .put [.instr (.load w .rax .rax)], .push .rax]

def storeActions (t : CType) : List Action :=
  match Width.ofBytes? t.size with
  | none => [.fail (.unstorable t)]
  | some w => [.pop .rdi, .pop .rax, .put [.instr (.store w .rdi .rax)], .push .rdi]

def testActions (cond : Cond) (target : Label) : List Action :=
  [.pop .rax, .put [.instr (.cmpZero .rax), .instr (.jumpIf cond target)]]

def callActions (name : String) (count : Nat) (t : CType) : List Action :=
  (argumentRegs.take count).reverse.map .pop ++
    [.call name count, .put (extendResult t).lines, .push .rax]

def decideLines (result : Bool) (n : Nat) : List Line :=
  [.instr (truth !result), .instr (.jump (.numbered .finish n)), .label (.numbered .short n),
    .instr (truth result), .label (.numbered .finish n)]

/-- Leaves the value of an expression. The label of the number `n` is the next to be given out. -/
def valueActions (c : Context) (n : Nat) : Node → List Action
  | .num _ v => [.put [.instr (literal v)], .push .rax]
  | .var i id => locateActions c id ++ typedActions (.var i id) loadActions
  | .deref i e => .emit (.value e) :: typedActions (.deref i e) loadActions
  | .member _ _ name none => [.fail (.unresolvedMember name)]
  | .member i b name (some m) =>
    .emit (.address b) ::
      (memberActions m ++ typedActions (.member i b name (some m)) loadActions)
  | .addr _ e => [.emit (.address e)]
  | .assign _ l r => .emit (.address l) :: .emit (.value r) :: typedActions l storeActions
  | .binary _ op l r =>
    if op = .logAnd ∨ op = .logOr then
      .number :: .emit (.value l) :: (testActions (decided op).1 (.numbered .short n) ++
        .emit (.value r) :: (testActions (decided op).1 (.numbered .short n) ++
          [.put (decideLines (decided op).2 n), .push .rax]))
    else
      [.emit (.value l), .emit (.value r), .pop .rdi, .pop .rax, .put (operation op).lines,
        .push .rax]
  | .not _ e =>
    [.emit (.value e), .pop .rax,
      .put [.instr (.cmpZero .rax), .instr (.setFlag .equal .rax), .instr (.extendFlag .rax)],
      .push .rax]
  | .ternary _ e a b =>
    .number :: .emit (.value e) :: (testActions .equal (.numbered .other n) ++
      [.emit (.value a), .pop .rax,
        .put [.instr (.jump (.numbered .finish n)), .label (.numbered .other n)],
        .emit (.value b), .pop .rax, .put [.label (.numbered .finish n)], .push .rax])
  | .call i name args =>
    typedActions (.call i name args) fun t =>
      if argumentRegs.length < args.length then [.fail (.tooManyArguments name args.length)]
      else .emit (.arguments args) :: callActions name args.length t
  | .stmtExpr _ items => [.emit (.statementValue items)]
  | .sizeof i _ => [.fail (.unresolvedSizeof i.place)]
  | .exprStmt i _ | .ret i _ | .block i _ | .ifElse i _ _ _ | .whileLoop i _ _
  | .forLoop i _ _ _ _ | .breakLoop i | .continueLoop i | .empty i =>
    [.fail (.statementAsExpression i.place)]

def addressActions (c : Context) : Node → List Action
  | .var _ id => locateActions c id
  | .deref _ e => [.emit (.value e)]
  | .member _ _ name none => [.fail (.unresolvedMember name)]
  | .member _ b _ (some m) => .emit (.address b) :: memberActions m
  | .num i _ | .binary i _ _ _ | .not i _ | .assign i _ _ | .ternary i _ _ _ | .addr i _
  | .sizeof i _ | .call i _ _ | .stmtExpr i _ | .exprStmt i _ | .ret i _ | .block i _
  | .ifElse i _ _ _ | .whileLoop i _ _ | .forLoop i _ _ _ _ | .breakLoop i | .continueLoop i
  | .empty i => [.fail (.notAnLvalue i.place)]

def jumpActions (c : Context) (target : Targets → Label) (e : EmissionFault) : List Action :=
  match c.loops with
  | [] => [.fail e]
  | t :: _ => [.jumpOut (target t) t.depth]

def bodyActions (c : Context) (n : Nat) : Node → List Action
  | .exprStmt _ e => [.emit (.value e), .pop .rax]
  | .ret _ none => [.put [.instr (.jump (.functionEnd c.name))]]
  | .ret _ (some e) =>
    [.emit (.value e), .pop .rax, .put [.instr (.jump (.functionEnd c.name))]]
  | .block _ items => [.emit (.statements items)]
  | .ifElse _ e a b =>
    .number :: .emit (.value e) :: (testActions .equal (.numbered .other n) ++
      [.emit (.statement a),
        .put [.instr (.jump (.numbered .finish n)), .label (.numbered .other n)],
        .emit (.statement b), .put [.label (.numbered .finish n)]])
  | .whileLoop _ e b =>
    .number :: .put [.label (.numbered .start n)] :: .emit (.value e) ::
      (testActions .equal (.numbered .finish n) ++
        [.loopBody n b,
          .put [.label (.numbered .again n), .instr (.jump (.numbered .start n)),
            .label (.numbered .finish n)]])
  | .forLoop _ init e update b =>
    .number :: .emit (.optional init) :: .put [.label (.numbered .start n)] :: .emit (.value e) ::
      (testActions .equal (.numbered .finish n) ++
        [.loopBody n b, .put [.label (.numbered .again n)], .emit (.optional update),
          .put [.instr (.jump (.numbered .start n)), .label (.numbered .finish n)]])
  | .breakLoop _ => jumpActions c Targets.finish .breakOutsideLoop
  | .continueLoop _ => jumpActions c Targets.again .continueOutsideLoop
  | .empty _ => []
  | .num i _ | .var i _ | .member i _ _ _ | .binary i _ _ _ | .not i _ | .assign i _ _
  | .ternary i _ _ _ | .addr i _ | .deref i _ | .sizeof i _ | .call i _ _ | .stmtExpr i _ =>
    [.fail (.expressionAsStatement i.place)]

def itemsActions : List Node → List Action
  | [] => [.fail .emptyStatementExpression]
  | [x] =>
    match x with
    | .exprStmt _ e => [.emit (.value e)]
    | _ => [.fail .valuelessStatementExpression]
  | x :: xs => [.emit (.statement x), .emit (.statementValue xs)]

def Task.actions (c : Context) (k : Counters) : Task → List Action
  | value x => valueActions c (k.labels + 1) x
  | address x => addressActions c x
  | arguments [] => []
  | arguments (x :: xs) => [.emit (.value x), .emit (.arguments xs)]
  | statementValue xs => itemsActions xs
  | statement x => bodyActions c (k.labels + 1) x ++ [.check x.place k.depth]
  | statements [] => []
  | statements (x :: xs) => [.emit (.statement x), .emit (.statements xs)]
  | optional none => []
  | optional (some x) => [.emit (.statement x)]

namespace Action

/-- Carries an action out. A task and the body of a loop are replaced by further actions. -/
def act (g : Generator) : Action → Except EmissionFault (Generator × List Action)
  | emit t => .ok (g, t.actions g.context g.counters)
  | push r => .ok ((g.count ⟨g.depth + 1, g.labels⟩).put [.instr (.push r)], [])
  | pop r =>
    match g.depth with
    | 0 => .error .stackUnderflow
    | d + 1 => .ok ((g.count ⟨d, g.labels⟩).put [.instr (.pop r)], [])
  | put ls => .ok (g.put ls, [])
  | number => .ok (g.count ⟨g.depth, g.labels + 1⟩, [])
  | call name count => .ok (g.put (callLines name count g.depth), [])
  | jumpOut target depth =>
    if g.depth < depth then .error (.shallowJump target.text)
    else .ok (g.put (dropLines (g.depth - depth) ++ [.instr (.jump target)]), [])
  | loopBody n x => .ok (g.enterLoop n, [.emit (.statement x), .leaveLoop])
  | leaveLoop => .ok (g.leaveLoop, [])
  | check p before =>
    if g.depth ≠ before then .error (.stackImbalance p before g.depth) else .ok (g, [])
  | fail e => .error e

/-- Passes over an action after a fault. A loop that was entered is left all the same. -/
def skip (g : Generator) : Action → Generator
  | leaveLoop => g.leaveLoop
  | _ => g

def run (g : Generator) : Action → Except EmissionFault Generator
  | emit t => (t.emit g.context g.counters).map g.behind
  | loopBody n x => (statement (g.context.inLoop n g.depth) x g.counters).map g.behind
  | a => (a.act g).map Prod.fst

variable {g : Generator}

/-- A slot in use can be taken. -/
theorem act_pop {r : Reg} {d : Nat} (h : g.depth = d + 1) :
    (pop r).act g = .ok ((g.count ⟨d, g.labels⟩).put [.instr (.pop r)], []) := by
  rw [act, h]

/-- A jump to a loop that is not deeper drops the slots in between. -/
theorem act_jumpOut {target : Label} {depth : Nat} (h : depth ≤ g.depth) :
    (jumpOut target depth).act g =
      .ok (g.put (dropLines (g.depth - depth) ++ [.instr (.jump target)]), []) :=
  if_neg (Nat.not_lt.mpr h)

theorem act_jumpOut_of_lt {target : Label} {depth : Nat} (h : g.depth < depth) :
    (jumpOut target depth).act g = .error (.shallowJump target.text) := if_pos h

theorem act_check {p : Location} {before : Nat} (h : g.depth = before) :
    (check p before).act g = .ok (g, []) := if_neg fun hne => hne h

theorem act_check_of_ne {p : Location} {before : Nat} (h : g.depth ≠ before) :
    (check p before).act g = .error (.stackImbalance p before g.depth) := if_pos h

end Action

structure Work where
  generator : Generator
  fault : Option EmissionFault
  pending : List Action

namespace Work

def next : Work → Option Work
  | ⟨_, _, []⟩ => none
  | ⟨g, some e, a :: as⟩ => some ⟨a.skip g, some e, as⟩
  | ⟨g, none, a :: as⟩ =>
    match a.act g with
    | .ok (g', more) => some ⟨g', none, more ++ as⟩
    | .error e => some ⟨g, some e, as⟩

def Leads : Work → Work → Prop := Relation.ReflTransGen fun w w' => w.next = some w'

end Work

def Task.start (t : Task) (g : Generator) : Work := ⟨g, none, [.emit t]⟩

def runAll : List Action → Generator → Except EmissionFault Generator
  | [], g => .ok g
  | a :: as, g => a.run g >>= runAll as

/-- Two lists of actions are run one after the other. -/
theorem runAll_append (as bs : List Action) (g : Generator) :
    runAll (as ++ bs) g = runAll as g >>= runAll bs := by
  induction as generalizing g with
  | nil => rfl
  | cons a as ih =>
    rw [List.cons_append, runAll, runAll]
    cases a.run g with
    | error e => rfl
    | ok g' => exact ih g'

/-- `Performs c k done m as`: with the counters `k`, and behind the lines `done`, the actions do
what the emission `m` does that gives these lines again before the new ones. -/
def Performs (c : Context) (k : Counters) (done : List Line) (m : Emit Code) (as : List Action) :
    Prop :=
  ∀ out, runAll as ⟨c, k, out ++ done⟩ = (m k).map fun r => ⟨c, r.2, out ++ r.1.lines⟩

namespace Performs

variable {c : Context} {k : Counters} {done : List Line} {m x : Emit Code} {f : Code → Emit Code}
  {as bs : List Action}

theorem pure {code : Code} (h : code.lines = done) : Performs c k done (pure code) [] := by
  intro out
  rw [← h]
  rfl

theorem throw {e : EmissionFault} : Performs c k done (throw e) (.fail e :: as) := fun _ => rfl

theorem throw_bind {α : Type} {e : EmissionFault} {f : α → Emit Code} :
    Performs c k done (MonadExcept.throw e >>= f) (.fail e :: as) := fun _ => rfl

/-- What a step gives out stands before what the next step gives out. -/
theorem bind (hx : Performs c k [] x as)
    (hf : ∀ a k', Performs c k' (done ++ a.lines) (f a) bs) :
    Performs c k done (x >>= f) (as ++ bs) := by
  intro out
  -- The first part starts with nothing of its own behind the lines that are there already.
  have hfirst := hx (out ++ done)
  rw [List.append_nil] at hfirst
  rw [runAll_append, hfirst]
  change _ = (x k >>= fun r => f r.1 r.2).map _
  cases x k with
  | error e => rfl
  | ok r =>
    have hrest := hf r.1 r.2 out
    rw [← List.append_assoc] at hrest
    exact hrest

/-- The last step may rearrange the code, as long as the lines are the same. -/
theorem last {f : Code → Code} (hx : Performs c k [] x as)
    (h : ∀ a : Code, (f a).lines = done ++ a.lines) :
    Performs c k done (x >>= fun a => Pure.pure (f a)) as := by
  rw [← List.append_nil as]
  exact hx.bind fun a k' => .pure (h a)

theorem put {ls : List Line} (h : Performs c k (done ++ ls) m as) :
    Performs c k done m (.put ls :: as) := by
  intro out
  have hrest := h out
  rw [← List.append_assoc] at hrest
  exact hrest

theorem number {f : Nat → Emit Code}
    (h : Performs c ⟨k.depth, k.labels + 1⟩ done (f (k.labels + 1)) as) :
    Performs c k done (freshLabel >>= f) (.number :: as) := h

theorem get {f : Counters → Emit Code} (h : Performs c k done (f k) as) :
    Performs c k done (get >>= f) as := h

/-- A task does what its emission does. -/
theorem emit (t : Task) : Performs c k [] (t.emit c) [.emit t] := by
  intro out
  rw [List.append_nil, runAll, Action.run]
  cases t.emit c k <;> rfl

theorem push (r : Reg) : Performs c k [] (push r) [.push r] := by
  intro out
  rw [List.append_nil]
  rfl

theorem pop (r : Reg) : Performs c k [] (pop r) [.pop r] := by
  intro out
  obtain ⟨d, n⟩ := k
  rw [List.append_nil]
  cases d <;> rfl

/-- A node without a type is a fault for both. -/
theorem typed {y : Node} {f : CType → Emit Code} {ts : CType → List Action}
    (h : ∀ t, Performs c k done (f t) (ts t)) :
    Performs c k done (typeOf y >>= f) (typedActions y ts) := by
  unfold typeOf typedActions
  cases y.type? with
  | none => exact .throw_bind
  | some t =>
    rw [pure_bind]
    exact h t

theorem call {name : String} {count : Nat}
    (h : Performs c k (done ++ callLines name count k.depth) m as) :
    Performs c k done m (.call name count :: as) := by
  intro out
  have hrest := h out
  rw [← List.append_assoc] at hrest
  exact hrest

/-- The body of a loop is emitted inside of the loop. -/
theorem loopBody (n : Nat) (b : Node) :
    Performs c k [] (statement (c.inLoop n k.depth) b) [.loopBody n b] := by
  intro out
  rw [List.append_nil, runAll, Action.run]
  change (statement (c.inLoop n k.depth) b k).map _ >>= _ = _
  cases statement (c.inLoop n k.depth) b k <;> rfl

/-- A jump out of a loop checks the depth in both. -/
theorem jumpOut (target : Label) (depth : Nat) :
    Performs c k [] (jumpOut target depth) [.jumpOut target depth] := by
  intro out
  obtain ⟨d, n⟩ := k
  rw [List.append_nil]
  change ((Action.jumpOut target depth).act ⟨c, ⟨d, n⟩, out⟩).map Prod.fst >>= runAll [] = _
  have hj : Emission.jumpOut target depth ⟨d, n⟩ = (if d < depth then _ else _ : Emit Code) _ := rfl
  by_cases h : d < depth
  · rw [Action.act_jumpOut_of_lt h, hj, if_pos h]
    rfl
  · rw [Action.act_jumpOut (Nat.le_of_not_lt h)]
    rw [if_neg h] at hj
    obtain ⟨-, hlines, -⟩ := jumpOut_ok hj
    rw [hj]
    change _ = Except.ok (Generator.mk c ⟨d, n⟩ (out ++ Code.lines _))
    rw [hlines]
    rfl

/-- The check behind a statement compares the slots in use with those before it. -/
theorem balanced (p : Location) (h : Performs c k [] m as) :
    Performs c k [] (balanced p m) (as ++ [.check p k.depth]) := by
  intro out
  rw [runAll_append, h out]
  change _ = (m k >>= fun r => (if r.2.depth ≠ k.depth then _ else _ : Emit Code) r.2).map _
  cases m k with
  | error e => rfl
  | ok r =>
    change ((Action.check p k.depth).act ⟨c, r.2, out ++ r.1.lines⟩).map Prod.fst >>= runAll [] =
      ((if r.2.depth ≠ k.depth then _ else _ : Emit Code) r.2).map _
    by_cases hd : (Generator.mk c r.2 (out ++ r.1.lines)).depth = k.depth
    · rw [Action.act_check hd, if_neg fun hne => hne hd]
      rfl
    · rw [Action.act_check_of_ne hd, if_pos (show r.2.depth ≠ k.depth from hd)]
      rfl

end Performs

section

variable (c : Context) (k : Counters)

/-- The address of a variable is left by both, or missed by both. -/
theorem performs_locate (id : VarId) : Performs c k [] (varAddress c id) (locateActions c id) := by
  unfold varAddress locateActions Emission.var
  cases c.vars[id]? with
  | none => exact .throw_bind
  | some v =>
    rw [pure_bind]
    cases hl : v.isLocal with
    | true =>
      simp only [hl, if_true, slot]
      cases c.frame.offset? id with
      | none => exact .throw_bind
      | some o =>
        simp only [pure_bind]
        exact .put ((Performs.push .rax).last (by simp))
    | false =>
      simp only [hl, Bool.false_eq_true, if_false]
      exact .put ((Performs.push .rax).last (by simp))

theorem performs_member (m : Member CType) : Performs c k [] (memberAddress m) (memberActions m) :=
  (Performs.pop .rax).bind fun a k₁ => .put ((Performs.push .rax).last (by simp))

theorem performs_load (t : CType) : Performs c k [] (load t) (loadActions t) := by
  unfold load loadActions
  cases t.isArray || t.isStruct with
  | true => exact .pure rfl
  | false =>
    simp only [Bool.false_eq_true, if_false]
    cases Width.ofBytes? t.size with
    | none => exact .throw
    | some w =>
      exact (Performs.pop .rax).bind fun a k₁ =>
        .put ((Performs.push .rax).last (by simp))

theorem performs_store (t : CType) : Performs c k [] (store t) (storeActions t) := by
  unfold store storeActions
  cases Width.ofBytes? t.size with
  | none => exact .throw
  | some w =>
    exact (Performs.pop .rdi).bind fun a k₁ => (Performs.pop .rax).bind fun b k₂ =>
      .put ((Performs.push .rdi).last (by simp))

theorem performs_branch (cond : Cond) (target : Label) :
    Performs c k [] (branch cond target) (testActions cond target) :=
  (Performs.pop .rax).bind fun a k₁ => .put (.pure (by simp))

theorem performs_logicalEnd (result : Bool) (n : Nat) :
    Performs c k [] (logicalEnd result n) [.put (decideLines result n), .push .rax] :=
  .put ((Performs.push .rax).last (by simp [decideLines]))

theorem performs_popAll (rs : List Reg) :
    Performs c k [] (popAll rs) (rs.reverse.map .pop) := by
  induction rs generalizing k with
  | nil => exact .pure rfl
  | cons r rs ih =>
    rw [List.reverse_cons, List.map_append]
    exact (ih k).bind fun a k₁ => (Performs.pop r).last (by simp)

/-- The actions of a call do what its emission does. -/
theorem performs_call (name : String) (count : Nat) (t : CType) :
    Performs c k [] (callFunction name count t) (callActions name count t) := by
  refine (performs_popAll c k _).bind fun a k₁ => .get (.call (.put ?_))
  refine (Performs.push .rax).bind fun b k₂ => .pure ?_
  by_cases h : k₁.depth % 2 = 1 <;> simp [callLines, h]

/-- The actions of an expression do what the emission of its value does. -/
theorem performs_value (x : Node) :
    Performs c k [] (value c x) (valueActions c (k.labels + 1) x) := by
  cases x with
  | num i v => exact .put ((Performs.push .rax).last (by simp))
  | var i id =>
    exact (performs_locate c k id).bind fun a k₁ => .typed fun t =>
      (performs_load c k₁ t).last (by simp)
  | deref i e =>
    exact (Performs.emit (.value e)).bind fun a k₁ => .typed fun t =>
      (performs_load c k₁ t).last (by simp)
  | member i b name m =>
    cases m with
    | none => exact .throw
    | some m =>
      exact (Performs.emit (.address b)).bind fun a k₁ => (performs_member c k₁ m).bind fun d k₂ =>
        .typed fun t => (performs_load c k₂ t).last (by simp)
  | addr i e => exact .emit (.address e)
  | assign i l r =>
    exact (Performs.emit (.address l)).bind fun a k₁ => (Performs.emit (.value r)).bind fun b k₂ =>
      .typed fun t => (performs_store c k₂ t).last (by simp)
  | binary i op l r =>
    rw [value, valueActions]
    by_cases hop : op = .logAnd ∨ op = .logOr
    · rw [if_pos hop, if_pos hop]
      exact .number ((Performs.emit (.value l)).bind fun a k₁ =>
        (performs_branch c k₁ _ _).bind fun t k₂ => (Performs.emit (.value r)).bind fun b k₃ =>
        (performs_branch c k₃ _ _).bind fun u k₄ => (performs_logicalEnd c k₄ _ _).last (by simp))
    · rw [if_neg hop, if_neg hop]
      have hbinary (k : Counters) : Performs c k [] (binary op)
          [.pop .rdi, .pop .rax, .put (operation op).lines, .push .rax] :=
        (Performs.pop .rdi).bind fun a k₁ => (Performs.pop .rax).bind fun b k₂ =>
          .put ((Performs.push .rax).last (by simp))
      exact (Performs.emit (.value l)).bind fun a k₁ => (Performs.emit (.value r)).bind fun b k₂ =>
        (hbinary k₂).last (by simp)
  | not i e =>
    have hnegation (k : Counters) : Performs c k [] negation [.pop .rax,
        .put [.instr (.cmpZero .rax), .instr (.setFlag .equal .rax), .instr (.extendFlag .rax)],
        .push .rax] :=
      (Performs.pop .rax).bind fun a k₁ =>
        .put ((Performs.push .rax).last (by simp))
    exact (Performs.emit (.value e)).bind fun a k₁ => (hnegation k₁).last (by simp)
  | ternary i e a b =>
    exact .number ((Performs.emit (.value e)).bind fun d k₁ =>
      (performs_branch c k₁ _ _).bind fun t k₂ => (Performs.emit (.value a)).bind fun x k₃ =>
      (Performs.pop .rax).bind fun p k₄ => .put ((Performs.emit (.value b)).bind fun y k₅ =>
      (Performs.pop .rax).bind fun q k₆ => .put ((Performs.push .rax).last (by simp))))
  | call i name args =>
    refine .typed fun t => ?_
    by_cases hn : argumentRegs.length < args.length
    · rw [if_pos hn, if_pos hn]
      exact .throw
    · rw [if_neg hn, if_neg hn]
      exact (Performs.emit (.arguments args)).bind fun a k₁ =>
        (performs_call c k₁ _ _ _).last (by simp)
  | stmtExpr i items => exact .emit (.statementValue items)
  | sizeof | exprStmt | ret | block | ifElse | whileLoop | forLoop | breakLoop | continueLoop
  | empty => exact .throw

/-- The actions of an address do what its emission does. -/
theorem performs_address (x : Node) : Performs c k [] (address c x) (addressActions c x) := by
  cases x with
  | var i id => exact performs_locate c k id
  | deref i e => exact .emit (.value e)
  | member i b name m =>
    cases m with
    | none => exact .throw
    | some m =>
      exact (Performs.emit (.address b)).bind fun a k₁ => (performs_member c k₁ m).last (by simp)
  | num | binary | not | assign | ternary | addr | sizeof | call | stmtExpr | exprStmt | ret
  | block | ifElse | whileLoop | forLoop | breakLoop | continueLoop | empty => exact .throw

/-- The actions of a statement expression do what its emission does. -/
theorem performs_items (xs : List Node) :
    Performs c k [] (statementValue c xs) (itemsActions xs) := by
  cases xs with
  | nil => exact .throw
  | cons x xs =>
    cases xs with
    | nil =>
      cases x with
      | exprStmt i e => exact .emit (.value e)
      | num | var | member | binary | not | assign | ternary | addr | deref | sizeof | call
      | stmtExpr | ret | block | ifElse | whileLoop | forLoop | breakLoop | continueLoop
      | empty => exact .throw
    | cons y ys =>
      simp only [statementValue, itemsActions]
      exact (Performs.emit (.statement x)).bind fun a k₁ =>
        (Performs.emit (.statementValue (y :: ys))).last (by simp)

/-- The actions of a statement, and the check behind them, do what its emission does. -/
theorem performs_statement (x : Node) : Performs c k [] (statement c x)
    (bodyActions c (k.labels + 1) x ++ [.check x.place k.depth]) := by
  cases x with
  | exprStmt i e =>
    exact .balanced _ ((Performs.emit (.value e)).bind fun a k₁ =>
      (Performs.pop .rax).last (by simp))
  | ret i e =>
    cases e with
    | none => exact .balanced _ (.put (.pure rfl))
    | some e =>
      exact .balanced _ ((Performs.emit (.value e)).bind fun a k₁ =>
        (Performs.pop .rax).bind fun b k₂ => .put (.pure (by simp)))
  | block i items => exact .balanced _ (.emit (.statements items))
  | ifElse i e a b =>
    exact .balanced _ (.number ((Performs.emit (.value e)).bind fun d k₁ =>
      (performs_branch c k₁ _ _).bind fun t k₂ => (Performs.emit (.statement a)).bind fun x k₃ =>
      .put ((Performs.emit (.statement b)).bind fun y k₄ => .put (.pure (by simp)))))
  -- The number of slots that a loop records is read right before its body.
  | whileLoop i e b =>
    exact .balanced _ (.number (.put ((Performs.emit (.value e)).bind fun d k₁ =>
      (performs_branch c k₁ _ _).bind fun t k₂ => .get ((Performs.loopBody _ b).bind fun x k₃ =>
      .put (.pure (by simp))))))
  | forLoop i init e update b =>
    exact .balanced _ (.number ((Performs.emit (.optional init)).bind fun f k₁ =>
      .put ((Performs.emit (.value e)).bind fun d k₂ => (performs_branch c k₂ _ _).bind fun t k₃ =>
      .get ((Performs.loopBody _ b).bind fun x k₄ => .put ((Performs.emit (.optional update)).bind
      fun u k₅ => .put (.pure (by simp)))))))
  | breakLoop i | continueLoop i =>
    refine .balanced _ ?_
    unfold bodyActions jumpActions
    cases c.loops with
    | nil => exact .throw
    | cons t ts => exact .jumpOut _ _
  | empty i => exact .balanced _ (.pure rfl)
  | num | var | member | binary | not | assign | ternary | addr | deref | sizeof | call
  | stmtExpr => exact .throw

/-- A task does what its actions do. -/
theorem performs_actions (t : Task) : Performs c k [] (t.emit c) (t.actions c k) := by
  cases t with
  | value x => exact performs_value c k x
  | address x => exact performs_address c k x
  | arguments xs =>
    cases xs with
    | nil => exact .pure rfl
    | cons x xs =>
      exact (Performs.emit (.value x)).bind fun a k₁ =>
        (Performs.emit (.arguments xs)).last (by simp)
  | statementValue xs => exact performs_items c k xs
  | statement x => exact performs_statement c k x
  | statements xs =>
    cases xs with
    | nil => exact .pure rfl
    | cons x xs =>
      exact (Performs.emit (.statement x)).bind fun a k₁ =>
        (Performs.emit (.statements xs)).last (by simp)
  | optional x =>
    cases x with
    | none => exact .pure rfl
    | some x => exact .emit (.statement x)

end

/-- An action at once, or the first step of it and then the rest. -/
theorem Action.run_eq (a : Action) (g : Generator) :
    a.run g = a.act g >>= fun r => runAll r.2 r.1 := by
  cases a with
  | emit t =>
    have hactions := performs_actions g.context g.counters t g.output
    rw [List.append_nil] at hactions
    exact hactions.symm
  | loopBody n x =>
    change _ = runAll [.emit (.statement x), .leaveLoop] (g.enterLoop n)
    rw [runAll, run, run]
    change _ = (statement (g.context.inLoop n g.depth) x g.counters).map _ >>= _
    cases statement (g.context.inLoop n g.depth) x g.counters <;> rfl
  | pop r =>
    change ((pop r).act g).map Prod.fst = _
    rw [act]
    cases g.depth <;> rfl
  | jumpOut target depth =>
    change ((jumpOut target depth).act g).map Prod.fst = _
    rw [act]
    split <;> rfl
  | check p before =>
    change ((check p before).act g).map Prod.fst = _
    rw [act]
    split <;> rfl
  | push | put | number | call | leaveLoop | fail => rfl

namespace Work

def outcome (w : Work) : Except EmissionFault Generator :=
  match w.fault with
  | some e => .error e
  | none => runAll w.pending w.generator

/-- A step does not change what the work comes to. -/
theorem outcome_next {w w' : Work} (h : w.next = some w') : w'.outcome = w.outcome := by
  obtain ⟨g, fault, pending⟩ := w
  cases pending with
  | nil => cases h
  | cons a as =>
    cases fault with
    | some e =>
      cases h
      rfl
    | none =>
      -- The action as a whole, or its first step and then what has replaced it: either way the
      -- actions behind it find the same generator.
      have hrun : outcome ⟨g, none, a :: as⟩ = a.act g >>= fun r =>
          runAll r.2 r.1 >>= runAll as := by
        change a.run g >>= runAll as = _
        rw [a.run_eq g]
        cases a.act g <;> rfl
      rw [next] at h
      rw [hrun]
      cases hact : a.act g with
      | error e =>
        rw [hact] at h
        cases h
        rfl
      | ok r =>
        rw [hact] at h
        cases h
        exact runAll_append r.2 as r.1

/-- No step changes what the work comes to in the end. -/
theorem Leads.outcome_eq {w w' : Work} (h : w.Leads w') : w'.outcome = w.outcome := by
  induction h with
  | refl => rfl
  | tail _ hnext ih => rw [outcome_next hnext, ih]

end Work

noncomputable def Task.size : Task → Nat
  | value x | address x | statement x => sizeOf x
  | arguments xs | statementValue xs | statements xs => sizeOf xs
  | optional x => sizeOf x

noncomputable def Action.weight : Action → Nat
  -- No node has as many as 32 actions of its own.
  | emit t => 32 * t.size + 1
  | loopBody _ x => 32 * sizeOf x + 3
  | _ => 1

noncomputable def weigh : List Action → Nat
  | [] => 0
  | a :: as => a.weight + weigh as

@[simp] theorem weigh_append (as bs : List Action) : weigh (as ++ bs) = weigh as + weigh bs := by
  induction as with
  | nil => exact (Nat.zero_add _).symm
  | cons a as ih => rw [List.cons_append, weigh, weigh, ih, Nat.add_assoc]

theorem weigh_locate (c : Context) (id : VarId) : weigh (locateActions c id) ≤ 2 := by
  unfold locateActions
  repeat' split
  all_goals simp [weigh, Action.weight]

theorem weigh_typed {x : Node} {as : CType → List Action} {n : Nat}
    (h : ∀ t, weigh (as t) ≤ n + 1) :
    weigh (typedActions x as) ≤ n + 1 := by
  unfold typedActions
  split
  · exact Nat.succ_le_succ (Nat.zero_le n)
  · exact h _

theorem weigh_load (t : CType) : weigh (loadActions t) ≤ 3 := by
  unfold loadActions
  repeat' split
  all_goals simp [weigh, Action.weight]

theorem weigh_store (t : CType) : weigh (storeActions t) ≤ 4 := by
  unfold storeActions
  split
  all_goals simp [weigh, Action.weight]

theorem weigh_call (name : String) (count : Nat) (t : CType) :
    weigh (callActions name count t) ≤ 9 := by
  have hpops (rs : List Reg) : weigh (rs.map .pop) = rs.length := by
    induction rs with
    | nil => rfl
    | cons r rs ih => simp [weigh, ih, Action.weight, Nat.add_comm]
  have hlength : (argumentRegs.take count).length ≤ 6 := List.length_take_le' count argumentRegs
  simp only [callActions, weigh_append, hpops, List.length_reverse, weigh, Action.weight]
  omega

theorem sizeOf_node_pos (x : Node) : 0 < sizeOf x := by
  cases x <;> simp +arith

/-- A bound for the actions of an expression, in terms of its size. -/
theorem weigh_value (c : Context) (n : Nat) (x : Node) :
    weigh (valueActions c n x) ≤ 32 * sizeOf x := by
  have hpos := sizeOf_node_pos x
  have hload (y : Node) : weigh (typedActions y loadActions) ≤ 3 := weigh_typed weigh_load
  cases x with
  | var i id =>
    have hl := weigh_locate c id
    have hy := hload (.var i id)
    simp only [valueActions, weigh_append]
    omega
  | deref i e =>
    have hy := hload (.deref i e)
    simp only [valueActions, weigh, Action.weight, Task.size, Node.deref.sizeOf_spec]
    omega
  | member i b name m =>
    cases m with
    | none =>
      simp only [valueActions, weigh, Action.weight]
      omega
    | some m =>
      have hy := hload (.member i b name (some m))
      simp only [valueActions, weigh_append, weigh, Action.weight, Task.size, memberActions,
        Node.member.sizeOf_spec]
      omega
  | assign i l r =>
    have hy : weigh (typedActions l storeActions) ≤ 4 := weigh_typed weigh_store
    simp only [valueActions, weigh, Action.weight, Task.size, Node.assign.sizeOf_spec]
    omega
  | binary i op l r =>
    simp only [valueActions]
    split
    all_goals
      simp only [weigh_append, weigh, Action.weight, Task.size, testActions,
        Node.binary.sizeOf_spec]
      omega
  | call i name args =>
    have hy : weigh (valueActions c n (.call i name args)) ≤ 32 * sizeOf args + 9 + 1 := by
      refine weigh_typed fun t => ?_
      split
      · simp [weigh, Action.weight]
      · have hcall := weigh_call name args.length t
        simp only [weigh, Action.weight, Task.size]
        omega
    simp only [Node.call.sizeOf_spec]
    omega
  | not i e =>
    simp only [valueActions, weigh, Action.weight, Task.size, Node.not.sizeOf_spec]
    omega
  | addr i e =>
    simp only [valueActions, weigh, Action.weight, Task.size, Node.addr.sizeOf_spec]
    omega
  | ternary i e y z =>
    simp only [valueActions, weigh_append, weigh, Action.weight, Task.size, testActions,
      Node.ternary.sizeOf_spec]
    omega
  | stmtExpr i items =>
    simp only [valueActions, weigh, Action.weight, Task.size, Node.stmtExpr.sizeOf_spec]
    omega
  | num | sizeof | exprStmt | ret | block | ifElse | whileLoop | forLoop | breakLoop | continueLoop
  | empty =>
    simp only [valueActions, weigh, Action.weight]
    omega

theorem weigh_address (c : Context) (x : Node) : weigh (addressActions c x) ≤ 32 * sizeOf x := by
  have hpos := sizeOf_node_pos x
  cases x with
  | var i id =>
    have hl := weigh_locate c id
    simp only [addressActions]
    omega
  | deref i e =>
    simp only [addressActions, weigh, Action.weight, Task.size, Node.deref.sizeOf_spec]
    omega
  | member i b name m =>
    cases m with
    | none =>
      simp only [addressActions, weigh, Action.weight]
      omega
    | some m =>
      simp only [addressActions, memberActions, weigh, Action.weight, Task.size,
        Node.member.sizeOf_spec]
      omega
  | num | binary | not | assign | ternary | addr | sizeof | call | stmtExpr | exprStmt | ret
  | block | ifElse | whileLoop | forLoop | breakLoop | continueLoop | empty =>
    simp only [addressActions, weigh, Action.weight]
    omega

/-- A bound for the actions of a statement, with room for the check behind it. -/
theorem weigh_body (c : Context) (n : Nat) (x : Node) :
    weigh (bodyActions c n x) + 1 ≤ 32 * sizeOf x := by
  have hpos := sizeOf_node_pos x
  cases x with
  | exprStmt i e =>
    simp only [bodyActions, weigh, Action.weight, Task.size, Node.exprStmt.sizeOf_spec]
    omega
  | ret i e =>
    cases e with
    | none =>
      simp only [bodyActions, weigh, Action.weight]
      omega
    | some e =>
      simp only [bodyActions, weigh, Action.weight, Task.size, Node.ret.sizeOf_spec,
        Option.some.sizeOf_spec]
      omega
  | block i items =>
    simp only [bodyActions, weigh, Action.weight, Task.size, Node.block.sizeOf_spec]
    omega
  | ifElse i e y z =>
    simp only [bodyActions, weigh_append, weigh, Action.weight, Task.size, testActions,
      Node.ifElse.sizeOf_spec]
    omega
  | whileLoop i e y =>
    simp only [bodyActions, weigh_append, weigh, Action.weight, Task.size, testActions,
      Node.whileLoop.sizeOf_spec]
    omega
  | forLoop i init e update y =>
    simp only [bodyActions, weigh_append, weigh, Action.weight, Task.size, testActions,
      Node.forLoop.sizeOf_spec]
    omega
  | breakLoop i | continueLoop i =>
    simp only [bodyActions, jumpActions]
    split
    all_goals
      simp only [weigh, Action.weight]
      omega
  | empty | num | var | member | binary | not | assign | ternary | addr | deref | sizeof | call
  | stmtExpr =>
    simp only [bodyActions, weigh, Action.weight]
    omega

theorem weigh_items (xs : List Node) : weigh (itemsActions xs) ≤ 32 * sizeOf xs := by
  cases xs with
  | nil => simp [itemsActions, weigh, Action.weight]
  | cons x xs =>
    cases xs with
    | nil =>
      simp only [itemsActions, List.cons.sizeOf_spec]
      split
      · simp only [weigh, Action.weight, Task.size, Node.exprStmt.sizeOf_spec]
        omega
      · simp only [weigh, Action.weight]
        omega
    | cons y ys =>
      simp only [itemsActions, weigh, Action.weight, Task.size, List.cons.sizeOf_spec]
      omega

/-- The actions of a task weigh less than the task. -/
theorem weigh_actions (c : Context) (k : Counters) (t : Task) :
    weigh (t.actions c k) < (Action.emit t).weight := by
  rw [Action.weight, Nat.lt_succ_iff]
  cases t with
  | value x => exact weigh_value c _ x
  | address x => exact weigh_address c x
  | statementValue xs => exact weigh_items xs
  | statement x =>
    have hbody := weigh_body c (k.labels + 1) x
    simp only [Task.actions, weigh_append, weigh, Action.weight, Task.size]
    omega
  | arguments xs | statements xs =>
    cases xs with
    | nil => exact Nat.zero_le _
    | cons x xs =>
      simp only [Task.actions, weigh, Action.weight, Task.size, List.cons.sizeOf_spec]
      omega
  | optional x =>
    cases x with
    | none => exact Nat.zero_le _
    | some x =>
      simp only [Task.actions, weigh, Action.weight, Task.size, Option.some.sizeOf_spec]
      omega

theorem Action.weight_pos (a : Action) : 0 < a.weight := by
  cases a <;> simp [weight]

/-- An action outweighs the actions that replace it. -/
theorem Action.weigh_act {a : Action} {g g' : Generator} {more : List Action}
    (h : a.act g = .ok (g', more)) : weigh more < a.weight := by
  cases a with
  | emit t =>
    cases h
    exact weigh_actions g.context g.counters t
  | loopBody n x =>
    cases h
    simp [weigh, weight, Task.size]
  | pop r =>
    rw [act] at h
    split at h
    · cases h
    · cases h
      exact Nat.one_pos
  | jumpOut | check =>
    rw [act] at h
    split at h
    · cases h
    · cases h
      exact Nat.one_pos
  | fail => cases h
  | push | put | number | call | leaveLoop =>
    cases h
    exact Nat.one_pos

namespace Work

/-- Every step makes the work lighter. -/
theorem weigh_next {w w' : Work} (h : w.next = some w') : weigh w'.pending < weigh w.pending := by
  obtain ⟨g, fault, pending⟩ := w
  cases pending with
  | nil => cases h
  | cons a as =>
    rw [weigh]
    have hpos := a.weight_pos
    cases fault with
    | some e =>
      cases h
      exact Nat.lt_add_of_pos_left hpos
    | none =>
      rw [next] at h
      split at h
      · next hact =>
        cases h
        have hless := Action.weigh_act hact
        rw [weigh_append]
        exact Nat.add_lt_add_right hless _
      · cases h
        exact Nat.lt_add_of_pos_left hpos

/-- As long as there is something to be done there is a step. -/
theorem exists_next {w : Work} (h : w.pending ≠ []) : ∃ w', w.next = some w' := by
  obtain ⟨g, fault, pending⟩ := w
  cases pending with
  | nil => exact absurd rfl h
  | cons a as =>
    cases fault with
    | some e => exact ⟨_, rfl⟩
    | none =>
      rw [next]
      split <;> exact ⟨_, rfl⟩

/-- Every piece of work comes to its end. -/
theorem exists_end (w : Work) : ∃ last, w.Leads last ∧ last.pending = [] := by
  -- Each step lessens the weight of what is pending.
  induction hn : weigh w.pending using Nat.strongRecOn generalizing w with
  | ind n ih =>
    by_cases hpending : w.pending = []
    · exact ⟨w, .refl, hpending⟩
    · obtain ⟨w', hnext⟩ := exists_next hpending
      obtain ⟨last, hleads, hlast⟩ := ih _ (hn ▸ weigh_next hnext) w' rfl
      exact ⟨last, .head hnext hleads, hlast⟩

end Work

/-- All along, the work on a task comes to what the emission of the task yields. -/
theorem Task.outcome_eq {t : Task} {g : Generator} {w : Work} (h : (t.start g).Leads w) :
    w.outcome = (t.emit g.context g.counters).map g.behind := by
  rw [h.outcome_eq]
  change (t.emit g.context g.counters).map g.behind >>= runAll [] = _
  cases t.emit g.context g.counters <;> rfl

/-- The work on a task ends with what the emission of the task yields. -/
theorem Task.exists_end (t : Task) (g : Generator) :
    ∃ last, (t.start g).Leads last ∧ last.pending = [] ∧
      (∀ r, t.emit g.context g.counters = .ok r → last.fault = none ∧ last.generator = g.behind r) ∧
      ∀ e, t.emit g.context g.counters = .error e → last.fault = some e := by
  obtain ⟨last, hleads, hlast⟩ := (t.start g).exists_end
  have houtcome := Task.outcome_eq hleads
  refine ⟨last, hleads, hlast, fun r hr => ?_, fun e he => ?_⟩
  · rw [hr] at houtcome
    obtain ⟨g', fault, pending⟩ := last
    obtain rfl : pending = [] := hlast
    cases fault with
    | some e => cases houtcome
    | none =>
      cases houtcome
      exact ⟨rfl, rfl⟩
  · rw [he] at houtcome
    obtain ⟨g', fault, pending⟩ := last
    obtain rfl : pending = [] := hlast
    cases fault with
    | some e' =>
      cases houtcome
      rfl
    | none => cases houtcome

end Emission

end StackC
