import StackC.Emission.Program

/-!
The lines that an emission gives when it succeeds, form by form. Depths and label numbers are
explicit here, so that a fact about emitted lines is an induction over `Emits`, and the steps of the
emission need not be opened again.
-/

namespace StackC

namespace Emission

open Assembly

inductive Task where
  | value (n : Node)
  | address (n : Node)
  | arguments (ns : List Node)
  | statementValue (ns : List Node)
  | statement (n : Node)
  | statements (ns : List Node)
  | optional (n : Option Node)

namespace Task

def emit (c : Context) : Task → Emit Code
  | value n => Emission.value c n
  | address n => Emission.address c n
  | arguments ns => Emission.arguments c ns
  | statementValue ns => Emission.statementValue c ns
  | statement n => Emission.statement c n
  | statements ns => Emission.statements c ns
  | optional n => Emission.optional c n

def slots : Task → Nat
  | value _ | address _ | statementValue _ => 1
  | arguments ns => ns.length
  | statement _ | statements _ | optional _ => 0

end Task

inductive Locates (c : Context) (id : VarId) : Instr → Prop where
  | onFrame {v : Var} {k : Nat} (hv : c.vars[id]? = some v) (hl : v.isLocal = true)
      (hk : c.frame.offset? id = some k) : Locates c id (.leaFrame k .rax)
  | inData {v : Var} (hv : c.vars[id]? = some v) (hl : v.isLocal = false) :
      Locates c id (.leaSymbol v.name .rax)

/-- Where a variable lies does not depend on the loops around its use. -/
theorem Locates.withLoops {c : Context} {id : VarId} {lea : Instr} (h : Locates c id lea)
    (loops : List Targets) : Locates { c with loops := loops } id lea := by
  cases h with
  | onFrame hv hl hk => exact .onFrame hv hl hk
  | inData hv hl => exact .inData hv hl

inductive Loads (t : CType) : List Line → Prop where
  | aggregate (ht : (t.isArray || t.isStruct) = true) : Loads t []
  | scalar {w : Width} (ht : (t.isArray || t.isStruct) = false)
      (hw : Width.ofBytes? t.size = some w) :
      Loads t [.instr (.pop .rax), .instr (.load w .rax .rax), .instr (.push .rax)]

def memberLines (m : Member CType) : List Line :=
  [.instr (.pop .rax), .instr (.addImm m.offset .rax), .instr (.push .rax)]

def testLines (cond : Cond) (target : Label) : List Line :=
  [.instr (.pop .rax), .instr (.cmpZero .rax), .instr (.jumpIf cond target)]

def popLines (rs : List Reg) : List Line :=
  rs.reverse.map fun r => .instr (.pop r)

def callLines (name : String) (count d : Nat) : List Line :=
  if d % 2 = 1 then
    [.instr (.subImm 8 .rsp), .instr (.movImm 0 .long .rax), .instr (.call name count),
      .instr (.addImm 8 .rsp)]
  else [.instr (.movImm 0 .long .rax), .instr (.call name count)]

def dropLines (k : Nat) : List Line :=
  if 0 < k then [.instr (.addImm (k * 8) .rsp)] else []

def logicalLines (result : Bool) (n : Nat) : List Line :=
  [.instr (truth !result), .instr (.jump (.numbered .finish n)), .label (.numbered .short n),
    .instr (truth result), .label (.numbered .finish n), .instr (.push .rax)]

/-- `Emits c task d n ls n'`: begun with `d` slots in use and `n` labels given out, the task has the
lines `ls`, and `n'` labels have been given out behind them. -/
inductive Emits : Context → Task → Nat → Nat → List Line → Nat → Prop where
  | num {c i v d n} :
      Emits c (.value (.num i v)) d n [.instr (literal v), .instr (.push .rax)] n
  | var {c i id t lea ls d n} (hv : Locates c id lea) (ht : i.type = some t) (hl : Loads t ls) :
      Emits c (.value (.var i id)) d n (.instr lea :: .instr (.push .rax) :: ls) n
  | deref {c i e t a ls d n n'} (he : Emits c (.value e) d n a n') (ht : i.type = some t)
      (hl : Loads t ls) : Emits c (.value (.deref i e)) d n (a ++ ls) n'
  | member {c i b name m t a ls d n n'} (hb : Emits c (.address b) d n a n')
      (ht : i.type = some t) (hl : Loads t ls) :
      Emits c (.value (.member i b name (some m))) d n (a ++ (memberLines m ++ ls)) n'
  | addr {c i e a d n n'} (he : Emits c (.address e) d n a n') :
      Emits c (.value (.addr i e)) d n a n'
  | assign {c i l r t w a b d n n₁ n₂} (hl : Emits c (.address l) d n a n₁)
      (hr : Emits c (.value r) (d + 1) n₁ b n₂) (ht : l.type? = some t)
      (hw : Width.ofBytes? t.size = some w) :
      Emits c (.value (.assign i l r)) d n
        (a ++ (b ++ [.instr (.pop .rdi), .instr (.pop .rax), .instr (.store w .rdi .rax),
          .instr (.push .rdi)])) n₂
  | logical {c i op l r a b d n n₁ n₂} (hop : op = .logAnd ∨ op = .logOr)
      (hl : Emits c (.value l) d (n + 1) a n₁) (hr : Emits c (.value r) d n₁ b n₂) :
      Emits c (.value (.binary i op l r)) d n
        (a ++ (testLines (decided op).1 (.numbered .short (n + 1)) ++
          (b ++ (testLines (decided op).1 (.numbered .short (n + 1)) ++
            logicalLines (decided op).2 (n + 1))))) n₂
  | binary {c i op l r a b d n n₁ n₂} (hop : ¬(op = .logAnd ∨ op = .logOr))
      (hl : Emits c (.value l) d n a n₁) (hr : Emits c (.value r) (d + 1) n₁ b n₂) :
      Emits c (.value (.binary i op l r)) d n
        (a ++ (b ++ (.instr (.pop .rdi) :: .instr (.pop .rax) ::
          ((operation op).lines ++ [.instr (.push .rax)])))) n₂
  | not {c i e a d n n'} (he : Emits c (.value e) d n a n') :
      Emits c (.value (.not i e)) d n
        (a ++ [.instr (.pop .rax), .instr (.cmpZero .rax), .instr (.setFlag .equal .rax),
          .instr (.extendFlag .rax), .instr (.push .rax)]) n'
  | ternary {c i e x y a b b' d n n₁ n₂ n₃} (he : Emits c (.value e) d (n + 1) a n₁)
      (hx : Emits c (.value x) d n₁ b n₂) (hy : Emits c (.value y) d n₂ b' n₃) :
      Emits c (.value (.ternary i e x y)) d n
        (a ++ (testLines .equal (.numbered .other (n + 1)) ++
          (b ++ (.instr (.pop .rax) :: .instr (.jump (.numbered .finish (n + 1))) ::
            .label (.numbered .other (n + 1)) ::
              (b' ++ [.instr (.pop .rax), .label (.numbered .finish (n + 1)),
                .instr (.push .rax)]))))) n₃
  | call {c i name args t a d n n'} (ht : i.type = some t)
      (hn : args.length ≤ argumentRegs.length) (ha : Emits c (.arguments args) d n a n') :
      Emits c (.value (.call i name args)) d n
        (a ++ (popLines (argumentRegs.take args.length) ++
          (callLines name args.length d ++ ((extendResult t).lines ++ [.instr (.push .rax)])))) n'
  | stmtExpr {c i items a d n n'} (h : Emits c (.statementValue items) d n a n') :
      Emits c (.value (.stmtExpr i items)) d n a n'
  | varAddress {c i id lea d n} (hv : Locates c id lea) :
      Emits c (.address (.var i id)) d n [.instr lea, .instr (.push .rax)] n
  | derefAddress {c i e a d n n'} (he : Emits c (.value e) d n a n') :
      Emits c (.address (.deref i e)) d n a n'
  | memberAddress {c i b name m a d n n'} (hb : Emits c (.address b) d n a n') :
      Emits c (.address (.member i b name (some m))) d n (a ++ memberLines m) n'
  | noArguments {c d n} : Emits c (.arguments []) d n [] n
  | argument {c e es a b d n n₁ n₂} (he : Emits c (.value e) d n a n₁)
      (hs : Emits c (.arguments es) (d + 1) n₁ b n₂) :
      Emits c (.arguments (e :: es)) d n (a ++ b) n₂
  | lastItem {c i e a d n n'} (he : Emits c (.value e) d n a n') :
      Emits c (.statementValue [.exprStmt i e]) d n a n'
  | item {c x y ys a b d n n₁ n₂} (hx : Emits c (.statement x) d n a n₁)
      (hs : Emits c (.statementValue (y :: ys)) d n₁ b n₂) :
      Emits c (.statementValue (x :: y :: ys)) d n (a ++ b) n₂
  | exprStmt {c i e a d n n'} (he : Emits c (.value e) d n a n') :
      Emits c (.statement (.exprStmt i e)) d n (a ++ [.instr (.pop .rax)]) n'
  | retVoid {c i d n} :
      Emits c (.statement (.ret i none)) d n [.instr (.jump (.functionEnd c.name))] n
  | ret {c i e a d n n'} (he : Emits c (.value e) d n a n') :
      Emits c (.statement (.ret i (some e))) d n
        (a ++ [.instr (.pop .rax), .instr (.jump (.functionEnd c.name))]) n'
  | block {c i items a d n n'} (h : Emits c (.statements items) d n a n') :
      Emits c (.statement (.block i items)) d n a n'
  | ifElse {c i e x y a b b' d n n₁ n₂ n₃} (he : Emits c (.value e) d (n + 1) a n₁)
      (hx : Emits c (.statement x) d n₁ b n₂) (hy : Emits c (.statement y) d n₂ b' n₃) :
      Emits c (.statement (.ifElse i e x y)) d n
        (a ++ (testLines .equal (.numbered .other (n + 1)) ++
          (b ++ (.instr (.jump (.numbered .finish (n + 1))) ::
            .label (.numbered .other (n + 1)) ::
              (b' ++ [.label (.numbered .finish (n + 1))]))))) n₃
  | whileLoop {c i e x a b d n n₁ n₂} (he : Emits c (.value e) d (n + 1) a n₁)
      (hx : Emits (c.inLoop (n + 1) d) (.statement x) d n₁ b n₂) :
      Emits c (.statement (.whileLoop i e x)) d n
        (.label (.numbered .start (n + 1)) ::
          (a ++ (testLines .equal (.numbered .finish (n + 1)) ++
            (b ++ [.label (.numbered .again (n + 1)),
              .instr (.jump (.numbered .start (n + 1))),
              .label (.numbered .finish (n + 1))])))) n₂
  | forLoop {c i init e update x f a b u d n n₁ n₂ n₃ n₄}
      (hf : Emits c (.optional init) d (n + 1) f n₁) (he : Emits c (.value e) d n₁ a n₂)
      (hx : Emits (c.inLoop (n + 1) d) (.statement x) d n₂ b n₃)
      (hu : Emits c (.optional update) d n₃ u n₄) :
      Emits c (.statement (.forLoop i init e update x)) d n
        (f ++ (.label (.numbered .start (n + 1)) ::
          (a ++ (testLines .equal (.numbered .finish (n + 1)) ++
            (b ++ (.label (.numbered .again (n + 1)) ::
              (u ++ [.instr (.jump (.numbered .start (n + 1))),
                .label (.numbered .finish (n + 1))]))))))) n₄
  | breakLoop {c i t ts d n} (hc : c.loops = t :: ts) (hd : t.depth ≤ d) :
      Emits c (.statement (.breakLoop i)) d n
        (dropLines (d - t.depth) ++ [.instr (.jump t.finish)]) n
  | continueLoop {c i t ts d n} (hc : c.loops = t :: ts) (hd : t.depth ≤ d) :
      Emits c (.statement (.continueLoop i)) d n
        (dropLines (d - t.depth) ++ [.instr (.jump t.again)]) n
  | empty {c i d n} : Emits c (.statement (.empty i)) d n [] n
  | noStatements {c d n} : Emits c (.statements []) d n [] n
  | statement {c x xs a b d n n₁ n₂} (hx : Emits c (.statement x) d n a n₁)
      (hs : Emits c (.statements xs) d n₁ b n₂) : Emits c (.statements (x :: xs)) d n (a ++ b) n₂
  | absent {c d n} : Emits c (.optional none) d n [] n
  | present {c x a d n n'} (hx : Emits c (.statement x) d n a n') :
      Emits c (.optional (some x)) d n a n'

end Emission

end StackC
