import StackC.Grammar.Expression

namespace StackC

def Info.unplaced (i : Info) : Info := { i with place := {} }

namespace Node

mutual

def unplaced : Node → Node
  | num i v => num i.unplaced v
  | var i id => var i.unplaced id
  | member i b name m => member i.unplaced b.unplaced name m
  | binary i op l r => binary i.unplaced op l.unplaced r.unplaced
  | not i e => not i.unplaced e.unplaced
  | assign i l r => assign i.unplaced l.unplaced r.unplaced
  | ternary i e x y => ternary i.unplaced e.unplaced x.unplaced y.unplaced
  | addr i e => addr i.unplaced e.unplaced
  | deref i e => deref i.unplaced e.unplaced
  | sizeof i e => sizeof i.unplaced e.unplaced
  | call i name args => call i.unplaced name (unplacedAll args)
  | stmtExpr i items => stmtExpr i.unplaced (unplacedAll items)
  | exprStmt i e => exprStmt i.unplaced e.unplaced
  | ret i e => ret i.unplaced (unplacedOption e)
  | block i items => block i.unplaced (unplacedAll items)
  | ifElse i e x y => ifElse i.unplaced e.unplaced x.unplaced y.unplaced
  | whileLoop i e x => whileLoop i.unplaced e.unplaced x.unplaced
  | forLoop i init e update x =>
    forLoop i.unplaced (unplacedOption init) e.unplaced (unplacedOption update) x.unplaced
  | breakLoop i => breakLoop i.unplaced
  | continueLoop i => continueLoop i.unplaced
  | empty i => empty i.unplaced

def unplacedAll : List Node → List Node
  | [] => []
  | n :: ns => n.unplaced :: unplacedAll ns

def unplacedOption : Option Node → Option Node
  | none => none
  | some n => some n.unplaced

end

/-- Places have no effects. -/
theorem hasEffects_unplaced (n : Node) : n.unplaced.hasEffects = n.hasEffects :=
  match n with
  | .member i b name m => hasEffects_unplaced b
  | .binary i op l r => by
    rw [unplaced, hasEffects, hasEffects, hasEffects_unplaced l, hasEffects_unplaced r]
  | .not i e => hasEffects_unplaced e
  | .addr i e => hasEffects_unplaced e
  | .deref i e => hasEffects_unplaced e
  | .ternary i e x y => by
    rw [unplaced, hasEffects, hasEffects, hasEffects_unplaced e, hasEffects_unplaced x,
      hasEffects_unplaced y]
  | .num .. | .var .. | .sizeof .. | .assign .. | .call .. | .stmtExpr .. | .exprStmt .. | .ret ..
  | .block .. | .ifElse .. | .whileLoop .. | .forLoop .. | .breakLoop .. | .continueLoop ..
  | .empty .. => rfl
termination_by structural n

end Node

/-- What a token says, without its place. Two spellings of a number say the same. -/
abbrev Token.Word := TokenKind × String

open Token (Word)

def Token.word (t : Token) : Word :=
  match t.kind with
  | .num v => (.num v, "")
  | kind => (kind, t.text)

namespace Token.Word

def mark (text : String) : Word := (.reserved, text)

def name (text : String) : Word := (.ident, text)

def numeral (value : Int64) : Word := (.num value, "")

theorem of_mark {t : Token} {text : String} (h : t.word = mark text) :
    t.isReserved text = true := by
  unfold Token.word at h
  split at h
  · cases h
  · obtain ⟨hkind, htext⟩ := Prod.mk.inj h
    rw [Token.isReserved, hkind, htext, beq_self_eq_true, beq_self_eq_true, Bool.and_self]

theorem of_isReserved {t : Token} {text : String} (h : t.isReserved text = true) :
    t.word = mark text := by
  rw [Token.isReserved, Bool.and_eq_true] at h
  rw [Token.word, eq_of_beq h.1, eq_of_beq h.2]
  rfl

theorem of_name {t : Token} {text : String} (h : t.word = name text) :
    t.kind = .ident ∧ t.text = text := by
  unfold Token.word at h
  split at h
  · cases h
  · obtain ⟨hkind, htext⟩ := Prod.mk.inj h
    exact ⟨hkind, htext⟩

theorem of_numeral {t : Token} {value : Int64} (h : t.word = numeral value) :
    t.kind = .num value := by
  unfold Token.word at h
  split at h
  · next v hv =>
    cases h
    exact hv
  · next hne => exact absurd (Prod.mk.inj h).1 (hne value)

end Token.Word

inductive Compound where
  | add
  | sub
  | mul
  | div

namespace Compound

def symbol : Compound → String
  | add => "+="
  | sub => "-="
  | mul => "*="
  | div => "/="

def op : Compound → BinaryOp
  | add => .add
  | sub => .sub
  | mul => .mul
  | div => .div

end Compound

inductive Step where
  | increment
  | decrement

namespace Step

def symbol : Step → String
  | increment => "++"
  | decrement => "--"

def op : Step → BinaryOp
  | increment => .add
  | decrement => .sub

def undo : Step → BinaryOp
  | increment => .sub
  | decrement => .add

end Step

namespace Parse.PrefixMark

def symbol : PrefixMark → String
  | plus => "+"
  | minus => "-"
  | address => "&"
  | indirection => "*"
  | negation => "!"
  | increment => "++"
  | decrement => "--"
  | size => "sizeof"

def changes : PrefixMark → Bool
  | increment | decrement => true
  | _ => false

end Parse.PrefixMark

/-- The level of precedence of an operator; those of a higher level bind tighter. -/
def BinaryOp.level : BinaryOp → Nat
  | logOr => 2
  | logAnd => 3
  | eq | ne => 4
  | lt | le | gt | ge => 5
  | add | sub => 6
  | mul | div | mod => 7

inductive Surface where
  | num (value : Int64)
  | var (name : String)
  | call (name : String) (args : List Surface)
  | binary (op : BinaryOp) (lhs rhs : Surface)
  | assign (lhs rhs : Surface)
  | compound (op : Compound) (lhs rhs : Surface)
  | ternary (cond thenValue elseValue : Surface)
  | before (op : Parse.PrefixMark) (operand : Surface)
  | index (base position : Surface)
  | dot (base : Surface) (name : String)
  | arrow (base : Surface) (name : String)
  | behind (op : Step) (operand : Surface)

namespace Surface

def level : Surface → Nat
  | assign .. | compound .. => 0
  | ternary .. => 1
  | binary op _ _ => op.level
  | before .. => 8
  | num _ | var _ | call .. | index .. | dot .. | arrow .. | behind .. => 9

open Token.Word

/-- The words of an expression of level `level` where an expression of level `k` is required. -/
def fit (k level : Nat) (ws : List Word) : List Word :=
  if level < k then mark "(" :: (ws ++ [mark ")"]) else ws

mutual

/-- The words of an expression. Parentheses stand only around a part that binds looser than its
place requires. -/
def render : Surface → List Word
  | num value => [numeral value]
  | var x => [name x]
  | call f args => name f :: mark "(" :: (renderArgs args ++ [mark ")"])
  | binary op l r =>
    fit op.level l.level l.render ++ mark op.symbol :: fit (op.level + 1) r.level r.render
  | assign l r => fit 1 l.level l.render ++ mark "=" :: fit 0 r.level r.render
  | compound op l r => fit 1 l.level l.render ++ mark op.symbol :: fit 0 r.level r.render
  | ternary e x y =>
    fit 2 e.level e.render ++
      mark "?" :: (fit 0 x.level x.render ++ mark ":" :: fit 1 y.level y.render)
  | before op e => mark op.symbol :: fit 8 e.level e.render
  | index b i => fit 9 b.level b.render ++ mark "[" :: (fit 0 i.level i.render ++ [mark "]"])
  | dot b x => fit 9 b.level b.render ++ [mark ".", name x]
  | arrow b x => fit 9 b.level b.render ++ [mark "->", name x]
  | behind op b => fit 9 b.level b.render ++ [mark op.symbol]

def renderArgs : List Surface → List Word
  | [] => []
  | a :: as => fit 0 a.level a.render ++ renderOthers as

def renderOthers : List Surface → List Word
  | [] => []
  | a :: as => mark "," :: (fit 0 a.level a.render ++ renderOthers as)

end

def renderAt (k : Nat) (t : Surface) : List Word := fit k t.level t.render

def updated (op : BinaryOp) (target value : Node) : Node :=
  .assign (.bare {}) target (.binary (.bare {}) op target value)

def prefixed (op : Parse.PrefixMark) (e : Node) : Node :=
  match op with
  | .plus => e
  | .minus => .binary (.bare {}) .sub (.literal 0 {}) e
  | .address => .addr (.bare {}) e
  | .indirection => .deref (.bare {}) e
  | .negation => .not (.bare {}) e
  | .increment => updated .add e (.literal 1 {})
  | .decrement => updated .sub e (.literal 1 {})
  | .size => .sizeof (.bare {}) e

mutual

def desugar (scopes : Scopes) : Surface → Node
  | num value => .literal value {}
  | var x => .var (.bare {}) ((scopes.var? x).getD 0)
  | call f args => .call (.bare {}) f (desugarAll scopes args)
  | binary op l r => .binary (.bare {}) op (l.desugar scopes) (r.desugar scopes)
  | assign l r => .assign (.bare {}) (l.desugar scopes) (r.desugar scopes)
  | compound op l r => updated op.op (l.desugar scopes) (r.desugar scopes)
  | ternary e x y => .ternary (.bare {}) (e.desugar scopes) (x.desugar scopes) (y.desugar scopes)
  | before op e => prefixed op (e.desugar scopes)
  | index b i => .deref (.bare {}) (.binary (.bare {}) .add (b.desugar scopes) (i.desugar scopes))
  | dot b x => .member (.bare {}) (b.desugar scopes) x none
  | arrow b x => .member (.bare {}) (.deref (.bare {}) (b.desugar scopes)) x none
  | behind op b =>
    .binary (.bare {}) op.undo (updated op.op (b.desugar scopes) (.literal 1 {})) (.literal 1 {})

def desugarAll (scopes : Scopes) : List Surface → List Node
  | [] => []
  | a :: as => a.desugar scopes :: desugarAll scopes as

end

mutual

def isUpdatable (scopes : Scopes) : Surface → Bool
  | num _ | var _ => true
  | call _ args => allUpdatable scopes args
  | binary _ l r | assign l r => l.isUpdatable scopes && r.isUpdatable scopes
  | compound _ l r =>
    l.isUpdatable scopes && (r.isUpdatable scopes && !(l.desugar scopes).hasEffects)
  | ternary e x y =>
    e.isUpdatable scopes && (x.isUpdatable scopes && y.isUpdatable scopes)
  | before op e => e.isUpdatable scopes && !(op.changes && (e.desugar scopes).hasEffects)
  | index b i => b.isUpdatable scopes && i.isUpdatable scopes
  | dot b _ | arrow b _ => b.isUpdatable scopes
  | behind _ b => b.isUpdatable scopes && !(b.desugar scopes).hasEffects

def allUpdatable (scopes : Scopes) : List Surface → Bool
  | [] => true
  | a :: as => a.isUpdatable scopes && allUpdatable scopes as

end

mutual

def isDeclared (scopes : Scopes) (p : Program) : Surface → Bool
  | num _ => true
  | var x => (scopes.var? x).isSome
  | call f args => (p.function? f).isSome && allDeclared scopes p args
  | binary _ l r | assign l r | compound _ l r | index l r =>
    l.isDeclared scopes p && r.isDeclared scopes p
  | ternary e x y => e.isDeclared scopes p && (x.isDeclared scopes p && y.isDeclared scopes p)
  | before _ e | dot e _ | arrow e _ | behind _ e => e.isDeclared scopes p

def allDeclared (scopes : Scopes) (p : Program) : List Surface → Bool
  | [] => true
  | a :: as => a.isDeclared scopes p && allDeclared scopes p as

end

end Surface

end StackC
