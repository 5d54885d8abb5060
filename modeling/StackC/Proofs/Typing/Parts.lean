import StackC.Proofs.Typing.Typed

namespace StackC

namespace Node

def children : Node → List Node
  | num .. | var .. | breakLoop _ | continueLoop _ | empty _ => []
  | member _ e _ _ | not _ e | addr _ e | deref _ e | sizeof _ e | exprStmt _ e => [e]
  | binary _ _ l r | assign _ l r => [l, r]
  | ternary _ e x y | ifElse _ e x y => [e, x, y]
  | whileLoop _ e x => [e, x]
  | forLoop _ init e update x => init.toList ++ (e :: (update.toList ++ [x]))
  | ret _ e => e.toList
  | call _ _ items | stmtExpr _ items | block _ items => items

def header : Node → List Node
  | whileLoop _ e _ => [e]
  | forLoop _ init e update _ => init.toList ++ (e :: update.toList)
  | n => n.children

def loopBody? : Node → Option Node
  | whileLoop _ _ x | forLoop _ _ _ _ x => some x
  | _ => none

theorem mem_children {n x : Node} : x ∈ n.children ↔ x ∈ n.header ∨ n.loopBody? = some x := by
  cases n with
  | whileLoop i e y => simp [children, header, loopBody?, eq_comm]
  | forLoop i init e update y => simp [children, header, loopBody?, eq_comm, or_assoc]
  | _ => simp [header, loopBody?]

inductive Within (e : Node) : Node → Prop where
  | self : Within e e
  | child {n x} (hx : x ∈ n.children) (h : Within e x) : Within e n

theorem Within.trans {e n m : Node} (h : e.Within n) (hn : n.Within m) : e.Within m := by
  induction hn with
  | self => exact h
  | child hx _ ih => exact .child hx ih

mutual

def isPlain : Node → Bool
  | num .. | var .. => true
  | member _ e _ _ | not _ e | addr _ e | deref _ e => e.isPlain
  | binary _ _ l r | assign _ l r => l.isPlain && r.isPlain
  | ternary _ e x y => e.isPlain && x.isPlain && y.isPlain
  | call _ _ args => allPlain args
  | sizeof .. | stmtExpr .. | exprStmt .. | ret .. | block .. | ifElse .. | whileLoop ..
  | forLoop .. | breakLoop _ | continueLoop _ | empty _ => false

def allPlain : List Node → Bool
  | [] => true
  | e :: es => e.isPlain && allPlain es

end

theorem isPlain_of_mem {es : List Node} {e : Node} (h : allPlain es = true) (he : e ∈ es) :
    e.isPlain = true := by
  induction es with
  | nil => exact absurd he List.not_mem_nil
  | cons x es ih =>
    rw [allPlain, Bool.and_eq_true] at h
    rcases List.mem_cons.mp he with rfl | he
    · exact h.1
    · exact ih h.2 he

end Node

variable {S : Names} {r : Role} {b : Bool} {n x e : Node}

/-- What is not the body of a loop is well formed outside of the loop. -/
theorem Shaped.header (h : Shaped S r b n) (hx : x ∈ n.header) : ∃ r, Shaped S r b x := by
  cases h with
  | num | var | breakLoop | continueLoop | empty => exact nomatch hx
  | member he | not he | addr he | deref he | sizeof he | exprStmt he | whileLoop he =>
    obtain rfl := List.mem_singleton.mp hx
    exact ⟨_, he⟩
  | binary hl hr | assign hl hr =>
    simp only [Node.header, Node.children, List.mem_cons, List.not_mem_nil, or_false] at hx
    rcases hx with rfl | rfl
    · exact ⟨_, hl⟩
    · exact ⟨_, hr⟩
  | ternary he hx₁ hy | ifElse he hx₁ hy =>
    simp only [Node.header, Node.children, List.mem_cons, List.not_mem_nil, or_false] at hx
    rcases hx with rfl | rfl | rfl
    · exact ⟨_, he⟩
    · exact ⟨_, hx₁⟩
    · exact ⟨_, hy⟩
  | call _ hs | stmtExpr hs _ | block hs => exact ⟨_, hs x hx⟩
  | ret he => exact ⟨_, he x (Option.mem_toList.mp hx)⟩
  | forLoop hi he hu hb =>
    simp only [Node.header, List.mem_append, List.mem_cons, Option.mem_toList] at hx
    rcases hx with hx | rfl | hx
    · exact ⟨_, hi x hx⟩
    · exact ⟨_, he⟩
    · exact ⟨_, hu x hx⟩

/-- The body of a loop is a statement in which jumps may stand. -/
theorem Shaped.loopBody (h : Shaped S r b n) (hx : n.loopBody? = some x) :
    Shaped S .statement true x := by
  cases h with
  | whileLoop _ hb | forLoop _ _ _ hb =>
    cases hx
    exact hb
  | _ => exact nomatch hx

theorem Shaped.child (h : Shaped S r b n) (hx : x ∈ n.children) : ∃ r b, Shaped S r b x := by
  rcases Node.mem_children.mp hx with hx | hx
  · obtain ⟨r', h'⟩ := h.header hx
    exact ⟨r', b, h'⟩
  · exact ⟨_, _, h.loopBody hx⟩

/-- Every part of a well-formed tree is well formed in some role. -/
theorem Shaped.within (h : Shaped S r b n) (he : e.Within n) : ∃ r b, Shaped S r b e := by
  induction he generalizing r b with
  | self => exact ⟨r, b, h⟩
  | child hx _ ih =>
    obtain ⟨r', b', h'⟩ := h.child hx
    exact ih h'

/-- A tree without statements has no jumps, so it may stand in a loop or outside of loops. -/
theorem Shaped.of_isPlain (h : Shaped S r b e) (he : e.isPlain = true) (b' : Bool) :
    Shaped S .expression b' e := by
  induction h with
  | num => exact .num
  | var hv => exact .var hv
  | member _ ih => exact .member (ih he)
  | not _ ih => exact .not (ih he)
  | addr _ ih => exact .addr (ih he)
  | deref _ ih => exact .deref (ih he)
  | binary _ _ ihl ihr =>
    rw [Node.isPlain, Bool.and_eq_true] at he
    exact .binary (ihl he.1) (ihr he.2)
  | assign _ _ ihl ihr =>
    rw [Node.isPlain, Bool.and_eq_true] at he
    exact .assign (ihl he.1) (ihr he.2)
  | ternary _ _ _ ihe ihx ihy =>
    rw [Node.isPlain, Bool.and_eq_true, Bool.and_eq_true] at he
    exact .ternary (ihe he.1.1) (ihx he.1.2) (ihy he.2)
  | call hn _ ih =>
    rw [Node.isPlain] at he
    exact .call hn fun x hx => ih x hx (Node.isPlain_of_mem he hx)
  | sizeof | stmtExpr | exprStmt | ret | block | ifElse | whileLoop | forLoop | breakLoop
  | continueLoop | empty => exact nomatch he

namespace Typing

variable {c : Context}

/-- The trees right below a typed one are typed. -/
theorem Typed.child (h : Typed c n) (hx : x ∈ n.children) : Typed c x := by
  cases h with
  | num | var | breakLoop | continueLoop | empty | retVoid => exact nomatch hx
  | member he | not he | addr he | decayed he | deref he | exprStmt he | ret he =>
    obtain rfl := List.mem_singleton.mp hx
    exact he
  | integer _ hl hr | logical _ hl hr | offset _ hl hr | distance hl hr | assign hl hr
  | whileLoop hl hr =>
    simp only [Node.children, List.mem_cons, List.not_mem_nil, or_false] at hx
    rcases hx with rfl | rfl
    · exact hl
    · exact hr
  | ternary he hx₁ hy | ifElse he hx₁ hy =>
    simp only [Node.children, List.mem_cons, List.not_mem_nil, or_false] at hx
    rcases hx with rfl | rfl | rfl
    · exact he
    · exact hx₁
    · exact hy
  | call _ _ _ hs | stmtExpr hs | block hs => exact hs x hx
  | forLoop hi he hu hb =>
    simp only [Node.children, List.mem_append, List.mem_cons, List.not_mem_nil, or_false,
      Option.mem_toList] at hx
    rcases hx with hx | rfl | hx | rfl
    · exact hi x hx
    · exact he
    · exact hu x hx
    · exact hb

theorem Typed.within (h : Typed c n) (he : e.Within n) : Typed c e := by
  induction he with
  | self => exact h
  | child hx _ ih => exact ih (h.child hx)

end Typing

end StackC
