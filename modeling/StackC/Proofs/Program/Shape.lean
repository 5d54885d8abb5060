import StackC.Assembly.Basic
import StackC.Initializer.Basic
import StackC.Program.Basic

/-!
Well-formed types and trees. A type is sound if its sizes are those of its parts, its structs are
laid out by their fields, and no object in it is `void`. A tree is shaped if expressions and
statements stand in their places, its names are declared, statement expressions have a value, and
jumps out of loops stand in loops.
-/

namespace StackC

namespace CType

/-- The size of every part of the type is the one its shape gives, and its structs are laid out by
fields with names of their own. -/
inductive Sound : CType → Prop where
  | primitive (k : Primitive) : Sound (.primitive k k.size)
  | pointer {b} (hb : Sound b) : Sound (.pointer b pointerSize)
  | array {b len} (hb : Sound b) (hv : b.isVoid = false) : Sound
    (.array b len (b.size * len.getD 0))
  | struct {id tag fields l} (hl : Layout.ofFields id tag fields = .ok l)
      (hf : ∀ f ∈ fields, Sound f.2) (hv : ∀ f ∈ fields, f.2.isVoid = false) :
      Sound (.struct l (layoutSize l))

theorem sound_ofPrimitive (k : Primitive) : (ofPrimitive k).Sound := .primitive k

theorem Sound.pointerTo {t : CType} (h : t.Sound) : t.pointerTo.Sound := .pointer h

theorem Sound.arrayOf {t : CType} (h : t.Sound) (hv : t.isVoid = false) (len : Option Nat) :
    (t.arrayOf len).Sound :=
  .array h hv

theorem Sound.base {b : CType} {n : Nat} (h : (CType.pointer b n).Sound) : b.Sound := by
  cases h with
  | pointer hb => exact hb

theorem Sound.element {b : CType} {len : Option Nat} {n : Nat} (h : (CType.array b len n).Sound) :
    b.Sound ∧ b.isVoid = false := by
  cases h with
  | array hb hv => exact ⟨hb, hv⟩

theorem mem_pack {offset : Nat} {fields : List (String × CType)} {m : Member CType}
    (h : m ∈ Layout.pack offset fields) : (m.name, m.type) ∈ fields := by
  induction fields generalizing offset with
  | nil => exact nomatch h
  | cons f fields ih =>
    rcases List.mem_cons.mp h with rfl | h
    · exact List.mem_cons_self
    · exact List.mem_cons_of_mem _ (ih h)

/-- A layout packs its fields from the start. -/
theorem members_ofFields {id : Nat} {tag : Option String} {fields : List (String × CType)}
    {l : Layout CType} (h : Layout.ofFields id tag fields = .ok l) :
    l.members = Layout.pack 0 fields := by
  unfold Layout.ofFields at h
  split at h
  · exact nomatch h
  · cases h
    rfl

/-- The members of a sound struct are sound. -/
theorem Sound.member {t : CType} {name : String} {m : Member CType} (h : t.Sound)
    (hm : t.member? name = some m) : m.type.Sound := by
  cases h with
  | struct hl hf hv =>
    have hmem := List.mem_of_find?_eq_some hm
    rw [members_ofFields hl] at hmem
    exact hf _ (mem_pack hmem)
  | _ => exact nomatch hm

theorem plain_of_scalar {t : CType} (h : t.isScalar = true) :
    (t.isArray || t.isStruct) = false := by
  cases t with
  | primitive | pointer => rfl
  | array | struct => exact nomatch h

/-- Objects of a sound type that is neither an array nor a struct fit a register. -/
theorem Sound.width {t : CType} (h : t.Sound) (ht : (t.isArray || t.isStruct) = false) :
    ∃ w, Assembly.Width.ofBytes? t.size = some w := by
  cases h with
  | primitive k => cases k <;> exact ⟨_, rfl⟩
  | pointer hb => exact ⟨.quad, rfl⟩
  | array hb => exact nomatch ht
  | struct hl => exact nomatch ht

end CType

structure Names where
  vars : VarId → Prop
  functions : String → Prop

inductive Role where
  | expression
  | statement

/-- `Shaped S r inLoop n`: the tree `n` is well formed in the role `r`; jumps out of a loop may
stand in it outside of its own loops only if `inLoop` holds. -/
inductive Shaped (S : Names) : Role → Bool → Node → Prop where
  | num {b i v} : Shaped S .expression b (.num i v)
  | var {b i id} (hv : S.vars id) : Shaped S .expression b (.var i id)
  | member {b i e name m} (he : Shaped S .expression b e) :
      Shaped S .expression b (.member i e name m)
  | binary {b i op l r} (hl : Shaped S .expression b l) (hr : Shaped S .expression b r) :
      Shaped S .expression b (.binary i op l r)
  | not {b i e} (he : Shaped S .expression b e) : Shaped S .expression b (.not i e)
  | assign {b i l r} (hl : Shaped S .expression b l) (hr : Shaped S .expression b r) :
      Shaped S .expression b (.assign i l r)
  | ternary {b i e x y} (he : Shaped S .expression b e) (hx : Shaped S .expression b x)
      (hy : Shaped S .expression b y) : Shaped S .expression b (.ternary i e x y)
  | addr {b i e} (he : Shaped S .expression b e) : Shaped S .expression b (.addr i e)
  | deref {b i e} (he : Shaped S .expression b e) : Shaped S .expression b (.deref i e)
  | sizeof {b i e} (he : Shaped S .expression b e) : Shaped S .expression b (.sizeof i e)
  | call {b i name args} (hn : S.functions name)
      (hs : ∀ e ∈ args, Shaped S .expression b e) : Shaped S .expression b (.call i name args)
  | stmtExpr {b i items} (hs : ∀ x ∈ items, Shaped S .statement b x)
      (hl : ∃ j e, items.getLast? = some (.exprStmt j e)) :
      Shaped S .expression b (.stmtExpr i items)
  | exprStmt {b i e} (he : Shaped S .expression b e) : Shaped S .statement b (.exprStmt i e)
  | ret {b i e} (he : ∀ x ∈ e, Shaped S .expression b x) : Shaped S .statement b (.ret i e)
  | block {b i items} (hs : ∀ x ∈ items, Shaped S .statement b x) :
      Shaped S .statement b (.block i items)
  | ifElse {b i e x y} (he : Shaped S .expression b e) (hx : Shaped S .statement b x)
      (hy : Shaped S .statement b y) : Shaped S .statement b (.ifElse i e x y)
  | whileLoop {b i e x} (he : Shaped S .expression b e) (hx : Shaped S .statement true x) :
      Shaped S .statement b (.whileLoop i e x)
  | forLoop {b i init e update x} (hi : ∀ n ∈ init, Shaped S .statement b n)
      (he : Shaped S .expression b e) (hu : ∀ n ∈ update, Shaped S .statement b n)
      (hx : Shaped S .statement true x) : Shaped S .statement b (.forLoop i init e update x)
  | breakLoop {i} : Shaped S .statement true (.breakLoop i)
  | continueLoop {i} : Shaped S .statement true (.continueLoop i)
  | empty {b i} : Shaped S .statement b (.empty i)

/-- A statement is no place in memory. -/
theorem Shaped.isReferable_eq_false {S : Names} {b : Bool} {n : Node}
    (h : Shaped S .statement b n) : n.isReferable = false := by
  cases h <;> rfl

/-- A tree stays well formed when more names are declared. -/
theorem Shaped.mono {S T : Names} {r : Role} {b : Bool} {n : Node} (h : Shaped S r b n)
    (hv : ∀ id, S.vars id → T.vars id) (hf : ∀ name, S.functions name → T.functions name) :
    Shaped T r b n := by
  induction h with
  | num => exact .num
  | var h => exact .var (hv _ h)
  | member he ih => exact .member ih
  | binary hl hr ihl ihr => exact .binary ihl ihr
  | not he ih => exact .not ih
  | assign hl hr ihl ihr => exact .assign ihl ihr
  | ternary he hx hy ihe ihx ihy => exact .ternary ihe ihx ihy
  | addr he ih => exact .addr ih
  | deref he ih => exact .deref ih
  | sizeof he ih => exact .sizeof ih
  | call hn hs ih => exact .call (hf _ hn) ih
  | stmtExpr hs hl ih => exact .stmtExpr ih hl
  | exprStmt he ih => exact .exprStmt ih
  | ret he ih => exact .ret ih
  | block hs ih => exact .block ih
  | ifElse he hx hy ihe ihx ihy => exact .ifElse ihe ihx ihy
  | whileLoop he hx ihe ihx => exact .whileLoop ihe ihx
  | forLoop hi he hu hx ihi ihe ihu ihx => exact .forLoop ihi ihe ihu ihx
  | breakLoop => exact .breakLoop
  | continueLoop => exact .continueLoop
  | empty => exact .empty

inductive Initializer.All (P : Node → Prop) : Initializer → Prop where
  | expr {e} (he : P e) : All P (.expr e)
  | str {bytes p} : All P (.str bytes p)
  | list {items p} (hs : ∀ i ∈ items, All P i) : All P (.list items p)

theorem Initializer.All.mono {P Q : Node → Prop} {i : Initializer} (h : i.All P)
    (hpq : ∀ n, P n → Q n) : i.All Q := by
  induction h with
  | expr he => exact .expr (hpq _ he)
  | str => exact .str
  | list hs ih => exact .list ih

end StackC
