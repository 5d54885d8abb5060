import StackC.Proofs.Grammar.Programs
import StackC.Proofs.Typing.Elaborated
import StackC.Proofs.Typing.Positions

namespace StackC

namespace Typing

/-- A pointer and an index that is counted in bytes: the index is a product by the size of what the
pointer points to. -/
def IsOffset (l r : Node) (t : CType) : Prop :=
  ∃ b k, t = .pointer b k ∧ l.type? = some t ∧
    ∃ i j index, r = .binary i .mul index (.num j (Int64.ofNat b.size)) ∧ index.Has CType.isInteger

def OperatorRule (op : BinaryOp) (l r : Node) (t : CType) : Prop :=
  let integers := t = .int ∧ l.Has CType.isInteger ∧ r.Has CType.isInteger
  match op with
  | .add => integers ∨ IsOffset l r t
  | .sub => integers ∨ IsOffset l r t ∨
      t = .long ∧ ∃ b m k, l.type? = some (.pointer b m) ∧ r.type? = some (.pointer b k)
  | .mul | .div | .mod | .eq | .ne | .lt | .le | .gt | .ge => integers
  | .logAnd | .logOr => t = .int ∧ l.Has CType.isScalar ∧ r.Has CType.isScalar

def NodeRule (c : Context) (n : Node) (t : CType) : Prop :=
  match n with
  | .num .. => t = .int ∨ t = .long
  | .var _ id => ∃ x, c.program.var? id = some x ∧ t = x.type
  | .member _ b name m => b.isReferable = true ∧ ∃ l k m', b.type? = some (.struct l k) ∧
      l.member? name = some m' ∧ m = some m' ∧ t = m'.type
  | .binary _ op l r => OperatorRule op l r t
  | .not _ e => t = .int ∧ e.Has CType.isScalar
  | .assign _ l r => l.isReferable = true ∧ l.type? = some t ∧ t.isArray = false ∧
      t.isStruct = false ∧ r.Has CType.isScalar
  | .ternary _ e x y => e.Has CType.isScalar ∧ ∃ u v, x.type? = some u ∧ y.type? = some v ∧
      (u.isInteger = true ∧ v.isInteger = true ∧ t = .int ∨ u = v ∧ t = u)
  | .addr _ e => e.isReferable = true ∧ ∃ u, e.type? = some u ∧
      (t = u.pointerTo ∨ ∃ b len k, u = .array b len k ∧ t = b.pointerTo)
  | .deref _ e => t.isVoid = false ∧ ∃ k, e.type? = some (.pointer t k)
  | .sizeof .. => False
  | .call _ name args => ∃ f, c.program.function? name = some f ∧ t = f.returnType ∧
      args.length ≤ maxArguments ∧
      (if f.variadic then f.params.length ≤ args.length else args.length = f.params.length) ∧
      ∀ a ∈ args, a.Has CType.isScalar
  | .stmtExpr _ items | .block _ items => t = lastType items
  | .exprStmt _ e => e.type? = some t
  | .ret _ e => t = .void ∧
      ∀ x ∈ e, if c.returnType.isVoid then x.Has CType.isVoid else x.Has CType.isScalar
  | .ifElse _ e _ _ | .whileLoop _ e _ | .forLoop _ _ e _ _ => t = .void ∧ e.Has CType.isScalar
  | .breakLoop _ | .continueLoop _ | .empty _ => t = .void

theorem Scaled.product {size : Nat} {n : Node} (h : Scaled size n) :
    ∃ i j index, n = .binary i .mul index (.num j (Int64.ofNat size)) ∧
      index.Has CType.isInteger := by
  cases h with
  | intro hi => exact ⟨_, _, _, rfl, hi⟩

/-- Operations on integers give integers. -/
theorem operatorRule_of_integers {op : BinaryOp} {l r : Node} (hop : op ≠ .logAnd ∧ op ≠ .logOr)
    (hl : l.Has CType.isInteger) (hr : r.Has CType.isInteger) : OperatorRule op l r .int := by
  cases op with
  | add | sub => exact .inl ⟨rfl, hl, hr⟩
  | logAnd => exact absurd rfl hop.1
  | logOr => exact absurd rfl hop.2
  | _ => exact ⟨rfl, hl, hr⟩

/-- Every typed node obeys the rule of its form. -/
theorem Typed.rule {c : Context} {n : Node} (h : Typed c n) :
    ∃ t, n.type? = some t ∧ NodeRule c n t := by
  cases h with
  | num ht => exact ⟨_, rfl, ht⟩
  | var hx => exact ⟨_, rfl, _, hx, rfl⟩
  | @member _ b name t m _ hr ht hm =>
    cases t with
    | struct l k => exact ⟨_, rfl, hr, l, k, m, ht, hm, rfl, rfl⟩
    | _ => exact nomatch hm
  | integer hop _ _ hlt hrt => exact ⟨_, rfl, operatorRule_of_integers hop hlt hrt⟩
  | logical hop _ _ hlt hrt =>
    refine ⟨_, rfl, ?_⟩
    rcases hop with rfl | rfl
    · exact ⟨rfl, hlt, hrt⟩
    · exact ⟨rfl, hlt, hrt⟩
  | offset hop _ _ hlt hrt =>
    refine ⟨_, rfl, ?_⟩
    rcases hop with rfl | rfl
    · exact .inr ⟨_, _, rfl, hlt, hrt.product⟩
    · exact .inr (.inl ⟨_, _, rfl, hlt, hrt.product⟩)
  | distance _ _ hlt hrt => exact ⟨_, rfl, .inr (.inr ⟨rfl, _, _, _, hlt, hrt⟩)⟩
  | not _ ht => exact ⟨_, rfl, rfl, ht⟩
  | assign _ _ hlr hlt ht hrt =>
    obtain ⟨ha, hs⟩ := Bool.or_eq_false_iff.mp ht
    exact ⟨_, rfl, hlr, hlt, ha, hs, hrt⟩
  | ternary _ _ _ het hxt hyt hv =>
    refine ⟨_, rfl, het, _, _, hxt, hyt, ?_⟩
    rcases hv with ⟨hi, rfl⟩ | hv
    · rw [Bool.and_eq_true] at hi
      exact .inl ⟨hi.1, hi.2, rfl⟩
    · exact .inr hv
  | addr _ hr ht => exact ⟨_, rfl, hr, _, ht, .inl rfl⟩
  | decayed _ hr ht => exact ⟨_, rfl, hr, _, ht, .inr ⟨_, _, _, rfl, rfl⟩⟩
  | deref _ het ht => exact ⟨_, rfl, ht, _, het⟩
  | call hf hn ha _ ht => exact ⟨_, rfl, _, hf, rfl, hn, ha, ht⟩
  | stmtExpr | block => exact ⟨_, rfl, rfl⟩
  | exprStmt _ ht => exact ⟨_, rfl, ht⟩
  | retVoid => exact ⟨_, rfl, rfl, fun x hx => absurd hx.symm (Option.some_ne_none x)⟩
  | ret _ ht =>
    refine ⟨_, rfl, rfl, ?_⟩
    rintro _ ⟨⟩
    exact ht
  | ifElse _ _ _ het | whileLoop _ _ het | forLoop _ _ _ _ het => exact ⟨_, rfl, rfl, het⟩
  | breakLoop | continueLoop | empty => exact ⟨_, rfl, rfl⟩

/-- The rules depend on the variables and on what callers see of the functions. -/
theorem NodeRule.elaborated {p : Program} {fs : List Function}
    (hfs : List.Forall₂ (ElaboratesFunction p) p.functions fs) {u : CType} {n : Node} {t : CType}
    (h : NodeRule ⟨p, u⟩ n t) : NodeRule ⟨{ p with functions := fs }, u⟩ n t := by
  cases n with
  | call i name args =>
    obtain ⟨f, hf, rfl, hn, ha, hs⟩ := h
    obtain ⟨f', hf', he⟩ := Lists.find?_of_forall₂ (List.forall₂_reverse_iff.mpr hfs)
      (q := (·.name == name)) (fun f f' he => by rw [he.name]) hf
    refine ⟨f', hf', he.returnType.symm, hn, ?_, hs⟩
    rw [he.variadic, he.params]
    exact ha
  | _ => exact h

end Typing

/-- In every body all nodes have a type and obey the rules, and arrays and differences of addresses
stand only where they may. Registers hold the parameters of every function with a body. -/
structure Program.WellTyped (p : Program) : Prop where
  params : ∀ f ∈ p.functions, f.body.isSome = true → f.params.length ≤ maxArguments
  nodes : ∀ f ∈ p.functions, ∀ body, f.body = some body → ∀ n : Node, n.Within body →
    ∃ t, n.type? = some t ∧ Typing.NodeRule ⟨p, f.returnType⟩ n t
  positions : ∀ f ∈ p.functions, ∀ body, f.body = some body → ∀ n : Node, n.Within body →
    n.Positioned
  roots : ∀ f ∈ p.functions, ∀ body, f.body = some body →
    ¬body.Has CType.isArray ∧ ∀ base, ¬body.IsByteDifference base

def Program.Orderly (p : Program) : Prop :=
  ∀ f ∈ p.functions, ∀ body, f.body = some body → body.Orderly

namespace Typing

/-- A typed body may stand in any place for a value. -/
theorem yields_sealed_elaborateFunction (p : Program) (f : Function)
    (h : ∀ body, f.body = some body → body.Orderly) :
    Yields (elaborateFunction p f) fun f' => ∀ body, f'.body = some body → Sealed body := by
  unfold elaborateFunction
  split
  · next hb =>
    refine .ok fun body h => ?_
    cases hb.symm.trans h
  · next body hb =>
    split
    · exact .error (located_declaration _ _)
    · refine .bind (yields_settled _ body (h body hb)) fun _ hs =>
        .bind (yields_sealed_decay hs) fun body' hs => .pure ?_
      rintro _ ⟨⟩
      exact hs

end Typing

theorem Shaped.isStatement_eq_true {S : Names} {b : Bool} {n : Node} (h : Shaped S .statement b n) :
    n.isStatement = true := by
  cases h with
  | _ => rfl

/-- In a well-formed tree statements stand where they belong. -/
theorem Shaped.orderly {S : Names} {r : Role} {b : Bool} {n : Node} (h : Shaped S r b n) :
    n.Orderly := by
  intro m hm x hx
  obtain ⟨r, b, hs⟩ := h.within hm
  cases hs with
  | stmtExpr hitems _ | block hitems => exact (hitems x hx).isStatement_eq_true
  | ifElse _ hy hz =>
    simp only [Node.statements, List.mem_cons, List.not_mem_nil, or_false] at hx
    rcases hx with rfl | rfl
    · exact hy.isStatement_eq_true
    · exact hz.isStatement_eq_true
  | whileLoop _ hbody =>
    obtain rfl := List.mem_singleton.mp hx
    exact hbody.isStatement_eq_true
  | forLoop hinit _ hupdate hbody =>
    simp only [Node.statements, List.mem_append, Option.mem_toList, List.mem_cons, List.not_mem_nil,
      or_false] at hx
    rcases hx with hx | hx | rfl
    · exact (hinit x hx).isStatement_eq_true
    · exact (hupdate x hx).isStatement_eq_true
    · exact hbody.isStatement_eq_true
  | _ => exact absurd hx List.not_mem_nil

namespace Program

theorem Valid.orderly {p : Program} (h : p.Valid) : p.Orderly :=
  fun f hf body hb => (h.bodies f hf body hb).shaped.orderly

/-- Elaborated programs obey the rules of typing. -/
theorem elaborate_wellTyped {p q : Program} (h : p.Orderly) (hq : p.elaborate = .ok q) :
    q.WellTyped := by
  have hyields : Yields p.elaborate WellTyped := by
    refine .bind (Typing.yields_mapM fun f hf => (Typing.yields_elaborateFunction p f).and
      (Typing.yields_sealed_elaborateFunction p f (h f hf))) fun fs hfs => .pure ?_
    have hforms := hfs.imp fun _ _ he => he.1
    have hbodies : ∀ f ∈ fs, ∀ body, f.body = some body → f.params.length ≤ maxArguments ∧
        Typing.Typed ⟨p, f.returnType⟩ body ∧ Typing.Sealed body := by
      intro f' hf' body hb
      obtain ⟨f, -, hform, hsealed⟩ := Lists.exists_left_of_forall₂ hfs hf'
      obtain ⟨hn, htyped, -⟩ := hform.bodies body hb
      exact ⟨hn, htyped, hsealed body hb⟩
    constructor
    case params =>
      intro f hf hb
      obtain ⟨body, hb⟩ := Option.isSome_iff_exists.mp hb
      exact (hbodies f hf body hb).1
    case nodes =>
      intro f hf body hb n hn
      obtain ⟨t, ht, hrule⟩ := ((hbodies f hf body hb).2.1.within hn).rule
      exact ⟨t, ht, hrule.elaborated hforms⟩
    case positions =>
      intro f hf body hb
      exact (hbodies f hf body hb).2.2.arranged
    case roots =>
      intro f hf body hb
      have hsealed := (hbodies f hf body hb).2.2
      exact ⟨hsealed.noArray, hsealed.noDifference⟩
  exact hyields.of_ok hq

/-- Arrays that decay, members, an index and a difference of pointers to structs. -/
def pointerSource : String :=
  "struct \x7b int k; char c[3]; \x7d a[2];
  int f(int n) \x7b
    int d = &a[n] - a; a[1].k = sizeof(a) > 8 ? d : 2;
    while (n && !d) \x7b n = n - 1; if (*a[n].c == 7) break; \x7d
    return (\x7b int m = f(n); m; \x7d); \x7d"

/-- The indices and the difference of pointers to structs obey the rules. -/
theorem elaborate_wellTyped_pointers :
    ∃ p q, parse pointerSource = .ok p ∧ p.Orderly ∧ p.elaborate = .ok q ∧
      (q.functions.map (·.body.isSome)) = [true] ∧ q.WellTyped := by
  have hcheck : (parse pointerSource).toOption.any (fun p => p.elaborate.toOption.any fun q =>
      q.functions.map (·.body.isSome) = [true]) = true := by
    decide +kernel
  obtain ⟨p, hp, hp'⟩ := exists_of_any hcheck
  obtain ⟨q, hq, hbodies⟩ := exists_of_any hp'
  rcases parse_cases pointerSource with ⟨_, hp', hvalid⟩ | ⟨_, he, -⟩
  · cases hp'.symm.trans hp
    have horderly := hvalid.orderly
    exact ⟨p, q, hp, horderly, hq, of_decide_eq_true hbodies, elaborate_wellTyped horderly hq⟩
  · cases he.symm.trans hp

end Program

end StackC
