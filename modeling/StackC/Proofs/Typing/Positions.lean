import StackC.Proofs.Typing.Parts

/-!
Where typed trees may stand. The elaboration leaves no array in the place of a value, and the
difference of two addresses stands nowhere but in the division that makes a number of elements of
it.
-/

namespace StackC

namespace Node

def isStatement : Node → Bool
  | exprStmt .. | ret .. | block .. | ifElse .. | whileLoop .. | forLoop .. | breakLoop _
  | continueLoop _ | empty _ => true
  | num .. | var .. | member .. | binary .. | not .. | assign .. | ternary .. | addr .. | deref ..
  | sizeof .. | call .. | stmtExpr .. => false

def statements : Node → List Node
  | stmtExpr _ items | block _ items => items
  | ifElse _ _ x y => [x, y]
  | whileLoop _ _ x => [x]
  | forLoop _ init _ update x => init.toList ++ (update.toList ++ [x])
  | _ => []

def Orderly (n : Node) : Prop := ∀ m : Node, m.Within n → ∀ x ∈ m.statements, x.isStatement = true

def IsByteDifference (n : Node) (base : CType) : Prop :=
  ∃ i l r m k, n = .binary i .sub l r ∧ l.type? = some (.pointer base m) ∧
    r.type? = some (.pointer base k)

/-- What may stand right below the root: a difference in bytes only where it is divided by the
size of what the pointers point to, and an array only where its address is taken. -/
structure Positioned (n : Node) : Prop where
  difference : ∀ x ∈ n.children, ∀ base, x.IsByteDifference base →
    base.size ≠ 0 ∧ ∃ i j, n = .binary i .div x (.num j (Int64.ofNat base.size))
  array : ∀ x ∈ n.children, x.Has CType.isArray → ∃ i, n = .addr i x

def Arranged (n : Node) : Prop := ∀ m : Node, m.Within n → m.Positioned

theorem Orderly.child {n x : Node} (h : n.Orderly) (hx : x ∈ n.children) : x.Orderly :=
  fun m hm => h m (.child hx hm)

theorem Orderly.statement {n x : Node} (h : n.Orderly) (hx : x ∈ n.statements) :
    x.isStatement = true :=
  h n .self x hx

theorem not_has {n : Node} {t : CType} {test : CType → Bool} (h : n.type? = some t)
    (ht : test t = false) : ¬n.Has test := by
  rintro ⟨u, hu, htest⟩
  cases h.symm.trans hu
  exact absurd htest (Bool.eq_false_iff.mp ht)

end Node

namespace Typing

open Node

structure Sealed (n : Node) : Prop where
  arranged : n.Arranged
  noDifference : ∀ base, ¬n.IsByteDifference base
  noArray : ¬n.Has CType.isArray

/-- What becomes of the tree `n`: unless it was a statement it may still denote an array. -/
structure Settled (n n' : Node) : Prop where
  arranged : n'.Arranged
  noDifference : ∀ base, ¬n'.IsByteDifference base
  statement : n.isStatement = true → ¬n'.Has CType.isArray

theorem Settled.sealed {n n' : Node} (h : Settled n n') (ha : ¬n'.Has CType.isArray) : Sealed n' :=
  ⟨h.arranged, h.noDifference, ha⟩

/-- The parts of a tree are those right below the root and theirs. -/
theorem arranged_of_children {n : Node} (h : n.Positioned) (hs : ∀ x ∈ n.children, x.Arranged) :
    n.Arranged := by
  intro m hm
  cases hm with
  | self => exact h
  | child hx hm => exact hs _ hx m hm

/-- Below a root that is neither a division nor an address there are only values. -/
theorem arranged_of_sealed {n : Node} (h : ∀ x ∈ n.children, Sealed x) : n.Arranged := by
  refine arranged_of_children ⟨fun x hx base hd => ?_, fun x hx ha => ?_⟩ fun x hx =>
    (h x hx).arranged
  · exact absurd hd ((h x hx).noDifference base)
  · exact absurd ha (h x hx).noArray

theorem arranged_addr {i : Info} {e : Node} (hp : e.Arranged)
    (hd : ∀ base, ¬e.IsByteDifference base) : (Node.addr i e).Arranged := by
  refine arranged_of_children ⟨fun x hx base hb => ?_, fun x hx _ => ?_⟩ fun x hx => ?_
  · obtain rfl := List.mem_singleton.mp hx
    exact absurd hb (hd base)
  · obtain rfl := List.mem_singleton.mp hx
    exact ⟨i, rfl⟩
  · obtain rfl := List.mem_singleton.mp hx
    exact hp

theorem not_difference {n : Node} (h : ∀ i l r, n ≠ .binary i .sub l r) (base : CType) :
    ¬n.IsByteDifference base := by
  rintro ⟨i, l, r, _, _, rfl, _⟩
  exact h i l r rfl

theorem sealed_sizeLiteral (size : Nat) (p : Location) : Sealed (sizeLiteral size p) :=
  ⟨arranged_of_sealed fun _ hx => absurd hx List.not_mem_nil, not_difference nofun,
    not_has (t := .int) rfl rfl⟩

theorem arranged_binary {i : Info} {op : BinaryOp} {l r : Node} (hl : Sealed l) (hr : Sealed r) :
    (Node.binary i op l r).Arranged :=
  arranged_of_sealed (List.forall_mem_cons.mpr ⟨hl, List.forall_mem_singleton.mpr hr⟩)

theorem sealed_binary {i : Info} {t : CType} {op : BinaryOp} {l r : Node} (hl : Sealed l)
    (hr : Sealed r) (hd : ∀ base, ¬(Node.binary i op l r).IsByteDifference base)
    (hi : i.type = some t) (ht : t.isArray = false) : Sealed (.binary i op l r) :=
  ⟨arranged_binary hl hr, hd, not_has hi ht⟩

/-- An operation on integers is no difference of addresses. -/
theorem integer_not_difference {i : Info} {op : BinaryOp} {l r : Node}
    (hl : l.Has CType.isInteger) (base : CType) :
    ¬(Node.binary i op l r).IsByteDifference base := by
  rintro ⟨_, _, _, m, _, he, hlt, _⟩
  cases he
  exact not_has hlt (show CType.isInteger (.pointer base m) = false from rfl) hl

theorem yields_sealed_decay {n n' : Node} (h : Settled n n') : Yields (decay n') Sealed := by
  refine .bind (yields_typeOf n') fun t ht => ?_
  split
  · split
    · refine .pure ⟨arranged_addr h.arranged h.noDifference, not_difference ?_, not_has rfl rfl⟩
      intro i l r hsub
      cases hsub
    · exact .throw (located_typing _ _)
  · next hna =>
    refine .pure (h.sealed (not_has ht ?_))
    cases t with
    | array b len k => exact absurd rfl (hna b len k)
    | _ => rfl

theorem yields_sealed_addIndex {l r : Node} {t u : CType} (p : Location) (hl : Sealed l)
    (hr : Sealed r) (ht : t.isPointer = true) : Yields (addIndex l r t u p) Sealed := by
  unfold addIndex
  split
  · have hscaled (size : Nat) : Sealed (scaled r size p) :=
      sealed_binary hr (sealed_sizeLiteral size p) (not_difference nofun) rfl rfl
    refine .ok (sealed_binary hl (hscaled _) (not_difference nofun) rfl ?_)
    cases t with
    | pointer b k => rfl
    | _ => exact nomatch ht
  · exact .error (located_typing _ _)

theorem yields_sealed_add {l r : Node} (p : Location) (hl : Sealed l) (hr : Sealed r) :
    Yields (add l r p) Sealed := by
  refine .bind (yields_typeOf l) fun t ht => .bind (yields_typeOf r) fun u hu => ?_
  split
  · exact .pure (sealed_binary hl hr (not_difference nofun) rfl rfl)
  · split
    · next hp _ => exact yields_sealed_addIndex p hl hr hp
    · next _ hp => exact yields_sealed_addIndex p hr hl hp
    · exact .throw (located_typing _ _)

/-- The number of elements between two pointers. -/
theorem sealed_distance {l r : Node} {a : CType} {m : Nat} (p : Location) (hl : Sealed l)
    (hr : Sealed r) (hlt : l.type? = some (.pointer a m)) (ha : a.size ≠ 0) :
    Sealed (intBinary .div (.binary (.typed p .long) .sub l r) (sizeLiteral a.size p) p) := by
  have hsize := sealed_sizeLiteral a.size p
  refine ⟨arranged_of_children ⟨?_, ?_⟩ ?_, not_difference nofun, not_has (t := .int) rfl rfl⟩
  · refine List.forall_mem_cons.mpr
      ⟨fun base hd => ?_, List.forall_mem_singleton.mpr fun base hd => ?_⟩
    · -- The type of the left pointer tells which size the difference is divided by.
      obtain ⟨_, _, _, _, _, he, hbase, _⟩ := hd
      cases he
      cases hlt.symm.trans hbase
      exact ⟨ha, _, _, rfl⟩
    · exact absurd hd (hsize.noDifference base)
  · have hlong : ¬(Node.binary (.typed p .long) .sub l r).Has CType.isArray :=
      not_has (t := .long) rfl rfl
    exact List.forall_mem_cons.mpr ⟨fun h => absurd h hlong,
      List.forall_mem_singleton.mpr fun h => absurd h hsize.noArray⟩
  · exact List.forall_mem_cons.mpr ⟨arranged_binary hl hr,
      List.forall_mem_singleton.mpr hsize.arranged⟩

theorem yields_sealed_sub {l r : Node} (p : Location) (hl : Sealed l) (hr : Sealed r) :
    Yields (sub l r p) Sealed := by
  refine .bind (yields_typeOf l) fun t ht => .bind (yields_typeOf r) fun u hu => ?_
  split
  · next hi =>
    rw [Bool.and_eq_true] at hi
    exact .pure (sealed_binary hl hr (integer_not_difference ⟨t, ht, hi.1⟩) rfl rfl)
  · split
    · split
      · exact .throw (located_typing _ _)
      · split
        · exact .throw (located_typing _ _)
        · next hsize => exact .pure (sealed_distance p hl hr ht hsize)
    · split
      · have hscaled (size : Nat) : Sealed (scaled r size p) :=
          sealed_binary hr (sealed_sizeLiteral _ p) (not_difference nofun) rfl rfl
        refine .pure (sealed_binary hl (hscaled _) ?_ rfl rfl)
        rintro base ⟨_, _, _, _, _, he, _, hrt⟩
        cases he
        exact nomatch hrt
      · exact .throw (located_typing _ _)
    · exact .throw (located_typing _ _)

theorem yields_sealed_binary (op : BinaryOp) {l r : Node} (p : Location) (hl : Sealed l)
    (hr : Sealed r) : Yields (binary op l r p) Sealed := by
  cases op with
  | add => exact yields_sealed_add p hl hr
  | sub => exact yields_sealed_sub p hl hr
  | logAnd | logOr =>
    exact .bind (yields_requireScalar l _) fun _ _ => .bind (yields_requireScalar r _) fun _ _ =>
      .pure (sealed_binary hl hr (not_difference nofun) rfl rfl)
  | _ =>
    exact .bind (yields_requireInteger l _) fun _ _ => .bind (yields_requireInteger r _) fun _ _ =>
      .pure (sealed_binary hl hr (not_difference nofun) rfl rfl)

theorem Sealed.settled {n n' : Node} (h : Sealed n') : Settled n n' :=
  ⟨h.arranged, h.noDifference, fun _ => h.noArray⟩

/-- An operand that has to be a scalar, and what is made of it. -/
theorem yields_sealed_scalar {α : Type} {n n' : Node} {fault : CType → TypingFault}
    {k : Node → Except Diagnostic α} {Q : α → Prop} (h : Settled n n')
    (hk : ∀ e, Sealed e → Yields (k e) Q) :
    Yields (decay n' >>= fun e => scalarValue fault e >>= k) Q := by
  refine .bind (yields_sealed_decay h) fun e he => .bind (yields_scalarValue fault e) ?_
  rintro _ ⟨rfl, -⟩
  exact hk _ he

theorem sealed_of_forall₂ {ns ns' : List Node} (h : List.Forall₂ Settled ns ns')
    (hs : ∀ x ∈ ns, x.isStatement = true) : ∀ x ∈ ns', Sealed x := by
  intro x hx
  obtain ⟨y, hy, hxy⟩ := Lists.exists_left_of_forall₂ h hx
  exact hxy.sealed (hxy.statement (hs y hy))

/-- A sequence of values is none of an array. -/
theorem isArray_lastType {items : List Node} (h : ∀ x ∈ items, Sealed x) :
    (lastType items).isArray = false := by
  unfold lastType
  cases hl : items.getLast? with
  | none => rfl
  | some x =>
    have hx := (h x (List.mem_of_getLast? hl)).noArray
    cases ht : x.type? with
    | none => simp [ht, CType.isArray, CType.void, CType.ofPrimitive]
    | some t =>
      have ha : t.isArray = false := Bool.eq_false_iff.mpr fun ha => hx ⟨t, ht, ha⟩
      simpa [ht] using ha

mutual

theorem yields_settled (c : Context) (n : Node) (h : n.Orderly) :
    Yields (elaborate c n) (Settled n) :=
  match n with
  | .num i v => .ok ⟨arranged_of_sealed nofun, not_difference nofun, nofun⟩
  | .var i id => by
    rw [elaborate]
    split
    · exact .ok ⟨arranged_of_sealed nofun, not_difference nofun, nofun⟩
    · exact .error (located_typing _ _)
  | .member i b name m => by
    have hb := h.child (x := b) List.mem_cons_self
    refine .bind (yields_settled c b hb) fun b' hb => .bind (yields_typeOf b') fun t ht => ?_
    split
    · exact .throw (located_typing _ _)
    · next hstruct =>
      have hna : t.isArray = false := by
        cases t with
        | array b len k => exact absurd rfl hstruct
        | _ => rfl
      split
      · exact .throw (located_typing _ _)
      · split
        · exact .throw (located_typing _ _)
        · refine .pure ⟨arranged_of_sealed ?_, not_difference nofun, nofun⟩
          exact List.forall_mem_singleton.mpr (hb.sealed (not_has ht hna))
  | .binary i op l r => by
    have hl := h.child (x := l) List.mem_cons_self
    have hr := h.child (x := r) (List.mem_cons_of_mem _ List.mem_cons_self)
    refine .bind (yields_settled c l hl) fun _ hl => .bind (yields_sealed_decay hl) fun _ hl =>
      .bind (yields_settled c r hr) fun _ hr => .bind (yields_sealed_decay hr) fun _ hr => ?_
    exact (yields_sealed_binary op i.place hl hr).mono fun _ h => h.settled
  | .not i e => by
    refine .bind (yields_settled c e (h.child List.mem_cons_self)) fun _ he =>
      .bind (yields_sealed_decay he) fun e' he => .bind (yields_requireScalar e' _) fun _ _ => ?_
    exact .pure ⟨arranged_of_sealed (List.forall_mem_singleton.mpr he), not_difference nofun, nofun⟩
  | .assign i l r => by
    have hl := h.child (x := l) List.mem_cons_self
    have hr := h.child (x := r) (List.mem_cons_of_mem _ List.mem_cons_self)
    refine .bind (yields_settled c l hl) fun l' hl => .bind (yields_targetType l') fun t ht =>
      .bind (yields_settled c r hr) fun _ hr => yields_sealed_scalar hr fun r' hr => ?_
    obtain ⟨-, ht, hplain⟩ := ht
    have hna : t.isArray = false := (Bool.or_eq_false_iff.mp hplain).1
    refine .pure ⟨arranged_of_sealed ?_, not_difference nofun, nofun⟩
    exact List.forall_mem_cons.mpr ⟨hl.sealed (not_has ht hna), List.forall_mem_singleton.mpr hr⟩
  | .ternary i e x y => by
    have he := h.child (x := e) List.mem_cons_self
    have hx := h.child (x := x) (List.mem_cons_of_mem _ List.mem_cons_self)
    have hy := h.child (x := y) (List.mem_cons_of_mem _ (List.mem_cons_of_mem _ List.mem_cons_self))
    refine .bind (yields_settled c e he) fun _ he => yields_sealed_scalar he fun e' he => ?_
    refine .bind (yields_settled c x hx) fun _ hx => .bind (yields_sealed_decay hx) fun x' hx =>
      .bind (yields_settled c y hy) fun _ hy => .bind (yields_sealed_decay hy) fun y' hy =>
      .bind (yields_branchType x' y' _) fun v _ => ?_
    refine .pure ⟨arranged_of_sealed ?_, not_difference nofun, nofun⟩
    exact List.forall_mem_cons.mpr
      ⟨he, List.forall_mem_cons.mpr ⟨hx, List.forall_mem_singleton.mpr hy⟩⟩
  | .addr i e => by
    refine .bind (yields_settled c e (h.child List.mem_cons_self)) fun e' he => ?_
    unfold address
    split
    · exact .throw (located_typing _ _)
    · refine .bind (yields_typeOf e') fun t ht => ?_
      exact .pure ⟨arranged_addr he.arranged he.noDifference, not_difference nofun, nofun⟩
  | .deref i e => by
    refine .bind (yields_settled c e (h.child List.mem_cons_self)) fun _ he =>
      .bind (yields_sealed_decay he) fun e' he => .bind (yields_typeOf e') fun t _ => ?_
    split
    · split
      · exact .throw (located_typing _ _)
      · exact .pure ⟨arranged_of_sealed (List.forall_mem_singleton.mpr he),
          not_difference nofun, nofun⟩
    · exact .throw (located_typing _ _)
  | .sizeof i e => by
    refine .bind (yields_settled c e (h.child List.mem_cons_self)) fun e' _ =>
      .bind (yields_typeOf e') fun t _ => ?_
    split
    · exact .throw (located_typing _ _)
    · exact .pure (sealed_sizeLiteral _ _).settled
  | .call i name args => by
    refine .bind (yields_callType name args.length _) fun t _ => ?_
    refine .bind (yields_settledArguments c args fun x hx => h.child hx) fun args' hs => ?_
    exact .pure ⟨arranged_of_sealed hs, not_difference nofun, nofun⟩
  | .stmtExpr i items => by
    refine .bind (yields_settledAll c items fun x hx => h.child hx) fun items' hs => ?_
    have hsealed := sealed_of_forall₂ hs fun x hx => h.statement hx
    exact .pure ⟨arranged_of_sealed hsealed, not_difference nofun, nofun⟩
  | .exprStmt i e => by
    refine .bind (yields_settled c e (h.child List.mem_cons_self)) fun _ he =>
      .bind (yields_sealed_decay he) fun e' he => .bind (yields_typeOf e') fun t ht => ?_
    refine .pure ⟨arranged_of_sealed (List.forall_mem_singleton.mpr he), not_difference nofun, ?_⟩
    exact fun _ => not_has rfl (Bool.eq_false_iff.mpr fun ha => he.noArray ⟨t, ht, ha⟩)
  | .ret i none =>
    .pure ⟨arranged_of_sealed nofun, not_difference nofun, fun _ => not_has rfl rfl⟩
  | .ret i (some e) => by
    refine .bind (yields_settled c e (h.child List.mem_cons_self)) fun _ he =>
      .bind (yields_sealed_decay he) fun e' he => .bind (yields_returnedValue e') ?_
    rintro _ ⟨rfl, -⟩
    exact .pure ⟨arranged_of_sealed (List.forall_mem_singleton.mpr he), not_difference nofun,
      fun _ => not_has rfl rfl⟩
  | .block i items => by
    refine .bind (yields_settledAll c items fun x hx => h.child hx) fun items' hs => ?_
    have hsealed := sealed_of_forall₂ hs fun x hx => h.statement hx
    exact .pure ⟨arranged_of_sealed hsealed, not_difference nofun,
      fun _ => not_has rfl (isArray_lastType hsealed)⟩
  | .ifElse i e x y => by
    have he := h.child (x := e) List.mem_cons_self
    have hx := h.child (x := x) (List.mem_cons_of_mem _ List.mem_cons_self)
    have hy := h.child (x := y) (List.mem_cons_of_mem _ (List.mem_cons_of_mem _ List.mem_cons_self))
    refine .bind (yields_settled c e he) fun _ he => yields_sealed_scalar he fun e' he => ?_
    refine .bind (yields_settled c x hx) fun x' hx => .bind (yields_settled c y hy) fun y' hy => ?_
    have hx := hx.sealed (hx.statement (h.statement List.mem_cons_self))
    have hy := hy.sealed (hy.statement (h.statement (List.mem_cons_of_mem _ List.mem_cons_self)))
    refine .pure ⟨arranged_of_sealed ?_, not_difference nofun, fun _ => not_has rfl rfl⟩
    exact List.forall_mem_cons.mpr
      ⟨he, List.forall_mem_cons.mpr ⟨hx, List.forall_mem_singleton.mpr hy⟩⟩
  | .whileLoop i e x => by
    have he := h.child (x := e) List.mem_cons_self
    have hx := h.child (x := x) (List.mem_cons_of_mem _ List.mem_cons_self)
    refine .bind (yields_settled c e he) fun _ he => yields_sealed_scalar he fun e' he => ?_
    refine .bind (yields_settled c x hx) fun x' hx => ?_
    have hx := hx.sealed (hx.statement (h.statement List.mem_cons_self))
    refine .pure ⟨arranged_of_sealed ?_, not_difference nofun, fun _ => not_has rfl rfl⟩
    exact List.forall_mem_cons.mpr ⟨he, List.forall_mem_singleton.mpr hx⟩
  | .forLoop i init e update x => by
    have hchild (y : Node) (hy : y ∈ init ∨ y = e ∨ y ∈ update ∨ y = x) : y.Orderly :=
      h.child (by simpa [children] using hy)
    have hstatement (y : Node) (hy : y ∈ init ∨ y ∈ update ∨ y = x) : y.isStatement = true :=
      h.statement (by simpa [statements] using hy)
    refine .bind (yields_settledOption c init fun y hy => hchild y (.inl hy)) fun init' hi => ?_
    refine .bind (yields_settled c e (hchild e (.inr (.inl rfl)))) fun _ he =>
      yields_sealed_scalar he fun e' he => ?_
    refine .bind (yields_settledOption c update fun y hy => hchild y (.inr (.inr (.inl hy))))
      fun update' hu => ?_
    refine .bind (yields_settled c x (hchild x (.inr (.inr (.inr rfl))))) fun x' hx => ?_
    have hx := hx.sealed (hx.statement (hstatement x (.inr (.inr rfl))))
    refine .pure ⟨arranged_of_sealed fun y hy => ?_, not_difference nofun, fun _ => not_has rfl rfl⟩
    simp only [children, List.mem_append, List.mem_cons, List.not_mem_nil, or_false,
      Option.mem_toList] at hy
    rcases hy with hy | rfl | hy | rfl
    · obtain ⟨z, hz, hs⟩ := hi y hy
      exact hs.sealed (hs.statement (hstatement z (.inl hz)))
    · exact he
    · obtain ⟨z, hz, hs⟩ := hu y hy
      exact hs.sealed (hs.statement (hstatement z (.inr (.inl hz))))
    · exact hx
  | .breakLoop i | .continueLoop i | .empty i =>
    .ok ⟨arranged_of_sealed nofun, not_difference nofun, fun _ => not_has rfl rfl⟩
termination_by structural n

theorem yields_settledAll (c : Context) (ns : List Node) (h : ∀ x ∈ ns, x.Orderly) :
    Yields (elaborateAll c ns) (List.Forall₂ Settled ns) :=
  match ns with
  | [] => .ok .nil
  | n :: ns =>
    .bind (yields_settled c n (h n List.mem_cons_self)) fun _ hn =>
    .bind (yields_settledAll c ns fun x hx => h x (List.mem_cons_of_mem _ hx)) fun _ hs =>
    .pure (.cons hn hs)
termination_by structural ns

theorem yields_settledArguments (c : Context) (ns : List Node) (h : ∀ x ∈ ns, x.Orderly) :
    Yields (elaborateArguments c ns) fun ns' => ∀ x ∈ ns', Sealed x :=
  match ns with
  | [] => .ok nofun
  | n :: ns => by
    refine .bind (yields_settled c n (h n List.mem_cons_self)) fun _ hn =>
      yields_sealed_scalar hn fun _ hn => ?_
    exact .bind (yields_settledArguments c ns fun x hx => h x (List.mem_cons_of_mem _ hx))
      fun _ hs =>
      .pure (List.forall_mem_cons.mpr ⟨hn, hs⟩)
termination_by structural ns

theorem yields_settledOption (c : Context) (n : Option Node) (h : ∀ x ∈ n, x.Orderly) :
    Yields (elaborateOption c n) fun n' => ∀ y ∈ n', ∃ x ∈ n, Settled x y :=
  match n with
  | none => .ok nofun
  | some n =>
    .bind (yields_settled c n (h n rfl)) fun _ hn => .pure fun | _, rfl => ⟨n, rfl, hn⟩
termination_by structural n

end

end Typing

end StackC
