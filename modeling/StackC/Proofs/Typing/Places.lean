import StackC.Proofs.Program.Places

namespace StackC

namespace Typing

open Node

variable {P : Location → Prop} {c : Context}

/-- Refused at the place of a tree. -/
theorem tells_fault {α : Type} {Q : α → Prop} {f : TypingFault} {p : Location} (h : P p) :
    Tells P (MonadExcept.throw (.typing f p) : Except Diagnostic α) Q :=
  .throw (placed_typing h)

theorem tells_typeOf {n : Node} (h : n.Placed P) : Tells P (typeOf n) fun _ => True := by
  unfold typeOf
  split
  · exact .ok trivial
  · exact .error (placed_typing h.root)

theorem tells_decay {n : Node} (h : n.Placed P) : Tells P (decay n) (Node.Placed P) := by
  refine .bind (tells_typeOf h) fun t _ => ?_
  split
  · split
    · exact .pure (placed_one h.root h rfl)
    · exact tells_fault h.root
  · exact .pure h

theorem tells_requireInteger {n : Node} (h : n.Placed P) (op : BinaryOp) :
    Tells P (requireInteger n op) fun _ => True := by
  refine .bind (tells_typeOf h) fun t _ => ?_
  split
  · exact .pure trivial
  · exact tells_fault h.root

theorem tells_requireScalar {n : Node} (h : n.Placed P) (op : String) :
    Tells P (requireScalar n op) fun _ => True := by
  refine .bind (tells_typeOf h) fun t _ => ?_
  split
  · exact .pure trivial
  · exact tells_fault h.root

theorem tells_scalarValue {n : Node} (h : n.Placed P) (fault : CType → TypingFault) :
    Tells P (scalarValue fault n) (Node.Placed P) := by
  refine .bind (tells_typeOf h) fun t _ => ?_
  split
  · exact .pure h
  · exact tells_fault h.root

theorem placed_intBinary {op : BinaryOp} {l r : Node} {p : Location} (hp : P p) (hl : l.Placed P)
    (hr : r.Placed P) : (intBinary op l r p).Placed P :=
  placed_two hp hl hr rfl

theorem placed_sizeLiteral {p : Location} (hp : P p) (size : Nat) : (sizeLiteral size p).Placed P :=
  placed_leaf hp rfl

theorem placed_scaled {index : Node} {p : Location} (hi : index.Placed P) (hp : P p) (size : Nat) :
    (scaled index size p).Placed P :=
  placed_intBinary hp hi (placed_sizeLiteral hp size)

theorem tells_addIndex {pointer index : Node} {p : Location} (hx : pointer.Placed P)
    (hi : index.Placed P) (hp : P p) (t u : CType) :
    Tells P (addIndex pointer index t u p) (Node.Placed P) := by
  unfold addIndex
  split
  · exact .ok (placed_two hp hx (placed_scaled hi hp _) rfl)
  · exact .error (placed_typing hp)

theorem tells_add {l r : Node} {p : Location} (hl : l.Placed P) (hr : r.Placed P) (hp : P p) :
    Tells P (add l r p) (Node.Placed P) := by
  refine .bind (tells_typeOf hl) fun t _ => .bind (tells_typeOf hr) fun u _ => ?_
  split
  · exact .pure (placed_intBinary hp hl hr)
  · split
    · exact tells_addIndex hl hr hp t u
    · exact tells_addIndex hr hl hp u t
    · exact tells_fault hp

theorem tells_sub {l r : Node} {p : Location} (hl : l.Placed P) (hr : r.Placed P) (hp : P p) :
    Tells P (sub l r p) (Node.Placed P) := by
  refine .bind (tells_typeOf hl) fun t _ => .bind (tells_typeOf hr) fun u _ => ?_
  split
  · exact .pure (placed_intBinary hp hl hr)
  · split
    · split
      · exact tells_fault hp
      · split
        · exact tells_fault hp
        · have hbytes {i : Info} (hi : i.place = p) : (Node.binary i .sub l r).Placed P :=
            placed_two (show P i.place from hi ▸ hp) hl hr rfl
          exact .pure (placed_intBinary hp (hbytes rfl) (placed_sizeLiteral hp _))
    · split
      · exact .pure (placed_two hp hl (placed_scaled hr hp _) rfl)
      · exact tells_fault hp
    · exact tells_fault hp

theorem tells_binary {l r : Node} {p : Location} (op : BinaryOp) (hl : l.Placed P) (hr : r.Placed P)
    (hp : P p) : Tells P (binary op l r p) (Node.Placed P) := by
  have hinteger : Tells P (do
      requireInteger l op
      requireInteger r op
      return intBinary op l r p) (Node.Placed P) :=
    .bind (tells_requireInteger hl op) fun _ _ => .bind (tells_requireInteger hr op) fun _ _ =>
      .pure (placed_intBinary hp hl hr)
  have hlogical : Tells P (do
      requireScalar l op.symbol
      requireScalar r op.symbol
      return intBinary op l r p) (Node.Placed P) :=
    .bind (tells_requireScalar hl _) fun _ _ => .bind (tells_requireScalar hr _) fun _ _ =>
      .pure (placed_intBinary hp hl hr)
  cases op with
  | add => exact tells_add hl hr hp
  | sub => exact tells_sub hl hr hp
  | logAnd | logOr => exact hlogical
  | mul | div | mod | eq | ne | lt | le | gt | ge => exact hinteger

theorem tells_negation {e : Node} {p : Location} (he : e.Placed P) (hp : P p) :
    Tells P (negation e p) (Node.Placed P) :=
  .bind (tells_requireScalar he _) fun _ _ => .pure (placed_one hp he rfl)

theorem tells_targetType {n : Node} (h : n.Placed P) : Tells P (targetType n) fun _ => True := by
  unfold targetType
  split
  · exact tells_fault h.root
  · refine .bind (tells_typeOf h) fun t _ => ?_
    split
    · exact tells_fault h.root
    · exact .pure trivial

theorem tells_branchType {x y : Node} {p : Location} (hx : x.Placed P) (hy : y.Placed P)
    (hp : P p) :
    Tells P (branchType x y p) fun _ => True := by
  refine .bind (tells_typeOf hx) fun t _ => .bind (tells_typeOf hy) fun u _ => ?_
  split
  · exact .pure trivial
  · split
    · exact .pure trivial
    · exact tells_fault hp

theorem tells_address {e : Node} {p : Location} (he : e.Placed P) (hp : P p) :
    Tells P (address e p) (Node.Placed P) := by
  unfold address
  split
  · exact tells_fault he.root
  · exact .bind (tells_typeOf he) fun _ _ => .pure (placed_one hp he rfl)

theorem tells_indirection {e : Node} {p : Location} (he : e.Placed P) (hp : P p) :
    Tells P (indirection e p) (Node.Placed P) := by
  refine .bind (tells_typeOf he) fun t _ => ?_
  split
  · split
    · exact tells_fault hp
    · exact .pure (placed_one hp he rfl)
  · exact tells_fault hp

theorem tells_memberAccess {base : Node} {p : Location} (hb : base.Placed P) (hp : P p)
    (name : String) : Tells P (memberAccess base name p) (Node.Placed P) := by
  refine .bind (tells_typeOf hb) fun t _ => ?_
  split
  · exact tells_fault hp
  · split
    · exact tells_fault hb.root
    · split
      · exact tells_fault hp
      · exact .pure (placed_one hp hb rfl)

theorem tells_operandSize {e : Node} {p : Location} (he : e.Placed P) (hp : P p) :
    Tells P (operandSize e p) (Node.Placed P) := by
  refine .bind (tells_typeOf he) fun t _ => ?_
  split
  · exact tells_fault hp
  · exact .pure (placed_sizeLiteral hp _)

theorem tells_callType {p : Location} (hp : P p) (name : String) (count : Nat) :
    Tells P (callType c name count p) fun _ => True := by
  unfold callType
  cases c.program.function? name with
  | none => exact .error (placed_declaration hp)
  | some f =>
    dsimp only
    generalize (if f.variadic then decide (f.params.length ≤ count)
      else decide (count = f.params.length)) = fits
    split
    · exact .error (placed_typing hp)
    · split
      · exact .error (placed_typing hp)
      · exact .ok trivial

theorem tells_returnedValue {e : Node} (he : e.Placed P) :
    Tells P (returnedValue c e) (Node.Placed P) := by
  refine .bind (tells_typeOf he) fun t _ => ?_
  split
  · split
    · exact .pure he
    · exact tells_fault he.root
  · split
    · exact .pure he
    · exact tells_fault he.root

/-- A value that is to fit a register. -/
theorem tells_scalar {α : Type} {n : Node} {fault : CType → TypingFault}
    {k : Node → Except Diagnostic α} {Q : α → Prop} (h : n.Placed P)
    (hk : ∀ e : Node, e.Placed P → Tells P (k e) Q) :
    Tells P (decay n >>= fun e => scalarValue fault e >>= k) Q :=
  .bind (tells_decay h) fun _ he => .bind (tells_scalarValue he fault) hk

mutual

theorem tells_elaborate (c : Context) (n : Node) (h : n.Placed P) :
    Tells P (elaborate c n) (Node.Placed P) :=
  match n with
  | .num i v => .ok (placed_leaf h.root rfl)
  | .var i id => by
    rw [elaborate]
    split
    · exact .ok (placed_leaf h.root rfl)
    · exact .error (placed_typing h.root)
  | .member i b name m =>
    .bind (tells_elaborate c b (h.child List.mem_cons_self)) fun _ hb =>
      tells_memberAccess hb h.root name
  | .binary i op l r =>
    .bind (tells_elaborate c l (h.child List.mem_cons_self)) fun _ hl => .bind (tells_decay hl)
      fun _ hl => .bind (tells_elaborate c r (h.child (List.mem_cons_of_mem _ List.mem_cons_self)))
      fun _ hr => .bind (tells_decay hr) fun _ hr => tells_binary op hl hr h.root
  | .not i e =>
    .bind (tells_elaborate c e (h.child List.mem_cons_self)) fun _ he => .bind (tells_decay he)
      fun _ he => tells_negation he h.root
  | .assign i l r => by
    refine .bind (tells_elaborate c l (h.child List.mem_cons_self)) fun l' hl =>
      .bind (tells_targetType hl) fun t _ => ?_
    refine .bind (tells_elaborate c r (h.child (List.mem_cons_of_mem _ List.mem_cons_self)))
      fun r' hr => tells_scalar hr fun e he => ?_
    exact .pure (placed_two h.root hl he rfl)
  | .ternary i e x y => by
    have hx : x.Placed P := h.child (List.mem_cons_of_mem _ List.mem_cons_self)
    have hy : y.Placed P :=
      h.child (List.mem_cons_of_mem _ (List.mem_cons_of_mem _ List.mem_cons_self))
    refine .bind (tells_elaborate c e (h.child List.mem_cons_self)) fun _ he =>
      tells_scalar he fun e' he => ?_
    refine .bind (tells_elaborate c x hx) fun _ hx => .bind (tells_decay hx) fun x' hx => ?_
    refine .bind (tells_elaborate c y hy) fun _ hy => .bind (tells_decay hy) fun y' hy => ?_
    refine .bind (tells_branchType hx hy h.root) fun t _ => ?_
    exact .pure (placed_three h.root he hx hy rfl)
  | .addr i e =>
    .bind (tells_elaborate c e (h.child List.mem_cons_self)) fun _ he => tells_address he h.root
  | .deref i e =>
    .bind (tells_elaborate c e (h.child List.mem_cons_self)) fun _ he => .bind (tells_decay he)
      fun _ he => tells_indirection he h.root
  | .sizeof i e =>
    .bind (tells_elaborate c e (h.child List.mem_cons_self)) fun _ he => tells_operandSize he h.root
  | .call i name args =>
    .bind (tells_callType h.root name args.length) fun _ _ =>
      .bind (tells_elaborateArguments c args fun _ hx => h.child hx) fun _ hs =>
      .pure (placed_of_children h.root hs)
  | .stmtExpr i items =>
    .bind (tells_elaborateAll c items fun _ hx => h.child hx) fun _ hs =>
      .pure (placed_of_children h.root hs)
  | .exprStmt i e =>
    .bind (tells_elaborate c e (h.child List.mem_cons_self)) fun _ he => .bind (tells_decay he)
      fun _ he => .bind (tells_typeOf he) fun _ _ => .pure (placed_one h.root he rfl)
  | .ret i none => .pure (placed_leaf h.root rfl)
  | .ret i (some e) =>
    .bind (tells_elaborate c e (h.child List.mem_cons_self)) fun _ he => .bind (tells_decay he)
      fun _ he => .bind (tells_returnedValue he) fun _ he => .pure (placed_one h.root he rfl)
  | .block i items =>
    .bind (tells_elaborateAll c items fun _ hx => h.child hx) fun _ hs =>
      .pure (placed_of_children h.root hs)
  | .ifElse i e x y => by
    have hx : x.Placed P := h.child (List.mem_cons_of_mem _ List.mem_cons_self)
    have hy : y.Placed P :=
      h.child (List.mem_cons_of_mem _ (List.mem_cons_of_mem _ List.mem_cons_self))
    refine .bind (tells_elaborate c e (h.child List.mem_cons_self)) fun _ he =>
      tells_scalar he fun e' he => ?_
    refine .bind (tells_elaborate c x hx) fun x' hx => .bind (tells_elaborate c y hy)
      fun y' hy => ?_
    exact .pure (placed_three h.root he hx hy rfl)
  | .whileLoop i e x => by
    have hx : x.Placed P := h.child (List.mem_cons_of_mem _ List.mem_cons_self)
    refine .bind (tells_elaborate c e (h.child List.mem_cons_self)) fun _ he =>
      tells_scalar he fun e' he => ?_
    exact .bind (tells_elaborate c x hx) fun x' hx => .pure (placed_two h.root he hx rfl)
  | .forLoop i init e update x => by
    have hchild (y : Node) (hy : y ∈ init.toList ∨ y = e ∨ y ∈ update.toList ∨ y = x) :
        y.Placed P := by
      refine h.child ?_
      simpa [children] using hy
    refine .bind (tells_elaborateOption c init fun y hy =>
      hchild y (.inl (Option.mem_toList.mpr hy))) fun init' hi => ?_
    refine .bind (tells_elaborate c e (hchild e (.inr (.inl rfl)))) fun _ he =>
      tells_scalar he fun e' he => ?_
    refine .bind (tells_elaborateOption c update fun y hy =>
      hchild y (.inr (.inr (.inl (Option.mem_toList.mpr hy))))) fun update' hu => ?_
    refine .bind (tells_elaborate c x (hchild x (.inr (.inr (.inr rfl))))) fun x' hx => ?_
    exact .pure (placed_forLoop h.root hi he hu hx)
  | .breakLoop i => .ok (placed_leaf h.root rfl)
  | .continueLoop i => .ok (placed_leaf h.root rfl)
  | .empty i => .ok (placed_leaf h.root rfl)
termination_by structural n

theorem tells_elaborateAll (c : Context) (ns : List Node) (h : ∀ x ∈ ns, x.Placed P) :
    Tells P (elaborateAll c ns) fun ns' => ∀ x ∈ ns', x.Placed P :=
  match ns with
  | [] => .ok fun _ hx => absurd hx List.not_mem_nil
  | n :: ns =>
    .bind (tells_elaborate c n (h n List.mem_cons_self)) fun _ hn =>
      .bind (tells_elaborateAll c ns fun _ hx => h _ (List.mem_cons_of_mem n hx)) fun _ hs =>
      .pure (List.forall_mem_cons.mpr ⟨hn, hs⟩)
termination_by structural ns

theorem tells_elaborateArguments (c : Context) (ns : List Node) (h : ∀ x ∈ ns, x.Placed P) :
    Tells P (elaborateArguments c ns) fun ns' => ∀ x ∈ ns', x.Placed P :=
  match ns with
  | [] => .ok fun _ hx => absurd hx List.not_mem_nil
  | n :: ns => by
    refine .bind (tells_elaborate c n (h n List.mem_cons_self)) fun _ hn =>
      tells_scalar hn fun e he => ?_
    refine .bind (tells_elaborateArguments c ns fun _ hx => h _ (List.mem_cons_of_mem n hx))
      fun es hs => ?_
    exact .pure (List.forall_mem_cons.mpr ⟨he, hs⟩)
termination_by structural ns

theorem tells_elaborateOption (c : Context) (n : Option Node) (h : ∀ x ∈ n, x.Placed P) :
    Tells P (elaborateOption c n) fun n' => ∀ x ∈ n', x.Placed P :=
  match n with
  | none => .ok fun _ hx => absurd hx (Option.not_mem_none _)
  | some n =>
    .bind (tells_elaborate c n (h n rfl)) fun _ hn => .pure (by rintro _ ⟨⟩; exact hn)
termination_by structural n

end

theorem tells_elaborateFunction (p : Program) {f : Function} (h : f.Placed P) :
    Tells P (elaborateFunction p f) fun _ => True := by
  unfold elaborateFunction
  split
  · exact .ok trivial
  · next body hb =>
    split
    · exact .error (placed_declaration h.1)
    · exact .bind (tells_elaborate _ body (h.2 body hb)) fun _ hbody => .bind (tells_decay hbody)
        fun _ _ => .pure trivial

theorem tells_mapM {α β : Type} {g : α → Except Diagnostic β} {l : List α}
    (h : ∀ a ∈ l, Tells P (g a) fun _ => True) : Tells P (l.mapM g) fun _ => True := by
  induction l with
  | nil => exact .pure trivial
  | cons a l ih =>
    rw [List.mapM_cons]
    exact .bind (h a List.mem_cons_self) fun _ _ =>
      .bind (ih fun a ha => h a (List.mem_cons_of_mem _ ha)) fun _ _ => .pure trivial

end Typing

/-- A program with allowed places is refused at one of them. -/
theorem Program.tells_elaborate {P : Location → Prop} {p : Program}
    (h : ∀ f ∈ p.functions, f.Placed P) : Tells P p.elaborate fun _ => True :=
  .bind (Typing.tells_mapM fun f hf => Typing.tells_elaborateFunction p (h f hf)) fun _ _ =>
    .pure trivial

end StackC
