import StackC.Initializer.Data
import StackC.Proofs.Typing.Parts

/-!
Places in trees, initializers, functions and diagnostics. `P` tells which places are allowed; a
fault that is found in what holds allowed places only is told with an allowed place.
-/

namespace StackC

variable {P : Location → Prop}

def Diagnostic.Placed (P : Location → Prop) (e : Diagnostic) : Prop := ∀ p ∈ e.report.place?, P p

theorem placed_lexical {f : LexicalFault} {p : Location} (h : P p) :
    (Diagnostic.lexical f p).Placed P := by
  rintro _ ⟨⟩
  exact h

theorem placed_grammar {f : GrammarFault} {p : Location} (h : P p) :
    (Diagnostic.grammar f p).Placed P := by
  rintro _ ⟨⟩
  exact h

theorem placed_declaration {f : DeclarationFault} {p : Location} (h : P p) :
    (Diagnostic.declaration f p).Placed P := by
  rintro _ ⟨⟩
  exact h

theorem placed_typing {f : TypingFault} {p : Location} (h : P p) :
    (Diagnostic.typing f p).Placed P := by
  rintro _ ⟨⟩
  exact h

namespace Node

def Placed (P : Location → Prop) (n : Node) : Prop := ∀ m : Node, m.Within n → P m.place

theorem Placed.root {n : Node} (h : n.Placed P) : P n.place := h n .self

theorem Placed.child {n x : Node} (h : n.Placed P) (hx : x ∈ n.children) : x.Placed P :=
  fun m hm => h m (.child hx hm)

/-- A tree has allowed places if its root and the trees below it have. -/
theorem placed_of_children {n : Node} (hp : P n.place) (hs : ∀ x ∈ n.children, x.Placed P) :
    n.Placed P := by
  intro m hm
  cases hm with
  | self => exact hp
  | child hx hm => exact hs _ hx m hm

theorem placed_leaf {n : Node} (hp : P n.place) (hn : n.children = []) : n.Placed P :=
  placed_of_children hp (by rw [hn]; exact fun x hx => absurd hx List.not_mem_nil)

theorem placed_one {n x : Node} (hp : P n.place) (hx : x.Placed P) (hn : n.children = [x]) :
    n.Placed P :=
  placed_of_children hp (by rw [hn]; exact List.forall_mem_singleton.mpr hx)

theorem placed_two {n x y : Node} (hp : P n.place) (hx : x.Placed P) (hy : y.Placed P)
    (hn : n.children = [x, y]) : n.Placed P := by
  apply placed_of_children hp
  rw [hn]
  exact List.forall_mem_cons.mpr ⟨hx, List.forall_mem_singleton.mpr hy⟩

theorem placed_three {n x y z : Node} (hp : P n.place) (hx : x.Placed P) (hy : y.Placed P)
    (hz : z.Placed P) (hn : n.children = [x, y, z]) : n.Placed P := by
  apply placed_of_children hp
  rw [hn]
  exact List.forall_mem_cons.mpr
    ⟨hx, List.forall_mem_cons.mpr ⟨hy, List.forall_mem_singleton.mpr hz⟩⟩

theorem placed_forLoop {i : Info} {init update : Option Node} {cond body : Node} (hp : P i.place)
    (hi : ∀ n ∈ init, n.Placed P) (hc : cond.Placed P) (hu : ∀ n ∈ update, n.Placed P)
    (hb : body.Placed P) : (forLoop i init cond update body).Placed P := by
  refine placed_of_children hp fun x hx => ?_
  simp only [children, List.mem_append, List.mem_cons, Option.mem_toList, List.not_mem_nil,
    or_false] at hx
  rcases hx with hx | rfl | hx | rfl
  · exact hi x hx
  · exact hc
  · exact hu x hx
  · exact hb

theorem placed_literal {p : Location} (h : P p) (n : Int64) : (literal n p).Placed P :=
  placed_leaf h rfl

theorem placed_ofExpr {e : Node} (h : e.Placed P) : (ofExpr e).Placed P :=
  placed_one h.root h rfl

theorem placed_indirect {e : Node} {p : Location} (he : e.Placed P) (hp : P p) :
    (e.indirect p).Placed P :=
  placed_one hp he rfl

theorem placed_binary {op : BinaryOp} {l r : Node} {p : Location} (hp : P p) (hl : l.Placed P)
    (hr : r.Placed P) : (binary (.bare p) op l r).Placed P :=
  placed_two hp hl hr rfl

theorem placed_assign {l r : Node} {p : Location} (hp : P p) (hl : l.Placed P) (hr : r.Placed P) :
    (assign (.bare p) l r).Placed P :=
  placed_two hp hl hr rfl

theorem placed_subscript {base index : Node} {p : Location} (hb : base.Placed P)
    (hi : index.Placed P) (hp : P p) : (base.subscript index p).Placed P :=
  placed_indirect (placed_binary hp hb hi) hp

theorem placed_access {base : Node} {p : Location} (hb : base.Placed P) (hp : P p) (name : String) :
    (base.access name p).Placed P :=
  placed_one hp hb rfl

end Node

def Function.Placed (P : Location → Prop) (f : Function) : Prop :=
  P f.place ∧ ∀ body ∈ f.body, body.Placed P

inductive Initializer.Placed (P : Location → Prop) : Initializer → Prop where
  | expr {e} (he : e.Placed P) : Placed P (.expr e)
  | str {bytes p} (hp : P p) : Placed P (.str bytes p)
  | list {items p} (hp : P p) (hs : ∀ i ∈ items, Placed P i) : Placed P (.list items p)

def Tells {α : Type} (P : Location → Prop) (x : Except Diagnostic α) (Q : α → Prop) : Prop :=
  match x with
  | .ok a => Q a
  | .error e => e.Placed P

namespace Tells

variable {α β : Type} {x : Except Diagnostic α} {Q : α → Prop}

theorem ok {a : α} (h : Q a) : Tells P (.ok a) Q := h

theorem pure {a : α} (h : Q a) : Tells P (Pure.pure a) Q := h

theorem error {e : Diagnostic} (h : e.Placed P) : Tells P (.error e) Q := h

theorem throw {e : Diagnostic} (h : e.Placed P) :
    Tells P (MonadExcept.throw e : Except Diagnostic α) Q := h

theorem bind {f : α → Except Diagnostic β} {T : β → Prop} (hx : Tells P x Q)
    (hf : ∀ a, Q a → Tells P (f a) T) : Tells P (x >>= f) T := by
  cases x with
  | ok a => exact hf a hx
  | error e => exact hx

theorem of_error (hx : Tells P x Q) {e : Diagnostic} (h : x = .error e) : e.Placed P := by
  subst h
  exact hx

end Tells

namespace Initializer

theorem tells_elementData {base : CType} {items : List Initializer}
    (h : ∀ i ∈ items, ∀ t, Tells P (i.data t) fun _ => True) :
    Tells P (elementData base items) fun _ => True := by
  induction items with
  | nil => exact .ok trivial
  | cons i items ih =>
    obtain ⟨hi, hs⟩ := List.forall_mem_cons.mp h
    rw [elementData]
    exact .bind (hi base) fun _ _ => .bind (ih hs) fun _ _ => .pure trivial

theorem tells_memberData {members : List (Member CType)} {items : List Initializer}
    (h : ∀ i ∈ items, ∀ t, Tells P (i.data t) fun _ => True) :
    Tells P (memberData members items) fun _ => True := by
  induction items generalizing members with
  | nil => exact .ok trivial
  | cons i items ih =>
    obtain ⟨hi, hs⟩ := List.forall_mem_cons.mp h
    cases members with
    | nil => exact .ok trivial
    | cons m members =>
      rw [memberData]
      exact .bind (hi m.type) fun _ _ => .bind (ih hs) fun _ _ => .pure trivial

/-- The bytes of a global variable are refused at the place of a part of its initializer. -/
theorem tells_data {init : Initializer} (h : init.Placed P) (t : CType) :
    Tells P (init.data t) fun _ => True := by
  induction h generalizing t with
  | expr he =>
    have hfault {f : DeclarationFault} := placed_declaration (f := f) he.root
    unfold data
    split
    · split
      · exact .ok trivial
      · exact .error hfault
    · exact .error hfault
  | str hp =>
    have hfault {f : DeclarationFault} := placed_declaration (f := f) hp
    unfold data
    split
    · split
      · split
        · exact .error hfault
        · exact .ok trivial
      · exact .error hfault
    · exact .error hfault
  | list hp hs ih =>
    have hfault {f : DeclarationFault} := placed_declaration (f := f) hp
    unfold data
    split
    · split
      · exact .error hfault
      · exact .bind (tells_elementData ih) fun _ _ => .pure trivial
    · split
      · exact .error hfault
      · exact tells_memberData ih
    · exact .error hfault
    · exact .error hfault
    · split
      · exact ih _ List.mem_cons_self _
      · exact .error hfault

end Initializer

end StackC
