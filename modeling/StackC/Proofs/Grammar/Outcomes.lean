import StackC.Proofs.Grammar.Contract

namespace StackC

open Parse

variable {P : Location → Prop}

structure Grammar.Honest (P : Location → Prop) (g : Grammar) : Prop where
  baseType : Contract P Always g.baseType fun _ => True
  assignment : Contract P Always g.assignment (Node.Placed P)
  ternary : Contract P Always g.ternary (Node.Placed P)
  unary : Contract P Always g.unary (Node.Placed P)
  initializer : Contract P Always g.initializer (Initializer.Placed P)
  statement : Contract P Always g.statement (Node.Placed P)
  items : Contract P Never g.items fun ns => ∀ n ∈ ns, n.Placed P

/-- Readers that always fail tell the next place. -/
theorem Grammar.honest_exhausted : Grammar.exhausted.Honest P where
  baseType := .bind contract_next fun _ _ => contract_grammarFault _
  assignment := .bind contract_next fun _ _ => contract_grammarFault _
  ternary := .bind contract_next fun _ _ => contract_grammarFault _
  unary := .bind contract_next fun _ _ => contract_grammarFault _
  initializer := .bind contract_next fun _ _ => contract_grammarFault _
  statement := .bind contract_next fun _ _ => contract_grammarFault _
  items := contract_grammarFault _

namespace Parse

open Node

variable {g : Grammar} {p : Location}

theorem contract_star (t : CType) :
    Contract P IfSome (do if ← accept "*" then return some t.pointerTo else return none)
      fun o => ∀ u ∈ o, True :=
  .accept (contract_some trivial) contract_none

theorem contract_stars (t : CType) : Contract P Never (stars t) fun _ => True :=
  contract_grow (fun t _ => (contract_star t).free) trivial

theorem contract_dimension : Contract P IfSome dimension fun o => ∀ d ∈ o, P d.2 := by
  refine .acceptOne (fun _ p hp => ?_) contract_none
  refine .accept (contract_some hp) (.bind contract_number.free fun n _ => ?_)
  split
  · exact contract_declarationFault _ hp
  · exact .bind (contract_expect _ _).free fun _ _ => contract_some hp

/-- A dimension that is refused is told at its bracket. -/
theorem contract_applyDimensions (t : CType) {dims : List (Option Nat × Location)}
    (h : ∀ d ∈ dims, P d.2) (outermost : Bool) :
    Contract P Never (applyDimensions outermost t dims) fun _ => True := by
  induction dims generalizing outermost with
  | nil => exact contract_return trivial
  | cons d dims ih =>
    obtain ⟨hd, hdims⟩ := List.forall_mem_cons.mp h
    refine .bind (ih hdims false) fun element _ => ?_
    split
    · exact contract_declarationFault _ hd
    · split
      · exact contract_declarationFault _ hd
      · split
        · exact contract_declarationFault _ hd
        · exact contract_return trivial

theorem contract_dimensions (t : CType) : Contract P Never (dimensions t) fun _ => True :=
  .bind (contract_collect contract_dimension.free) fun _ h => contract_applyDimensions t h true

theorem contract_declarator (base : CType) :
    Contract P Always (declarator base) fun d => P d.place :=
  .bind (contract_stars base) fun t _ => .first contract_identifier fun _ hp =>
    .bind (contract_dimensions t) fun _ _ => contract_return hp

theorem contract_checkObject {d : Declarator} (h : P d.place) :
    Contract P Never (checkObject d) fun _ => True := by
  unfold checkObject
  split
  · exact contract_declarationFault _ h
  · exact contract_return trivial

theorem contract_memberGroup (hg : g.Honest P) :
    Contract P Never (memberGroup g) fun o => ∀ fs ∈ o, True := by
  refine .accept contract_none.free (.bind contract_atEnd fun b _ => ?_)
  split
  · exact contract_grammarFault _
  · refine .bind hg.baseType.free fun base _ => ?_
    refine .bind (contract_separated (Q := fun _ => True)
      (.first (contract_declarator base) fun d hd =>
      .bind (contract_checkObject hd) fun _ _ => contract_return trivial)).free fun fs _ => ?_
    exact .bind (contract_expect _ _).free fun _ _ => contract_some trivial

/-- A struct that is refused is told at its keyword. -/
theorem contract_declareStruct (tag : Option String) (fields : List (String × CType)) (hp : P p) :
    Contract P Never (declareStruct tag fields p) fun _ => True := by
  intro s hs
  have hcount : s.Leaves P { s with structCount := s.structCount + 1 } :=
    ParseState.leaves_of { ParseState.Restores.refl s with } { hs with } rfl rfl
  refine .bind (.modify hcount) fun _ s' hs' _ => .get_bind ?_
  split
  · exact contract_declarationFault _ hp s' hs'.placed
  · next l _ =>
    cases tag with
    | none => exact .pure hs'.placed id trivial
    | some name =>
      dsimp only
      cases hd : s'.scopes.declareTag? name (.structOf l) with
      | none => exact contract_declarationFault _ hp s' hs'.placed
      | some scopes =>
        have hscopes := ParseState.leaves_scopes hs'.placed (Scopes.restores_declareTag hd)
        exact .bind (.modify hscopes) fun _ t ht _ => .pure ht.placed id trivial

theorem contract_structTag : Contract P Never structTag fun _ => True := by
  refine .bind contract_next fun t _ => ?_
  split
  · exact .bind contract_advance fun _ _ => contract_return trivial
  · exact contract_return trivial

/-- The members of a struct are read before it is declared. -/
theorem contract_structType (hg : g.Honest P) (hp : P p) :
    Contract P Never (structType g p) fun _ => True := by
  refine .bind contract_structTag fun tag _ => .accept ?_ ?_
  · exact .bind (contract_collect (contract_memberGroup hg)) fun groups _ =>
      contract_declareStruct tag groups.flatten hp
  · cases tag with
    | none => exact contract_grammarFault _
    | some name =>
      refine .get_bind fun s hs => ?_
      split
      · exact .pure hs id trivial
      · exact contract_declarationFault _ hp s hs

theorem contract_baseType (hg : g.Honest P) : Contract P Always (baseType g) fun _ => True := by
  refine .acceptOne (fun k p hp => ?_) (.bind contract_next fun _ _ => contract_grammarFault _)
  cases k with
  | some k => exact contract_return trivial
  | none => exact contract_structType hg hp

theorem contract_typeName (hg : g.Honest P) : Contract P Never (typeName g) fun _ => True :=
  .bind (contract_baseType hg).free fun base _ => .bind (contract_stars base) fun t _ =>
    contract_dimensions t

/-- A target with effects is told at its operator. -/
theorem contract_update (op : BinaryOp) {target value : Node} (ht : target.Placed P)
    (hv : value.Placed P) (hp : P p) :
    Contract P Never (update op target value p) (Node.Placed P) := by
  unfold update
  split
  · exact contract_typingFault _ ht.root
  · exact contract_return (placed_assign hp ht (placed_binary hp ht hv))

theorem contract_applyPrefix (mark : PrefixMark) (hp : P p) {e : Node} (he : e.Placed P) :
    Contract P Never (applyPrefix mark p e) (Node.Placed P) := by
  cases mark with
  | plus => exact contract_return he
  | minus => exact contract_return (placed_binary hp (placed_literal hp 0) he)
  | address | negation | size => exact contract_return (placed_one hp he rfl)
  | indirection => exact contract_return (placed_indirect he hp)
  | increment | decrement => exact contract_update _ he (placed_literal hp 1) hp

theorem contract_sizeOfType (hg : g.Honest P) (hp : P p) :
    Contract P Never (sizeOfType g p) (Node.Placed P) := by
  refine .bind contract_advance fun _ _ => .bind (contract_typeName hg) fun t _ => ?_
  refine .bind (contract_expect _ _).free fun _ _ => ?_
  split
  · exact contract_typingFault _ hp
  · exact contract_return (placed_literal hp _)

/-- The operators behind an operand stand where their marks stand. -/
theorem contract_applyPostfix (hg : g.Honest P) (mark : PostfixMark) (hp : P p) {e : Node}
    (he : e.Placed P) : Contract P Never (applyPostfix g mark p e) (Node.Placed P) := by
  have hone := placed_literal hp 1
  cases mark with
  | subscript =>
    exact .bind hg.assignment.free fun index hi => .bind (contract_expect _ _).free fun _ _ =>
      contract_return (placed_subscript he hi hp)
  | dot => exact .bind contract_identifier.free fun r _ => contract_return (placed_access he hp r.1)
  | arrow =>
    exact .bind contract_identifier.free fun r _ =>
      contract_return (placed_access (placed_indirect he hp) hp r.1)
  | increment | decrement =>
    exact .bind (contract_update _ he hone hp) fun _ hu =>
      contract_return (placed_binary hp hu hone)

/-- A function that is not declared is told at its name. -/
theorem contract_call (hg : g.Honest P) (name : String) (hp : P p) :
    Contract P Never (call g name p) (Node.Placed P) := by
  refine .get_bind fun s hs => ?_
  split
  · exact contract_declarationFault _ hp s hs
  · refine Contract.accept (c := Never) (contract_return (placed_leaf hp rfl)) ?_ s hs
    exact .bind (contract_separated hg.assignment).free fun args ha =>
      .bind (contract_expect _ _).free fun _ _ => contract_return (placed_of_children hp ha)

theorem contract_statementExpression (hg : g.Honest P) (hp : P p) :
    Contract P Never (statementExpression g p) (Node.Placed P) := by
  refine .bind (contract_inScope hg.items) fun items hi => .bind (contract_expect _ _).free
    fun _ _ => ?_
  split
  · exact contract_return (placed_of_children hp hi)
  · exact .throw (placed_grammar hp)

theorem contract_namedVariable (name : String) (hp : P p) :
    Contract P Never (namedVariable name p) (Node.Placed P) := by
  refine .get_bind fun s hs => ?_
  split
  · exact .pure hs id (placed_leaf hp rfl)
  · exact contract_declarationFault _ hp s hs

/-- Every operand takes a token. -/
theorem contract_primary (hg : g.Honest P) : Contract P Always (primary g) (Node.Placed P) := by
  refine .get_bind fun s hs => ?_
  have hp := hs.next
  have htake := abides_advance hs
  generalize s.next = t at hp htake ⊢
  split
  · next hr =>
    refine (htake (kind_ne_eof_of_isReserved hr)).first fun _ s' hs' _ _ => ?_
    refine Contract.accept (contract_statementExpression hg hp) ?_ s' hs'.placed
    exact .bind hg.assignment.free fun e he => .bind (contract_expect _ _).free fun _ _ =>
      contract_return he
  · cases hk : t.kind with
    | num n =>
      refine (htake (hk ▸ TokenKind.noConfusion)).first fun _ s' hs' _ _ => ?_
      exact .pure hs'.placed id (placed_literal hp _)
    | str bytes =>
      refine (htake (hk ▸ TokenKind.noConfusion)).first fun _ s' hs' _ _ => ?_
      exact (contract_stringLiteral _ s' hs'.placed).bind fun id _ ht _ =>
        contract_return (placed_leaf hp rfl) _ ht.placed
    | ident =>
      refine (htake (hk ▸ TokenKind.noConfusion)).first fun _ s' hs' _ _ => ?_
      exact Contract.accept (contract_call hg _ hp) (contract_namedVariable _ hp) s' hs'.placed
    | _ => exact contract_grammarFault _ s hs

theorem contract_operandSuffix (hg : g.Honest P) {e : Node} (he : e.Placed P) :
    Contract P IfSome (do
      match ← acceptOne postfixMarks with
      | none => return none
      | some (mark, p) => return some (← applyPostfix g mark p e)) fun o => ∀ n ∈ o, n.Placed P :=
  .acceptOne (fun mark _ hp => .bind (contract_applyPostfix hg mark hp he) fun _ hn =>
    contract_some hn) contract_none

theorem contract_operand (hg : g.Honest P) : Contract P Always (operand g) (Node.Placed P) :=
  .first (contract_primary hg) fun _ he =>
    contract_grow (fun _ he => (contract_operandSuffix hg he).free) he

/-- Every operator before an operand takes a token. -/
theorem contract_unary (hg : g.Honest P) : Contract P Always (unary g) (Node.Placed P) := by
  refine .acceptOne (fun mark p hp => ?_) (contract_operand hg)
  have happly (mark : PrefixMark) :
      Contract P Never (do applyPrefix mark p (← g.unary)) (Node.Placed P) :=
    .bind hg.unary.free fun _ he => contract_applyPrefix mark hp he
  cases mark with
  | size =>
    refine .bind (contract_check _) fun _ _ => .bind contract_atTypeSecond fun _ _ => ?_
    split
    · exact contract_sizeOfType hg hp
    · exact happly .size
  | _ => exact happly _

theorem contract_round (table : List (String × BinaryOp)) {operand : Parse Node}
    (h : Contract P Never operand (Node.Placed P)) {left : Node} (hl : left.Placed P) :
    Contract P IfSome (do
      match ← acceptOne table with
      | none => return none
      | some (op, p) => return some (Node.binary (.bare p) op left (← operand)))
      fun o => ∀ n ∈ o, n.Placed P :=
  .acceptOne (fun _ _ hp => .bind h fun _ hr => contract_some (placed_binary hp hl hr))
    contract_none

theorem contract_leftGrouped (table : List (String × BinaryOp)) {operand : Parse Node}
    (h : Contract P Always operand (Node.Placed P)) :
    Contract P Always (leftGrouped table operand) (Node.Placed P) :=
  .first h fun _ he => contract_grow (fun _ hl => (contract_round table h.free hl).free) he

theorem contract_disjunction (hg : g.Honest P) :
    Contract P Always (disjunction g) (Node.Placed P) := by
  unfold disjunction conjunction equality relational additive multiplicative
  iterate 6 apply contract_leftGrouped
  exact contract_unary hg

theorem contract_ternary (hg : g.Honest P) : Contract P Always (ternary g) (Node.Placed P) := by
  refine .first (contract_disjunction hg) fun cond hc => ?_
  refine .acceptOne (fun _ p hp => ?_) (contract_return hc)
  refine .bind hg.assignment.free fun x hx => .bind (contract_expect _ _).free fun _ _ => ?_
  exact .bind hg.ternary.free fun y hy => contract_return (placed_three hp hc hx hy rfl)

theorem contract_assignment (hg : g.Honest P) :
    Contract P Always (assignment g) (Node.Placed P) := by
  refine .first (contract_ternary hg) fun target ht => ?_
  refine .acceptOne (fun op p hp => ?_) (contract_return ht)
  cases op with
  | none => exact .bind hg.assignment.free fun v hv => contract_return (placed_assign hp ht hv)
  | some op => exact .bind hg.assignment.free fun v hv => contract_update op ht hv hp

end Parse

namespace Node

theorem placed_store {target value : Node} {p : Location} (ht : target.Placed P)
    (hv : value.Placed P) (hp : P p) : (target.store value p).Placed P :=
  placed_ofExpr (placed_assign hp ht hv)

theorem placed_element {target : Node} {p : Location} (ht : target.Placed P) (hp : P p) (i : Nat) :
    (target.element i p).Placed P :=
  placed_subscript ht (placed_literal hp _) hp

mutual

/-- The stores that clear a target stand where the target stands. -/
theorem placed_clear {target : Node} (ht : target.Placed P) (t : CType) :
    ∀ n ∈ target.clear t, n.Placed P := by
  cases t with
  | array base len align =>
    rw [clear]
    intro n hn
    obtain ⟨i, -, hi⟩ := List.mem_flatMap.mp hn
    exact placed_clear (placed_element ht ht.root i) base n hi
  | struct l align =>
    obtain ⟨_, _, members⟩ := l
    rw [clear]
    exact placed_clearMembers ht ht.root members
  | primitive | pointer =>
    rw [clear]
    exact List.forall_mem_singleton.mpr (placed_store ht (placed_literal ht.root 0) ht.root)
termination_by structural t

theorem placed_clearMembers {target : Node} (ht : target.Placed P) {p : Location} (hp : P p)
    (members : List (Member CType)) : ∀ n ∈ target.clearMembers p members, n.Placed P := by
  cases members with
  | nil =>
    rw [clearMembers]
    exact fun n hn => absurd hn List.not_mem_nil
  | cons m members =>
    obtain ⟨name, t, _⟩ := m
    rw [clearMembers]
    intro n hn
    rcases List.mem_append.mp hn with hn | hn
    · exact placed_clear (placed_access ht hp name) t n hn
    · exact placed_clearMembers ht hp members n hn
termination_by structural members

end

theorem placed_storeElements {target : Node} (ht : target.Placed P) {p : Location} (hp : P p)
    (values : List Int64) : ∀ n ∈ target.storeElements p values, n.Placed P := by
  intro n hn
  obtain ⟨i, _, rfl⟩ := List.mem_mapIdx.mp hn
  exact placed_store (placed_element ht hp i) (placed_literal hp _) hp

end Node

namespace Initializer

def Storing (P : Location → Prop) (init : Initializer) : Prop :=
  ∀ (target : Node) (t : CType), target.Placed P →
    Contract P Never (init.stores target t) fun ns => ∀ n ∈ ns, n.Placed P

theorem contract_elementStores {items : List Initializer} (h : ∀ i ∈ items, i.Storing P)
    (base : CType) {p : Location} (hp : P p) (k : Nat) {target : Node} (ht : target.Placed P) :
    Contract P Never (elementStores target base p k items) fun ns => ∀ n ∈ ns, n.Placed P := by
  induction items generalizing k with
  | nil =>
    rw [elementStores]
    exact contract_return fun n hn => absurd hn List.not_mem_nil
  | cons item items ih =>
    obtain ⟨hi, hs⟩ := List.forall_mem_cons.mp h
    rw [elementStores]
    exact .bind (hi _ base (Node.placed_element ht hp k)) fun front hf => .bind (ih hs (k + 1))
      fun ns hn => contract_return (List.forall_mem_append.mpr ⟨hf, hn⟩)

theorem contract_memberStores {items : List Initializer} (h : ∀ i ∈ items, i.Storing P)
    {p : Location} (hp : P p) (members : List (Member CType)) {target : Node}
    (ht : target.Placed P) :
    Contract P Never (memberStores target p members items) fun ns => ∀ n ∈ ns, n.Placed P := by
  induction items generalizing members with
  | nil =>
    rw [memberStores]
    exact contract_return (Node.placed_clearMembers ht hp members)
  | cons item items ih =>
    obtain ⟨hi, hs⟩ := List.forall_mem_cons.mp h
    cases members with
    | nil =>
      rw [memberStores]
      exact contract_return fun n hn => absurd hn List.not_mem_nil
    | cons m members =>
      rw [memberStores]
      exact .bind (hi _ m.type (Node.placed_access ht hp m.name)) fun front hf =>
        .bind (ih hs members) fun ns hn => contract_return (List.forall_mem_append.mpr ⟨hf, hn⟩)

/-- The stores of an initializer have its places or those of the target. -/
theorem contract_stores {init : Initializer} (h : init.Placed P) : init.Storing P := by
  induction h with
  | expr he =>
    intro target t ht
    unfold stores
    split
    · exact contract_declarationFault _ he.root
    · exact contract_declarationFault _ he.root
    · exact contract_return (List.forall_mem_singleton.mpr (Node.placed_store ht he he.root))
  | str hp =>
    intro target t ht
    unfold stores
    dsimp only
    split
    · split
      · exact contract_declarationFault _ hp
      · split
        · exact contract_declarationFault _ hp
        · exact contract_return (Node.placed_storeElements ht hp _)
    · exact contract_declarationFault _ hp
    · refine .bind (contract_stringLiteral _) fun id _ => contract_return ?_
      exact List.forall_mem_singleton.mpr (Node.placed_store ht (Node.placed_leaf hp rfl) hp)
  | list hp hs ih =>
    intro target t ht
    unfold stores
    dsimp only
    split
    · split
      · exact contract_declarationFault _ hp
      · refine .bind (contract_elementStores ih _ hp 0 ht) fun front hf => contract_return ?_
        refine List.forall_mem_append.mpr ⟨hf, fun n hn => ?_⟩
        obtain ⟨i, -, hn⟩ := List.mem_flatMap.mp hn
        exact Node.placed_clear (Node.placed_element ht hp i) _ n hn
    · split
      · exact contract_declarationFault _ hp
      · exact contract_memberStores ih hp _ ht
    · split
      · exact ih _ List.mem_cons_self target t ht
      · exact contract_declarationFault _ hp

end Initializer

namespace Parse

open Node

variable {g : Grammar} {p : Location}

theorem contract_listItemsWithin (hg : g.Honest P) (ts : List Token) :
    Contract P Never (listItemsWithin g ts) fun is => ∀ i ∈ is, i.Placed P := by
  induction ts with
  | nil => exact contract_return fun i hi => absurd hi List.not_mem_nil
  | cons t ts ih =>
    refine .accept (contract_return fun i hi => absurd hi List.not_mem_nil) ?_
    refine .bind hg.initializer.free fun item hi => .accept ?_ ?_
    · exact .bind ih fun is his => contract_return (List.forall_mem_cons.mpr ⟨hi, his⟩)
    · exact .bind (contract_expect _ _).free fun _ _ =>
        contract_return (List.forall_mem_singleton.mpr hi)

/-- Looking at the token behind the next one changes nothing. -/
theorem endsSecond_ok (s : ParseState) : ∃ b, endsSecond s = .ok b s := by
  cases s with
  | mk ahead =>
    rcases ahead with _ | ⟨t, _ | ⟨u, ts⟩⟩
    all_goals exact ⟨_, rfl⟩

/-- Every initializer takes a token. -/
theorem contract_initializer (hg : g.Honest P) :
    Contract P Always (initializer g) (Initializer.Placed P) := by
  have hexpr : Contract P Always (do return Initializer.expr (← assignment g))
      (Initializer.Placed P) :=
    .first (contract_assignment hg) fun e he => contract_return (.expr he)
  refine .get_bind fun s hs => ?_
  have hp := hs.next
  refine .accept hs ?_ ?_
  · exact .bind contract_rounds fun ts _ => .bind (contract_listItemsWithin hg ts) fun is his =>
      contract_return (.list hp his)
  · split
    · next hk =>
      obtain ⟨b, hb⟩ := endsSecond_ok s
      refine .after hb ?_
      split
      · exact abides_take hs (hk ▸ TokenKind.noConfusion) (.str hp)
      · exact hexpr s hs
    · exact hexpr s hs

theorem contract_checkFrame (hp : P p) : Contract P Never (checkFrame p) fun _ => True := by
  refine .get_bind fun s hs => ?_
  dsimp only
  split
  · exact contract_declarationFault _ hp s hs
  · exact .pure hs id trivial

/-- A change of a variable leaves all that a contract is about alone. -/
theorem contract_modifyVar (id : VarId) (t : CType) :
    Contract P Never (modify fun s => { s with program := s.program.setType id t }) fun _ => True :=
  fun _ hs => .modify (ParseState.leaves_program hs hs.functions)

/-- A declared local takes at least its name. -/
theorem contract_localVariable (hg : g.Honest P) (base : CType) :
    Contract P Always (localVariable g base) fun ns => ∀ n ∈ ns, n.Placed P := by
  refine .first (contract_declarator base) fun d hd => .bind (contract_checkObject hd) fun _ _ => ?_
  refine .accept ?_ ?_
  · refine .bind (contract_declareLocal _ _ hd) fun id _ => ?_
    refine .bind (contract_initializer hg).free fun init hi => .bind (contract_modifyVar id _)
      fun _ _ => ?_
    refine .bind (Initializer.contract_stores hi _ _ (placed_leaf hd rfl)) fun ns hn => ?_
    exact .bind (contract_checkFrame hd) fun _ _ => contract_return hn
  · split
    · exact contract_declarationFault _ hd
    · refine .bind (contract_declareLocal _ _ hd) fun id _ => .bind (contract_checkFrame hd)
        fun _ _ => ?_
      exact contract_return fun n hn => absurd hn List.not_mem_nil

theorem contract_localDeclaration (hg : g.Honest P) :
    Contract P Always (localDeclaration g) (Node.Placed P) := by
  refine .bind contract_here fun p hp => .first (contract_baseType hg) fun base _ => .accept ?_ ?_
  · exact contract_return (placed_leaf hp rfl)
  · refine .bind (contract_separated (contract_localVariable hg base)).free fun stores hs => ?_
    refine .bind (contract_expect _ _).free fun _ _ =>
      contract_return (placed_of_children hp fun n hn => ?_)
    obtain ⟨ns, hns, hn⟩ := List.mem_flatten.mp hn
    exact hs ns hns n hn

theorem contract_returnStatement (hg : g.Honest P) (hp : P p) :
    Contract P Never (returnStatement g p) (Node.Placed P) := by
  refine .bind (contract_check _) fun b _ => ?_
  split
  · exact .bind (contract_expect _ _).free fun _ _ => contract_return (placed_leaf hp rfl)
  · exact .bind (contract_assignment hg).free fun v hv =>
      .bind (contract_expect _ _).free fun _ _ =>
      contract_return (placed_one hp hv rfl)

theorem contract_ifStatement (hg : g.Honest P) (hp : P p) :
    Contract P Never (ifStatement g p) (Node.Placed P) := by
  refine .bind (contract_expect _ _).free fun _ _ => .bind (contract_assignment hg).free
    fun cond hc => ?_
  refine .bind (contract_expect _ _).free fun _ _ s hs => ?_
  refine .first (hg.statement s hs) fun x s' hs' hl hx => .accept hs'.placed ?_ ?_
  · exact .bind hg.statement.free fun y hy => contract_return (placed_three hp hc hx hy rfl)
  · -- The last token taken is that of the first branch.
    refine .bind (abides_lastPlace hs'.placed hl) fun q t ht hq => .pure ht.placed id ?_
    exact placed_three hp hc hx (placed_leaf (n := .empty (.bare q)) hq rfl) rfl

theorem contract_whileStatement (hg : g.Honest P) (hp : P p) :
    Contract P Never (whileStatement g p) (Node.Placed P) := by
  refine .bind (contract_expect _ _).free fun _ _ => .bind (contract_assignment hg).free
    fun cond hc => ?_
  refine .bind (contract_expect _ _).free fun _ _ => ?_
  exact .bind (contract_inLoop hg.statement).free fun body hb =>
    contract_return (placed_two hp hc hb rfl)

theorem contract_forInit (hg : g.Honest P) :
    Contract P Never (forInit g) fun o => ∀ n ∈ o, n.Placed P := by
  refine .accept contract_none.free (.bind contract_atType fun b _ => ?_)
  split
  · exact .bind (contract_localDeclaration hg).free fun n hn => contract_some hn
  · exact .bind (contract_assignment hg).free fun e he =>
      .bind (contract_expect _ _).free fun _ _ =>
      contract_some (placed_ofExpr he)

theorem contract_forCondition (hg : g.Honest P) :
    Contract P Never (forCondition g) (Node.Placed P) := by
  refine .bind contract_here fun p hp => .bind (contract_check _) fun b _ => ?_
  split
  · exact contract_return (placed_literal hp 1)
  · exact (contract_assignment hg).free

theorem contract_forUpdate (hg : g.Honest P) :
    Contract P Never (forUpdate g) fun o => ∀ n ∈ o, n.Placed P := by
  refine .bind (contract_check _) fun b _ => ?_
  split
  · exact contract_none.free
  · exact .bind (contract_assignment hg).free fun e he => contract_some (placed_ofExpr he)

theorem contract_forStatement (hg : g.Honest P) (hp : P p) :
    Contract P Never (forStatement g p) (Node.Placed P) := by
  refine contract_inScope (.bind (contract_expect _ _).free fun _ _ => ?_)
  refine .bind (contract_forInit hg) fun init hi => .bind (contract_forCondition hg)
    fun cond hc => ?_
  refine .bind (contract_expect _ _).free fun _ _ => .bind (contract_forUpdate hg)
    fun update hu => ?_
  refine .bind (contract_expect _ _).free fun _ _ => .bind (contract_inLoop hg.statement).free
    fun body hb => ?_
  exact contract_return (placed_forLoop hp hi hc hu hb)

theorem contract_jumpStatement (jump : LoopJump) (hp : P p) :
    Contract P Never (jumpStatement jump p) (Node.Placed P) := by
  refine .get_bind fun s hs => ?_
  cases jump with
  | leave | next =>
    dsimp only
    split
    · exact (contract_expect _ _).free.bind (fun _ _ => contract_return (placed_leaf hp rfl)) s hs
    · exact .throw hs (placed_grammar hp)

theorem contract_expressionStatement (hg : g.Honest P) :
    Contract P Always (expressionStatement g) (Node.Placed P) :=
  .first (contract_assignment hg) fun _ he => .bind (contract_expect _ _).free fun _ _ =>
    contract_return (placed_ofExpr he)

/-- Every statement takes a token. -/
theorem contract_statement (hg : g.Honest P) : Contract P Always (statement g) (Node.Placed P) := by
  refine .acceptOne (fun mark p hp => ?_) (contract_expressionStatement hg)
  cases mark with
  | ret => exact contract_returnStatement hg hp
  | branch => exact contract_ifStatement hg hp
  | whileLoop => exact contract_whileStatement hg hp
  | forLoop => exact contract_forStatement hg hp
  | jump jump => exact contract_jumpStatement jump hp
  | block =>
    exact .bind (contract_inScope hg.items) fun items hi =>
      contract_return (placed_of_children hp hi)
  | empty => exact contract_return (placed_leaf hp rfl)

/-- An item takes a token, and at the closing brace there is none. -/
theorem contract_blockItem (hg : g.Honest P) :
    Contract P IfSome (blockItem g (statement g)) fun o => ∀ n ∈ o, n.Placed P := by
  refine .accept contract_none.free (.bind contract_atEnd fun b _ => ?_)
  split
  · exact contract_grammarFault _
  · refine .bind contract_atType fun b _ => ?_
    split
    · exact .first (contract_localDeclaration hg) fun n hn => contract_some hn
    · exact .first (contract_statement hg) fun n hn => contract_some hn

theorem contract_items (hg : g.Honest P) :
    Contract P Never (items g) fun ns => ∀ n ∈ ns, n.Placed P :=
  contract_collect (contract_blockItem hg).free

end Parse

namespace Grammar

/-- Readers one level above honest ones are honest. -/
theorem Honest.step {g : Grammar} (hg : g.Honest P) : g.step.Honest P where
  baseType := contract_baseType hg
  assignment := contract_assignment hg
  ternary := contract_ternary hg
  unary := contract_unary hg
  initializer := contract_initializer hg
  statement := contract_statement hg
  items := contract_items hg

theorem honest_ofDepth (n : Nat) : (ofDepth n).Honest P := by
  induction n with
  | zero => exact honest_exhausted
  | succ n ih => exact ih.step

end Grammar

theorem Program.placed_modifyFunction {p : Program} {name : String} {g : Function → Function}
    (h : ∀ f ∈ p.functions, f.Placed P) (hg : ∀ f : Function, f.Placed P → (g f).Placed P) :
    ∀ f ∈ (p.modifyFunction name g).functions, f.Placed P := by
  have hfirst (fs : List Function) (hfs : ∀ f ∈ fs, f.Placed P) :
      ∀ f ∈ modifyFirst (·.name == name) g fs, f.Placed P := by
    induction fs with
    | nil => exact hfs
    | cons f fs ih =>
      obtain ⟨hf, hrest⟩ := List.forall_mem_cons.mp hfs
      rw [modifyFirst]
      split
      · exact List.forall_mem_cons.mpr ⟨hg f hf, hrest⟩
      · exact List.forall_mem_cons.mpr ⟨hf, ih hrest⟩
  intro f hf
  exact hfirst p.functions.reverse (fun f hf => h f (List.mem_reverse.mp hf)) f
    (List.mem_reverse.mp hf)

namespace Parse

variable {g : Grammar} {s : ParseState}

/-- A global variable that contradicts an earlier one is told at its name. -/
theorem contract_bindGlobal {d : Declarator} (hd : P d.place) (t : CType)
    (bytes : Option (List UInt8)) :
    Contract P Never (bindGlobal d t bytes) fun _ => True := by
  refine .get_bind fun s hs => ?_
  split
  · split
    · exact .pure hs id trivial
    · split
      · exact contract_declarationFault _ hd s hs
      · split
        · exact .pure hs id trivial
        · exact contract_declarationFault _ hd s hs
        · exact .set (ParseState.leaves_program hs hs.functions)
  · refine .bind (contract_newVar _ s hs) fun x s' hs' _ => .get_bind ?_
    cases hv : s'.scopes.declareVar? d.name x with
    | none => exact contract_declarationFault _ hd s' hs'.placed
    | some scopes =>
      have hscopes := ParseState.leaves_scopes hs'.placed (Scopes.restores_declareVar hv)
      exact .modify (hscopes.trans (ParseState.leaves_program hscopes.placed hs'.placed.functions))

theorem contract_optionalInitializer (hg : g.Honest P) :
    Contract P Never (optionalInitializer g) fun o => ∀ i ∈ o, i.Placed P :=
  .accept (.bind (contract_initializer hg).free fun _ hi => contract_some hi) contract_none.free

theorem contract_initialBytes (t : CType) {init : Option Initializer} (h : ∀ i ∈ init, i.Placed P) :
    Contract P Never (initialBytes t init) fun _ => True := by
  cases init with
  | none => exact contract_return trivial
  | some init =>
    have hdata := Initializer.tells_data (h init rfl) t
    rw [initialBytes]
    split
    · exact contract_return trivial
    · next e he => exact .throw (hdata.of_error he)

theorem contract_globalVariable (hg : g.Honest P) {d : Declarator} (hd : P d.place) :
    Contract P Never (globalVariable g d) fun _ => True := by
  refine .bind (contract_checkObject hd) fun _ _ => .get_bind fun s hs => ?_
  split
  · exact contract_declarationFault _ hd s hs
  · refine .bind (contract_optionalInitializer hg s hs) fun init s' hs' hi => ?_
    dsimp only
    split
    · exact contract_declarationFault _ hd s' hs'.placed
    · exact .bind (contract_initialBytes _ hi s' hs'.placed) fun bytes s'' hs'' _ =>
        contract_bindGlobal hd _ bytes s'' hs''.placed

theorem contract_parameter (hg : g.Honest P) :
    Contract P Always (parameter g) fun d => P d.place := by
  refine .first (contract_baseType hg) fun base _ => .bind (contract_declarator base).free
    fun d hd => ?_
  refine .bind (contract_checkObject hd) fun _ _ => ?_
  split
  · exact contract_declarationFault _ hd
  · exact contract_return hd
  · exact contract_return hd

theorem contract_parametersWithin (hg : g.Honest P) (ts : List Token) :
    Contract P Never (parametersWithin g ts) fun r => ∀ d ∈ r.1, P d.place := by
  have hnil : ∀ d ∈ ([] : List Declarator), P d.place := fun d hd => absurd hd List.not_mem_nil
  induction ts with
  | nil => exact contract_return hnil
  | cons t ts ih =>
    refine .accept (contract_return hnil)
      (.bind (contract_parameter hg).free fun d hd => .accept ?_ ?_)
    · exact .bind ih fun r hr => contract_return (List.forall_mem_cons.mpr ⟨hd, hr⟩)
    · exact contract_return (List.forall_mem_singleton.mpr hd)

theorem contract_parameterList (hg : g.Honest P) :
    Contract P Never (parameterList g) fun r => ∀ d ∈ r.1, P d.place := by
  have hnil : ∀ d ∈ ([] : List Declarator), P d.place := fun d hd => absurd hd List.not_mem_nil
  refine .accept (contract_return hnil) ?_
  refine .bind (contract_check _) fun _ _ => .bind (contract_checkSecond _) fun _ _ => ?_
  split
  · exact .bind contract_advance fun _ _ => .bind contract_advance fun _ _ => contract_return hnil
  · exact .bind contract_rounds fun ts _ => .bind (contract_parametersWithin hg ts) fun r hr =>
      .bind (contract_expect _ _).free fun _ _ => contract_return hr

theorem contract_declareParams {ds : List Declarator} (h : ∀ d ∈ ds, P d.place) :
    Contract P Never (declareParams ds) fun _ => True := by
  induction ds with
  | nil => exact contract_return trivial
  | cons d ds ih =>
    obtain ⟨hd, hds⟩ := List.forall_mem_cons.mp h
    exact .bind (contract_declareLocal _ _ hd) fun id _ => .bind (ih hds) fun _ _ =>
      contract_return trivial

/-- A function that contradicts an earlier one is told at its name. -/
theorem contract_registerFunction {f : Function} (hf : P f.place) (hbody : f.body = none)
    (isDefinition : Bool) : Contract P Never (registerFunction f isDefinition) fun _ => True := by
  refine .get_bind fun s hs => ?_
  split
  · exact contract_declarationFault _ hf s hs
  · split
    · refine .set (ParseState.leaves_program hs ?_)
      refine List.forall_mem_append.mpr ⟨hs.functions, List.forall_mem_singleton.mpr ?_⟩
      have hplaced : f.Placed P :=
        ⟨hf, by rw [hbody]; exact fun b hb => absurd hb (Option.not_mem_none b)⟩
      split
      · exact hplaced
      · exact hplaced
    · split
      · exact contract_declarationFault _ hf s hs
      · split
        · exact .pure hs id trivial
        · split
          · exact contract_declarationFault _ hf s hs
          · refine .set (ParseState.leaves_program hs ?_)
            refine Program.placed_modifyFunction hs.functions fun e _ => ⟨hf, ?_⟩
            rintro _ ⟨⟩
            exact Node.placed_leaf hf rfl

theorem contract_functionBody (hg : g.Honest P) (name : String) :
    Contract P Always (functionBody g name) fun _ => True := by
  intro s hs
  refine .first (contract_expect _ _ s hs) fun _ s' hs' hl _ => ?_
  refine .bind (abides_lastPlace hs'.placed hl) fun p s'' hs'' hp => ?_
  refine .bind (contract_items hg s'' hs''.placed) fun items t ht hi => ?_
  refine .modify (ParseState.leaves_program ht.placed ?_)
  refine Program.placed_modifyFunction ht.placed.functions fun e he => ⟨he.1, ?_⟩
  rintro _ ⟨⟩
  exact Node.placed_of_children hp hi

/-- At file level, the reading of a function leaves no function open. -/
theorem abides_function (hg : g.Honest P) {d : Declarator} (hd : P d.place) (hs : s.Placed P)
    (hl : s.locals = none) : Abides P Never (function g d) s fun _ => True := by
  unfold function
  split
  · exact contract_declarationFault _ hd s hs
  · refine abides_inFunction (.bind (contract_expect _ _).free fun _ _ => ?_) hs hl
    refine .bind (contract_parameterList hg) fun r hr => .bind (contract_declareParams hr)
      fun params _ => ?_
    refine .bind (contract_checkFrame hd) fun _ _ => .bind (contract_accept _).free fun b _ => ?_
    refine .bind (contract_registerFunction hd rfl _) fun _ _ => ?_
    split
    · exact (contract_functionBody hg d.name).free
    · exact contract_return trivial

/-- Every declaration at file level takes a token. -/
theorem abides_topLevel (hg : g.Honest P) (hs : s.Placed P) (hl : s.locals = none) :
    Abides P Always (topLevel g) s fun _ => True := by
  refine .first (contract_baseType hg s hs) fun base s' hs' _ _ =>
    .accept hs'.placed (contract_return trivial) ?_
  refine .bind ((contract_declarator base).free s' hs'.placed) fun d s'' hs'' hd => ?_
  refine .bind (contract_check "(" s'' hs''.placed) fun b t ht _ => ?_
  split
  · have hrestores := hs'.restores.trans (hs''.restores.trans ht.restores)
    exact abides_function hg hd ht.placed (hrestores.locals_eq_none hl)
  · refine Contract.bind (contract_globalVariable hg hd) (fun _ _ => ?_) t ht.placed
    refine .bind (contract_collect (Q := fun _ => True) (.accept ?_ contract_none.free)) fun _ _ =>
      (contract_expect _ _).free
    exact .bind (contract_declarator base).free fun d hd => .bind (contract_globalVariable hg hd)
      fun _ _ => contract_some trivial

/-- A run over declarations, by what one declaration does. -/
theorem abides_topLevelsWithin (hg : g.Honest P) (n : Nat) (hs : s.Placed P)
    (hl : s.locals = none) :
    Abides P Never (topLevelsWithin g n) s fun _ => True := by
  induction n generalizing s with
  | zero => exact .pure hs id trivial
  | succ n ih =>
    refine .get_bind ?_
    split
    · exact .pure hs id trivial
    · exact .first (abides_topLevel hg hs hl) fun _ s' hs' _ _ =>
        ih hs'.placed (hs'.restores.locals_eq_none hl)

/-- A program is read to its end, or refused at an allowed place. -/
theorem abides_program (hs : s.Placed P) (hl : s.locals = none) :
    Abides P Never program s fun p => ∀ f ∈ p.functions, f.Placed P := by
  refine .get_bind (.bind (abides_topLevelsWithin (Grammar.honest_ofDepth _) _ hs hl)
    fun _ s' hs' _ => ?_)
  have hempty : ∀ f ∈ ({} : Program).functions, f.Placed P := fun f hf => absurd hf List.not_mem_nil
  exact ⟨ParseState.leaves_program hs'.placed hempty, False.elim, hs'.placed.functions⟩

end Parse

/-- A reading of a program leaves the state in order, with whatever it ends. -/
theorem ParseState.leaves_readProgram {s : ParseState} (hs : s.Placed P) (hl : s.locals = none) :
    s.Leaves P s.readProgram.2 ∧ Tells P s.readProgram.1 fun p => ∀ f ∈ p.functions,
      f.Placed P := by
  have h := abides_program hs hl
  unfold readProgram
  cases hr : Parse.program s with
  | ok p s' =>
    obtain ⟨hs', -, hp⟩ := h.of_ok hr
    exact ⟨hs', hp⟩
  | error e s' => exact h.of_error hr

end StackC
