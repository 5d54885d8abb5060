import StackC.Proofs.Grammar.Neighborhood
import StackC.Proofs.Initializer.Length

namespace StackC

/-- Two trees are the same to a reader: it asks whether a tree has effects, what its constant
value is and whether it is an expression statement. -/
structure Node.Alike (n n' : Node) : Prop where
  hasEffects : n'.hasEffects = n.hasEffects
  constant : n'.constant? = n.constant?
  isExprStmt : n'.isExprStmt = n.isExprStmt

namespace Node

theorem Alike.refl (n : Node) : n.Alike n := ⟨rfl, rfl, rfl⟩

variable {a a' b b' c c' : Node}

theorem Alike.binary (op : BinaryOp) (p p' : Location) (ha : a.Alike a') (hb : b.Alike b') :
    (Node.binary (.bare p) op a b).Alike (.binary (.bare p') op a' b') where
  hasEffects := by rw [Node.hasEffects, Node.hasEffects, ha.hasEffects, hb.hasEffects]
  constant := by rw [constant?, constant?, ha.constant, hb.constant]
  isExprStmt := rfl

theorem Alike.ternary (p p' : Location) (ha : a.Alike a') (hb : b.Alike b') (hc : c.Alike c') :
    (Node.ternary (.bare p) a b c).Alike (.ternary (.bare p') a' b' c') where
  hasEffects := by
    rw [Node.hasEffects, Node.hasEffects, ha.hasEffects, hb.hasEffects, hc.hasEffects]
  constant := rfl
  isExprStmt := rfl

theorem Alike.indirect (p p' : Location) (ha : a.Alike a') :
    (a.indirect p).Alike (a'.indirect p') where
  hasEffects := ha.hasEffects
  constant := rfl
  isExprStmt := rfl

theorem Alike.access (name : String) (p p' : Location) (ha : a.Alike a') :
    (a.access name p).Alike (a'.access name p') where
  hasEffects := ha.hasEffects
  constant := rfl
  isExprStmt := rfl

theorem Alike.address (p p' : Location) (ha : a.Alike a') :
    (Node.addr (.bare p) a).Alike (.addr (.bare p') a') where
  hasEffects := ha.hasEffects
  constant := rfl
  isExprStmt := rfl

theorem Alike.negation (p p' : Location) (ha : a.Alike a') :
    (Node.not (.bare p) a).Alike (.not (.bare p') a') where
  hasEffects := ha.hasEffects
  constant := rfl
  isExprStmt := rfl

theorem Alike.subscript (p p' : Location) (ha : a.Alike a') (hb : b.Alike b') :
    (a.subscript b p).Alike (a'.subscript b' p') :=
  .indirect p p' (.binary .add p p' ha hb)

end Node

open Parse

/-- Two initializers are the same to a reader: they give an array the same length, a global variable
the same bytes, and a local variable stores of some kind. -/
structure Initializer.Alike (K : Neighborhood) (i i' : Initializer) : Prop where
  length : i'.length? = i.length?
  data : ∀ t bytes, i.data t = .ok bytes → i'.data t = .ok bytes
  stores : ∀ target target' t, Repeats K (i.stores target t) (i'.stores target' t) fun _ _ => True

namespace Initializer

variable {K : Neighborhood}

/-- Expressions that are alike give alike initializers. -/
theorem alike_expr {e e' : Node} (h : e.Alike e') : Alike K (.expr e) (.expr e') where
  length := rfl
  data t bytes hb := by
    unfold data at hb ⊢
    rw [h.constant]
    split at hb
    · next hi =>
      rw [if_pos hi]
      cases hc : e.constant? with
      | none =>
        rw [hc] at hb
        cases hb
      | some n =>
        rw [hc] at hb
        exact hb
    · cases hb
  stores target target' t := by
    unfold stores
    cases t with
    | array | struct => exact repeats_declarationFault _ _
    | primitive | pointer => exact .pure trivial

/-- A string literal says the same at every place. -/
theorem alike_str (bytes : List UInt8) (p p' : Location) :
    Alike K (.str bytes p) (.str bytes p') where
  length := rfl
  data t bytes hb := by
    unfold data at hb ⊢
    cases t with
    | array base len align =>
      dsimp only at hb ⊢
      split at hb
      · next hi =>
        rw [if_pos hi]
        split at hb
        · cases hb
        · next hlen =>
          rw [if_neg hlen]
          exact hb
      · cases hb
    | primitive | pointer | struct => cases hb
  stores target target' t := by
    unfold stores
    cases t with
    | array base len align =>
      dsimp only
      split
      · exact repeats_declarationFault _ _
      · split
        · exact repeats_declarationFault _ _
        · exact .pure trivial
    | struct => exact repeats_declarationFault _ _
    | primitive | pointer => exact .bind (repeats_stringLiteral bytes) fun _ _ _ => .pure trivial

variable {is is' : List Initializer}

theorem elementData_alike (h : List.Forall₂ (Alike K) is is') (base : CType) (bytes : List UInt8)
    (hb : elementData base is = .ok bytes) : elementData base is' = .ok bytes := by
  induction h generalizing bytes with
  | nil => exact hb
  | cons hi _ ih =>
    rw [elementData] at hb ⊢
    obtain ⟨front, hfront, hb⟩ := bind_eq_ok hb
    obtain ⟨others, hothers, hb⟩ := bind_eq_ok hb
    rw [hi.data base front hfront, ih others hothers]
    exact hb

theorem memberData_alike (h : List.Forall₂ (Alike K) is is') (members : List (Member CType))
    (bytes : List UInt8) (hb : memberData members is = .ok bytes) :
    memberData members is' = .ok bytes := by
  induction h generalizing members bytes with
  | nil => exact hb
  | cons hi _ ih =>
    cases members with
    | nil => exact hb
    | cons m members =>
      rw [memberData] at hb ⊢
      obtain ⟨front, hfront, hb⟩ := bind_eq_ok hb
      obtain ⟨others, hothers, hb⟩ := bind_eq_ok hb
      rw [hi.data m.type front hfront, ih members others hothers]
      exact hb

theorem repeats_elementStores (h : List.Forall₂ (Alike K) is is') (base : CType) (p p' : Location)
    (i : Nat) (target target' : Node) :
    Repeats K (elementStores target base p i is)
      (elementStores target' base p' i is') fun _ _ => True := by
  induction h generalizing i with
  | nil =>
    rw [elementStores, elementStores]
    exact .pure trivial
  | cons hi _ ih =>
    rw [elementStores, elementStores]
    exact .bind (hi.stores _ _ base) fun _ _ _ => .bind (ih (i + 1)) fun _ _ _ => .pure trivial

theorem repeats_memberStores (h : List.Forall₂ (Alike K) is is') (members : List (Member CType))
    (p p' : Location) (target target' : Node) :
    Repeats K (memberStores target p members is)
      (memberStores target' p' members is') fun _ _ => True := by
  induction h generalizing members with
  | nil =>
    rw [memberStores, memberStores]
    exact .pure trivial
  | cons hi _ ih =>
    cases members with
    | nil => exact .pure trivial
    | cons m members =>
      rw [memberStores, memberStores]
      exact .bind (hi.stores _ _ m.type) fun _ _ _ => .bind (ih members) fun _ _ _ => .pure trivial

/-- Lists of alike initializers give the same bytes. -/
theorem data_list_alike (h : List.Forall₂ (Alike K) is is') (p p' : Location) (t : CType)
    (bytes : List UInt8) (hb : (list is p).data t = .ok bytes) :
    (list is' p').data t = .ok bytes := by
  have hlen := h.length_eq
  cases t with
  | array base len align =>
    rw [data] at hb ⊢
    rw [← hlen]
    split at hb
    · cases hb
    · next hfits =>
      obtain ⟨front, hfront, hb⟩ := bind_eq_ok hb
      rw [if_neg hfits, elementData_alike h base front hfront]
      exact hb
  | struct l align =>
    rw [data] at hb ⊢
    rw [← hlen]
    split at hb
    · cases hb
    · next hfits =>
      rw [if_neg hfits]
      exact memberData_alike h l.members bytes hb
  | pointer base align => cases hb
  | primitive k align =>
    -- A list for a number holds one initializer.
    cases h with
    | nil => cases k <;> cases hb
    | cons hi hrest =>
      cases hrest with
      | cons => cases k <;> cases hb
      | nil =>
        cases k with
        | void => cases hb
        | char | short | int | long =>
          unfold data at hb ⊢
          exact hi.data _ bytes hb

/-- They give stores in both texts or in neither. -/
theorem repeats_stores_list (h : List.Forall₂ (Alike K) is is') (p p' : Location) (t : CType)
    (target target' : Node) :
    Repeats K ((list is p).stores target t) ((list is' p').stores target' t) fun _ _ => True := by
  have hlen := h.length_eq
  cases t with
  | array base len align =>
    rw [stores, stores, ← hlen]
    split
    · exact repeats_declarationFault _ _
    · exact .bind (repeats_elementStores h base p p' 0 target target') fun _ _ _ => .pure trivial
  | struct l align =>
    rw [stores, stores, ← hlen]
    split
    · exact repeats_declarationFault _ _
    · exact repeats_memberStores h l.members p p' target target'
  | primitive | pointer =>
    cases h with
    | nil => exact repeats_declarationFault _ _
    | cons hi hrest =>
      cases hrest with
      | cons => exact repeats_declarationFault _ _
      | nil =>
        unfold stores
        exact hi.stores target target' _

theorem alike_list (h : List.Forall₂ (Alike K) is is') (p p' : Location) :
    Alike K (.list is p) (.list is' p') where
  length := congrArg some h.length_eq.symm
  data := data_list_alike h p p'
  stores target target' t := repeats_stores_list h p p' t target target'

theorem Alike.complete_eq {i i' : Initializer} (h : Alike K i i') (t : CType) :
    i'.complete t = i.complete t := by
  unfold Initializer.complete
  rw [h.length]

end Initializer

structure Grammar.Refines (K : Neighborhood) (g g' : Grammar) : Prop where
  honest : g.Honest fun _ => True
  baseType : Repeats K g.baseType g'.baseType Eq
  assignment : Repeats K g.assignment g'.assignment Node.Alike
  ternary : Repeats K g.ternary g'.ternary Node.Alike
  unary : Repeats K g.unary g'.unary Node.Alike
  initializer : Repeats K g.initializer g'.initializer (Initializer.Alike K)
  statement : Repeats K g.statement g'.statement Node.Alike
  items : Repeats K g.items g'.items (List.Forall₂ Node.Alike)

namespace Parse

variable {α β : Type} {K : Neighborhood} {g g' : Grammar} {p : Location}

/-- A reader that asks of the state only what the longer text does not change. -/
theorem Repeats.get_bind {R : ParseState → ParseState → Prop} {f f' : ParseState → Parse β}
    {B : β → β → Prop} (hrefl : ∀ s, R s s) (hR : ∀ s s', K.Embeds s s' → R s s')
    (hf : ∀ s s', R s s' → Repeats K (f s) (f' s') B) : Repeats K (get >>= f) (get >>= f') B where
  alone {s _ _} h := (hf s s (hrefl s)).alone h
  agrees {s s' _ _} hs h := (hf s s' (hR s s' hs)).agrees hs h

/-- A look at the token behind the next one. In the short text there may be no such token, but then
what follows leaves nothing over. -/
theorem Repeats.second {m : Parse Bool} {x : Token → Bool} {f f' : Bool → Parse β}
    {B : β → β → Prop} {Q : β → Prop}
    (hm : ∀ s : ParseState, m s = .ok (s.ahead.tail.head?.any x) s)
    (hf : ∀ b, Repeats K (f b) (f' b) B) (hc : Contract (fun _ => True) Always (f false) Q) :
    Repeats K (m >>= f) (m >>= f') B where
  alone h := by
    rw [bind_of_ok (hm _)] at h
    exact (hf _).alone h
  agrees {s s' t b} hs h ht := by
    rw [bind_of_ok (hm _)] at h ⊢
    have htake (hb : s.ahead.tail.head?.any x = false) : t.ahead.length < s.ahead.length := by
      rw [hb] at h
      exact ((hc s s.placed_true).of_ok h).2.1 trivial
    have hpos := List.length_pos_iff.mpr ht
    -- With one token or none the answer is no, and then what follows takes all there is.
    have hsame : s'.ahead.tail.head?.any x = s.ahead.tail.head?.any x := by
      rw [hs.ahead]
      rcases ha : s.ahead with _ | ⟨u, _ | ⟨v, us⟩⟩
      · have hlt := htake (by rw [ha]; rfl)
        rw [ha, List.length_nil] at hlt
        omega
      · have hlt := htake (by rw [ha]; rfl)
        rw [ha, List.length_singleton] at hlt
        omega
      · rfl
    rw [hsame]
    exact (hf _).agrees hs h ht

theorem checkSecond_eq (text : String) (s : ParseState) :
    checkSecond text s = .ok (s.ahead.tail.head?.any (·.isReserved text)) s := by
  obtain ⟨ahead⟩ := s
  rcases ahead with _ | ⟨t, _ | ⟨u, ts⟩⟩
  all_goals rfl

theorem atTypeSecond_eq (s : ParseState) :
    atTypeSecond s = .ok (s.ahead.tail.head?.any beginsType) s := by
  obtain ⟨ahead⟩ := s
  rcases ahead with _ | ⟨t, _ | ⟨u, ts⟩⟩
  all_goals rfl

theorem endsSecond_eq (s : ParseState) : endsSecond s = .ok (s.ahead.tail.head?.any fun t =>
    t.isReserved "," || t.isReserved ";" || t.isReserved closeBrace) s := by
  obtain ⟨ahead⟩ := s
  rcases ahead with _ | ⟨t, _ | ⟨u, ts⟩⟩
  all_goals rfl

theorem repeats_stars (t : CType) : Repeats K (stars t) (stars t) Eq := by
  refine repeats_grow (fun a _ ha => ?_) (fun a => contract_star a) rfl
  subst ha
  exact .accept (.pure (.some rfl)) (.pure .none)

theorem repeats_dimension : Repeats K dimension dimension (Option.Rel Eq) := by
  refine .acceptOne (fun _ p => ?_) (.pure .none)
  refine .accept (.pure (.some rfl)) (.bind_eq repeats_number fun n => ?_)
  split
  · exact repeats_declarationFault _ _
  · exact .expect (.pure (.some rfl))

theorem repeats_applyDimensions (t : CType) (dims : List (Option Nat × Location))
    (outermost : Bool) :
    Repeats K (applyDimensions outermost t dims) (applyDimensions outermost t dims) Eq := by
  induction dims generalizing outermost with
  | nil => exact .pure rfl
  | cons d dims ih =>
    refine .bind_eq (ih false) fun element => ?_
    split
    · exact repeats_declarationFault _ _
    · split
      · exact repeats_declarationFault _ _
      · split
        · exact repeats_declarationFault _ _
        · exact .pure rfl

theorem repeats_dimensions (t : CType) : Repeats K (dimensions t) (dimensions t) Eq := by
  refine .bind (repeats_collect repeats_dimension
    (contract_dimension (P := fun _ => True))) fun dims _ h => ?_
  rw [List.forall₂_eq_eq_eq] at h
  subst h
  exact repeats_applyDimensions t dims true

theorem repeats_declarator (base : CType) : Repeats K (declarator base) (declarator base) Eq :=
  .bind_eq (repeats_stars base) fun t => .bind_eq repeats_identifier fun _ =>
    .bind_eq (repeats_dimensions t) fun _ => .pure rfl

theorem repeats_checkObject (d : Declarator) : Repeats K (checkObject d) (checkObject d) Eq := by
  unfold checkObject
  split
  · exact repeats_declarationFault _ _
  · exact .pure rfl

/-- What is taken is listed. -/
theorem acceptOne_some {table : List (String × α)} {s u : ParseState} {a : α} {p : Location}
    (h : acceptOne table s = .ok (some (a, p)) u) :
    s.next.kind = .reserved ∧ table.lookup s.next.text = some a := by
  obtain ⟨t, v, hnext, h⟩ := exists_of_bind h
  cases hnext
  split at h
  · next hk =>
    cases hl : table.lookup s.next.text with
    | none =>
      rw [hl] at h
      cases h
    | some b =>
      rw [hl] at h
      cases h
      exact ⟨hk, rfl⟩
  · cases h

/-- The keyword of struct types is the only one that names no primitive type. -/
theorem isReserved_struct {t : Token} (hk : t.kind = .reserved)
    (hl : baseKeywords.lookup t.text = some none) : t.isReserved "struct" = true := by
  have hmem : (t.text, none) ∈ baseKeywords := Lists.mem_of_lookup hl
  have htext : t.text = "struct" := by simpa [baseKeywords] using hmem
  rw [Token.isReserved, hk, htext]
  rfl

/-- The short text has no struct types. -/
theorem repeats_baseType (hg : g.Refines K g') : Repeats K (baseType g) (baseType g') Eq where
  alone h := ⟨restores_of_contract (contract_baseType hg.honest) h, _, rfl⟩
  agrees {s s' t a} hs h ht := by
    have hne := ahead_ne_nil (restores_of_contract (contract_baseType hg.honest) h) ht
    obtain ⟨o, u, ho, h⟩ := exists_of_bind h
    cases o with
    | none => cases h
    | some r =>
      obtain ⟨k, p⟩ := r
      cases k with
      | some k =>
        cases h
        obtain ⟨_, u', ho', hu, rfl⟩ := (repeats_acceptOne baseKeywords).agrees hs ho ht
        exact ⟨_, u', bind_of_ok ho', hu, rfl⟩
      | none =>
        -- Only the keyword of struct types leads here, and it is not among the tokens.
        obtain ⟨hk, hl⟩ := acceptOne_some ho
        have hmem : s.next ∈ s.ahead := by
          obtain ⟨x, xs, hx⟩ := List.exists_cons_of_ne_nil hne
          rw [ParseState.next, hx]
          exact List.mem_cons_self
        have hstruct := isReserved_struct hk hl
        rw [hs.plain _ hmem] at hstruct
        cases hstruct

theorem repeats_typeName (hg : g.Refines K g') : Repeats K (typeName g) (typeName g') Eq :=
  .bind_eq (repeats_baseType hg) fun base => .bind_eq (repeats_stars base) fun t =>
    repeats_dimensions t

/-- Alike targets have effects or have none. -/
theorem repeats_update (op : BinaryOp) {target target' value value' : Node}
    (ht : target.Alike target') :
    Repeats K (update op target value p) (update op target' value' p) Node.Alike := by
  unfold update
  rw [ht.hasEffects]
  split
  · exact repeats_typingFault _ _
  · exact .pure ⟨rfl, rfl, rfl⟩

theorem repeats_applyPrefix (mark : PrefixMark) (p : Location) {e e' : Node} (he : e.Alike e') :
    Repeats K (applyPrefix mark p e) (applyPrefix mark p e') Node.Alike := by
  cases mark with
  | plus => exact .pure he
  | minus => exact .pure (.binary .sub p p (.refl _) he)
  | address => exact .pure (.address p p he)
  | indirection => exact .pure (.indirect p p he)
  | negation => exact .pure (.negation p p he)
  | increment | decrement => exact repeats_update _ he
  | size => exact .pure ⟨rfl, rfl, rfl⟩

theorem repeats_sizeOfType (hg : g.Refines K g') (p : Location) :
    Repeats K (sizeOfType g p) (sizeOfType g' p) Node.Alike := by
  refine .bind_eq repeats_advance fun _ => .bind_eq (repeats_typeName hg) fun t => .expect ?_
  split
  · exact repeats_typingFault _ _
  · exact .pure (.refl _)

theorem repeats_applyPostfix (hg : g.Refines K g') (mark : PostfixMark) (p : Location) {e e' : Node}
    (he : e.Alike e') : Repeats K (applyPostfix g mark p e)
    (applyPostfix g' mark p e') Node.Alike := by
  cases mark with
  | subscript => exact .bind hg.assignment fun _ _ hi => .expect (.pure (.subscript p p he hi))
  | dot => exact .bind_eq repeats_identifier fun r => .pure (.access r.1 p p he)
  | arrow => exact .bind_eq repeats_identifier fun r => .pure (.access r.1 p p (.indirect p p he))
  | increment | decrement =>
    exact .bind (repeats_update _ he) fun _ _ hu => .pure (.binary _ p p hu (.refl _))

/-- The function is declared in both texts or in neither. -/
theorem repeats_call (hg : g.Refines K g') (name : String) (p : Location) :
    Repeats K (call g name p) (call g' name p) Node.Alike := by
  refine .get_bind (R := fun s s' => (s.program.function? name).isSome = true →
    (s'.program.function? name).isSome = true) (fun _ => id) (fun _ _ hs => hs.known name)
    fun s s' hknown => ?_
  cases hf : s.program.function? name with
  | none => exact repeats_declarationFault _ _
  | some f =>
    -- Another declaration of the function may be known there, but the call does not look at it.
    obtain ⟨f', hf'⟩ := Option.isSome_iff_exists.mp (hknown (by rw [hf]; rfl))
    rw [hf']
    refine .accept (.pure ⟨rfl, rfl, rfl⟩) ?_
    refine .bind (repeats_separated hg.assignment hg.honest.assignment.free) fun _ _ _ => ?_
    exact .expect (.pure ⟨rfl, rfl, rfl⟩)

theorem getLast?_rel {A : α → β → Prop} {as : List α} {bs : List β} (h : List.Forall₂ A as bs) :
    Option.Rel A as.getLast? bs.getLast? := by
  rw [List.getLast?_eq_head?_reverse, List.getLast?_eq_head?_reverse]
  have hreverse := List.forall₂_reverse_iff.mpr h
  generalize as.reverse = xs at hreverse
  generalize bs.reverse = ys at hreverse
  cases hreverse with
  | nil => exact .none
  | cons h _ => exact .some h

/-- The last items are both expression statements or neither is. -/
theorem repeats_statementExpression (hg : g.Refines K g') (p : Location) :
    Repeats K (statementExpression g p) (statementExpression g' p) Node.Alike := by
  refine .bind (repeats_inScope hg.items) fun items items' hitems => .expect ?_
  have hlast := getLast?_rel hitems
  generalize items.getLast? = o at hlast
  generalize items'.getLast? = o' at hlast
  cases hlast with
  | none => exact .never fun _ _ _ h => by cases h
  | @some n n' hn =>
    cases n with
    | exprStmt i e =>
      have hlike := hn.isExprStmt
      cases n' with
      | exprStmt i' e' => exact .pure ⟨rfl, rfl, rfl⟩
      | _ => cases hlike
    | _ => exact .never fun _ _ _ h => by cases h

/-- The variable is in scope in both texts or in neither. -/
theorem repeats_namedVariable (name : String) (p : Location) :
    Repeats K (namedVariable name p) (namedVariable name p) Node.Alike := by
  refine .get_bind (R := fun s s' => (s.scopes.var? name).isSome = true →
    (s'.scopes.var? name).isSome = true) (fun _ => id) (fun s s' hs hv => ?_) fun s s' hbound => ?_
  · obtain ⟨id, hid⟩ := Option.isSome_iff_exists.mp hv
    rw [hs.scopes.var? hid]
    rfl
  · cases hv : s.scopes.var? name with
    | none => exact repeats_declarationFault _ _
    | some id =>
      obtain ⟨id', hid'⟩ := Option.isSome_iff_exists.mp (hbound (by rw [hv]; rfl))
      rw [hid']
      exact .pure ⟨rfl, rfl, rfl⟩

theorem repeats_primary (hg : g.Refines K g') : Repeats K (primary g) (primary g') Node.Alike := by
  refine .bind_eq repeats_next fun t => ?_
  split
  · refine .bind_eq repeats_advance fun _ => .accept (repeats_statementExpression hg _) ?_
    exact .bind hg.assignment fun _ _ he => .expect (.pure he)
  · cases hk : t.kind with
    | num n => exact .bind_eq repeats_advance fun _ => .pure (.refl _)
    | str bytes =>
      exact .bind_eq repeats_advance fun _ => .bind (repeats_stringLiteral bytes) fun _ _ _ =>
        .pure ⟨rfl, rfl, rfl⟩
    | ident =>
      exact .bind_eq repeats_advance fun _ =>
        .accept (repeats_call hg _ _) (repeats_namedVariable _ _)
    | reserved | eof => exact repeats_grammarFault _

theorem placed_true_node (n : Node) : n.Placed fun _ => True := fun _ _ => trivial

theorem repeats_operand (hg : g.Refines K g') : Repeats K (operand g) (operand g') Node.Alike := by
  refine .bind (repeats_primary hg) fun e e' he => ?_
  refine repeats_grow (fun e e' he => ?_)
    (fun e => contract_operandSuffix hg.honest (placed_true_node e)) he
  exact .acceptOne (fun mark p => .bind (repeats_applyPostfix hg mark p he) fun _ _ h =>
    .pure (.some h)) (.pure .none)

/-- Operators before an operand are the same in both texts. -/
theorem repeats_unary (hg : g.Refines K g') : Repeats K (unary g) (unary g') Node.Alike := by
  refine .acceptOne (fun mark p => ?_) (repeats_operand hg)
  have happly (mark : PrefixMark) : Repeats K (do applyPrefix mark p (← g.unary))
      (do applyPrefix mark p (← g'.unary)) Node.Alike :=
    .bind hg.unary fun _ _ he => repeats_applyPrefix mark p he
  cases mark with
  | size =>
    refine .bind_eq (repeats_check "(") fun a => .second atTypeSecond_eq
      (fun b => ?_) (Q := fun _ => True) ?_
    · split
      · exact repeats_sizeOfType hg p
      · exact happly .size
    · rw [Bool.and_false]
      refine .first hg.honest.unary fun e _ => ?_
      exact (contract_applyPrefix .size trivial (placed_true_node e)).mono fun _ _ => trivial
  | _ => exact happly _

theorem repeats_leftGrouped (table : List (String × BinaryOp)) {operand operand' : Parse Node}
    (h : Repeats K operand operand' Node.Alike)
    (hc : Contract (fun _ => True) Always operand (Node.Placed fun _ => True)) :
    Repeats K (leftGrouped table operand) (leftGrouped table operand') Node.Alike := by
  refine .bind h fun e e' he => ?_
  refine repeats_grow (fun left left' hl => ?_)
    (fun left => contract_round table hc.free (placed_true_node left)) he
  exact .acceptOne (fun op p => .bind h fun _ _ hr => .pure (.some (.binary op p p hl hr)))
    (.pure .none)

theorem repeats_disjunction (hg : g.Refines K g') :
    Repeats K (disjunction g) (disjunction g') Node.Alike := by
  have hlevel {m m' : Parse Node} (table : List (String × BinaryOp))
      (h : Repeats K m m' Node.Alike ∧
        Contract (fun _ => True) Always m (Node.Placed fun _ => True)) :
      Repeats K (leftGrouped table m) (leftGrouped table m') Node.Alike ∧
        Contract (fun _ => True) Always (leftGrouped table m) (Node.Placed fun _ => True) :=
    ⟨repeats_leftGrouped table h.1 h.2, contract_leftGrouped table h.2⟩
  unfold disjunction conjunction equality relational additive multiplicative
  exact (hlevel _ <| hlevel _ <| hlevel _ <| hlevel _ <| hlevel _ <| hlevel _
    ⟨repeats_unary hg, contract_unary hg.honest⟩).1

theorem repeats_ternary (hg : g.Refines K g') : Repeats K (ternary g) (ternary g') Node.Alike := by
  refine .bind (repeats_disjunction hg) fun cond cond' hc => .acceptOne (fun _ p => ?_) (.pure hc)
  exact .bind hg.assignment fun _ _ hx =>
    .expect (.bind hg.ternary fun _ _ hy => .pure (.ternary p p hc hx hy))

theorem repeats_assignment (hg : g.Refines K g') :
    Repeats K (assignment g) (assignment g') Node.Alike := by
  refine .bind (repeats_ternary hg) fun target target' ht => .acceptOne (fun op p => ?_) (.pure ht)
  cases op with
  | none => exact .bind hg.assignment fun _ _ _ => .pure ⟨rfl, rfl, rfl⟩
  | some op => exact .bind hg.assignment fun _ _ _ => repeats_update op ht

theorem within_listItemsWithin (hg : g.Refines K g') (ts ts' : List Token)
    (hle : ts.length ≤ ts'.length) :
    Within K ts.length (listItemsWithin g ts) (listItemsWithin g' ts')
      (List.Forall₂ (Initializer.Alike K)) := by
  induction ts generalizing ts' with
  | nil => exact .zero .nil
  | cons x ts ih =>
    obtain ⟨x', ts', rfl⟩ :=
      List.exists_cons_of_length_pos (Nat.lt_of_lt_of_le (Nat.succ_pos _) hle)
    refine .accept ((Repeats.pure .nil).within _) ?_
    refine .first hg.initializer hg.honest.initializer fun item item' hitem => .accept ?_ ?_
    · exact (ih ts' (Nat.le_of_succ_le_succ hle)).andThen fun _ _ his => .pure (.cons hitem his)
    · exact (Repeats.expect (.pure (.cons hitem .nil))).within _

/-- The token that tells whether a string literal is the whole initializer is the same. -/
theorem repeats_initializer (hg : g.Refines K g') :
    Repeats K (initializer g) (initializer g') (Initializer.Alike K) := by
  have hexpr : Repeats K (do return Initializer.expr (← assignment g))
      (do return Initializer.expr (← assignment g')) (Initializer.Alike K) :=
    .bind (repeats_assignment hg) fun _ _ he => .pure (Initializer.alike_expr he)
  refine .bind_eq repeats_next fun t => .accept ?_ ?_
  · exact .rounds fun ts ts' hle => (within_listItemsWithin hg ts ts' hle).andThen fun _ _ his =>
      .pure (Initializer.alike_list his _ _)
  · cases t.kind with
    | str bytes =>
      refine .second endsSecond_eq (fun b => ?_) (Q := fun _ => True) ?_
      · split
        · exact .bind_eq repeats_advance fun _ => .pure (Initializer.alike_str _ _ _)
        · exact hexpr
      · exact .first (contract_assignment hg.honest) fun _ _ => contract_return trivial
    | _ => exact hexpr

/-- The local takes its length from alike initializers. -/
theorem repeats_localVariable (hg : g.Refines K g') (base : CType) :
    Repeats K (localVariable g base) (localVariable g' base) fun _ _ => True := by
  refine .bind_eq (repeats_declarator base) fun d => .bind_eq (repeats_checkObject d) fun _ =>
    .accept ?_ ?_
  · refine .bind (repeats_declareLocal _ _ _) fun id id' hid => ?_
    refine .bind (repeats_initializer hg) fun init init' hinit => ?_
    rw [hinit.complete_eq]
    refine .bind_eq (repeats_setType hid _) fun _ => ?_
    exact .bind (hinit.stores _ _ _) fun _ _ _ => .bind_eq (repeats_checkFrame _) fun _ =>
      .pure trivial
  · split
    · exact repeats_declarationFault _ _
    · exact .bind (repeats_declareLocal _ _ _) fun _ _ _ => .bind_eq (repeats_checkFrame _) fun _ =>
        .pure trivial

theorem repeats_localDeclaration (hg : g.Refines K g') :
    Repeats K (localDeclaration g) (localDeclaration g') Node.Alike := by
  refine .bind_eq repeats_here fun p => .bind_eq (repeats_baseType hg) fun base => .accept ?_ ?_
  · exact .pure ⟨rfl, rfl, rfl⟩
  · refine .bind (repeats_separated (repeats_localVariable hg base)
      (contract_localVariable hg.honest base).free) fun _ _ _ => ?_
    exact .expect (.pure ⟨rfl, rfl, rfl⟩)

theorem repeats_returnStatement (hg : g.Refines K g') (p : Location) :
    Repeats K (returnStatement g p) (returnStatement g' p) Node.Alike := by
  refine .bind_eq (repeats_check ";") fun b => ?_
  split
  · exact .expect (.pure (.refl _))
  · exact .bind (repeats_assignment hg) fun _ _ _ => .expect (.pure ⟨rfl, rfl, rfl⟩)

theorem repeats_ifStatement (hg : g.Refines K g') (p : Location) :
    Repeats K (ifStatement g p) (ifStatement g' p) Node.Alike := by
  refine .expect (.bind (repeats_assignment hg) fun _ _ _ => .expect ?_)
  refine .bind hg.statement fun _ _ _ => .accept ?_ ?_
  · exact .bind hg.statement fun _ _ _ => .pure ⟨rfl, rfl, rfl⟩
  · exact .bind repeats_lastPlace fun _ _ _ => .pure ⟨rfl, rfl, rfl⟩

theorem repeats_whileStatement (hg : g.Refines K g') (p : Location) :
    Repeats K (whileStatement g p) (whileStatement g' p) Node.Alike := by
  refine .expect (.bind (repeats_assignment hg) fun _ _ _ => .expect ?_)
  exact .bind (repeats_inLoop hg.statement) fun _ _ _ => .pure ⟨rfl, rfl, rfl⟩

theorem repeats_forInit (hg : g.Refines K g') :
    Repeats K (forInit g) (forInit g') fun _ _ => True := by
  refine .accept (.pure trivial) (.bind_eq repeats_atType fun b => ?_)
  split
  · exact .bind (repeats_localDeclaration hg) fun _ _ _ => .pure trivial
  · exact .bind (repeats_assignment hg) fun _ _ _ => .expect (.pure trivial)

theorem repeats_forCondition (hg : g.Refines K g') :
    Repeats K (forCondition g) (forCondition g') Node.Alike := by
  refine .bind_eq repeats_here fun p => .bind_eq (repeats_check ";") fun b => ?_
  split
  · exact .pure (.refl _)
  · exact repeats_assignment hg

theorem repeats_forUpdate (hg : g.Refines K g') :
    Repeats K (forUpdate g) (forUpdate g') fun _ _ => True := by
  refine .bind_eq (repeats_check ")") fun b => ?_
  split
  · exact .pure trivial
  · exact .bind (repeats_assignment hg) fun _ _ _ => .pure trivial

theorem repeats_forStatement (hg : g.Refines K g') (p : Location) :
    Repeats K (forStatement g p) (forStatement g' p) Node.Alike := by
  refine repeats_inScope (.expect (.bind (repeats_forInit hg) fun _ _ _ => ?_))
  refine .bind (repeats_forCondition hg) fun _ _ _ =>
    .expect (.bind (repeats_forUpdate hg) fun _ _ _ => ?_)
  exact .expect (.bind (repeats_inLoop hg.statement) fun _ _ _ => .pure ⟨rfl, rfl, rfl⟩)

theorem repeats_jumpStatement (jump : LoopJump) (p : Location) :
    Repeats K (jumpStatement jump p) (jumpStatement jump p) Node.Alike := by
  refine .get_bind (R := fun s s' => s'.loopDepth = s.loopDepth) (fun _ => rfl)
    (fun _ _ hs => hs.loopDepth) fun s s' hdepth => ?_
  rw [hdepth]
  cases jump with
  | leave | next =>
    dsimp only
    split
    · exact .expect (.pure (.refl _))
    · exact .never fun _ _ _ h => by cases h

/-- Statements are read alike. -/
theorem repeats_statement (hg : g.Refines K g') :
    Repeats K (statement g) (statement g') Node.Alike := by
  refine .acceptOne (fun mark p => ?_) ?_
  · cases mark with
    | ret => exact repeats_returnStatement hg p
    | branch => exact repeats_ifStatement hg p
    | whileLoop => exact repeats_whileStatement hg p
    | forLoop => exact repeats_forStatement hg p
    | jump jump => exact repeats_jumpStatement jump p
    | block => exact .bind (repeats_inScope hg.items) fun _ _ _ => .pure ⟨rfl, rfl, rfl⟩
    | empty => exact .pure (.refl _)
  · exact .bind (repeats_assignment hg) fun _ _ _ => .expect (.pure ⟨rfl, rfl, rfl⟩)

theorem repeats_blockItem (hg : g.Refines K g') :
    Repeats K (blockItem g (statement g)) (blockItem g' (statement g'))
      (Option.Rel Node.Alike) := by
  refine .accept (.pure .none) (.bind_eq repeats_atEnd fun b => ?_)
  split
  · exact repeats_grammarFault _
  · refine .bind_eq repeats_atType fun b => ?_
    split
    · exact .bind (repeats_localDeclaration hg) fun _ _ hn => .pure (.some hn)
    · exact .bind (repeats_statement hg) fun _ _ hn => .pure (.some hn)

theorem repeats_items (hg : g.Refines K g') :
    Repeats K (items g) (items g') (List.Forall₂ Node.Alike) :=
  repeats_collect (repeats_blockItem hg) (contract_blockItem hg.honest)

theorem repeats_parameter (hg : g.Refines K g') : Repeats K (parameter g) (parameter g') Eq := by
  refine .bind_eq (repeats_baseType hg) fun base => .bind_eq (repeats_declarator base) fun d => ?_
  refine .bind_eq (repeats_checkObject d) fun _ => ?_
  cases d.type with
  | struct => exact repeats_declarationFault _ _
  | _ => exact .pure rfl

theorem within_parametersWithin (hg : g.Refines K g') (ts ts' : List Token)
    (hle : ts.length ≤ ts'.length) :
    Within K ts.length (parametersWithin g ts) (parametersWithin g' ts') Eq := by
  induction ts generalizing ts' with
  | nil => exact .zero rfl
  | cons x ts ih =>
    obtain ⟨x', ts', rfl⟩ :=
      List.exists_cons_of_length_pos (Nat.lt_of_lt_of_le (Nat.succ_pos _) hle)
    refine .accept ((Repeats.pure rfl).within _) ?_
    refine .first (repeats_parameter hg) (contract_parameter hg.honest) fun d _ hd => ?_
    subst hd
    refine .accept ?_ ((Repeats.pure rfl).within _)
    exact (ih ts' (Nat.le_of_succ_le_succ hle)).andThen fun r _ hr => hr ▸ .pure rfl

/-- Parameters are read alike. -/
theorem repeats_parameterList (hg : g.Refines K g') :
    Repeats K (parameterList g) (parameterList g') Eq := by
  refine .accept (.pure rfl) (.bind_eq (repeats_check "void") fun a => ?_)
  refine .second (checkSecond_eq ")") (fun b => ?_) (Q := fun _ => True) ?_
  · split
    · exact .bind_eq repeats_advance fun _ => .bind_eq repeats_advance fun _ => .pure rfl
    · exact .rounds fun ts ts' hle => (within_parametersWithin hg ts ts' hle).andThen fun r _ hr =>
        hr ▸ .expect (.pure rfl)
  · rw [Bool.and_false]
    refine .bind contract_rounds fun ts _ => .bind (contract_parametersWithin hg.honest ts)
      fun r _ => ?_
    exact .first (contract_expect _ _) fun _ _ => contract_return trivial

theorem repeats_declareParams (ds : List Declarator) :
    Repeats K (declareParams ds) (declareParams ds) fun ids ids' => ids' = ids.map K.shift := by
  induction ds with
  | nil => exact .pure rfl
  | cons d ds ih =>
    refine .bind (repeats_declareLocal _ _ _) fun id id' hid =>
      .bind ih fun ids ids' hids => .pure ?_
    rw [hid, hids, List.map_cons]

end Parse

namespace Grammar

open Parse

variable {K : Neighborhood} {g g' : Grammar}

/-- Where no token is left, there is nothing to repeat. -/
theorem refines_exhausted : exhausted.Refines K g' where
  honest := honest_exhausted
  baseType := .never fun _ _ _ h => by cases h
  assignment := .never fun _ _ _ h => by cases h
  ternary := .never fun _ _ _ h => by cases h
  unary := .never fun _ _ _ h => by cases h
  initializer := .never fun _ _ _ h => by cases h
  statement := .never fun _ _ _ h => by cases h
  items := repeats_grammarFault _

/-- Readers one level above others that are repeated are repeated. -/
theorem Refines.step (hg : g.Refines K g') : g.step.Refines K g'.step where
  honest := hg.honest.step
  baseType := repeats_baseType hg
  assignment := repeats_assignment hg
  ternary := repeats_ternary hg
  unary := repeats_unary hg
  initializer := repeats_initializer hg
  statement := repeats_statement hg
  items := repeats_items hg

/-- Readers for longer texts repeat those for shorter ones. -/
theorem refines_ofDepth {n m : Nat} (h : n ≤ m) : (ofDepth n).Refines K (ofDepth m) := by
  induction n generalizing m with
  | zero => exact refines_exhausted
  | succ n ih =>
    obtain ⟨m, rfl⟩ := Nat.exists_eq_add_of_le' (Nat.lt_of_lt_of_le (Nat.succ_pos n) h)
    exact (ih (Nat.le_of_succ_le_succ h)).step

end Grammar

end StackC
