import StackC.Proofs.Grammar.Tracing

/-!
Reading always makes progress and ends. Every reader is traced by its reading by index, so that it
needs no token behind the last one, and its loops and calls end by themselves: the bounds that are
built into the readers cut nothing off.
-/

namespace StackC

namespace Attempt

open ParseState (marked body)
open Parse (Never Always IfSome)

structure Readers.Trace (tokens : List Token) (n : Nat) (u : Readers) (g : Grammar) : Prop where
  rounds : n < u.rounds
  within : n ≤ (body tokens).length
  baseType : Traces tokens n Always u.baseType g.baseType
  assignment : Traces tokens n Always u.assignment g.assignment
  ternary : Traces tokens n Always u.ternary g.ternary
  unary : Traces tokens n Always u.unary g.unary
  initializer : Traces tokens n Always u.initializer g.initializer
  statement : Traces tokens n Always u.statement g.statement
  items : Traces tokens n Never u.items g.items

variable {α : Type} {tokens : List Token} {n : Nat} {u : Readers} {g : Grammar}

/-- A mark of the end is no keyword and no punctuator. -/
theorem isReserved_of_eof {t : Token} (h : t.kind = .eof) (text : String) :
    t.isReserved text = false := by
  rw [Token.isReserved, h]
  rfl

theorem beginsType_of_eof {t : Token} (h : t.kind = .eof) : Parse.beginsType t = false := by
  rw [Parse.beginsType, h]
  rfl

theorem endsInitializer_of_eof {t : Token} (h : t.kind = .eof) : endsInitializer t = false := by
  rw [endsInitializer, isReserved_of_eof h, isReserved_of_eof h, isReserved_of_eof h]
  rfl

theorem traces_stars (t : CType) {r : Nat} (hr : n ≤ r) :
    Traces tokens n Never (stars t r) (Parse.stars t) :=
  traces_grow (fun t => .accept' (.done (some t.pointerTo)) .nothing) hr t

/-- A dimension takes its bracket, or nothing at all. -/
theorem traces_dimension : Traces tokens n IfSome dimension Parse.dimension := by
  refine .acceptOne' (fun _ p => ?_) .nothing
  refine .accept' (.done _) (.bind traces_number.free fun v => ?_)
  split
  · exact .throw _
  · exact .expect' (.done _)

theorem traces_dimensions (t : CType) {r : Nat} (hr : n ≤ r) :
    Traces tokens n Never (dimensions t r) (Parse.dimensions t) :=
  .bind (traces_collect traces_dimension hr) fun dims =>
    (tokenless_applyDimensions true t dims).traces

theorem traces_declarator (base : CType) {r : Nat} (hr : n ≤ r) :
    Traces tokens n Always (declarator base r) (Parse.declarator base) := by
  refine .bind (traces_stars base hr) fun t => .first' traces_identifier fun ⟨name, p⟩ => ?_
  exact .bind (traces_dimensions t hr) fun t => .done _

/-- A group of members ends at the closing brace, which is not taken. -/
theorem traces_memberGroup (h : u.Trace tokens n g) :
    Traces tokens n IfSome (memberGroup u) (Parse.memberGroup g) := by
  refine .accept' (.done none) (.bind traces_atEnd fun b => ?_)
  split
  · exact traces_grammarFault _
  · refine .bind h.baseType.free fun base => ?_
    have hmember : Traces tokens n Never
        (do let d ← declarator base u.rounds; aside (Parse.checkObject d); return (d.name, d.type))
        (do let d ← Parse.declarator base; Parse.checkObject d; return (d.name, d.type)) := by
      refine .bind (traces_declarator base h.rounds.le).free fun d => ?_
      exact .bind (tokenless_checkObject d).traces fun _ => .done _
    exact .bind (traces_separated hmember h.rounds.le) fun fields => .expect' (.done (some fields))

theorem traces_structTag : Traces tokens n Never structTag Parse.structTag := by
  refine .look fun c s hs _ => ?_
  split
  · next hk => exact mirrors_take hs (hk ▸ TokenKind.noConfusion) (Nat.lt_succ_self _) (.done _)
  · exact .ok hs (Nat.le_refl _) False.elim

theorem traces_structType (h : u.Trace tokens n g) (p : Location) :
    Traces tokens n Never (structType u p) (Parse.structType g p) := by
  refine .bind traces_structTag fun tag => .accept' ?_ ?_
  · exact .bind (traces_collect (traces_memberGroup h) h.rounds.le) fun groups =>
      (tokenless_declareStruct tag groups.flatten p).traces
  · cases tag with
    | none => exact traces_grammarFault _
    | some name =>
      refine .ask (fun _ _ => rfl) fun s => ?_
      cases s.scopes.tag? name with
      | none => exact .throw _
      | some t => exact .done t

/-- A type takes a token before the members of a struct are read. -/
theorem traces_baseType (h : u.Trace tokens n g) :
    Traces tokens (n + 1) Always (baseType u) (Parse.baseType g) := by
  refine .acceptOne (fun k p => ?_) (.bind traces_next fun t => traces_grammarFault _)
  cases k with
  | none => exact traces_structType h p
  | some k => exact .done _

theorem traces_typeName (h : u.Trace tokens n g) :
    Traces tokens (n + 1) Always (typeName u) (Parse.typeName g) :=
  .first (traces_baseType h) fun base =>
    .bind (traces_stars base h.rounds.le) fun t => traces_dimensions t h.rounds.le

theorem traces_sizeOfType (h : u.Trace tokens n g) (p : Location) :
    Traces tokens (n + 1) Never (sizeOfType u p) (Parse.sizeOfType g p) := by
  refine .bind traces_advance fun _ => .bind (traces_typeName h).free fun t => .expect' ?_
  split
  · exact .throw _
  · exact .done _

/-- An operator behind an operand is taken before its own operands are read. -/
theorem traces_applyPostfix (h : u.Trace tokens n g) (mark : Parse.PostfixMark) (p : Location)
    (e : Node) :
    Traces tokens n Never (applyPostfix u mark p e) (Parse.applyPostfix g mark p e) := by
  cases mark with
  | subscript => exact .bind h.assignment.free fun index => .expect' (.done _)
  | dot | arrow => exact .bind traces_identifier.free fun ⟨name, _⟩ => .done _
  | increment | decrement =>
    exact Tokenless.traces (.bind (tokenless_update _ _ _ _) fun updated => .pure _)

theorem traces_call (h : u.Trace tokens n g) (name : String) (p : Location) :
    Traces tokens n Never (call u name p) (Parse.call g name p) := by
  refine .ask (fun _ _ => rfl) fun s => ?_
  split
  · exact .throw _
  · refine .accept' (.done _) ?_
    exact .bind (traces_separated h.assignment.free h.rounds.le) fun args => .expect' (.done _)

/-- The items of a statement expression stand behind the two tokens that open it. -/
theorem traces_statementExpression (h : u.Trace tokens n g) (p : Location) :
    Traces tokens n Never (statementExpression u p) (Parse.statementExpression g p) := by
  refine .bind (traces_inScope h.items) fun items => .expect' ?_
  cases items.getLast? with
  | none => exact .throw _
  | some item =>
    cases item with
    | exprStmt i e => exact .done _
    | _ => exact .throw _

theorem traces_primary (h : u.Trace tokens n g) :
    Traces tokens (n + 1) Always (primary u) (Parse.primary g) := by
  refine .look fun c s hs hn => ?_
  split
  · next hparen =>
    refine mirrors_take hs (Parse.kind_ne_eof_of_isReserved hparen) hn ?_
    exact .accept' (traces_statementExpression h _)
      (.bind h.assignment.free fun e => .expect' (.done e))
  · cases hk : s.next.kind with
    | num v => exact mirrors_take hs (hk ▸ TokenKind.noConfusion) hn (.done _)
    | str bytes =>
      refine mirrors_take hs (hk ▸ TokenKind.noConfusion) hn ?_
      exact .bind (tokenless_stringLiteral bytes).traces fun id => .done _
    | ident =>
      refine mirrors_take hs (hk ▸ TokenKind.noConfusion) hn ?_
      exact .accept' (traces_call h _ _) (tokenless_namedVariable _ _).traces
    | _ => exact traces_grammarFault _ hs hn

theorem traces_operand (h : u.Trace tokens n g) :
    Traces tokens (n + 1) Always (operand u) (Parse.operand g) := by
  refine .first (traces_primary h) fun e => traces_grow (fun e => ?_) h.rounds.le e
  refine .acceptOne' (fun mark p => ?_) .nothing
  exact .bind (traces_applyPostfix h mark p e) fun e => .done (some e)

/-- Each operator before an operand takes a token, so one level less is enough for what follows
it. -/
theorem traces_unary (h : u.Trace tokens n g) :
    Traces tokens (n + 1) Always (unary u) (Parse.unary g) := by
  have hplain (mark : Parse.PrefixMark) (p : Location) : Traces tokens n Never
      (do let e ← u.unary; aside (Parse.applyPrefix mark p e))
        (do Parse.applyPrefix mark p (← g.unary)) :=
    .bind h.unary.free fun e => (tokenless_applyPrefix mark p e).traces
  refine .acceptOne (fun mark p => ?_) (traces_operand h)
  cases mark with
  | size =>
    have hsize := (traces_sizeOfType h p).mono (Nat.le_succ n)
    exact .checkBoth Parse.atTypeSecond_eq (fun _ => beginsType_of_eof) hsize (hplain .size p)
  | _ => exact hplain _ p

/-- Each further operand follows an operator, which is a token. -/
theorem traces_leftGrouped (table : List (String × BinaryOp)) {x : Attempt Node}
    {y : Parse Node} {r : Nat} (hx : Traces tokens (n + 1) Always x y) (hr : n ≤ r) :
    Traces tokens (n + 1) Always (leftGrouped table x r) (Parse.leftGrouped table y) := by
  refine .first hx fun e => traces_grow (fun left => ?_) hr e
  refine .acceptOne' (fun op p => ?_) .nothing
  exact .bind (hx.free.mono (Nat.le_succ n)) fun right => .done _

theorem traces_multiplicative (h : u.Trace tokens n g) :
    Traces tokens (n + 1) Always (multiplicative u) (Parse.multiplicative g) :=
  traces_leftGrouped _ (traces_unary h) h.rounds.le

theorem traces_additive (h : u.Trace tokens n g) :
    Traces tokens (n + 1) Always (additive u) (Parse.additive g) :=
  traces_leftGrouped _ (traces_multiplicative h) h.rounds.le

theorem traces_relational (h : u.Trace tokens n g) :
    Traces tokens (n + 1) Always (relational u) (Parse.relational g) :=
  traces_leftGrouped _ (traces_additive h) h.rounds.le

theorem traces_equality (h : u.Trace tokens n g) :
    Traces tokens (n + 1) Always (equality u) (Parse.equality g) :=
  traces_leftGrouped _ (traces_relational h) h.rounds.le

theorem traces_conjunction (h : u.Trace tokens n g) :
    Traces tokens (n + 1) Always (conjunction u) (Parse.conjunction g) :=
  traces_leftGrouped _ (traces_equality h) h.rounds.le

theorem traces_disjunction (h : u.Trace tokens n g) :
    Traces tokens (n + 1) Always (disjunction u) (Parse.disjunction g) :=
  traces_leftGrouped _ (traces_conjunction h) h.rounds.le

theorem traces_ternary (h : u.Trace tokens n g) :
    Traces tokens (n + 1) Always (ternary u) (Parse.ternary g) := by
  refine .first (traces_disjunction h) fun cond => .acceptOne' (fun _ p => ?_) (.done cond)
  exact .bind h.assignment.free fun a => .expect' (.bind h.ternary.free fun b => .done _)

/-- The right side of an assignment stands behind its mark. -/
theorem traces_assignment (h : u.Trace tokens n g) :
    Traces tokens (n + 1) Always (assignment u) (Parse.assignment g) := by
  refine .first (traces_ternary h) fun target => .acceptOne' (fun op p => ?_) (.done target)
  cases op with
  | none => exact .bind h.assignment.free fun value => .done _
  | some op =>
    exact .bind h.assignment.free fun value => (tokenless_update op target value p).traces

/-- Each item of a brace list takes a token, so the rounds do not run out. -/
theorem traces_listItemsWithin (h : u.Trace tokens n g) {m r : Nat} (hm : m ≤ n) (hr : m ≤ r)
    {ts : List Token} (hts : m ≤ ts.length) :
    Traces tokens m Never (listItems u r) (Parse.listItemsWithin g ts) := by
  induction m generalizing r ts with
  | zero => exact .zero
  | succ m ih =>
    obtain ⟨r, rfl⟩ := Nat.exists_eq_succ_of_ne_zero (Nat.ne_zero_of_lt hr)
    obtain ⟨t, ts, rfl⟩ := List.exists_cons_of_length_pos (Nat.lt_of_lt_of_le (Nat.succ_pos m) hts)
    have hrest := ih (Nat.le_of_succ_le hm) (Nat.le_of_succ_le_succ hr) (Nat.le_of_succ_le_succ hts)
    refine .accept (.done [])
      (.first (h.initializer.mono hm) fun item => .accept' ?_ (.expect' (.done [item])))
    exact .bind hrest fun items => .done (item :: items)

/-- The look at the token behind a string literal does not go past the mark of the end. -/
theorem traces_initializer (h : u.Trace tokens n g) :
    Traces tokens (n + 1) Always (initializer u) (Parse.initializer g) := by
  have hexpr : Traces tokens (n + 1) Always (do return Initializer.expr (← assignment u))
      (do return Initializer.expr (← Parse.assignment g)) :=
    .first (traces_assignment h) fun e => .done _
  refine .look fun c s hs hn => mirrors_accept hs hn ?_ ?_
  · refine .rounds fun m hm ts hts => ?_
    exact .bind (traces_listItemsWithin h hm (Nat.le_trans hm h.rounds.le) hts) fun items => .done _
  · cases hk : s.next.kind with
    | str bytes =>
      -- Only here the look at the token behind the next one counts, and it is not behind the end.
      have hne : s.next.kind ≠ .eof := hk ▸ TokenKind.noConfusion
      refine mirrors_second Parse.endsSecond_eq (fun _ => endsInitializer_of_eof) hs hne
        fun lone => ?_
      dsimp only
      split
      · exact mirrors_take hs hne hn (.done _)
      · exact hexpr hs hn
    | _ => exact hexpr hs hn

/-- An initializer stands behind its mark. -/
theorem traces_localVariable (h : u.Trace tokens n g) (base : CType) :
    Traces tokens (n + 1) Always (localVariable u base) (Parse.localVariable g base) := by
  refine .first' (traces_declarator base h.rounds) fun d => ?_
  refine .bind (tokenless_checkObject d).traces fun _ => .accept' ?_ ?_
  · refine .bind (tokenless_declareLocal _ _ _).traces fun id => ?_
    refine .bind (traces_initializer h).free fun init => ?_
    refine .bind (Tokenless.modify fun _ _ => rfl).traces fun _ => ?_
    refine .bind (tokenless_stores _ _ init).traces fun stores => ?_
    exact .bind (tokenless_checkFrame _).traces fun _ => .done stores
  · split
    · exact .throw _
    · refine .bind (tokenless_declareLocal _ _ _).traces fun _ => ?_
      exact .bind (tokenless_checkFrame _).traces fun _ => .done []

theorem traces_localDeclaration (h : u.Trace tokens n g) :
    Traces tokens (n + 1) Always (localDeclaration u) (Parse.localDeclaration g) := by
  refine .bind traces_here fun p => .first' (traces_baseType h) fun base => .accept' (.done _) ?_
  exact .bind (traces_separated (traces_localVariable h base).free h.rounds) fun stores =>
    .expect' (.done _)

theorem traces_globalVariable (h : u.Trace tokens n g) (d : Declarator) :
    Traces tokens (n + 1) Never (globalVariable u d) (Parse.globalVariable g d) := by
  have hinit : Traces tokens (n + 1) Never (optionalInitializer u) (Parse.optionalInitializer g) :=
    .accept' (.bind (traces_initializer h).free fun init => .done (some init)) (.done none)
  refine .bind (tokenless_checkObject d).traces fun _ => .ask (fun _ _ => rfl) fun s => ?_
  split
  · exact .throw _
  · refine .bind hinit fun init => ?_
    dsimp only
    split
    · exact .throw _
    · exact .bind (tokenless_initialBytes _ init).traces fun bytes =>
        (tokenless_bindGlobal _ _ _).traces

theorem traces_returnStatement (h : u.Trace tokens n g) (p : Location) :
    Traces tokens (n + 1) Never (returnStatement u p) (Parse.returnStatement g p) := by
  refine .bind (traces_check _) fun b => ?_
  split
  · exact .expect' (.done _)
  · exact .bind (traces_assignment h).free fun value => .expect' (.done _)

theorem traces_ifStatement (h : u.Trace tokens n g) (p : Location) :
    Traces tokens (n + 1) Never (ifStatement u p) (Parse.ifStatement g p) := by
  -- Behind the parenthesis a token has been taken, whose place the empty branch gets.
  refine .expect (.bind ((traces_assignment h).free.mono (Nat.le_succ n)) fun cond => ?_)
  refine .expect' (.bind h.statement.free fun thenBranch => .accept' ?_ ?_)
  · exact .bind h.statement.free fun elseBranch => .done _
  · exact .bind (traces_lastPlace h.within) fun q => .done _

theorem traces_whileStatement (h : u.Trace tokens n g) (p : Location) :
    Traces tokens (n + 1) Never (whileStatement u p) (Parse.whileStatement g p) := by
  refine .expect (.bind ((traces_assignment h).free.mono (Nat.le_succ n)) fun cond => ?_)
  exact .expect' (.bind (traces_inLoop h.statement.free) fun body => .done _)

theorem traces_forInit (h : u.Trace tokens n g) :
    Traces tokens (n + 1) Never (forInit u) (Parse.forInit g) := by
  refine .accept' (.done none) (.bind traces_atType fun b => ?_)
  split
  · exact .bind (traces_localDeclaration h).free fun d => .done (some d)
  · exact .bind (traces_assignment h).free fun e => .expect' (.done _)

theorem traces_forCondition (h : u.Trace tokens n g) :
    Traces tokens (n + 1) Never (forCondition u) (Parse.forCondition g) := by
  refine .bind traces_here fun p => .bind (traces_check _) fun b => ?_
  split
  · exact .done _
  · exact (traces_assignment h).free

theorem traces_forUpdate (h : u.Trace tokens n g) :
    Traces tokens (n + 1) Never (forUpdate u) (Parse.forUpdate g) := by
  refine .bind (traces_check _) fun b => ?_
  split
  · exact .done none
  · exact .bind (traces_assignment h).free fun e => .done _

/-- Each clause of a `for` ends with a token of its own. -/
theorem traces_forStatement (h : u.Trace tokens n g) (p : Location) :
    Traces tokens (n + 1) Never (forStatement u p) (Parse.forStatement g p) := by
  have hle := Nat.le_succ n
  refine traces_inScope (.expect (.bind ((traces_forInit h).mono hle) fun init => ?_))
  refine .bind ((traces_forCondition h).mono hle) fun cond => .expect' ?_
  refine .bind ((traces_forUpdate h).mono hle) fun update => .expect' ?_
  exact .bind (traces_inLoop h.statement.free) fun body => .done _

theorem traces_jumpStatement (jump : Parse.LoopJump) (p : Location) :
    Traces tokens n Never (jumpStatement jump p) (Parse.jumpStatement jump p) := by
  refine .ask (fun _ _ => rfl) fun s => ?_
  cases jump with
  | leave | next =>
    dsimp only
    split
    · exact .expect' (.done _)
    · exact .throw _

/-- A statement takes the token that tells its kind, or the tokens of an expression. -/
theorem traces_statement (h : u.Trace tokens n g) :
    Traces tokens (n + 1) Always (statement u) (Parse.statement g) := by
  have hle := Nat.le_succ n
  refine .acceptOne (fun mark p => ?_)
    (.bind (traces_assignment h).free fun e => .expect' (.done _))
  cases mark with
  | ret => exact (traces_returnStatement h p).mono hle
  | branch => exact (traces_ifStatement h p).mono hle
  | whileLoop => exact (traces_whileStatement h p).mono hle
  | forLoop => exact (traces_forStatement h p).mono hle
  | jump jump => exact traces_jumpStatement jump p
  | block => exact .bind (traces_inScope h.items) fun items => .done _
  | empty => exact .done _

theorem traces_blockItem (h : u.Trace tokens n g) :
    Traces tokens (n + 1) IfSome (blockItem u (statement u))
      (Parse.blockItem g (Parse.statement g)) := by
  refine .accept' (.done none) (.bind traces_atEnd fun b => ?_)
  split
  · exact traces_grammarFault _
  · refine .bind traces_atType fun b => ?_
    split
    · exact .first' (traces_localDeclaration h) fun d => .done (some d)
    · exact .first' (traces_statement h) fun s => .done (some s)

theorem traces_items (h : u.Trace tokens n g) :
    Traces tokens (n + 1) Never (items u) (Parse.items g) :=
  traces_collect (traces_blockItem h) h.rounds

theorem traces_parameter (h : u.Trace tokens n g) :
    Traces tokens (n + 1) Always (parameter u) (Parse.parameter g) := by
  refine .first' (traces_baseType h) fun base => .bind (traces_declarator base h.rounds).free
    fun d => ?_
  refine .bind (tokenless_checkObject d).traces fun _ => ?_
  cases d.type with
  | struct l a => exact .throw _
  | _ => exact .done _

/-- Each parameter takes a token, so the rounds do not run out. -/
theorem traces_parametersWithin (h : u.Trace tokens n g) {m r : Nat} (hm : m ≤ n + 1) (hr : m ≤ r)
    {ts : List Token} (hts : m ≤ ts.length) :
    Traces tokens m Never (parameters u r) (Parse.parametersWithin g ts) := by
  induction m generalizing r ts with
  | zero => exact .zero
  | succ m ih =>
    obtain ⟨r, rfl⟩ := Nat.exists_eq_succ_of_ne_zero (Nat.ne_zero_of_lt hr)
    obtain ⟨t, ts, rfl⟩ := List.exists_cons_of_length_pos (Nat.lt_of_lt_of_le (Nat.succ_pos m) hts)
    have hrest := ih (Nat.le_of_succ_le hm) (Nat.le_of_succ_le_succ hr) (Nat.le_of_succ_le_succ hts)
    -- A parameter takes a token, so that fewer rounds suffice for the ones behind it.
    refine .accept (.done _) (.first ((traces_parameter h).mono hm) fun d => .accept' ?_ (.done _))
    exact .bind hrest fun ⟨ds, variadic⟩ => .done (d :: ds, variadic)

theorem traces_parameterList (h : u.Trace tokens n g) :
    Traces tokens (n + 1) Never (parameterList u) (Parse.parameterList g) := by
  refine .accept' (.done _)
    (.checkBoth (Parse.checkSecond_eq _) (fun _ ht => isReserved_of_eof ht _) ?_ ?_)
  · exact .bind traces_advance fun _ => .bind traces_advance fun _ => .done _
  · refine .rounds fun m hm ts hts => ?_
    exact .bind (traces_parametersWithin h hm (Nat.le_trans hm h.rounds) hts) fun params =>
      .expect' (.done params)

theorem traces_functionBody (h : u.Trace tokens n g) (name : String) :
    Traces tokens (n + 1) Never (functionBody u name) (Parse.functionBody g name) := by
  -- The brace has been taken, so that there is a last token.
  refine .expect (.bind (traces_lastPlace h.within) fun p => ?_)
  refine .bind ((traces_items h).mono (Nat.le_succ n)) fun body => ?_
  exact (Tokenless.modify fun _ _ => rfl).traces

theorem traces_function (h : u.Trace tokens n g) (d : Declarator) :
    Traces tokens (n + 1) Never (function u d) (Parse.function g d) := by
  unfold function Parse.function
  split
  · exact .throw _
  · refine traces_inFunction
      (.expect' (.bind (traces_parameterList h) fun ⟨declarators, variadic⟩ => ?_))
    refine .bind (tokenless_declareParams declarators).traces fun params => ?_
    refine .bind (tokenless_checkFrame _).traces fun _ => .bind (traces_accept _).free fun b => ?_
    refine .bind (tokenless_registerFunction _ _).traces fun _ => ?_
    split
    · exact traces_functionBody h d.name
    · exact .done ()

/-- A declaration at file level begins with a type, which takes a token. -/
theorem traces_topLevel (h : u.Trace tokens n g) :
    Traces tokens (n + 1) Always (topLevel u) (Parse.topLevel g) := by
  refine .first' (traces_baseType h) fun base => .accept' (.done ()) ?_
  refine .bind (traces_declarator base h.rounds).free fun d => .bind (traces_check _) fun b => ?_
  split
  · exact traces_function h d
  · refine .bind (traces_globalVariable h d) fun _ => ?_
    have hmore : Traces tokens (n + 1) IfSome
        (do
          if ← accept "," then
            let d ← declarator base u.rounds
            globalVariable u d
            return some ()
          else
            return none)
        (do
          if ← Parse.accept "," then
            let d ← Parse.declarator base
            Parse.globalVariable g d
            return some ()
          else
            return none) := by
      refine .accept' ?_ .nothing
      refine .bind (traces_declarator base h.rounds).free fun d => ?_
      exact .bind (traces_globalVariable h d) fun _ => .done _
    exact .bind (traces_collect hmore h.rounds) fun _ => (traces_expect _ _).free

/-- Each declaration takes a token, so there is a round for each of them. -/
theorem traces_topLevelsWithin (h : u.Trace tokens n g) {m r : Nat} (hm : m ≤ n) (hr : m < r) :
    Traces tokens (m + 1) Never (topLevels u r) (Parse.topLevelsWithin g m) := by
  -- By the tokens ahead; the round behind the last declaration finds the end.
  induction m generalizing r with
  | zero =>
    intro c s hs hn
    obtain ⟨r, rfl⟩ := Nat.exists_eq_succ_of_ne_zero (Nat.ne_zero_of_lt hr)
    have hend : s.next.kind = .eof :=
      (next_eof_iff hs).mpr (List.length_eq_zero_iff.mp (Nat.lt_one_iff.mp hn))
    have hc : atEnd c = some (.ok true c) := by
      refine (bind_of_ok (next_of_shows hs)).trans ?_
      rw [hend]
      rfl
    rw [topLevels, bind_of_ok hc]
    exact .ok hs (Nat.le_refl _) False.elim
  | succ m ih =>
    obtain ⟨r, rfl⟩ := Nat.exists_eq_succ_of_ne_zero (Nat.ne_zero_of_lt hr)
    refine .bind traces_atEnd fun b => ?_
    split
    · exact .done ()
    · refine .first ((traces_topLevel h).mono (Nat.succ_le_succ hm)) fun _ => ?_
      exact ih (Nat.le_of_succ_le hm) (Nat.lt_of_succ_lt_succ hr)

theorem rounds_ofDepth (r d : Nat) : (Readers.ofDepth r d).rounds = r := by
  induction d with
  | zero => rfl
  | succ d ih => exact ih

/-- Readers one level above others trace texts that are longer by one token. -/
theorem Readers.Trace.step (h : u.Trace tokens n g) (hr : n + 1 < u.rounds)
    (hle : n + 1 ≤ (body tokens).length) : u.step.Trace tokens (n + 1) g.step where
  rounds := hr
  within := hle
  baseType := traces_baseType h
  assignment := traces_assignment h
  ternary := traces_ternary h
  unary := traces_unary h
  initializer := traces_initializer h
  statement := traces_statement h
  items := traces_items h

/-- A depth of `n` suffices for fewer than `n` tokens, whatever the readers do at the bottom. -/
theorem trace_ofDepth {r d m : Nat} (hr : n < r) (hle : n ≤ (body tokens).length) (hd : n ≤ d)
    (hm : n ≤ m) :
    (Readers.ofDepth r d).Trace tokens n (Grammar.ofDepth m) := by
  induction n generalizing d m with
  | zero =>
    -- No state has fewer than no tokens ahead, so nothing is asked of the readers at the bottom.
    refine ⟨?_, hle, .zero, .zero, .zero, .zero, .zero, .zero, .zero⟩
    rw [rounds_ofDepth]
    exact hr
  | succ n ih =>
    obtain ⟨d, rfl⟩ := Nat.exists_eq_succ_of_ne_zero (Nat.ne_zero_of_lt hd)
    obtain ⟨m, rfl⟩ := Nat.exists_eq_succ_of_ne_zero (Nat.ne_zero_of_lt hm)
    have hbelow := ih (Nat.lt_of_succ_lt hr) (Nat.le_of_succ_le hle) (Nat.le_of_succ_le_succ hd)
      (Nat.le_of_succ_le_succ hm)
    refine hbelow.step ?_ hle
    rw [rounds_ofDepth]
    exact hr

/-- With more rounds than tokens, reading a program by index comes to what the reader comes to. -/
theorem traces_program {bound : Nat} (hb : (body tokens).length < bound) :
    Traces tokens ((body tokens).length + 1) Never (program bound) Parse.program := by
  intro c s hs hn
  -- The depth of the reader's grammar is the number of tokens ahead, that of the readings is the
  -- bound.
  have hle := hs.inside.length_le
  have hg := trace_ofDepth (Nat.lt_of_le_of_lt hle hb) hle
    (Nat.le_of_lt (Nat.lt_of_le_of_lt hle hb)) (Nat.le_refl s.ahead.length)
  have htops := traces_topLevelsWithin hg (Nat.le_refl _) (Nat.lt_of_le_of_lt hle hb)
  have htake : Tokenless
      (modifyGet fun s => (s.program, { s with program := {} }) : Parse Program) :=
    fun _ _ => rfl
  exact Traces.bind htops (fun _ => htake.traces) hs (Nat.lt_succ_self _)

def reading (bound : Nat) (tokens : List Token) : Option (Except Diagnostic Program) :=
  match program bound ⟨marked tokens, 0, { ahead := [], finish := {} }⟩ with
  | none => none
  | some (.ok p _) => some (.ok p)
  | some (.error e _) => some (.error e)

/-- Every bound above the number of tokens gives the same result. -/
theorem reading_eq {bound : Nat} (hb : (body tokens).length < bound) :
    reading bound tokens = some (ParseState.ofTokens tokens).readProgram.1 := by
  have hs : (⟨marked tokens, 0, { ahead := [], finish := {} }⟩ : Cursor).Shows tokens
    (.ofTokens tokens) :=
    ⟨ParseState.inside_ofTokens tokens, rfl, (Nat.sub_self _).symm, rfl⟩
  have hmirrors := traces_program hb hs (Nat.lt_succ_self _)
  unfold reading ParseState.readProgram
  generalize program bound _ = r at hmirrors
  generalize Parse.program _ = r' at hmirrors
  cases hmirrors with
  | ok => rfl
  | error => rfl

end Attempt

namespace ParseState

def moved (tokens : List Token) (i : Nat) (s : ParseState) : ParseState :=
  { s with
    ahead := (body tokens).drop i
    finish := (ofTokens tokens).finish
    last := ((marked tokens)[i - 1]?.map (·.place)).getD {} }

/-- The state that has been moved to an index is the one that a cursor there shows. -/
theorem shows_moved {tokens : List Token} {i : Nat} (hi : i ≤ (body tokens).length)
    (s : ParseState) :
    (⟨marked tokens, i, s⟩ : Cursor).Shows tokens (s.moved tokens i) := by
  have hlen : (s.moved tokens i).ahead.length = (body tokens).length - i := List.length_drop
  have hposition : (s.moved tokens i).position tokens = i := by
    rw [position, hlen]
    omega
  refine ⟨⟨List.drop_suffix _ _, rfl, fun _ => ?_⟩, rfl, hposition.symm, rfl⟩
  obtain ⟨e, more, hmarked, -⟩ := marked_eq tokens
  have hlt : i - 1 < (marked tokens).length := by
    rw [hmarked, List.length_append, List.length_cons]
    omega
  rw [hposition, moved, List.getElem?_eq_getElem hlt]
  rfl

/-- The tokens ahead of a reading begin at its position. -/
theorem Inside.ahead_eq {tokens : List Token} {s : ParseState} (h : s.Inside tokens) :
    s.ahead = (body tokens).drop (s.position tokens) :=
  List.suffix_iff_eq_drop.mp h.ahead

theorem takeWhile_mark {l : List Token} {e : Token} (hl : ∀ t ∈ l, t.kind ≠ .eof)
    (he : e.kind = .eof) (more : List Token) : (l ++ e :: more).takeWhile (·.kind != .eof) = l ∧
      (l ++ e :: more).dropWhile (·.kind != .eof) = e :: more := by
  have hall : ∀ t ∈ l, (t.kind != .eof) = true := fun t ht => bne_iff_ne.mpr (hl t ht)
  have hstop : (e.kind != .eof) = false := by
    rw [he]
    rfl
  constructor
  · rw [List.takeWhile_append_of_pos hall, List.takeWhile_cons, hstop]
    exact List.append_nil l
  · rw [List.dropWhile_append_of_pos hall, List.dropWhile_cons, hstop]
    rfl

/-- The first mark of the end and what stands before it are all that counts. -/
theorem ofTokens_of_marked {tokens l more : List Token} {e : Token}
    (h : marked tokens = l ++ e :: more) (hl : ∀ t ∈ l, t.kind ≠ .eof) (he : e.kind = .eof) :
    ofTokens tokens = { ahead := l, finish := e.place } := by
  obtain ⟨e', more', hmarked, he', hplace⟩ := marked_eq tokens
  obtain ⟨htake, hdrop⟩ := takeWhile_mark hl he more
  have hbefore : ∀ t ∈ body tokens, t.kind ≠ .eof := fun _ => kind_of_mem_body
  obtain ⟨htake', hdrop'⟩ := takeWhile_mark hbefore he' more'
  rw [← h, hmarked] at htake hdrop
  have hbody : body tokens = l := htake'.symm.trans htake
  have hmark : e' = e := (List.cons.inj (hdrop'.symm.trans hdrop)).1
  have hsame : ofTokens tokens = { ahead := body tokens, finish := (ofTokens tokens).finish } := rfl
  rw [hsame, ← hplace, hbody, hmark]

/-- Lists of tokens that agree up to a mark of the end are read alike. -/
theorem ofTokens_congr {tokens tokens' front : List Token} (h : front <+: marked tokens)
    (h' : front <+: marked tokens') (hend : ∃ e ∈ front, e.kind = .eof) :
    ofTokens tokens' = ofTokens tokens := by
  have hsplit : body front ++ front.dropWhile (·.kind != .eof) = front :=
    List.takeWhile_append_dropWhile
  cases hd : front.dropWhile (·.kind != .eof) with
  | nil =>
    obtain ⟨e, he, hkind⟩ := hend
    rw [hd, List.append_nil] at hsplit
    rw [← hsplit] at he
    exact absurd hkind (kind_of_mem_body he)
  | cons e more =>
    have hkind : e.kind = .eof := by
      have hhead := List.head?_dropWhile_not (fun t : Token => t.kind != .eof) front
      rw [hd] at hhead
      simpa using hhead
    rw [hd] at hsplit
    obtain ⟨rest, hrest⟩ := h
    obtain ⟨rest', hrest'⟩ := h'
    rw [← hsplit, List.append_assoc, List.cons_append] at hrest hrest'
    rw [ofTokens_of_marked hrest.symm (fun _ => kind_of_mem_body) hkind,
      ofTokens_of_marked hrest'.symm (fun _ => kind_of_mem_body) hkind]

end ParseState

open ParseState (marked body)

namespace Attempt

/-- From every index up to that of the first mark of the end, the reading by index has an outcome,
the same as the reader's. It does not go behind the mark, and if it succeeds, it has taken a
token. -/
def Progresses {α : Type} (tokens : List Token) (x : Attempt α) (y : Parse α) : Prop :=
  ∀ i ≤ (body tokens).length, ∀ s : ParseState,
    match x ⟨marked tokens, i, s⟩, y (s.moved tokens i) with
    | some (.ok a c), .ok b s' =>
      a = b ∧ i < c.index ∧ c.index ≤ (body tokens).length ∧ s'.ahead = (body tokens).drop c.index
    | some (.error e c), .error e' s' =>
      e = e' ∧ i ≤ c.index ∧ c.index ≤ (body tokens).length ∧ s'.ahead = (body tokens).drop c.index
    | _, _ => False

/-- A reading that is traced from everywhere and takes a token makes progress. -/
theorem Traces.progresses {α : Type} {tokens : List Token} {x : Attempt α} {y : Parse α}
    (h : Traces tokens ((body tokens).length + 1) Parse.Always x y) : Progresses tokens x y := by
  intro i hi s
  have hs := ParseState.shows_moved hi s
  have hlen : (s.moved tokens i).ahead.length = (body tokens).length - i := List.length_drop
  have hmirrors := h hs (by omega)
  rw [hlen] at hmirrors
  -- The index is the number of tokens that are not ahead any more.
  have hindex {c : Cursor} {s' : ParseState} (hs' : c.Shows tokens s') :
      c.index = (body tokens).length - s'.ahead.length ∧ s'.ahead = (body tokens).drop c.index :=
    ⟨hs'.index, hs'.index ▸ hs'.inside.ahead_eq⟩
  generalize x _ = r at hmirrors
  generalize y _ = r' at hmirrors
  cases hmirrors with
  | ok hs' hle hlt =>
    obtain ⟨hi', hahead⟩ := hindex hs'
    have hlt := hlt trivial
    exact ⟨rfl, by omega, by omega, hahead⟩
  | error hs' hle =>
    obtain ⟨hi', hahead⟩ := hindex hs'
    exact ⟨rfl, by omega, by omega, hahead⟩

def expressions (u : Readers) (g : Grammar) : List (Attempt Node × Parse Node) :=
  [(assignment u, Parse.assignment g), (ternary u, Parse.ternary g),
    (disjunction u, Parse.disjunction g), (conjunction u, Parse.conjunction g),
    (equality u, Parse.equality g), (relational u, Parse.relational g),
    (additive u, Parse.additive g), (multiplicative u, Parse.multiplicative g),
    (unary u, Parse.unary g),
    (operand u, Parse.operand g), (primary u, Parse.primary g)]

/-- All readers of expressions are traced, and all of them take a token. -/
theorem traces_expressions {tokens : List Token} {n : Nat} {u : Readers} {g : Grammar}
    (h : u.Trace tokens n g) :
    ∀ r ∈ expressions u g, Traces tokens (n + 1) Parse.Always r.1 r.2 := by
  simp only [expressions, List.forall_mem_cons]
  exact ⟨traces_assignment h, traces_ternary h, traces_disjunction h, traces_conjunction h,
    traces_equality h, traces_relational h, traces_additive h, traces_multiplicative h,
    traces_unary h, traces_operand h,
    traces_primary h, fun _ hr => absurd hr List.not_mem_nil⟩

end Attempt

open Attempt (Progresses) in
/-- Whatever the tokens are, reading them by index ends, needs no token behind the last one and
comes to what the reader comes to. Readers of declarations, statements, initializers and
expressions take a token whenever they succeed. The tokens behind the first mark of the end do not
count. -/
theorem reading_progresses (tokens : List Token) :
    (∀ bound, (marked tokens).length ≤ bound →
      Attempt.reading bound tokens = some (ParseState.ofTokens tokens).readProgram.1) ∧
    (∀ bound depth, (marked tokens).length ≤ bound → (body tokens).length ≤ depth →
      let u := Attempt.Readers.ofDepth bound bound
      let g := Grammar.ofDepth depth
      Progresses tokens (Attempt.topLevel u) (Parse.topLevel g) ∧
      Progresses tokens (Attempt.localDeclaration u) (Parse.localDeclaration g) ∧
      Progresses tokens (Attempt.statement u) (Parse.statement g) ∧
      Progresses tokens (Attempt.initializer u) (Parse.initializer g) ∧
      ∀ r ∈ Attempt.expressions u g, Progresses tokens r.1 r.2) ∧
    (∀ tokens' front, front <+: marked tokens → front <+: marked tokens' →
      (∃ e ∈ front, e.kind = .eof) → (ParseState.ofTokens tokens').readProgram =
      (ParseState.ofTokens tokens).readProgram) := by
  have hlt := ParseState.length_body_lt tokens
  refine ⟨fun bound hb => Attempt.reading_eq (Nat.lt_of_lt_of_le hlt hb),
    fun bound depth hb hd => ?_, ?_⟩
  · have hlt := Nat.lt_of_lt_of_le hlt hb
    have hg := Attempt.trace_ofDepth hlt (Nat.le_refl _) (Nat.le_of_lt hlt) hd
    exact ⟨(Attempt.traces_topLevel hg).progresses, (Attempt.traces_localDeclaration hg).progresses,
      (Attempt.traces_statement hg).progresses, (Attempt.traces_initializer hg).progresses,
      fun r hr => (Attempt.traces_expressions hg r hr).progresses⟩
  · intro tokens' front hfront hfront' hend
    rw [ParseState.ofTokens_congr hfront hfront' hend]

def cutTokens : List Token :=
  [⟨.reserved, "int", {}⟩, ⟨.ident, "x", {}⟩, ⟨.reserved, ";", {}⟩, .atEnd {},
    ⟨.reserved, "int", {}⟩, ⟨.ident, "y", {}⟩]

/-- The tokens behind the first mark of the end are never met. -/
theorem reading_progresses_cut :
    Attempt.reading 7 cutTokens = some (ParseState.ofTokens cutTokens).readProgram.1 ∧
    (ParseState.ofTokens cutTokens).readProgram.1.toOption.map (·.globals.length) = some 1 ∧
    (∀ r ∈ Attempt.expressions (.ofDepth 7 7) (.ofDepth 3), Attempt.Progresses cutTokens r.1 r.2) ∧
    (ParseState.ofTokens (cutTokens.take 4)).readProgram =
    (ParseState.ofTokens cutTokens).readProgram := by
  obtain ⟨hends, htakes, hsame⟩ := reading_progresses cutTokens
  refine ⟨hends 7 (by decide), by decide +kernel, (htakes 7 3 (by decide) (by decide)).2.2.2.2, ?_⟩
  exact hsame (cutTokens.take 4) (cutTokens.take 4) (by decide) (by decide) (by decide)

end StackC
