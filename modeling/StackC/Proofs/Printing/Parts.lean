import StackC.Proofs.Printing.Levels

namespace StackC

namespace Parse

open Token (Word)
open Token.Word (mark name numeral)
open Surface (updated prefixed)

variable {scopes : Scopes} {program : Program} {k n : Nat} {ws vs us : List Word} {w : Word}
  {ok ok' ok'' : Bool} {e e' e'' : Node} {s : ParseState} {rest : List Token} {t : Token}
  {text : String}

theorem next_eq (s : ParseState) : next s = .ok s.next s := rfl

theorem not_isReserved {t : Token} (h : t.kind ≠ .reserved) (text : String) :
    t.isReserved text = false := by
  rw [Token.isReserved, beq_false_of_ne h, Bool.false_and]

theorem primary_of_num {v : Int64} (h : s.next.kind = .num v) (g : Grammar) :
    primary g s = .ok (.literal v s.next.place) s.advance := by
  have hopen : s.next.isReserved "(" = false := by
    refine not_isReserved ?_ _
    rw [h]
    exact TokenKind.noConfusion
  rw [primary, bind_of_ok (next_eq s)]
  simp only [hopen, Bool.false_eq_true, if_false, h]
  rfl

/-- A name is called if an opening parenthesis follows it. -/
theorem primary_of_ident (h : s.next.kind = .ident) (g : Grammar) :
    primary g s = (do
      if ← accept "(" then call g s.next.text s.next.place
      else namedVariable s.next.text s.next.place) s.advance := by
  have hopen : s.next.isReserved "(" = false := by
    refine not_isReserved ?_ _
    rw [h]
    exact TokenKind.noConfusion
  rw [primary, bind_of_ok (next_eq s)]
  simp only [hopen, Bool.false_eq_true, if_false, h]
  rfl

theorem primary_of_open (h : s.next.isReserved "(" = true)
    (hbrace : s.advance.next.isReserved openBrace = false) (g : Grammar) :
    primary g s = (do
      let e ← g.assignment
      expect ")" "after expression"
      return e) s.advance := by
  have hadvance : advance s = .ok () s.advance := rfl
  rw [primary, bind_of_ok (next_eq s), if_pos h, bind_of_ok hadvance,
    bind_of_ok (accept_of_not hbrace)]
  rfl

/-- What is read without operators behind it begins the loop of such operators. -/
theorem runsAt_of_primary (h : ∀ n s rest, Faces scopes program s ws rest → ws.length ≤ n →
      Stops 10 rest → Takes (primary (.ofDepth n)) s ok (·.unplaced = e) rest) :
    RunsAt scopes program 9 ws ok e :=
  fun n s rest hs hn hrest => (h n s rest hs hn hrest).continues

theorem runsAt_num (v : Int64) : RunsAt scopes program 9 [numeral v] true (.literal v {}) := by
  refine runsAt_of_primary fun n s rest hs _ _ => ?_
  obtain ⟨mid, hw, hpast, hs'⟩ := hs.cons
  have hmid : mid = rest := hpast.ahead.symm.trans hs'.nil
  subst hmid
  exact ⟨_, _, primary_of_num (Word.of_numeral hw) _, rfl, hpast⟩

/-- A variable is read as its tree. -/
theorem runsAt_var {x : String} {id : VarId} (hx : scopes.var? x = some id) :
    RunsAt scopes program 9 [name x] true (.var (.bare {}) id) := by
  refine runsAt_of_primary fun n s rest hs _ hrest => ?_
  obtain ⟨mid, hw, hpast, hs'⟩ := hs.cons
  have hmid : mid = rest := hpast.ahead.symm.trans hs'.nil
  subst hmid
  obtain ⟨hkind, htext⟩ := Word.of_name hw
  have hcall : accept "(" s.advance = .ok false s.advance :=
    accept_of_not (hrest.next hpast.ahead (by decide))
  refine ⟨.var (.bare s.next.place) id, s.advance, ?_, rfl, hpast⟩
  rw [primary_of_ident hkind, bind_of_ok hcall]
  simp only [Bool.false_eq_true, if_false, htext]
  have hget : (get : Parse ParseState) s.advance = .ok s.advance s.advance := rfl
  rw [namedVariable, bind_of_ok hget, hs'.scopes, hx]
  rfl

def operators : List String :=
  ["(", ")", "[", "]", ".", "->", "++", "--", "+", "-", "&", "*", "!", "sizeof", "/",
    "%", "<", "<=", ">", ">=", "==", "!=", "&&", "||", "?", ":", "=", "+=", "-=", "*=", "/=", ","]

def isOperator (w : Word) : Bool := w.1 != .reserved || operators.contains w.2

theorem not_openBrace {t : Token} (h : isOperator t.word = true) :
    t.isReserved openBrace = false := by
  by_contra hne
  rw [Word.of_isReserved (Bool.eq_true_of_not_eq_false hne)] at h
  exact absurd h (by decide)

/-- Nothing that can stand in an expression begins a type. -/
theorem not_beginsType {t : Token} (h : isOperator t.word = true) : beginsType t = false := by
  by_contra hne
  have htype := Bool.eq_true_of_not_eq_false hne
  rw [beginsType, Bool.and_eq_true] at htype
  obtain ⟨entry, hentry⟩ := Option.isSome_iff_exists.mp htype.2
  have hword : t.word = mark t.text := by
    rw [Token.word, eq_of_beq htype.1]
    rfl
  have hkeywords : baseKeywords.all (fun entry => !isOperator (mark entry.1)) = true := by decide
  have hfalse := List.all_eq_true.mp hkeywords _ (Lists.mem_of_lookup hentry)
  rw [hword] at h
  rw [h] at hfalse
  exact absurd hfalse (by decide)

/-- The first word of an expression with a word behind it. -/
theorem Faces.next_isOperator (h : Faces scopes program s (ws ++ w :: vs) rest)
    (hws : ws.all isOperator = true) (hw : isOperator w = true) :
    isOperator s.next.word = true := by
  cases ws with
  | nil =>
    obtain ⟨mid, hnext, -, -⟩ := h.cons
    rw [hnext]
    exact hw
  | cons u us =>
    obtain ⟨mid, hnext, -, -⟩ := h.cons
    rw [hnext]
    rw [List.all_cons, Bool.and_eq_true] at hws
    exact hws.1

/-- What is read up to a mark that does not go on with it, and what follows. -/
theorem ReadsAt.upTo {α : Type} {f : Node → Parse α} {Q : α → Prop} (n : Nat)
    (h : ReadsAt scopes program k ws ok e) (hstop : goesOn k text = false) (hn : ws.length ≤ n)
    (hs : Faces scopes program s (ws ++ mark text :: vs) rest)
    (hf : ∀ a s', a.unplaced = e → Faces scopes program s' (mark text :: vs) rest →
      Takes (f a) s' ok' Q rest) :
    Takes (reader (.ofDepth n) k >>= f) s (ok && ok') Q rest := by
  obtain ⟨t, mid, ht, -, hfront, hback⟩ := hs.split
  have hstops : Stops k (t :: mid) := stops_mark (Word.of_mark ht) hstop mid
  exact (h n s (t :: mid) hfront hn hstops).bind fun a s' ha hs' => hf a s' ha (hback s' hs')

/-- Parentheses are read as what stands in them. -/
theorem runsAt_paren (hws : ws.all isOperator = true) (h : ReadsAt scopes program 0 ws ok e) :
    RunsAt scopes program 9 (mark "(" :: (ws ++ [mark ")"])) ok e := by
  refine runsAt_of_primary fun n s rest hs hn _ => ?_
  obtain ⟨_, hopen, hpast, hs₁⟩ := hs.cons
  rw [List.length_cons, List.length_append, List.length_singleton] at hn
  obtain ⟨n, rfl⟩ : ∃ m, n = m + 1 := ⟨n - 1, by omega⟩
  have hbrace := not_openBrace (hs₁.next_isOperator hws (by decide))
  refine .of_eq (primary_of_open (Word.of_mark hopen) hbrace _) hpast ?_
  rw [← Bool.and_true ok]
  refine h.upTo n (by decide) (by omega) hs₁ fun a s₂ ha hs₂ => ?_
  obtain ⟨_, hclose, hpast', hs₃⟩ := hs₂.cons
  refine .after (expect_of_isReserved (Word.of_mark hclose) _) hpast' ?_
  exact .pure ha hs₃.nil

def nextArgument (g : Grammar) : Parse (Option Node) := do
  if ← accept "," then return some (← g.assignment) else return none

def ReadsAll (scopes : Scopes) (program : Program) (args : List Surface) : Prop :=
  ∀ a ∈ args, ReadsAt scopes program 0 (a.renderAt 0) (a.isUpdatable scopes) (a.desugar scopes)

/-- The words of an argument end at a comma or at the closing parenthesis. -/
theorem Faces.argument {args : List Surface} (ht : t.isReserved ")" = true)
    (hs : Faces scopes program s (ws ++ Surface.renderOthers args) (t :: rest)) :
    ∃ mid, Stops 0 mid ∧ Faces scopes program s ws mid ∧
      ∀ s', s.Past mid s' → Faces scopes program s' (Surface.renderOthers args) (t :: rest) := by
  cases args with
  | nil =>
    rw [Surface.renderOthers, List.append_nil] at hs
    refine ⟨t :: rest, stops_mark ht (by decide) rest, hs, fun s' hs' => ?_⟩
    exact ⟨hs'.scopes.trans hs.scopes, hs'.program.trans hs.program, [], rfl, hs'.ahead⟩
  | cons a args =>
    obtain ⟨t', mid, ht', -, hfront, hback⟩ := hs.split
    exact ⟨t' :: mid, stops_mark (Word.of_mark ht') (by decide) mid, hfront, hback⟩

/-- Further arguments are read one by one, each behind its comma. -/
theorem takes_others {args : List Surface} (h : ReadsAll scopes program args)
    (ht : t.isReserved ")" = true) {ts : List Token} (hts : args.length < ts.length)
    (hs : Faces scopes program s (Surface.renderOthers args) (t :: rest))
    (hn : (Surface.renderOthers args).length ≤ n) :
    Takes (collectWithin (nextArgument (.ofDepth (n + 1))) ts) s (Surface.allUpdatable scopes args)
      (Node.unplacedAll · = Surface.desugarAll scopes args) (t :: rest) := by
  induction args generalizing s ts with
  | nil =>
    cases ts with
    | nil => exact absurd hts (Nat.not_lt_zero _)
    | cons t' ts =>
      have hcomma : s.next.isReserved "," = false := by
        rw [ParseState.next_of_ahead hs.nil]
        obtain ⟨hkind, htext⟩ := kind_of_isReserved ht
        rw [Token.isReserved, hkind, htext]
        rfl
      have hnone : nextArgument (.ofDepth (n + 1)) s = .ok none s := by
        rw [nextArgument, bind_of_ok (accept_of_not hcomma)]
        rfl
      exact .after hnone (ParseState.past_self hs.nil) (.pure rfl hs.nil)
  | cons a args ih =>
    -- A round takes a comma and an argument.
    cases ts with
    | nil => exact absurd hts (Nat.not_lt_zero _)
    | cons t' ts =>
      obtain ⟨ha, hargs⟩ := List.forall_mem_cons.mp h
      rw [Surface.renderOthers, List.length_cons, List.length_append] at hn
      rw [List.length_cons, List.length_cons] at hts
      obtain ⟨_, hw, hpast, hs'⟩ := hs.cons
      obtain ⟨mid, hstops, hfront, hback⟩ := hs'.argument ht
      have hitem : Takes (nextArgument (.ofDepth (n + 1))) s (a.isUpdatable scopes)
          (fun r => ∃ b, r = some b ∧ b.unplaced = a.desugar scopes) mid := by
        refine .after (accept_of_isReserved (Word.of_mark hw)) hpast ?_
        rw [← Bool.and_true (a.isUpdatable scopes)]
        refine (ha n s.advance mid hfront ?_ hstops).bind fun b s₁ hb hs₁ => ?_
        · exact Nat.le_of_add_right_le (Nat.le_of_succ_le hn)
        · exact .pure ⟨b, rfl, hb⟩ hs₁.ahead
      refine hitem.bind fun r s₁ hr hs₁ => ?_
      obtain ⟨b, rfl, hb⟩ := hr
      have hfaces := hback s₁ (hpast.rebase hs₁)
      rw [← Bool.and_true (Surface.allUpdatable scopes args)]
      refine (ih hargs (by omega) hfaces (by omega)).bind fun bs s₂ hbs hs₂ => ?_
      exact .pure (congrArg₂ List.cons hb hbs) hs₂.ahead

theorem length_le_renderOthers (args : List Surface) :
    args.length ≤ (Surface.renderOthers args).length := by
  induction args with
  | nil => exact Nat.le_refl 0
  | cons a args ih =>
    rw [Surface.renderOthers, List.length_cons, List.length_cons, List.length_append]
    omega

theorem takes_separated {a : Surface} {args : List Surface}
    (h : ReadsAll scopes program (a :: args)) (ht : t.isReserved ")" = true)
    (hs : Faces scopes program s (Surface.renderArgs (a :: args)) (t :: rest))
    (hn : (Surface.renderArgs (a :: args)).length ≤ n) :
    Takes (separated (Grammar.ofDepth (n + 1)).assignment) s
      (Surface.allUpdatable scopes (a :: args))
      (Node.unplacedAll · = Surface.desugarAll scopes (a :: args)) (t :: rest) := by
  obtain ⟨ha, hargs⟩ := List.forall_mem_cons.mp h
  rw [Surface.renderArgs] at hs hn
  rw [List.length_append] at hn
  obtain ⟨mid, hstops, hfront, hback⟩ := hs.argument ht
  refine (ha n s mid hfront (Nat.le_of_add_right_le hn) hstops).bind fun b s₁ hb hs₁ => ?_
  have hfaces := hback s₁ hs₁
  have hrounds : args.length < (Token.atEnd s₁.finish :: s₁.ahead).length := by
    have hlen := hfaces.length
    have hargs := length_le_renderOthers args
    rw [List.length_cons]
    omega
  rw [← Bool.and_true (Surface.allUpdatable scopes args)]
  have hothers : Takes (collect (nextArgument (.ofDepth (n + 1)))) s₁
      (Surface.allUpdatable scopes args)
      (Node.unplacedAll · = Surface.desugarAll scopes args) (t :: rest) :=
    takes_others hargs ht hrounds hfaces (by omega)
  exact hothers.bind fun bs s₂ hbs hs₂ => .pure (congrArg₂ List.cons hb hbs) hs₂.ahead

def Opens (ws : List Word) : Prop := ∃ w vs, ws = w :: vs ∧ w ≠ mark ")"

/-- The arguments of a call behind its opening parenthesis. -/
theorem takes_call {f : String} {args : List Surface} (hf : (s.program.function? f).isSome = true)
    (h : ReadsAll scopes program args)
    (hopens : args ≠ [] → Opens (Surface.renderArgs args))
    (hs : Faces scopes program s (Surface.renderArgs args ++ [mark ")"]) rest)
    (hn : (Surface.renderArgs args).length ≤ n) (p : Location) :
    Takes (call (.ofDepth (n + 1)) f p) s (Surface.allUpdatable scopes args)
      (·.unplaced = .call (.bare {}) f (Surface.desugarAll scopes args)) rest := by
  have hget : (get : Parse ParseState) s = .ok s s := rfl
  have hknown : (s.program.function? f).isNone = false := Option.isNone_eq_false_iff.mpr hf
  refine .after hget (ParseState.past_self rfl) ?_
  rw [hknown]
  cases args with
  | nil =>
    obtain ⟨mid, hw, hpast, hs'⟩ := hs.cons
    exact .after (accept_of_isReserved (Word.of_mark hw)) hpast (.pure rfl hs'.nil)
  | cons a args =>
    obtain ⟨t, mid, ht, -, hfront, hback⟩ := hs.split
    have hopen : s.next.isReserved ")" = false := by
      obtain ⟨w, vs, hws, hclose⟩ := hopens (List.cons_ne_nil a args)
      rw [hws] at hfront
      obtain ⟨_, hw, -, -⟩ := hfront.cons
      by_contra hne
      have hword := Word.of_isReserved (Bool.eq_true_of_not_eq_false hne)
      exact hclose (hw.symm.trans hword)
    refine .after (accept_of_not hopen) (ParseState.past_self rfl) ?_
    rw [← Bool.and_true (Surface.allUpdatable scopes (a :: args))]
    refine (takes_separated h (Word.of_mark ht) hfront hn).bind fun bs s₁ hbs hs₁ => ?_
    obtain ⟨_, hw, hpast, hs₂⟩ := (hback s₁ hs₁).cons
    refine .after (expect_of_isReserved (Word.of_mark hw) _) hpast ?_
    exact .pure (congrArg (Node.call (.bare {}) f) hbs) hs₂.nil

/-- A call is read as its tree. -/
theorem runsAt_call {f : String} {args : List Surface} (hf : (program.function? f).isSome = true)
    (h : ReadsAll scopes program args)
    (hopens : args ≠ [] → Opens (Surface.renderArgs args)) :
    RunsAt scopes program 9 (name f :: mark "(" :: (Surface.renderArgs args ++ [mark ")"]))
      (Surface.allUpdatable scopes args)
      (.call (.bare {}) f (Surface.desugarAll scopes args)) := by
  refine runsAt_of_primary fun n s rest hs hn _ => ?_
  rw [List.length_cons, List.length_cons, List.length_append, List.length_singleton] at hn
  obtain ⟨n, rfl⟩ : ∃ m, n = m + 1 := ⟨n - 1, by omega⟩
  obtain ⟨_, hname, hpast, hs₁⟩ := hs.cons
  obtain ⟨_, hopen, hpast₁, hs₂⟩ := hs₁.cons
  obtain ⟨hkind, rfl⟩ := Word.of_name hname
  refine .of_eq (primary_of_ident hkind _) hpast ?_
  refine .after (accept_of_isReserved (Word.of_mark hopen)) hpast₁ ?_
  exact takes_call (hs₂.program ▸ hf) h hopens hs₂ (by omega) _

/-- An operator that changes its operand is refused exactly if the operand has effects. -/
theorem takes_update {a v : Node} (ha : a.unplaced = e) (hv : v.unplaced = e') (op : BinaryOp)
    (p : Location) (hs : s.ahead = rest) :
    Takes (update op a v p) s (!e.hasEffects) (·.unplaced = updated op e e') rest := by
  subst ha hv
  rw [Node.hasEffects_unplaced]
  unfold update
  cases a.hasEffects with
  | true => exact ⟨a.place, s, rfl⟩
  | false => exact .pure rfl hs

theorem takes_applyPrefix {a : Node} (ha : a.unplaced = e) (op : PrefixMark) (p : Location)
    (hs : s.ahead = rest) :
    Takes (applyPrefix op p a) s (!(op.changes && e.hasEffects)) (·.unplaced = prefixed op e)
      rest := by
  subst ha
  cases op with
  | increment | decrement => exact takes_update rfl rfl _ p hs
  | _ => exact .pure rfl hs

/-- Operators behind their operand: the mark and what follows it. -/
theorem RunsAt.suffix (op : PostfixMark) (h : RunsAt scopes program 9 ws ok e)
    (hop : postfixMarks.lookup text = some op) (hstop : goesOn 10 text = false)
    (happly : ∀ n s rest a p, a.unplaced = e → Faces scopes program s vs rest → vs.length < n →
      Takes (applyPostfix (.ofDepth n) op p a) s ok' (·.unplaced = e') rest) :
    RunsAt scopes program 9 (ws ++ mark text :: vs) (ok && ok') e' := by
  intro n s rest hs hn _
  rw [List.length_append, List.length_cons] at hn
  obtain ⟨t, mid, ht, hlen, hfront, hback⟩ := hs.split
  have hstops : Stops 10 (t :: mid) := stops_mark (Word.of_mark ht) hstop mid
  refine (h n s (t :: mid) hfront (by omega) hstops).round ?_ fun a s₁ ha hs₁ => ?_
  · rw [List.length_cons]
    omega
  · obtain ⟨_, hw, hpast, hs₂⟩ := (hback s₁ hs₁).cons
    refine .after (acceptOne_of_lookup (Word.of_mark hw) hop) hpast ?_
    rw [← Bool.and_true ok']
    refine (happly n _ rest a _ ha hs₂ (by omega)).bind fun b s₃ hb hs₃ => ?_
    exact .pure ⟨b, rfl, hb⟩ hs₃.ahead

/-- An operator joins what was read before it and an operand that binds tighter. -/
theorem RunsAt.join {op : BinaryOp} (hl : RunsAt scopes program op.level ws ok e)
    (hr : ReadsAt scopes program (op.level + 1) vs ok' e') :
    RunsAt scopes program op.level (ws ++ mark op.symbol :: vs) (ok && ok')
      (.binary (.bare {}) op e e') := by
  intro n s rest hs hn hrest
  rw [List.length_append, List.length_cons] at hn
  obtain ⟨t, mid, ht, hlen, hfront, hback⟩ := hs.split
  have hsymbol : goesOn (op.level + 1) op.symbol = false := by cases op <;> decide
  have hlookup : (joinTable op.level).lookup op.symbol = some op := by cases op <;> decide
  have hlevel : op.level ≠ 9 := by cases op <;> decide
  have hstops : Stops (op.level + 1) (t :: mid) := stops_mark (Word.of_mark ht) hsymbol mid
  refine (hl n s (t :: mid) hfront (by omega) hstops).round ?_ fun a s₁ ha hs₁ => ?_
  · rw [List.length_cons]
    omega
  · obtain ⟨_, hw, hpast, hs₂⟩ := (hback s₁ hs₁).cons
    rw [loopStep, if_neg hlevel]
    refine .after (acceptOne_of_lookup (Word.of_mark hw) hlookup) hpast ?_
    rw [← Bool.and_true ok']
    refine (hr n _ rest hs₂ (by omega) hrest).bind fun b s₃ hb hs₃ => ?_
    exact .pure ⟨_, rfl, congrArg₂ (Node.binary (.bare {}) op) ha hb⟩ hs₃.ahead

/-- A subscript is read as the indirection of a sum. -/
theorem RunsAt.index (h : RunsAt scopes program 9 ws ok e)
    (hi : ReadsAt scopes program 0 vs ok' e') :
    RunsAt scopes program 9 (ws ++ mark "[" :: (vs ++ [mark "]"])) (ok && ok')
      (.deref (.bare {}) (.binary (.bare {}) .add e e')) := by
  refine h.suffix .subscript rfl (by decide) fun n s rest a p ha hs hn => ?_
  rw [List.length_append, List.length_singleton] at hn
  obtain ⟨n, rfl⟩ : ∃ m, n = m + 1 := ⟨n - 1, by omega⟩
  rw [← Bool.and_true ok']
  refine hi.upTo n (by decide) (by omega) hs fun b s₁ hb hs₁ => ?_
  obtain ⟨_, hw, hpast, hs₂⟩ := hs₁.cons
  refine .after (expect_of_isReserved (Word.of_mark hw) _) hpast (.pure ?_ hs₂.nil)
  exact congrArg₂ (fun l r => Node.deref (.bare {}) (.binary (.bare {}) .add l r)) ha hb

theorem RunsAt.dot (h : RunsAt scopes program 9 ws ok e) (x : String) :
    RunsAt scopes program 9 (ws ++ [mark ".", name x]) ok (.member (.bare {}) e x none) := by
  rw [← Bool.and_true ok]
  refine h.suffix .dot rfl (by decide) fun n s rest a p ha hs _ => ?_
  obtain ⟨_, hw, hpast, hs'⟩ := hs.cons
  obtain ⟨hkind, rfl⟩ := Word.of_name hw
  refine .after (identifier_of_kind hkind) hpast (.pure ?_ hs'.nil)
  exact congrArg (Node.member (.bare {}) · _ none) ha

theorem RunsAt.arrow (h : RunsAt scopes program 9 ws ok e) (x : String) :
    RunsAt scopes program 9 (ws ++ [mark "->", name x]) ok
      (.member (.bare {}) (.deref (.bare {}) e) x none) := by
  rw [← Bool.and_true ok]
  refine h.suffix .arrow rfl (by decide) fun n s rest a p ha hs _ => ?_
  obtain ⟨_, hw, hpast, hs'⟩ := hs.cons
  obtain ⟨hkind, rfl⟩ := Word.of_name hw
  refine .after (identifier_of_kind hkind) hpast (.pure ?_ hs'.nil)
  exact congrArg (fun b => Node.member (.bare {}) (.deref (.bare {}) b) _ none) ha

/-- An update, and the value before it. -/
theorem takes_undone {a : Node} {op undo : BinaryOp} {p : Location} (ha : a.unplaced = e)
    (hs : s.ahead = rest) :
    Takes (do
      let b ← update op a (.literal 1 p) p
      return Node.binary (.bare p) undo b (.literal 1 p)) s (!e.hasEffects)
      (·.unplaced = .binary (.bare {}) undo (updated op e (.literal 1 {})) (.literal 1 {}))
      rest := by
  rw [← Bool.and_true (!e.hasEffects)]
  refine (takes_update ha rfl op p hs).bind fun b s₁ hb hs₁ => .pure ?_ hs₁.ahead
  exact congrArg (Node.binary (.bare {}) undo · (.literal 1 {})) hb

/-- An operator behind its operand is read as a change that is undone on the value. -/
theorem RunsAt.behind (h : RunsAt scopes program 9 ws ok e) (op : Step) :
    RunsAt scopes program 9 (ws ++ [mark op.symbol]) (ok && !e.hasEffects)
      (.binary (.bare {}) op.undo (updated op.op e (.literal 1 {})) (.literal 1 {})) := by
  cases op with
  | increment =>
    exact h.suffix .increment rfl (by decide) fun n s rest a p ha hs _ =>
      takes_undone ha hs.nil
  | decrement =>
    exact h.suffix .decrement rfl (by decide) fun n s rest a p ha hs _ =>
      takes_undone ha hs.nil

/-- Behind an opening parenthesis that begins an operand no type stands. -/
theorem Faces.not_atTypeSecond (hs : Faces scopes program s ws rest)
    (hws : ws.all isOperator = true) (hwide : ws ≠ [mark "("]) (hne : ws ≠ [])
    (hopen : s.next.isReserved "(" = true) : atTypeSecond s = .ok false s := by
  cases ws with
  | nil => exact absurd rfl hne
  | cons w ws =>
    obtain ⟨mid, hw, hpast, hs'⟩ := hs.cons
    cases ws with
    | nil => exact absurd (congrArg (fun w => [w]) (hw.symm.trans (Word.of_isReserved hopen))) hwide
    | cons w' ws =>
      obtain ⟨toks, hwords, hahead⟩ := hs.words
      obtain ⟨t, toks, rfl, -, htail⟩ := List.map_eq_cons_iff.mp hwords
      obtain ⟨t', toks, rfl, hw', -⟩ := List.map_eq_cons_iff.mp htail
      have hsecond : beginsType t' = false := by
        rw [List.all_cons, List.all_cons, Bool.and_eq_true, Bool.and_eq_true] at hws
        exact not_beginsType (hw' ▸ hws.2.1)
      have hget : (get : Parse ParseState) s = .ok s s := rfl
      rw [atTypeSecond, bind_of_ok hget, hahead]
      exact congrArg (EStateM.Result.ok · s) hsecond

theorem exists_atTypeSecond (s : ParseState) : ∃ b, atTypeSecond s = .ok b s := by
  have hget : (get : Parse ParseState) s = .ok s s := rfl
  rw [atTypeSecond, bind_of_ok hget]
  rcases s.ahead with _ | ⟨t, _ | ⟨t', ts⟩⟩
  · exact ⟨false, rfl⟩
  · exact ⟨false, rfl⟩
  · exact ⟨beginsType t', rfl⟩

/-- An operator before its operand is read together with it. -/
theorem ReadsAt.before (h : ReadsAt scopes program 8 ws ok e) (hws : ws.all isOperator = true)
    (hwide : ws ≠ [mark "("]) (hne : ws ≠ []) (op : PrefixMark) :
    ReadsAt scopes program 8 (mark op.symbol :: ws) (ok && !(op.changes && e.hasEffects))
      (prefixed op e) := by
  intro n s rest hs hn hrest
  rw [List.length_cons] at hn
  obtain ⟨n, rfl⟩ : ∃ m, n = m + 1 := ⟨n - 1, by omega⟩
  obtain ⟨_, hw, hpast, hs₁⟩ := hs.cons
  have hlookup : prefixMarks.lookup op.symbol = some op := by cases op <;> rfl
  have hoperand : Takes (do applyPrefix op s.next.place (← (Grammar.ofDepth (n + 1)).unary))
      s.advance (ok && !(op.changes && e.hasEffects)) (·.unplaced = prefixed op e) rest :=
    (h n s.advance rest hs₁ (by omega) hrest).bind fun a s₂ ha hs₂ =>
      takes_applyPrefix ha op s.next.place hs₂.ahead
  refine .after (acceptOne_of_lookup (Word.of_mark hw) hlookup) hpast ?_
  cases op with
  | size =>
    -- Only here a parenthesis may open a type, and an expression never begins like one.
    have hcheck : check "(" s.advance = .ok (s.advance.next.isReserved "(") s.advance := rfl
    refine .after hcheck (ParseState.past_self rfl) ?_
    have hstay : s.advance.Past s.advance.ahead s.advance := ParseState.past_self rfl
    cases hopen : s.advance.next.isReserved "(" with
    | true => exact .after (hs₁.not_atTypeSecond hws hwide hne hopen) hstay hoperand
    | false =>
      obtain ⟨b, hsecond⟩ := exists_atTypeSecond s.advance
      exact .after hsecond hstay hoperand
  | _ => exact hoperand

theorem ReadsAt.assign (hl : ReadsAt scopes program 1 ws ok e)
    (hr : ReadsAt scopes program 0 vs ok' e') :
    ReadsAt scopes program 0 (ws ++ mark "=" :: vs) (ok && ok') (.assign (.bare {}) e e') := by
  intro n s rest hs hn hrest
  rw [List.length_append, List.length_cons] at hn
  obtain ⟨n, rfl⟩ : ∃ m, n = m + 1 := ⟨n - 1, by omega⟩
  refine hl.upTo (n + 1) (by decide) (by omega) hs fun a s₁ ha hs₁ => ?_
  obtain ⟨_, hw, hpast, hs₂⟩ := hs₁.cons
  refine .after (acceptOne_of_lookup (Word.of_mark hw) (a := none) rfl) hpast ?_
  rw [← Bool.and_true ok']
  refine (hr n _ rest hs₂ (by omega) hrest).bind fun b s₃ hb hs₃ => .pure ?_ hs₃.ahead
  exact congrArg₂ (Node.assign (.bare {})) ha hb

/-- A compound assignment is read as the assignment of an operation. -/
theorem ReadsAt.compound (hl : ReadsAt scopes program 1 ws ok e)
    (hr : ReadsAt scopes program 0 vs ok' e') (op : Compound) :
    ReadsAt scopes program 0 (ws ++ mark op.symbol :: vs) (ok && (ok' && !e.hasEffects))
      (updated op.op e e') := by
  intro n s rest hs hn hrest
  rw [List.length_append, List.length_cons] at hn
  obtain ⟨n, rfl⟩ : ∃ m, n = m + 1 := ⟨n - 1, by omega⟩
  have hsymbol : goesOn 1 op.symbol = false := by cases op <;> decide
  have hlookup : assignmentMarks.lookup op.symbol = some (some op.op) := by cases op <;> decide
  refine hl.upTo (n + 1) hsymbol (by omega) hs fun a s₁ ha hs₁ => ?_
  obtain ⟨_, hw, hpast, hs₂⟩ := hs₁.cons
  refine .after (acceptOne_of_lookup (Word.of_mark hw) hlookup) hpast ?_
  refine (hr n _ rest hs₂ (by omega) hrest).bind fun b s₃ hb hs₃ => ?_
  exact takes_update ha hb op.op _ hs₃.ahead

/-- The branches of a conditional are read between its two marks. -/
theorem ReadsAt.conditional (hc : ReadsAt scopes program 2 ws ok e)
    (ht : ReadsAt scopes program 0 vs ok' e') (he : ReadsAt scopes program 1 us ok'' e'') :
    ReadsAt scopes program 1 (ws ++ mark "?" :: (vs ++ mark ":" :: us)) (ok && (ok' && ok''))
      (.ternary (.bare {}) e e' e'') := by
  intro n s rest hs hn hrest
  rw [List.length_append, List.length_cons, List.length_append, List.length_cons] at hn
  obtain ⟨n, rfl⟩ : ∃ m, n = m + 1 := ⟨n - 1, by omega⟩
  refine hc.upTo (n + 1) (by decide) (by omega) hs fun a s₁ ha hs₁ => ?_
  obtain ⟨_, hw, hpast, hs₂⟩ := hs₁.cons
  refine .after (acceptOne_of_lookup (Word.of_mark hw) (a := ()) rfl) hpast ?_
  refine ht.upTo n (by decide) (by omega) hs₂ fun b s₃ hb hs₃ => ?_
  obtain ⟨_, hw', hpast', hs₄⟩ := hs₃.cons
  refine .after (expect_of_isReserved (Word.of_mark hw') _) hpast' ?_
  rw [← Bool.and_true ok'']
  refine (he n _ rest hs₄ (by omega) hrest).bind fun d s₅ hd hs₅ => .pure ?_ hs₅.ahead
  subst ha hb hd
  rfl

end Parse

end StackC
