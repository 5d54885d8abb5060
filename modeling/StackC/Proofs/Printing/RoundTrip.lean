import StackC.Proofs.Printing.Parts

namespace StackC

open Token (Word)

namespace Parse

variable {ws : List Word}

theorem Opens.ne_nil (h : Opens ws) : ws ≠ [] := by
  obtain ⟨w, vs, rfl, -⟩ := h
  exact List.cons_ne_nil w vs

theorem Opens.append (h : Opens ws) (vs : List Word) : Opens (ws ++ vs) := by
  obtain ⟨w, us, rfl, hw⟩ := h
  exact ⟨w, us ++ vs, rfl, hw⟩

theorem Begins.append (h : Begins ws) (vs : List Word) : Begins (ws ++ vs) := by
  obtain ⟨w, us, rfl, hw⟩ := h
  exact ⟨w, us ++ vs, rfl, hw⟩

end Parse

theorem BinaryOp.level_bounds (op : BinaryOp) : 2 ≤ op.level ∧ op.level ≤ 7 := by
  cases op <;> decide

namespace Surface

open Parse Token.Word

variable {k l : Nat} {ws vs us : List Word} {w : Word}

theorem all_fit (h : ws.all isOperator = true) (k l : Nat) :
    (fit k l ws).all isOperator = true := by
  unfold fit
  split
  · rw [List.all_cons, List.all_append, h]
    decide
  · exact h

theorem all_join {text : String} (hws : ws.all isOperator = true)
    (ht : isOperator (mark text) = true) (hvs : vs.all isOperator = true) :
    (ws ++ mark text :: vs).all isOperator = true := by
  rw [List.all_append, List.all_cons, hws, ht, hvs]
  rfl

mutual

/-- Only words of expressions are written. -/
theorem all_render (t : Surface) : t.render.all isOperator = true :=
  match t with
  | .num v => rfl
  | .var x => rfl
  | .call f args => by
    rw [render, List.all_cons, List.all_cons, List.all_append, all_renderArgs args]
    rfl
  | .binary op l r =>
    all_join (all_fit (all_render l) _ _) (by cases op <;> decide) (all_fit (all_render r) _ _)
  | .assign l r => all_join (all_fit (all_render l) _ _) (by decide) (all_fit (all_render r) _ _)
  | .compound op l r =>
    all_join (all_fit (all_render l) _ _) (by cases op <;> decide) (all_fit (all_render r) _ _)
  | .ternary e x y =>
    all_join (all_fit (all_render e) _ _) (by decide)
      (all_join (all_fit (all_render x) _ _) (by decide) (all_fit (all_render y) _ _))
  | .before op e => by
    rw [render, List.all_cons, all_fit (all_render e), Bool.and_true]
    cases op <;> decide
  | .index b i =>
    all_join (all_fit (all_render b) _ _) (by decide)
      (all_join (all_fit (all_render i) _ _) (by decide) rfl)
  | .dot b x => all_join (all_fit (all_render b) _ _) (by decide) rfl
  | .arrow b x => all_join (all_fit (all_render b) _ _) (by decide) rfl
  | .behind op b => all_join (all_fit (all_render b) _ _) (by cases op <;> decide) rfl
termination_by structural t

theorem all_renderArgs (args : List Surface) : (renderArgs args).all isOperator = true :=
  match args with
  | [] => rfl
  | a :: args => by
    rw [renderArgs, List.all_append, all_fit (all_render a), all_renderOthers args]
    rfl
termination_by structural args

theorem all_renderOthers (args : List Surface) : (renderOthers args).all isOperator = true :=
  match args with
  | [] => rfl
  | a :: args => by
    rw [renderOthers, List.all_cons, List.all_append, all_fit (all_render a), all_renderOthers args]
    decide
termination_by structural args

end

theorem opens_fit (h : Opens ws) (k l : Nat) : Opens (fit k l ws) := by
  unfold fit
  split
  · exact ⟨_, _, rfl, by decide⟩
  · exact h

/-- No expression begins with a closing parenthesis. -/
theorem opens_render (t : Surface) : Opens t.render :=
  match t with
  | .num v => ⟨_, _, rfl, fun h => nomatch h⟩
  | .var x => ⟨_, _, rfl, fun h => nomatch h⟩
  | .call f args => ⟨_, _, rfl, fun h => nomatch h⟩
  | .binary op l r => (opens_fit (opens_render l) _ _).append _
  | .assign l r => (opens_fit (opens_render l) _ _).append _
  | .compound op l r => (opens_fit (opens_render l) _ _).append _
  | .ternary e x y => (opens_fit (opens_render e) _ _).append _
  | .before op e => ⟨_, _, rfl, by cases op <;> decide⟩
  | .index b i => (opens_fit (opens_render b) _ _).append _
  | .dot b x => (opens_fit (opens_render b) _ _).append _
  | .arrow b x => (opens_fit (opens_render b) _ _).append _
  | .behind op b => (opens_fit (opens_render b) _ _).append _
termination_by structural t

theorem level_le (t : Surface) : t.level ≤ 9 := by
  cases t with
  | binary op l r => exact op.level_bounds.2.trans (by decide)
  | _ => exact Nat.le_of_ble_eq_true rfl

theorem begins_fit (h : l = 9 → Begins ws) (hl : l ≤ 9) : Begins (fit 9 l ws) := by
  unfold fit
  split
  · exact ⟨_, _, rfl, .inr rfl⟩
  · next hlt => exact h (by omega)

/-- Only operators before an operand begin with an operator. -/
theorem begins_render (t : Surface) (h : t.level = 9) : Begins t.render :=
  match t with
  | .num v => ⟨_, _, rfl, .inl fun h => nomatch h⟩
  | .var x => ⟨_, _, rfl, .inl fun h => nomatch h⟩
  | .call f args => ⟨_, _, rfl, .inl fun h => nomatch h⟩
  | .binary op l r => absurd (h ▸ op.level_bounds.2 : 9 ≤ 7) (by decide)
  | .assign l r => nomatch h
  | .compound op l r => nomatch h
  | .ternary e x y => nomatch h
  | .before op e => nomatch h
  | .index b i => (begins_fit (begins_render b) b.level_le).append _
  | .dot b x => (begins_fit (begins_render b) b.level_le).append _
  | .arrow b x => (begins_fit (begins_render b) b.level_le).append _
  | .behind op b => (begins_fit (begins_render b) b.level_le).append _
termination_by structural t

theorem append_ne_open (hws : Opens ws) (hus : us ≠ []) : ws ++ us ≠ [mark "("] := by
  obtain ⟨w, vs, rfl, -⟩ := hws
  intro h
  exact hus (List.append_eq_nil_iff.mp (List.cons.inj h).2).2

/-- No expression is written as an opening parenthesis alone. -/
theorem render_ne_open (t : Surface) : t.render ≠ [mark "("] := by
  have hopens (t : Surface) (k : Nat) : Opens (fit k t.level t.render) :=
    opens_fit (opens_render t) k t.level
  cases t with
  | num v | var x =>
    intro h
    cases h
  | call f args =>
    intro h
    cases h
  | binary op l r | assign l r | compound op l r | ternary l x y =>
    exact append_ne_open (hopens l _) (List.cons_ne_nil _ _)
  | index b i | dot b x | arrow b x | behind op b =>
    exact append_ne_open (hopens b _) (List.cons_ne_nil _ _)
  | before op e =>
    intro h
    exact (hopens e 8).ne_nil (List.cons.inj h).2

theorem fit_ne_open (h : ws ≠ [mark "("]) : fit k l ws ≠ [mark "("] := by
  unfold fit
  split
  · intro hparen
    exact List.append_ne_nil_of_right_ne_nil _ (List.cons_ne_nil _ _) (List.cons.inj hparen).2
  · exact h

variable (scopes : Scopes) (program : Program)

structure Parsed (t : Surface) : Prop where
  reads : ∀ k ≤ 9,
    ReadsAt scopes program k (t.renderAt k) (t.isUpdatable scopes) (t.desugar scopes)
  runs : ∀ k, IsLoop k →
    RunsAt scopes program k (t.renderAt k) (t.isUpdatable scopes) (t.desugar scopes)

variable {scopes program} {t : Surface}

theorem renderAt_of_le (h : k ≤ t.level) : t.renderAt k = t.render := if_neg (Nat.not_lt.mpr h)

theorem renderAt_of_lt (h : t.level < k) : t.renderAt k = mark "(" :: (t.render ++ [mark ")"]) :=
  if_pos h

/-- What is read at the tightest level is read at all levels. -/
theorem ReadsAt.lower {ok : Bool} {e : Node} {j : Nat} (hj : j ≤ 9) (hws : j = 9 → Begins ws)
    (h : ReadsAt scopes program j ws ok e) (hk : k ≤ j) : ReadsAt scopes program k ws ok e := by
  rcases Nat.lt_or_eq_of_le hj with hlt | rfl
  · exact h.looser (Nat.le_of_lt_succ hlt) hk
  · rcases Nat.lt_or_eq_of_le hk with hlt | rfl
    · exact (h.unary (hws rfl)).looser (Nat.le_refl 8) (Nat.le_of_lt_succ hlt)
    · exact h

/-- It is enough to read an expression at its own level. -/
theorem parsed_of_reads
    (h : ReadsAt scopes program t.level t.render (t.isUpdatable scopes) (t.desugar scopes))
    (hloop : IsLoop t.level →
      RunsAt scopes program t.level t.render (t.isUpdatable scopes) (t.desugar scopes)) :
    Parsed scopes program t := by
  have hown (k : Nat) (hk : k ≤ t.level) :
      ReadsAt scopes program k t.render (t.isUpdatable scopes) (t.desugar scopes) :=
    ReadsAt.lower t.level_le (begins_render t) h hk
  -- Inside parentheses the expression is read at the loosest level.
  have hparen := runsAt_paren (all_render t) (hown 0 (Nat.zero_le _))
  have hinside (k : Nat) (hk : k ≤ 9) :
      ReadsAt scopes program k (mark "(" :: (t.render ++ [mark ")"])) (t.isUpdatable scopes)
        (t.desugar scopes) :=
    ReadsAt.lower (Nat.le_refl 9) (fun _ => ⟨_, _, rfl, .inr rfl⟩) (hparen.reads (.inr rfl)) hk
  constructor
  case reads =>
    intro k hk
    rcases Nat.lt_or_ge t.level k with hlt | hle
    · rw [renderAt_of_lt hlt]
      exact hinside k hk
    · rw [renderAt_of_le hle]
      exact hown k hle
  case runs =>
    intro k hk
    rcases Nat.lt_trichotomy t.level k with hlt | rfl | hgt
    · rw [renderAt_of_lt hlt]
      rcases hk with ⟨hlow, hhigh⟩ | rfl
      · exact (hinside (k + 1) (by omega)).runs hlow hhigh
      · exact hparen
    · rw [renderAt_of_le (Nat.le_refl _)]
      exact hloop hk
    · rw [renderAt_of_le (Nat.le_of_lt hgt)]
      have hlevel := t.level_le
      rcases hk with ⟨hlow, hhigh⟩ | rfl
      · exact (hown (k + 1) hgt).runs hlow hhigh
      · omega

theorem parsed_of_runs (hk : IsLoop t.level)
    (h : RunsAt scopes program t.level t.render (t.isUpdatable scopes) (t.desugar scopes)) :
    Parsed scopes program t :=
  parsed_of_reads (h.reads hk) fun _ => h

mutual

/-- Every expression with declared names is read as the tree that it stands for. -/
theorem parsed (t : Surface) (h : t.isDeclared scopes program = true) : Parsed scopes program t :=
  match t with
  | .num v => parsed_of_runs (.inr rfl) (runsAt_num v)
  | .var x => by
    obtain ⟨id, hx⟩ := Option.isSome_iff_exists.mp h
    refine parsed_of_runs (.inr rfl) ?_
    rw [desugar, hx]
    exact runsAt_var hx
  | .call f args => by
    rw [isDeclared, Bool.and_eq_true] at h
    refine parsed_of_runs (.inr rfl) (runsAt_call h.1 (readsAll args h.2) fun hne => ?_)
    cases args with
    | nil => exact absurd rfl hne
    | cons a args => exact (opens_fit (opens_render a) _ _).append _
  | .binary op l r => by
    rw [isDeclared, Bool.and_eq_true] at h
    have hloop : IsLoop op.level := .inl op.level_bounds
    have hbounds := op.level_bounds
    -- The left operand stays in the loop of the level: operators of one level group to the left.
    refine parsed_of_runs hloop (RunsAt.join ((parsed l h.1).runs op.level hloop) ?_)
    exact (parsed r h.2).reads (op.level + 1) (by omega)
  | .assign l r => by
    rw [isDeclared, Bool.and_eq_true] at h
    refine parsed_of_reads ?_ (fun hk => absurd hk not_isLoop_zero)
    exact ((parsed l h.1).reads 1 (by decide)).assign ((parsed r h.2).reads 0 (by decide))
  | .compound op l r => by
    rw [isDeclared, Bool.and_eq_true] at h
    refine parsed_of_reads ?_ (fun hk => absurd hk not_isLoop_zero)
    exact ((parsed l h.1).reads 1 (by decide)).compound ((parsed r h.2).reads 0 (by decide)) op
  | .ternary e x y => by
    rw [isDeclared, Bool.and_eq_true, Bool.and_eq_true] at h
    refine parsed_of_reads ?_ (fun hk => absurd hk not_isLoop_one)
    exact ((parsed e h.1).reads 2 (by decide)).conditional ((parsed x h.2.1).reads 0 (by decide))
      ((parsed y h.2.2).reads 1 (by decide))
  | .before op e => by
    refine parsed_of_reads ?_ (fun hk => absurd hk not_isLoop_eight)
    refine ((parsed e h).reads 8 (by decide)).before (all_fit (all_render e) _ _) ?_ ?_ op
    · exact fit_ne_open (render_ne_open e)
    · exact (opens_fit (opens_render e) _ _).ne_nil
  | .index b i => by
    rw [isDeclared, Bool.and_eq_true] at h
    refine parsed_of_runs (.inr rfl) ?_
    exact ((parsed b h.1).runs 9 (.inr rfl)).index ((parsed i h.2).reads 0 (by decide))
  | .dot b x => parsed_of_runs (.inr rfl) (((parsed b h).runs 9 (.inr rfl)).dot x)
  | .arrow b x => parsed_of_runs (.inr rfl) (((parsed b h).runs 9 (.inr rfl)).arrow x)
  | .behind op b => parsed_of_runs (.inr rfl) (((parsed b h).runs 9 (.inr rfl)).behind op)
termination_by structural t

theorem readsAll (args : List Surface) (h : allDeclared scopes program args = true) :
    ReadsAll scopes program args :=
  match args with
  | [] => fun a ha => absurd ha List.not_mem_nil
  | a :: args => by
    rw [allDeclared, Bool.and_eq_true] at h
    exact List.forall_mem_cons.mpr ⟨(parsed a h.1).reads 0 (by decide), readsAll args h.2⟩
termination_by structural args

end

theorem exists_of_words {s : ParseState} (h : s.ahead.map Token.word = ws ++ [w]) :
    ∃ toks t, s.ahead = toks ++ [t] ∧ toks.map Token.word = ws ∧ t.word = w ∧
      toks.length ≤ s.ahead.length := by
  obtain ⟨toks, back, hs, htoks, hback⟩ := List.map_eq_append_iff.mp h
  obtain ⟨t, rfl, ht⟩ := List.map_eq_singleton_iff.mp hback
  refine ⟨toks, t, hs, htoks, ht, ?_⟩
  rw [hs, List.length_append]
  exact Nat.le_add_right _ _

/-- Reading inverts writing. The reader of expressions takes the words of an expression up to the
semicolon and gives the tree that the expression stands for. It refuses the expression if an
operator that changes its operand is applied to one with effects. The words need no more depth
than there are of them. -/
theorem assignment_render (t : Surface) (s : ParseState) (toks rest : List Token) (semi : Token)
    (n : Nat) (hdeclared : t.isDeclared s.scopes s.program = true)
    (htoks : toks.map Token.word = t.render) (hsemi : semi.isReserved ";" = true)
    (hahead : s.ahead = toks ++ semi :: rest) (hn : toks.length ≤ n) :
    (t.isUpdatable s.scopes = true → ∃ e s', assignment (.ofDepth n) s = .ok e s' ∧
      e.unplaced = t.desugar s.scopes ∧ s' = { s with ahead := semi :: rest, last := s'.last }) ∧
    (t.isUpdatable s.scopes = false → ∃ p s', assignment (.ofDepth n) s =
      .error (.typing .effectfulTarget p) s') := by
  have hfaces : Faces s.scopes s.program s (t.renderAt 0) (semi :: rest) := by
    rw [renderAt_of_le (Nat.zero_le _)]
    exact ⟨rfl, rfl, toks, htoks, hahead⟩
  have hlen : (t.renderAt 0).length ≤ n := by
    rw [renderAt_of_le (Nat.zero_le _), ← htoks, List.length_map]
    exact hn
  have htakes := (parsed t hdeclared).reads 0 (Nat.zero_le _) n s (semi :: rest) hfaces hlen
    (stops_mark hsemi (by decide) rest)
  constructor
  · intro hok
    rw [hok] at htakes
    exact htakes
  · intro hok
    rw [hok] at htakes
    exact htakes

def sampleState (text : String) : ParseState :=
  { (ParseState.ofSource text).toOption.getD default with
    scopes := { vars := [[("x", 2), ("p", 1)], [("q", 0)]], tags := [[], []] }
    program := { functions := [{ (default : Function) with name := "f" }] } }

def sampleText : String := "p->m = q[x + 2] ? -x * (x - 1) : (x += f(x, ++x)) || !sizeof *p++;"

def sampleExpression : Surface :=
  .assign (.arrow (.var "p") "m")
    (.ternary (.index (.var "q") (.binary .add (.var "x") (.num 2)))
      (.binary .mul (.before .minus (.var "x")) (.binary .sub (.var "x") (.num 1)))
      (.binary .logOr
        (.compound .add (.var "x") (.call "f" [.var "x", .before .increment (.var "x")]))
        (.before .negation (.before .size (.before .indirection (.behind .increment (.var "p")))))))

def refusedText : String := "q[x = 1]++;"

def refusedExpression : Surface :=
  .behind .increment (.index (.var "q") (.assign (.var "x") (.num 1)))

/-- One text is read as its tree, the other one is refused. -/
theorem assignment_render_samples :
    (sampleExpression.isUpdatable (sampleState sampleText).scopes = true ∧
      ∃ e s', assignment (.ofDepth (sampleState sampleText).ahead.length)
          (sampleState sampleText) = .ok e s' ∧
        e.unplaced = sampleExpression.desugar (sampleState sampleText).scopes ∧
        s'.ahead.map Token.word = [mark ";"]) ∧
    refusedExpression.isUpdatable (sampleState refusedText).scopes = false ∧
      ∃ p s', assignment (.ofDepth (sampleState refusedText).ahead.length)
        (sampleState refusedText) = .error (.typing .effectfulTarget p) s' := by
  have hwords : (sampleState sampleText).ahead.map Token.word =
      sampleExpression.render ++ [mark ";"] := by
    decide +kernel
  have hrefused : (sampleState refusedText).ahead.map Token.word =
      refusedExpression.render ++ [mark ";"] := by
    decide +kernel
  constructor
  · obtain ⟨toks, semi, hahead, htoks, hsemi, hlen⟩ := exists_of_words hwords
    have hok : sampleExpression.isUpdatable (sampleState sampleText).scopes = true := by decide
    obtain ⟨e, s', he, htree, hs⟩ := (assignment_render sampleExpression (sampleState sampleText)
      toks [] semi _ (by decide) htoks (of_mark hsemi) hahead hlen).1 hok
    refine ⟨hok, e, s', he, htree, ?_⟩
    rw [hs]
    exact congrArg (fun w => [w]) hsemi
  · obtain ⟨toks, semi, hahead, htoks, hsemi, hlen⟩ := exists_of_words hrefused
    have hno : refusedExpression.isUpdatable (sampleState refusedText).scopes = false := by decide
    exact ⟨hno, (assignment_render refusedExpression (sampleState refusedText) toks [] semi _
      (by decide) htoks (of_mark hsemi) hahead hlen).2 hno⟩

end Surface

end StackC
