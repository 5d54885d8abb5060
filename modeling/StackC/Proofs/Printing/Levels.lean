import Mathlib.Tactic.IntervalCases
import StackC.Proofs.Grammar.Reading
import StackC.Proofs.Printing.Surface

namespace StackC

namespace Parse

open Token (Word)

def joinTable : Nat → List (String × BinaryOp)
  | 2 => [("||", .logOr)]
  | 3 => [("&&", .logAnd)]
  | 4 => [("==", .eq), ("!=", .ne)]
  | 5 => [("<", .lt), ("<=", .le), (">", .gt), (">=", .ge)]
  | 6 => [("+", .add), ("-", .sub)]
  | 7 => [("*", .mul), ("/", .div), ("%", .mod)]
  | _ => []

def reader (g : Grammar) : Nat → Parse Node
  | 0 => assignment g
  | 1 => ternary g
  | 2 => disjunction g
  | 3 => conjunction g
  | 4 => equality g
  | 5 => relational g
  | 6 => additive g
  | 7 => multiplicative g
  | 8 => unary g
  | _ => operand g

def joinStep (table : List (String × BinaryOp)) (operand : Parse Node) (left : Node) :
    Parse (Option Node) := do
  match ← acceptOne table with
  | none => return none
  | some (op, p) => return some (.binary (.bare p) op left (← operand))

def suffixStep (g : Grammar) (e : Node) : Parse (Option Node) := do
  match ← acceptOne postfixMarks with
  | none => return none
  | some (mark, p) => return some (← applyPostfix g mark p e)

def IsLoop (k : Nat) : Prop := 2 ≤ k ∧ k ≤ 7 ∨ k = 9

theorem not_isLoop_zero : ¬IsLoop 0 := by
  unfold IsLoop
  omega

theorem not_isLoop_one : ¬IsLoop 1 := by
  unfold IsLoop
  omega

theorem not_isLoop_eight : ¬IsLoop 8 := by
  unfold IsLoop
  omega

def loopBase (g : Grammar) (k : Nat) : Parse Node := if k = 9 then primary g else reader g (k + 1)

def loopStep (g : Grammar) (k : Nat) : Node → Parse (Option Node) :=
  if k = 9 then suffixStep g else joinStep (joinTable k) (reader g (k + 1))

theorem reader_eq_loop {k : Nat} (h : IsLoop k) (g : Grammar) :
    reader g k = loopBase g k >>= grow (loopStep g k) := by
  rcases h with ⟨hlow, hhigh⟩ | rfl
  · interval_cases k <;> rfl
  · rfl

def marks : List (Nat × String) :=
  [(0, "="), (0, "+="), (0, "-="), (0, "*="), (0, "/="), (1, "?"), (2, "||"), (3, "&&"), (4, "=="),
    (4, "!="), (5, "<"), (5, "<="), (5, ">"), (5, ">="), (6, "+"), (6, "-"), (7, "*"), (7, "/"),
    (7, "%"), (9, "["), (9, "."), (9, "->"), (9, "++"), (9, "--"), (10, "(")]

def goesOn (k : Nat) (text : String) : Bool := marks.any fun m => k ≤ m.1 && m.2 == text

def Stops (k : Nat) (rest : List Token) : Prop :=
  ∀ t ∈ rest.head?, ∀ text, goesOn k text = true → t.isReserved text = false

variable {k j : Nat} {rest mid : List Token} {s s' : ParseState} {t : Token} {text : String}

/-- What stops a level stops all tighter ones. -/
theorem Stops.mono (h : Stops k rest) (hk : k ≤ j) : Stops j rest := by
  intro t ht text htext
  refine h t ht text ?_
  obtain ⟨m, hm, hlevel⟩ := List.any_eq_true.mp htext
  rw [Bool.and_eq_true, decide_eq_true_eq] at hlevel
  refine List.any_eq_true.mpr ⟨m, hm, ?_⟩
  rw [Bool.and_eq_true, decide_eq_true_eq]
  exact ⟨hk.trans hlevel.1, hlevel.2⟩

theorem stops_mark (h : t.isReserved text = true) (hk : goesOn k text = false)
    (mid : List Token) : Stops k (t :: mid) := by
  rintro _ ⟨⟩ other hother
  by_contra hne
  obtain ⟨-, rfl⟩ := kind_of_isReserved h
  obtain ⟨-, rfl⟩ := kind_of_isReserved (Bool.eq_true_of_not_eq_false hne)
  exact absurd hother (Bool.eq_false_iff.mp hk)

theorem Stops.next (h : Stops k rest) (hs : s.ahead = rest) (htext : goesOn k text = true) :
    s.next.isReserved text = false := by
  cases rest with
  | nil =>
    rw [ParseState.next, hs]
    rfl
  | cons t rest =>
    rw [ParseState.next_of_ahead hs]
    exact h t rfl text htext

theorem acceptOne_of_stops {α : Type} {table : List (String × α)} (h : Stops k rest)
    (hs : s.ahead = rest) (ht : (table.all fun entry => goesOn k entry.1) = true) :
    acceptOne table s = .ok none s :=
  acceptOne_of_not fun entry he => h.next hs (List.all_eq_true.mp ht entry he)

/-- At a token that stops the level, the loop ends. -/
theorem loopStep_of_stops (hk : IsLoop k) (h : Stops k rest) (hs : s.ahead = rest) (g : Grammar)
    (e : Node) : loopStep g k e s = .ok none s := by
  unfold loopStep
  split
  · next hk =>
    subst hk
    rw [suffixStep, bind_of_ok (acceptOne_of_stops h hs (by decide))]
    rfl
  · next hne =>
    have htable : ((joinTable k).all fun entry => goesOn k entry.1) = true := by
      rcases hk with ⟨hlow, hhigh⟩ | hk
      · interval_cases k <;> decide
      · exact absurd hk hne
    rw [joinStep, bind_of_ok (acceptOne_of_stops h hs htable)]
    rfl

structure Faces (scopes : Scopes) (program : Program) (s : ParseState) (ws : List Word)
    (rest : List Token) : Prop where
  scopes : s.scopes = scopes
  program : s.program = program
  words : ∃ toks, toks.map Token.word = ws ∧ s.ahead = toks ++ rest

variable {scopes : Scopes} {program : Program} {ws vs : List Word} {w : Word}

theorem Faces.nil (h : Faces scopes program s [] rest) : s.ahead = rest := by
  obtain ⟨toks, hw, hs⟩ := h.words
  obtain rfl := List.map_eq_nil_iff.mp hw
  exact hs

theorem Faces.length (h : Faces scopes program s ws rest) :
    s.ahead.length = ws.length + rest.length := by
  obtain ⟨toks, rfl, hs⟩ := h.words
  rw [hs, List.length_append, List.length_map]

/-- The first of the words. -/
theorem Faces.cons (h : Faces scopes program s (w :: ws) rest) :
    ∃ mid, s.next.word = w ∧ s.Past mid s.advance ∧ Faces scopes program s.advance ws rest := by
  obtain ⟨toks, hw, hs⟩ := h.words
  obtain ⟨t, toks, rfl, ht, hws⟩ := List.map_eq_cons_iff.mp hw
  have hpast : s.Past (toks ++ rest) s.advance := ParseState.past_advance hs
  refine ⟨toks ++ rest, ?_, hpast, ?_⟩
  · rw [ParseState.next_of_ahead hs]
    exact ht
  · exact ⟨hpast.scopes.trans h.scopes, hpast.program.trans h.program, toks, hws, hpast.ahead⟩

/-- Words in two parts: what comes before a word, and what stands from there on. -/
theorem Faces.split (h : Faces scopes program s (vs ++ w :: ws) rest) :
    ∃ t mid, t.word = w ∧ rest.length ≤ mid.length ∧ Faces scopes program s vs (t :: mid) ∧
      ∀ s', s.Past (t :: mid) s' → Faces scopes program s' (w :: ws) rest := by
  obtain ⟨toks, hw, hs⟩ := h.words
  obtain ⟨front, back, rfl, hvs, hback⟩ := List.map_eq_append_iff.mp hw
  obtain ⟨t, back, rfl, ht, hws⟩ := List.map_eq_cons_iff.mp hback
  refine ⟨t, back ++ rest, ht, ?_, ⟨h.scopes, h.program, front, hvs, ?_⟩, fun s' hs' => ?_⟩
  · rw [List.length_append]
    exact Nat.le_add_left _ _
  · rw [hs, List.append_assoc]
    rfl
  · refine ⟨hs'.scopes.trans h.scopes, hs'.program.trans h.program, t :: back, hback, ?_⟩
    rw [hs'.ahead]
    rfl

/-- Words that are read at a level as the tree `e`; if `ok` is false, they are refused. -/
def ReadsAt (scopes : Scopes) (program : Program) (k : Nat) (ws : List Word) (ok : Bool)
    (e : Node) :
    Prop :=
  ∀ n s rest, Faces scopes program s ws rest → ws.length ≤ n → Stops k rest →
    Takes (reader (.ofDepth n) k) s ok (·.unplaced = e) rest

/-- Words that are read as the tree `e` in the loop of a level, which may go on with its
operators. -/
def RunsAt (scopes : Scopes) (program : Program) (k : Nat) (ws : List Word) (ok : Bool) (e : Node) :
    Prop :=
  ∀ n s rest, Faces scopes program s ws rest → ws.length ≤ n → Stops (k + 1) rest →
    Continues (reader (.ofDepth n) k) (loopStep (.ofDepth n) k) s ok (·.unplaced = e) rest

variable {ok : Bool} {e : Node}

theorem RunsAt.reads (hk : IsLoop k) (h : RunsAt scopes program k ws ok e) :
    ReadsAt scopes program k ws ok e := by
  intro n s rest hs hn hrest
  refine (h n s rest hs hn (hrest.mono (Nat.le_succ k))).finish fun a s' hs' => ?_
  exact loopStep_of_stops hk hrest hs'.ahead _ a

/-- An operand of a level is an expression of the level. -/
theorem ReadsAt.runs (hlow : 2 ≤ k) (hhigh : k ≤ 7) (h : ReadsAt scopes program (k + 1) ws ok e) :
    RunsAt scopes program k ws ok e := by
  intro n s rest hs hn hrest
  rw [reader_eq_loop (.inl ⟨hlow, hhigh⟩)]
  refine Takes.continues ?_
  rw [loopBase, if_neg (by omega)]
  exact h n s rest hs hn hrest

/-- A reader that looks for a mark behind an expression and finds none. -/
theorem Takes.unmarked {α : Type} {x : Parse Node} {table : List (String × α)}
    {f : Node → Option (α × Location) → Parse Node} {Q : Node → Prop} (h : Takes x s ok Q rest)
    (hrest : Stops k rest) (htable : (table.all fun entry => goesOn k entry.1) = true)
    (hf : ∀ a, f a none = Pure.pure a) :
    Takes (x >>= fun a => acceptOne table >>= f a) s ok Q rest := by
  rw [← Bool.and_true ok]
  refine h.bind fun a s' ha hs' => ?_
  have hnone := acceptOne_of_stops hrest hs'.ahead htable
  refine .after hnone (ParseState.past_self hs'.ahead) ?_
  rw [hf]
  exact .pure ha hs'.ahead

theorem ReadsAt.ternary (h : ReadsAt scopes program 2 ws ok e) :
    ReadsAt scopes program 1 ws ok e := by
  intro n s rest hs hn hrest
  have hcond := h n s rest hs hn (hrest.mono (by decide))
  exact hcond.unmarked hrest (by decide) fun _ => rfl

theorem ReadsAt.assignment (h : ReadsAt scopes program 1 ws ok e) :
    ReadsAt scopes program 0 ws ok e := by
  intro n s rest hs hn hrest
  have htarget := h n s rest hs hn (hrest.mono (by decide))
  exact htarget.unmarked hrest (by decide) fun _ => rfl

def Begins (ws : List Word) : Prop :=
  ∃ w vs, ws = w :: vs ∧ (w.1 ≠ .reserved ∨ w = .mark "(")

/-- Words that begin no operator before an operand are read as an operand. -/
theorem ReadsAt.unary (hws : Begins ws) (h : ReadsAt scopes program 9 ws ok e) :
    ReadsAt scopes program 8 ws ok e := by
  intro n s rest hs hn hrest
  obtain ⟨w, vs, rfl, hw⟩ := hws
  obtain ⟨mid, hnext, -, -⟩ := hs.cons
  have hnone : acceptOne prefixMarks s = .ok none s := by
    refine acceptOne_of_not fun entry he => ?_
    by_contra hentry
    have hword := Word.of_isReserved (Bool.eq_true_of_not_eq_false hentry)
    rw [hnext] at hword
    subst hword
    rcases hw with hw | hw
    · exact hw rfl
    · have hopen : prefixMarks.all (fun entry => entry.1 != "(") = true := by decide
      have hne := List.all_eq_true.mp hopen entry he
      exact absurd (Prod.mk.inj hw).2 (bne_iff_ne.mp hne)
  refine .after hnone (ParseState.past_self rfl) ?_
  exact h n s rest hs hn (hrest.mono (by decide))

/-- What is read at a level is read at all looser ones. -/
theorem ReadsAt.looser (hj : j ≤ 8) (h : ReadsAt scopes program j ws ok e) (hk : k ≤ j) :
    ReadsAt scopes program k ws ok e := by
  induction j with
  | zero =>
    obtain rfl := Nat.le_zero.mp hk
    exact h
  | succ j ih =>
    rcases Nat.lt_or_eq_of_le hk with hlt | rfl
    · refine ih (by omega) ?_ (Nat.le_of_lt_succ hlt)
      -- One level looser: the two levels without a loop are the loosest.
      rcases Nat.lt_or_ge j 2 with hj' | hj'
      · interval_cases j
        · exact h.assignment
        · exact h.ternary
      · exact (h.runs hj' (by omega)).reads (.inl ⟨hj', by omega⟩)
    · exact h

end Parse

end StackC
