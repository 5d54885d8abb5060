import StackC.Grammar.Basic

namespace StackC

namespace ParseState

/-- The tokens with a mark of the end behind them, unless they end in one. -/
def marked (tokens : List Token) : List Token :=
  if tokens.getLast?.any (·.kind = .eof) then tokens
  else tokens ++ [.atEnd ((tokens.getLast?.map (·.place)).getD {})]

def body (tokens : List Token) : List Token := tokens.takeWhile (·.kind != .eof)

/-- How many tokens have been taken, which is the index of the next one. -/
def position (tokens : List Token) (s : ParseState) : Nat := (body tokens).length - s.ahead.length

theorem kind_of_mem_body {tokens : List Token} {t : Token} (h : t ∈ body tokens) :
    t.kind ≠ .eof := by
  have hbody : (t.kind != .eof) = true := List.all_eq_true.mp List.all_takeWhile t h
  simpa using hbody

theorem drop_body (tokens : List Token) :
    tokens.drop (body tokens).length = tokens.dropWhile (·.kind != .eof) := by
  have h : (body tokens ++ tokens.dropWhile (·.kind != .eof)).drop (body tokens).length =
    tokens.dropWhile (·.kind != .eof) := List.drop_left' rfl
  rwa [body, List.takeWhile_append_dropWhile] at h

/-- Behind the tokens that are read stands a mark of the end. -/
theorem marked_eq (tokens : List Token) : ∃ e more, marked tokens = body tokens ++ e :: more ∧
    e.kind = .eof ∧ e.place = (ofTokens tokens).finish := by
  have hsplit : body tokens ++ tokens.dropWhile (·.kind != .eof) = tokens :=
    List.takeWhile_append_dropWhile
  have hdrop := drop_body tokens
  unfold ofTokens
  dsimp only
  unfold body at hdrop
  rw [hdrop]
  cases hd : tokens.dropWhile (·.kind != .eof) with
  | nil =>
    -- There is no mark of the end, so one is added behind all the tokens.
    rw [hd, List.append_nil] at hsplit
    have hlast : tokens.getLast?.any (·.kind = .eof) = false := by
      cases hl : tokens.getLast? with
      | none => rfl
      | some t =>
        have ht : t ∈ body tokens := by
          rw [hsplit]
          exact List.mem_of_getLast? hl
        exact decide_eq_false (kind_of_mem_body ht)
    refine ⟨.atEnd _, [], ?_, rfl, rfl⟩
    rw [marked, hlast, hsplit]
    rfl
  | cons e more =>
    -- The first mark of the end; nothing behind it is read.
    have hkind : e.kind = .eof := by
      have h := List.head?_dropWhile_not (fun t : Token => t.kind != .eof) tokens
      rw [hd] at h
      simpa using h
    rw [hd] at hsplit
    have hmarked : ∃ extra, marked tokens = tokens ++ extra := by
      unfold marked
      split
      · exact ⟨[], (List.append_nil _).symm⟩
      · exact ⟨_, rfl⟩
    obtain ⟨extra, hextra⟩ := hmarked
    refine ⟨e, more ++ extra, ?_, hkind, rfl⟩
    rw [hextra, ← List.cons_append, ← List.append_assoc, hsplit]

/-- No mark of the end is passed. -/
theorem kind_of_mem_take {tokens : List Token} {s : ParseState} :
    ∀ t ∈ (marked tokens).take (s.position tokens), t.kind ≠ .eof := by
  obtain ⟨e, more, hmarked, -⟩ := marked_eq tokens
  have hle : s.position tokens ≤ (body tokens).length := Nat.sub_le _ _
  rw [hmarked, List.take_append_of_le_length hle]
  exact fun t ht => kind_of_mem_body (List.mem_of_mem_take ht)

theorem length_body_lt (tokens : List Token) : (body tokens).length < (marked tokens).length := by
  obtain ⟨e, more, hmarked, -⟩ := marked_eq tokens
  rw [hmarked, List.length_append, List.length_cons]
  omega

end ParseState

end StackC
