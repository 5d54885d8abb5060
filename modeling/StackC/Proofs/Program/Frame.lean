import StackC.Frame
import StackC.Proofs.Lists

namespace StackC

theorem le_roundUp (n : Nat) : n ≤ roundUp n Frame.frameAlign := by
  unfold roundUp Frame.frameAlign
  omega

namespace Frame

variable {vars : Array Var} {ids : List VarId} {id id' : VarId} {k k' : Nat}

theorem map_fst_place (vars : Array Var) (total : Nat) (ids : List VarId) :
    (place vars total ids).map Prod.fst = ids := by
  induction ids generalizing total with
  | nil => rfl
  | cons id ids ih => rw [place, List.map_cons, ih]

/-- Every local has a place. -/
theorem offset?_isSome (vars : Array Var) {ids : List VarId} {id : VarId} (h : id ∈ ids) :
    ∃ k, (ofLocals vars ids).offset? id = some k := by
  have hm : id ∈ (ofLocals vars ids).slots.map Prod.fst := by
    rw [ofLocals, List.map_reverse, map_fst_place]
    exact List.mem_reverse.mpr h
  obtain ⟨s, hs, rfl⟩ := List.mem_map.mp hm
  cases ho : (ofLocals vars ids).offset? s.1 with
  | some k => exact ⟨k, rfl⟩
  | none =>
    have := List.lookup_eq_none_iff.mp ho s hs
    simp at this

/-- A place lies behind all places before it, and the total of the sizes is the end of the last. -/
theorem mem_place {start : Nat} (h : (id, k) ∈ place vars start ids) :
    start + varSize vars id ≤ k ∧ k ≤ start + total vars ids := by
  induction ids generalizing start with
  | nil => exact nomatch h
  | cons x ids ih =>
    have htotal : total vars (x :: ids) = varSize vars x + total vars ids := rfl
    rcases List.mem_cons.mp h with h | h
    · cases h
      omega
    · obtain ⟨hlow, hhigh⟩ := ih h
      omega

/-- Two locals lie one below the other. -/
theorem place_apart {start : Nat} (h : (id, k) ∈ place vars start ids)
    (h' : (id', k') ∈ place vars start ids) (hne : id ≠ id') :
    k + varSize vars id' ≤ k' ∨ k' + varSize vars id ≤ k := by
  induction ids generalizing start with
  | nil => exact nomatch h
  | cons x ids ih =>
    rcases List.mem_cons.mp h with h | h
    · rcases List.mem_cons.mp h' with h' | h'
      · cases h
        cases h'
        exact absurd rfl hne
      · cases h
        exact .inl (mem_place h').1
    · rcases List.mem_cons.mp h' with h' | h'
      · cases h'
        exact .inr (mem_place h).1
      · exact ih h h'

theorem mem_of_offset? (h : (ofLocals vars ids).offset? id = some k) : (id, k) ∈ place vars 0 ids :=
  List.mem_reverse.mp (Lists.mem_of_lookup h)

theorem varSize_le_offset? (h : (ofLocals vars ids).offset? id = some k) : varSize vars id ≤ k := by
  have hlow := (mem_place (mem_of_offset? h)).1
  rwa [Nat.zero_add] at hlow

theorem offset?_le_size (h : (ofLocals vars ids).offset? id = some k) :
    k ≤ (ofLocals vars ids).size := by
  have hhigh := (mem_place (mem_of_offset? h)).2
  rw [Nat.zero_add] at hhigh
  exact Nat.le_trans hhigh (le_roundUp _)

/-- Two locals do not share a byte. -/
theorem offset?_apart (h : (ofLocals vars ids).offset? id = some k)
    (h' : (ofLocals vars ids).offset? id' = some k') (hne : id ≠ id') :
    k + varSize vars id' ≤ k' ∨ k' + varSize vars id ≤ k :=
  place_apart (mem_of_offset? h) (mem_of_offset? h') hne

end Frame

end StackC
