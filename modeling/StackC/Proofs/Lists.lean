import Mathlib.Data.List.Forall2

namespace StackC

namespace Lists

variable {α β : Type} {R : α → β → Prop} {as : List α} {bs : List β}

theorem exists_left_of_forall₂ (h : List.Forall₂ R as bs) {y : β} (hy : y ∈ bs) :
    ∃ x ∈ as, R x y := by
  induction h with
  | nil => exact nomatch hy
  | cons hr h ih =>
    rcases List.mem_cons.mp hy with rfl | hy
    · exact ⟨_, List.mem_cons_self, hr⟩
    · obtain ⟨x, hx, hxy⟩ := ih hy
      exact ⟨x, List.mem_cons_of_mem _ hx, hxy⟩

theorem exists_right_of_forall₂ (h : List.Forall₂ R as bs) {x : α} (hx : x ∈ as) :
    ∃ y ∈ bs, R x y :=
  exists_left_of_forall₂ h.flip hx

theorem getLast?_of_forall₂ (h : List.Forall₂ R as bs) {x : α} (hx : as.getLast? = some x) :
    ∃ y, bs.getLast? = some y ∧ R x y := by
  rw [← List.head?_reverse] at hx ⊢
  have hr := List.forall₂_reverse_iff.mpr h
  generalize as.reverse = xs at hx hr
  generalize bs.reverse = ys at hr ⊢
  cases hr with
  | nil => exact nomatch hx
  | cons hr _ =>
    cases hx
    exact ⟨_, rfl, hr⟩

/-- Related lists that are searched alike have related results. -/
theorem find?_of_forall₂ {p : α → Bool} {q : β → Bool} (h : List.Forall₂ R as bs)
    (hpq : ∀ x y, R x y → q y = p x) {x : α} (hx : as.find? p = some x) :
    ∃ y, bs.find? q = some y ∧ R x y := by
  induction h with
  | nil => exact nomatch hx
  | @cons a b as bs hr h ih =>
    rw [List.find?_cons] at hx ⊢
    rw [hpq a b hr]
    cases hp : p a with
    | true =>
      rw [hp] at hx
      cases hx
      exact ⟨b, rfl, hr⟩
    | false =>
      rw [hp] at hx
      exact ih hx

/-- A relation between any two elements is kept by lists that are related element by element. -/
theorem pairwise_of_forall₂ {P : α → α → Prop} {Q : β → β → Prop} (h : List.Forall₂ R as bs)
    (hpq : ∀ x y x' y', R x y → R x' y' → P x x' → Q y y') (hp : as.Pairwise P) :
    bs.Pairwise Q := by
  induction h with
  | nil => exact .nil
  | cons hr h ih =>
    obtain ⟨hhead, htail⟩ := List.pairwise_cons.mp hp
    refine List.pairwise_cons.mpr ⟨fun y hy => ?_, ih htail⟩
    obtain ⟨x, hx, hxy⟩ := exists_left_of_forall₂ h hy
    exact hpq _ _ _ _ hr hxy (hhead x hx)

theorem mem_of_lookup {κ : Type} [BEq κ] [LawfulBEq κ] {l : List (κ × α)} {k : κ} {a : α}
    (h : l.lookup k = some a) : (k, a) ∈ l := by
  induction l with
  | nil => exact nomatch h
  | cons b l ih =>
    obtain ⟨key, c⟩ := b
    rw [List.lookup_cons] at h
    split at h
    · next he =>
      cases h
      rw [eq_of_beq he]
      exact List.mem_cons_self
    · exact List.mem_cons_of_mem _ (ih h)

/-- An element is found by what tells it apart from the others. -/
theorem find?_of_nodup {α β : Type} [BEq β] [LawfulBEq β] {f : α → β} {l : List α} {x : α}
    (h : (l.map f).Nodup) (hx : x ∈ l) : l.find? (f · == f x) = some x := by
  induction l with
  | nil => exact absurd hx List.not_mem_nil
  | cons y l ih =>
    obtain ⟨hy, hl⟩ := List.nodup_cons.mp h
    rcases List.mem_cons.mp hx with rfl | hx
    · exact List.find?_cons_of_pos (beq_self_eq_true _)
    · have hne : f y ≠ f x := fun he => hy (he ▸ List.mem_map_of_mem hx)
      rw [List.find?_cons_of_neg (by simpa using hne)]
      exact ih hl hx

theorem forall₂_flatMap {γ : Type} {f : γ → List α} {g : γ → List β}
    (h : ∀ i, List.Forall₂ R (f i) (g i)) (is : List γ) :
    List.Forall₂ R (is.flatMap f) (is.flatMap g) := by
  induction is with
  | nil => exact .nil
  | cons i is ih => exact List.rel_append (h i) ih

theorem range_eq_append {m n : Nat} (h : m ≤ n) :
    List.range n = List.range' 0 m ++ List.range' m (n - m) := by
  have happend := List.range'_append_1 (s := 0) (m := m) (n := n - m)
  rw [Nat.zero_add, Nat.add_sub_cancel' h] at happend
  rw [List.range_eq_range', happend]

end Lists

end StackC
