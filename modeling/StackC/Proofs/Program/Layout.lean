import StackC.Grammar.TypeName
import StackC.Proofs.Lists
import StackC.Proofs.Program.Shape

namespace StackC

namespace CType

def fieldsSize : List (String × CType) → Nat
  | [] => 0
  | f :: fields => f.2.size + fieldsSize fields

theorem size_le_fieldsSize {fields : List (String × CType)} {f : String × CType} (hf : f ∈ fields) :
    f.2.size ≤ fieldsSize fields := by
  induction fields with
  | nil => exact absurd hf List.not_mem_nil
  | cons f' fields ih =>
    rw [fieldsSize]
    rcases List.mem_cons.mp hf with rfl | hf
    · exact Nat.le_add_right _ _
    · exact Nat.le_trans (ih hf) (Nat.le_add_left _ _)

/-- Members end where the fields up to them end. -/
theorem end_le_of_mem_pack {offset : Nat} {fields : List (String × CType)} {m : Member CType}
    (h : m ∈ Layout.pack offset fields) : m.offset + m.type.size ≤ offset + fieldsSize fields := by
  induction fields generalizing offset with
  | nil => exact absurd h List.not_mem_nil
  | cons f fields ih =>
    rw [fieldsSize]
    rcases List.mem_cons.mp h with rfl | h
    · exact Nat.add_le_add_left (Nat.le_add_right _ _) _
    · have hrest := ih h
      omega

/-- The last member ends where the sum of all sizes does. -/
theorem getLast?_pack {offset : Nat} {f : String × CType} {fields : List (String × CType)}
    {m : Member CType} (h : (Layout.pack offset (f :: fields)).getLast? = some m) :
    m.offset + m.type.size = offset + fieldsSize (f :: fields) := by
  induction fields generalizing offset f with
  | nil =>
    cases h
    rfl
  | cons f' fields ih =>
    have hrest : (Layout.pack (offset + f.2.size) (f' :: fields)).getLast? = some m := h
    have hsize := ih hrest
    rw [fieldsSize, ← Nat.add_assoc]
    exact hsize

/-- The size of a struct is the sum of the sizes of its fields. -/
theorem layoutSize_eq {l : Layout CType} {fields : List (String × CType)}
    (h : l.members = Layout.pack 0 fields) : layoutSize l = fieldsSize fields := by
  unfold layoutSize
  rw [h]
  cases fields with
  | nil => rfl
  | cons f fields =>
    cases hl : (Layout.pack 0 (f :: fields)).getLast? with
    | none => exact nomatch List.getLast?_eq_none_iff.mp hl
    | some m => exact (getLast?_pack hl).trans (Nat.zero_add _)

theorem map_name_pack (offset : Nat) (fields : List (String × CType)) :
    (Layout.pack offset fields).map (·.name) = fields.map (·.1) := by
  induction fields generalizing offset with
  | nil => rfl
  | cons f fields ih => exact congrArg (f.1 :: ·) (ih _)

/-- If nothing repeats, all names are different. -/
theorem nodup_of_firstRepeat {seen names : List String} (h : Layout.firstRepeat seen names = none) :
    names.Nodup ∧ ∀ n ∈ names, n ∉ seen := by
  induction names generalizing seen with
  | nil => exact ⟨List.nodup_nil, fun n hn => absurd hn List.not_mem_nil⟩
  | cons n names ih =>
    rw [Layout.firstRepeat] at h
    split at h
    · exact nomatch h
    · next hn =>
      obtain ⟨hnodup, hseen⟩ := ih h
      refine ⟨List.nodup_cons.mpr ⟨fun hmem => hseen n hmem List.mem_cons_self, hnodup⟩, ?_⟩
      refine List.forall_mem_cons.mpr ⟨hn, fun k hk hks => ?_⟩
      exact hseen k hk (List.mem_cons_of_mem _ hks)

/-- Every member is found by its name. -/
theorem member?_of_mem {id : Nat} {tag : Option String} {fields : List (String × CType)}
    {l : Layout CType} (h : Layout.ofFields id tag fields = .ok l) {m : Member CType}
    (hm : m ∈ l.members) : l.member? m.name = some m := by
  have hmembers := members_ofFields h
  have hnone : Layout.firstRepeat [] (fields.map (·.1)) = none := by
    unfold Layout.ofFields at h
    split at h
    · exact nomatch h
    · next hnone => exact hnone
  have hnodup : (l.members.map (·.name)).Nodup := by
    rw [hmembers, map_name_pack]
    exact (nodup_of_firstRepeat hnone).1
  exact Lists.find?_of_nodup hnodup hm

/-- `Part s t`: the type `s` is met on the way down from `t`, through pointers, arrays and
members. -/
inductive Part (s : CType) : CType → Prop where
  | self : Part s s
  | pointee {b n} (h : Part s b) : Part s (.pointer b n)
  | element {b len n} (h : Part s b) : Part s (.array b len n)
  | member {l n m} (hm : m ∈ l.members) (h : Part s m.type) : Part s (.struct l n)

/-- The parts of a sound type are sound. -/
theorem Part.sound {s t : CType} (h : Part s t) (ht : t.Sound) : s.Sound := by
  induction h with
  | self => exact ht
  | pointee _ ih => exact ih ht.base
  | element _ ih => exact ih ht.element.1
  | member hm _ ih =>
    cases ht with
    | struct hl hf hv =>
      rw [members_ofFields hl] at hm
      exact ih (hf _ (mem_pack hm))

/-- Members lie inside of their struct. -/
theorem Sound.member_end {l : Layout CType} {n : Nat} (h : (CType.struct l n).Sound)
    {m : Member CType} (hm : m ∈ l.members) : m.offset + m.type.size ≤ n := by
  cases h with
  | struct hl hf hv =>
    have hmembers := members_ofFields hl
    rw [layoutSize_eq hmembers]
    rw [hmembers] at hm
    have hend := end_le_of_mem_pack hm
    rwa [Nat.zero_add] at hend

/-- The type is built up from primitive types by pointers, arrays of a size that is allowed, and
structs. -/
inductive Built : CType → Prop where
  | primitive (k : Primitive) : Built (.primitive k k.size)
  | pointer {b} (hb : Built b) : Built (.pointer b pointerSize)
  | array {b len} (hb : Built b) (hv : b.isVoid = false)
    (hs : b.size * len.getD 0 ≤ maxObjectSize) : Built (.array b len (b.size * len.getD 0))
  | struct {id tag fields l} (hl : Layout.ofFields id tag fields = .ok l)
      (hf : ∀ f ∈ fields, Built f.2) (hv : ∀ f ∈ fields, f.2.isVoid = false) :
      Built (.struct l (layoutSize l))

/-- Types that are built up are sound. -/
theorem Built.sound {t : CType} (h : t.Built) : t.Sound := by
  induction h with
  | primitive k => exact .primitive k
  | pointer _ ih => exact .pointer ih
  | array _ hv _ ih => exact .array ih hv
  | struct hl _ hv ih => exact .struct hl ih hv

theorem Built.element {b : CType} {len : Option Nat} {n : Nat} (h : (CType.array b len n).Built) :
    b.Built ∧ b.isVoid = false := by
  cases h with
  | array hb hv => exact ⟨hb, hv⟩

/-- The parts of a type that is built up are built up. -/
theorem Part.built {s t : CType} (h : Part s t) (ht : t.Built) : s.Built := by
  induction h with
  | self => exact ht
  | pointee _ ih =>
    cases ht with
    | pointer hb => exact ih hb
  | element _ ih => exact ih ht.element.1
  | member hm _ ih =>
    cases ht with
    | struct hl hf hv =>
      rw [members_ofFields hl] at hm
      exact ih (hf _ (mem_pack hm))

/-- The type is as it was written, or an array that has taken its length from an initializer. -/
def Formed (t : CType) : Prop :=
  t.Built ∨ ∃ b n, b.Built ∧ b.isVoid = false ∧ t = .arrayOf b (some n)

theorem Formed.sound {t : CType} (h : t.Formed) : t.Sound := by
  rcases h with h | ⟨b, n, hb, hv, rfl⟩
  · exact h.sound
  · exact hb.sound.arrayOf hv _

/-- An array that takes its length from an initializer is formed. -/
theorem formed_complete {t : CType} (h : t.Built) (init : Initializer) :
    (init.complete t).Formed := by
  unfold Initializer.complete
  split
  · exact Or.inr ⟨_, _, h.element.1, h.element.2, rfl⟩
  · exact Or.inl h

end CType

end StackC
