import StackC.Initializer.Data
import StackC.Proofs.Program.Layout

namespace StackC

@[simp] theorem length_littleEndian (n : Nat) (v : Int64) :
    (littleEndian n v).length = min n 8 := by
  simp [littleEndian]

theorem CType.size_le_of_isInteger {t : CType} (ht : t.Sound) (hi : t.isInteger = true) :
    t.size ≤ 8 := by
  cases ht with
  | primitive k => cases k <;> decide
  | _ => exact nomatch hi

namespace Initializer

theorem zeros_append (m n : Nat) : zeros m ++ zeros n = zeros (m + n) :=
  List.replicate_append_replicate

theorem flatMap_zeros_pack (offset : Nat) (fields : List (String × CType)) :
    ((Layout.pack offset fields).flatMap fun m => zeros m.type.size) =
      zeros (CType.fieldsSize fields) := by
  induction fields generalizing offset with
  | nil => rfl
  | cons f fields ih => rw [Layout.pack, List.flatMap_cons, ih, zeros_append, CType.fieldsSize]

theorem bind_eq_ok {ε α β : Type} {x : Except ε α} {f : α → Except ε β} {b : β}
    (h : x >>= f = .ok b) : ∃ a, x = .ok a ∧ f a = .ok b := by
  cases x with
  | error e => exact nomatch h
  | ok a => exact ⟨a, rfl, h⟩

theorem length_padded {n : Nat} {bytes : List UInt8} (h : bytes.length ≤ n) :
    (padded n bytes).length = n := by
  rw [padded, List.length_append, List.length_map, List.length_replicate]
  exact Nat.add_sub_cancel' h

theorem length_flatMap_littleEndian {n : Nat} (hn : n ≤ 8) (values : List Int64) :
    (values.flatMap (littleEndian n)).length = n * values.length := by
  induction values with
  | nil => rfl
  | cons v values ih =>
    rw [List.flatMap_cons, List.length_append, length_littleEndian, Nat.min_eq_left hn, ih,
      List.length_cons, Nat.mul_succ, Nat.add_comm]

mutual

/-- The induction is on the initializer; elements and members take their share of the bytes. -/
theorem length_data (init : Initializer) (t : CType) (bytes : List UInt8) (ht : t.Sound)
    (h : init.data t = .ok bytes) : bytes.length = t.size :=
  match init with
  | .expr value => by
    rw [data] at h
    split at h
    · next hi =>
      split at h
      · cases h
        rw [length_littleEndian, Nat.min_eq_left (CType.size_le_of_isInteger ht hi)]
      · cases h
    · cases h
  | .str chars p => by
    cases t with
    | array base len k =>
      rw [data] at h
      split at h
      · next hi =>
        split at h
        · cases h
        · next hlen =>
          cases h
          cases ht with
          | array hb _ =>
            rw [length_flatMap_littleEndian (CType.size_le_of_isInteger hb hi),
              length_padded (Nat.le_of_not_lt hlen)]
            rfl
      · cases h
    | _ => exact nomatch h
  | .list items p => by
    cases t with
    | array base len k =>
      rw [data] at h
      split at h
      · cases h
      · next hlen =>
        obtain ⟨front, hfront, h⟩ := bind_eq_ok h
        cases h
        cases ht with
        | array hb _ =>
          have hfit : items.length ≤ len.getD 0 := Nat.le_of_not_lt hlen
          have hcount := length_elementData items base front hb hfront
          calc (front ++ zeros (base.size * (len.getD 0 - items.length))).length
              = base.size * items.length + base.size * (len.getD 0 - items.length) := by
                rw [List.length_append, hcount, zeros, List.length_replicate]
            _ = base.size * len.getD 0 := by rw [← Nat.mul_add, Nat.add_sub_cancel' hfit]
    | struct l k =>
      rw [data] at h
      split at h
      · cases h
      · next hlen =>
        cases ht with
        | @struct id tag fields l hl hf hv =>
          have hmembers := CType.members_ofFields hl
          have hcount : l.members.length = fields.length := by
            rw [hmembers, ← List.length_map (·.name), CType.map_name_pack, List.length_map]
          rw [hmembers] at h
          have hbytes := length_memberData items fields 0 bytes hf (by omega) h
          exact hbytes.trans (CType.layoutSize_eq hmembers).symm
    | pointer => exact nomatch h
    | primitive k n =>
      cases k with
      | void => exact nomatch h
      | _ =>
        match items with
        | [] => exact nomatch h
        | [item] => exact length_data item _ bytes ht h
        | _ :: _ :: _ => exact nomatch h
termination_by structural init

/-- The bytes of elements are as many as the elements take. -/
theorem length_elementData (items : List Initializer) (base : CType) (bytes : List UInt8)
    (hb : base.Sound) (h : elementData base items = .ok bytes) :
    bytes.length = base.size * items.length :=
  match items with
  | [] => by
    cases h
    rfl
  | item :: items => by
    rw [elementData] at h
    obtain ⟨front, hfront, h⟩ := bind_eq_ok h
    obtain ⟨rest, hrest, h⟩ := bind_eq_ok h
    cases h
    have hfirst := length_data item base front hb hfront
    have hothers := length_elementData items base rest hb hrest
    rw [List.length_append, hfirst, hothers, List.length_cons, Nat.mul_succ, Nat.add_comm]
termination_by structural items

/-- The bytes of members are as many as the fields take. -/
theorem length_memberData (items : List Initializer) (fields : List (String × CType)) (offset : Nat)
    (bytes : List UInt8) (hf : ∀ f ∈ fields, f.2.Sound) (hlen : items.length ≤ fields.length)
    (h : memberData (Layout.pack offset fields) items = .ok bytes) :
    bytes.length = CType.fieldsSize fields :=
  match items with
  | [] => by
    rw [memberData, flatMap_zeros_pack] at h
    cases h
    exact List.length_replicate
  | item :: items => by
    cases fields with
    | nil => exact absurd hlen (Nat.not_succ_le_zero _)
    | cons f fields =>
      rw [Layout.pack, memberData] at h
      obtain ⟨front, hfront, h⟩ := bind_eq_ok h
      obtain ⟨rest, hrest, h⟩ := bind_eq_ok h
      cases h
      obtain ⟨hfirst, hfields⟩ := List.forall_mem_cons.mp hf
      have hcount := length_data item f.2 front hfirst hfront
      have hothers := length_memberData items fields (offset + f.2.size) rest hfields
        (Nat.le_of_succ_le_succ hlen) hrest
      rw [List.length_append, CType.fieldsSize, hcount, hothers]
termination_by structural items

end

end Initializer

end StackC
