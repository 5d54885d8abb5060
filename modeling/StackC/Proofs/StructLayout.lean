import Mathlib.Data.List.Induction
import Mathlib.Data.List.Nodup
import StackC.CType.Table
import StackC.Proofs.Program.Layout

/-!
Layouts of structs. Fields are laid out back to back, in order and without padding, and every
member is found by its name; the only obstacle is a name that is used twice. A table in machine
words has the same members at the same offsets as long as the fields together do not exceed a
word; beyond that its offsets wrap, and members come to overlap.
-/

namespace StackC

namespace Layout

/-- What the search finds, wherever it is begun: the names before the one it stops at are new, and
this one has been seen before or stands among them. -/
theorem firstRepeat_eq_some {seen names : List String} {name : String} :
    firstRepeat seen names = some name ↔ ∃ before after, names = before ++ name :: after ∧
      (name ∈ seen ∨ name ∈ before) ∧ before.Nodup ∧ ∀ n ∈ before, n ∉ seen := by
  induction names generalizing seen with
  | nil => simp [firstRepeat]
  | cons n names ih =>
    rw [firstRepeat]
    by_cases hn : n ∈ seen
    · rw [if_pos hn, Option.some.injEq]
      constructor
      · rintro rfl
        exact ⟨[], names, rfl, .inl hn, List.nodup_nil, by simp⟩
      · rintro ⟨before, after, hnames, -, -, hnew⟩
        cases before with
        | nil => exact (List.cons.inj hnames).1
        | cons b before =>
          obtain rfl := (List.cons.inj hnames).1
          exact absurd hn (hnew n List.mem_cons_self)
    · rw [if_neg hn, ih]
      constructor
      · rintro ⟨before, after, rfl, hname, hnodup, hnew⟩
        have hfresh : n ∉ before := fun hmem => hnew n hmem List.mem_cons_self
        refine ⟨n :: before, after, rfl, ?_, List.nodup_cons.mpr ⟨hfresh, hnodup⟩, ?_⟩
        · rcases hname with hname | hname
          · rcases List.mem_cons.mp hname with rfl | hname
            · exact .inr List.mem_cons_self
            · exact .inl hname
          · exact .inr (List.mem_cons_of_mem _ hname)
        · exact List.forall_mem_cons.mpr
            ⟨hn, fun k hk hks => hnew k hk (List.mem_cons_of_mem _ hks)⟩
      · rintro ⟨before, after, hnames, hname, hnodup, hnew⟩
        cases before with
        | nil =>
          -- The first name has not been seen, so the search does not stop at it.
          obtain rfl := (List.cons.inj hnames).1
          exact absurd (hname.resolve_right List.not_mem_nil) hn
        | cons b before =>
          obtain ⟨rfl, hrest⟩ := List.cons.inj hnames
          obtain ⟨hfresh, hnodup⟩ := List.nodup_cons.mp hnodup
          obtain ⟨-, hnew⟩ := List.forall_mem_cons.mp hnew
          refine ⟨before, after, hrest, ?_, hnodup, fun k hk hks => ?_⟩
          · rcases hname with hname | hname
            · exact .inl (List.mem_cons_of_mem _ hname)
            · exact (List.mem_cons.mp hname).imp_left fun h => List.mem_cons.mpr (.inl h)
          · rcases List.mem_cons.mp hks with rfl | hks
            · exact hfresh hk
            · exact hnew k hk hks

/-- Nothing repeats exactly if all names are different. -/
theorem firstRepeat_eq_none {names : List String} : firstRepeat [] names = none ↔ names.Nodup := by
  constructor
  · exact fun h => (CType.nodup_of_firstRepeat h).1
  · intro hnodup
    cases h : firstRepeat [] names with
    | none => rfl
    | some name =>
      obtain ⟨before, after, rfl, hname, -, -⟩ := firstRepeat_eq_some.mp h
      have hdisjoint := (List.nodup_append.mp hnodup).2.2
      have hmem := hname.resolve_left List.not_mem_nil
      exact absurd rfl (hdisjoint name hmem name List.mem_cons_self)

/-- All other fields are laid out back to back. -/
theorem ofFields_eq_ok {id : Nat} {tag : Option String} {fields : List (String × CType)}
    {l : Layout CType} : ofFields id tag fields = .ok l ↔
      (fields.map (·.1)).Nodup ∧ l = ⟨id, tag, pack 0 fields⟩ := by
  rw [ofFields, ← firstRepeat_eq_none]
  cases firstRepeat [] (fields.map (·.1)) <;> simp [eq_comm]

/-- The offset of a member is the sum of the sizes of the fields before it. -/
theorem getElem?_pack (offset : Nat) (fields : List (String × CType)) (i : Nat) :
    (pack offset fields)[i]? =
      fields[i]?.map fun f => ⟨f.1, f.2, offset + CType.fieldsSize (fields.take i)⟩ := by
  induction fields generalizing offset i with
  | nil => rfl
  | cons f fields ih =>
    cases i with
    | zero => rfl
    | succ i =>
      have htail : (pack offset (f :: fields))[i + 1]? =
          (pack (offset + f.2.size) fields)[i]? := rfl
      rw [htail, ih, List.getElem?_cons_succ, List.take_succ_cons, CType.fieldsSize, Nat.add_assoc]

theorem fieldsSize_append (fs gs : List (String × CType)) :
    CType.fieldsSize (fs ++ gs) = CType.fieldsSize fs + CType.fieldsSize gs := by
  induction fs with
  | nil => exact (Nat.zero_add _).symm
  | cons f fs ih => rw [List.cons_append, CType.fieldsSize, CType.fieldsSize, ih, Nat.add_assoc]

theorem fieldsSize_take_le_all (fields : List (String × CType)) (i : Nat) :
    CType.fieldsSize (fields.take i) ≤ CType.fieldsSize fields := by
  conv_rhs => rw [← List.take_append_drop i fields, fieldsSize_append]
  exact Nat.le_add_right _ _

/-- The fields up to one of them take no more than all the fields before a later one. -/
theorem fieldsSize_take_le {fields : List (String × CType)} {i j : Nat} {f : String × CType}
    (hij : i < j) (hf : fields[i]? = some f) :
    CType.fieldsSize (fields.take i) + f.2.size ≤ CType.fieldsSize (fields.take j) := by
  obtain ⟨hi, rfl⟩ := List.getElem?_eq_some_iff.mp hf
  have hsplit : fields.take j = fields.take i ++ (fields.take j).drop i := by
    conv_lhs => rw [← List.take_append_drop i (fields.take j)]
    rw [List.take_take, Nat.min_eq_left (Nat.le_of_lt hij)]
  have hmem : fields[i] ∈ (fields.take j).drop i := by
    rw [List.mem_iff_getElem?]
    exact ⟨0, by simp [List.getElem?_take_of_lt hij]⟩
  rw [hsplit, fieldsSize_append]
  exact Nat.add_le_add_left (CType.size_le_fieldsSize hmem) _

end Layout

def Slot.toMember (s : Slot) : Member CType := ⟨s.name, s.type, s.offset.toNat⟩

namespace MemberTable

/-- The table has the given fields for members, in order; a name has the position of the one member
that is called so, and no other; offsets and sizes are sums of words. -/
structure Lists (t : MemberTable) (fields : List (String × CType)) : Prop where
  slots (i : Nat) :
    t.slots[i]? = fields[i]?.map fun f => ⟨f.1, f.2, .ofNat (CType.fieldsSize (fields.take i))⟩
  size : t.size = .ofNat (CType.fieldsSize fields)
  positions (name : String) (i : Nat) :
    t.positions.lookup name = some i ↔ ∃ s, t.slots[i]? = some s ∧ s.name = name
  found (name : String) (s : Slot) :
    t.member? name = some s ↔ ∃ i : Nat, t.slots[i]? = some s ∧ s.name = name ∧
      ∀ (j : Nat) (s' : Slot), t.slots[j]? = some s' → s'.name = name → j = i
  missing (name : String) : t.member? name = none ↔ name ∉ fields.map (·.1)

/-- The members lie back to back: each begins where the sizes of all the fields before it end, none
reaches into a later one, and they end where the struct does. Members without a size share an offset
with the next one. -/
structure Packs (t : MemberTable) (fields : List (String × CType)) : Prop where
  offsets {i : Nat} {s : Slot} (hs : t.slots[i]? = some s) :
    s.offset.toNat = CType.fieldsSize (fields.take i)
  apart {i j : Nat} {s s' : Slot} (hij : i < j) (hs : t.slots[i]? = some s)
    (hs' : t.slots[j]? = some s') : s.offset.toNat + s.type.size ≤ s'.offset.toNat
  size : t.size.toNat = CType.fieldsSize fields

structure Agrees (t : MemberTable) (l : Layout CType) : Prop where
  id : l.id = t.id
  tag : l.tag = t.tag
  members : l.members = t.slots.map Slot.toMember
  size : t.size.toNat = CType.layoutSize l
  member (name : String) : (t.member? name).map Slot.toMember = l.member? name

structure Filling.Holds (b : Filling) (fields : List (String × CType)) : Prop where
  slots (i : Nat) :
    b.slots[i]? = fields[i]?.map fun f => ⟨f.1, f.2, .ofNat (CType.fieldsSize (fields.take i))⟩
  positions (name : String) (i : Nat) :
    b.positions.lookup name = some i ↔ ∃ f, fields[i]? = some f ∧ f.1 = name
  offset : b.offset = .ofNat (CType.fieldsSize fields)

variable {b : Filling} {t : MemberTable} {fields : List (String × CType)} {f : String × CType}
  {id : Nat} {tag : Option String} {name : String}

theorem Filling.Holds.length_slots (h : b.Holds fields) : b.slots.length = fields.length := by
  refine Nat.le_antisymm ?_ ?_
  · refine List.getElem?_eq_none_iff.mp ?_
    rw [h.slots, List.getElem?_eq_none (Nat.le_refl _), Option.map_none]
  · refine List.getElem?_eq_none_iff.mp ?_
    have hnone := h.slots b.slots.length
    rw [List.getElem?_eq_none (Nat.le_refl _)] at hnone
    exact Option.map_eq_none_iff.mp hnone.symm

/-- Before the first round the table is empty. -/
theorem Filling.holds_nil : ({} : Filling).Holds [] where
  slots _ := rfl
  positions _ _ := by simp
  offset := rfl

/-- The names without a position are those of no field. -/
theorem Filling.Holds.lookup_eq_none (h : b.Holds fields) :
    b.positions.lookup name = none ↔ name ∉ fields.map (·.1) := by
  rw [Option.eq_none_iff_forall_not_mem]
  constructor
  · intro hnone hmem
    obtain ⟨f, hf, hname⟩ := List.mem_map.mp hmem
    obtain ⟨i, hi⟩ := List.mem_iff_getElem?.mp hf
    exact hnone i ((h.positions name i).mpr ⟨f, hi, hname⟩)
  · intro hmem i hi
    obtain ⟨f, hf, hname⟩ := (h.positions name i).mp hi
    exact hmem (List.mem_map.mpr ⟨f, List.mem_of_getElem? hf, hname⟩)

/-- The member of one more field lies at the offset that the loop has reached. -/
theorem Filling.Holds.slots_append (h : b.Holds fields) (f : String × CType) (i : Nat) :
    (b.slots ++ [⟨f.1, f.2, b.offset⟩])[i]? = (fields ++ [f])[i]?.map fun g =>
      ⟨g.1, g.2, .ofNat (CType.fieldsSize ((fields ++ [f]).take i))⟩ := by
  have hlength := h.length_slots
  rcases Nat.lt_trichotomy i fields.length with hi | rfl | hi
  · rw [List.getElem?_append_left (by omega), List.getElem?_append_left hi, h.slots,
      List.take_append_of_le_length (Nat.le_of_lt hi)]
  · rw [List.getElem?_append_right (by omega), List.getElem?_append_right (Nat.le_refl _), hlength,
      Nat.sub_self, List.take_left' rfl, h.offset]
    rfl
  · rw [List.getElem?_eq_none (by rw [List.length_append, hlength]; exact hi),
      List.getElem?_eq_none (by rw [List.length_append]; exact hi)]
    rfl

/-- A new name gets the position behind all the others, which keep theirs. -/
theorem Filling.Holds.positions_append (h : b.Holds fields) (hf : f.1 ∉ fields.map (·.1))
    (name : String) (i : Nat) : ((f.1, b.slots.length) :: b.positions).lookup name = some i ↔
      ∃ g, (fields ++ [f])[i]? = some g ∧ g.1 = name := by
  rw [List.lookup_cons, h.length_slots]
  by_cases hname : name = f.1
  · subst hname
    rw [beq_self_eq_true, Option.some.injEq]
    constructor
    · rintro rfl
      exact ⟨f, by simp, rfl⟩
    · rintro ⟨g, hg, hname⟩
      rcases Nat.lt_or_ge i fields.length with hi | hi
      · rw [List.getElem?_append_left hi] at hg
        exact absurd (List.mem_map.mpr ⟨g, List.mem_of_getElem? hg, hname⟩) hf
      · have hlt := (List.getElem?_eq_some_iff.mp hg).1
        rw [List.length_append, List.length_singleton] at hlt
        omega
  · rw [beq_eq_false_iff_ne.mpr hname, h.positions]
    refine exists_congr fun g => and_congr_left fun hg => ?_
    rcases Nat.lt_or_ge i fields.length with hi | hi
    · rw [List.getElem?_append_left hi]
    · rw [List.getElem?_append_right hi, List.getElem?_eq_none hi]
      constructor
      · intro h
        cases h
      · intro h
        obtain rfl := List.mem_singleton.mp (List.mem_of_getElem? h)
        exact absurd hg.symm hname

/-- A field with a name of its own is added behind the others. -/
theorem Filling.Holds.add (h : b.Holds fields) (hf : f.1 ∉ fields.map (·.1)) :
    ∃ b', b.add f = .ok b' ∧ b'.Holds (fields ++ [f]) := by
  refine ⟨_, by rw [Filling.add, h.lookup_eq_none.mpr hf], h.slots_append f,
    h.positions_append hf, ?_⟩
  rw [h.offset, Layout.fieldsSize_append, UInt64.ofNat_add]
  rfl

/-- The loop goes through all the fields if no two of them share a name. -/
theorem exists_filling (hn : (fields.map (·.1)).Nodup) :
    ∃ b, fields.foldlM Filling.add {} = .ok b ∧ b.Holds fields := by
  induction fields using List.reverseRecOn with
  | nil => exact ⟨{}, rfl, Filling.holds_nil⟩
  | append_singleton fields f ih =>
    rw [List.map_append, List.nodup_append] at hn
    obtain ⟨b, hb, hholds⟩ := ih hn.1
    have hf : f.1 ∉ fields.map (·.1) := fun hmem => hn.2.2 f.1 hmem f.1 List.mem_cons_self rfl
    obtain ⟨b', hb', hholds'⟩ := hholds.add hf
    refine ⟨b', ?_, hholds'⟩
    rw [List.foldlM_append, hb]
    change [f].foldlM Filling.add b = _
    rw [List.foldlM_cons, hb']
    rfl

/-- Fields with names of their own are all entered into the table. -/
theorem ofFields_of_nodup (id : Nat) (tag : Option String) (hn : (fields.map (·.1)).Nodup) :
    ∃ b : Filling, ofFields id tag fields = .ok ⟨id, tag, b.slots, b.positions⟩ ∧
      b.Holds fields := by
  obtain ⟨b, hb, hholds⟩ := exists_filling hn
  exact ⟨b, by rw [ofFields, hb]; rfl, hholds⟩

/-- The size of the table is the sum of all sizes, as a word. -/
theorem Filling.Holds.size_eq (h : b.Holds fields) :
    (⟨id, tag, b.slots, b.positions⟩ : MemberTable).size = .ofNat (CType.fieldsSize fields) := by
  rw [size, List.getLast?_eq_getElem?, h.length_slots, h.slots]
  rcases List.eq_nil_or_concat fields with rfl | ⟨fs, f, rfl⟩
  · rfl
  · -- The last member begins behind all the others.
    rw [List.concat_eq_append, List.length_append, List.length_singleton, Nat.add_sub_cancel,
      List.getElem?_append_right (Nat.le_refl _), Nat.sub_self, List.take_left' rfl,
      Layout.fieldsSize_append, UInt64.ofNat_add]
    rfl

/-- What the loop has in hand is a table of the fields. -/
theorem Filling.Holds.lists (h : b.Holds fields) :
    (⟨id, tag, b.slots, b.positions⟩ : MemberTable).Lists fields := by
  have hpositions (name : String) (i : Nat) :
      b.positions.lookup name = some i ↔ ∃ s, b.slots[i]? = some s ∧ s.name = name := by
    rw [h.positions, h.slots]
    constructor
    · rintro ⟨f, hf, rfl⟩
      exact ⟨_, by rw [hf]; rfl, rfl⟩
    · rintro ⟨s, hs, hname⟩
      obtain ⟨f, hf, rfl⟩ := Option.map_eq_some_iff.mp hs
      exact ⟨f, hf, hname⟩
  refine ⟨h.slots, h.size_eq, hpositions, fun name s => ?_, fun name => ?_⟩
  · constructor
    · intro hs
      obtain ⟨i, hi, hs⟩ := Option.bind_eq_some_iff.mp hs
      obtain ⟨s', hs', hname⟩ := (hpositions name i).mp hi
      obtain rfl : s' = s := Option.some.inj (hs'.symm.trans hs)
      refine ⟨i, hs, hname, fun j s'' hj hname' => ?_⟩
      exact Option.some.inj (((hpositions name j).mpr ⟨s'', hj, hname'⟩).symm.trans hi)
    · rintro ⟨i, hi, hname, -⟩
      rw [member?, (hpositions name i).mpr ⟨s, hi, hname⟩]
      exact hi
  · rw [← h.lookup_eq_none, member?]
    cases hl : b.positions.lookup name with
    | none => exact iff_of_true rfl rfl
    | some i =>
      -- A position that the table knows is that of a member.
      obtain ⟨s, hs, -⟩ := (hpositions name i).mp hl
      rw [Option.bind_some, hs]
      exact iff_of_false (Option.some_ne_none s) (Option.some_ne_none i)

/-- The sums do not wrap exactly if all of them are words. -/
theorem Lists.packs_iff (h : t.Lists fields) :
    t.Packs fields ↔ CType.fieldsSize fields < UInt64.size := by
  constructor
  · intro hp
    rw [← hp.size]
    exact t.size.toNat_lt
  · intro hlt
    have hword {n : Nat} (hn : n ≤ CType.fieldsSize fields) : (UInt64.ofNat n).toNat = n :=
      UInt64.toNat_ofNat_of_lt' (Nat.lt_of_le_of_lt hn hlt)
    have hoffset {i : Nat} {s : Slot} (hs : t.slots[i]? = some s) :
        s.offset.toNat = CType.fieldsSize (fields.take i) := by
      rw [h.slots] at hs
      obtain ⟨f, -, rfl⟩ := Option.map_eq_some_iff.mp hs
      exact hword (Layout.fieldsSize_take_le_all fields i)
    refine ⟨hoffset, fun {i j s s'} hij hs hs' => ?_, ?_⟩
    · rw [hoffset hs, hoffset hs']
      rw [h.slots] at hs
      obtain ⟨f, hf, rfl⟩ := Option.map_eq_some_iff.mp hs
      exact Layout.fieldsSize_take_le hij hf
    · rw [h.size]
      exact hword (Nat.le_refl _)

/-- Fields that do not wrap have the same members in the table as in the layout. -/
theorem Lists.pack_eq (h : t.Lists fields) (hp : t.Packs fields) :
    Layout.pack 0 fields = t.slots.map Slot.toMember := by
  refine List.ext_getElem? fun i => ?_
  rw [List.getElem?_map, Layout.getElem?_pack]
  have hslot := h.slots i
  cases hf : fields[i]? with
  | none =>
    rw [hf] at hslot
    rw [hslot]
    rfl
  | some f =>
    rw [hf] at hslot
    have hoffset := hp.offsets hslot
    rw [hslot, Option.map_some, Option.map_some, Option.map_some, Slot.toMember, hoffset,
      Nat.zero_add]

/-- Below the size of a word, table and layout answer alike. -/
theorem Lists.agrees (h : t.Lists fields) (hp : t.Packs fields) (hn : (fields.map (·.1)).Nodup) :
    t.Agrees ⟨t.id, t.tag, Layout.pack 0 fields⟩ where
  id := rfl
  tag := rfl
  members := h.pack_eq hp
  size := by
    rw [hp.size]
    exact (CType.layoutSize_eq rfl).symm
  member name := by
    have hnames : (Layout.pack 0 fields).map (·.name) = fields.map (·.1) :=
      CType.map_name_pack 0 fields
    cases hm : t.member? name with
    | none =>
      have hmissing := (h.missing name).mp hm
      rw [← hnames] at hmissing
      refine (List.find?_eq_none.mpr fun m hm' he => hmissing ?_).symm
      exact List.mem_map.mpr ⟨m, hm', beq_iff_eq.mp he⟩
    | some s =>
      obtain ⟨i, hi, rfl, -⟩ := (h.found name s).mp hm
      have hmem : s.toMember ∈ Layout.pack 0 fields := by
        rw [h.pack_eq hp]
        exact List.mem_map_of_mem (List.mem_of_getElem? hi)
      exact (Lists.find?_of_nodup (hnames ▸ hn) hmem).symm

end MemberTable

end StackC
