import StackC.Proofs.Grammar.Programs
import StackC.Proofs.Grammar.Reading
import StackC.Proofs.Initializer.Targets
import StackC.Proofs.Lists

/-!
Globals and locals start alike. The bytes that an initializer gives to a global variable are those
that its stores leave in a local variable of the same type, whatever the memory held before.
-/

namespace StackC

namespace Semantics

open Assembly Machine Typing

variable {c : Context} {locate : VarId → Option Word} {a : Word} {t : CType} {target : Node}

open Initializer (zeros zeros_append flatMap_zeros_pack bind_eq_ok length_padded
  length_flatMap_littleEndian length_data length_elementData length_memberData)

theorem fills_scalar {value : Node} {v : Int64} (ht : t.Sound)
    (hp : (t.isArray || t.isStruct) = false) (hd : Denotes c locate target t a)
    (hv : Amounts c locate value v) (p : Location) :
    t.size ≤ 8 ∧ Fills c locate [target.store value p] a (littleEndian t.size v) := by
  obtain ⟨w, hw⟩ := ht.width hp
  exact ⟨Memory.bytes_of_ofBytes? hw ▸ Memory.width_bytes_le w, fills_store hd hp hw hv p⟩

/-- Elements that are cleared one after the other. -/
theorem fills_zeros {f : Nat → List Node} {size : Nat} (h : ∀ i, size < addresses →
      Fills c locate (f i) (a + BitVec.ofNat 64 (size * i)) (zeros size)) {n : Nat} (i : Nat)
    (hn : size * n < addresses) :
    Fills c locate ((List.range' i n).flatMap f) (a + BitVec.ofNat 64 (size * i))
      (zeros (size * n)) := by
  induction n generalizing i with
  | zero => exact fills_nil _
  | succ n ih =>
    rw [Nat.mul_succ] at hn
    have hrest := ih (i + 1) (by omega)
    rw [Nat.mul_succ, ← add_ofNat_add] at hrest
    rw [List.range'_succ, List.flatMap_cons, Nat.mul_succ, Nat.add_comm (size * n), ← zeros_append]
    refine (h i (by omega)).append ?_ ?_
    · rwa [zeros, List.length_replicate]
    · rw [zeros, zeros, List.length_replicate, List.length_replicate]
      omega

theorem fills_clearMembers {p : Location} {offset : Nat} {fields : List (String × CType)}
    (h : ∀ m ∈ Layout.pack offset fields, Fills c locate ((target.access m.name p).clear m.type)
      (a + BitVec.ofNat 64 m.offset) (zeros m.type.size))
    (hsize : CType.fieldsSize fields < addresses) :
    Fills c locate (target.clearMembers p (Layout.pack offset fields)) (a + BitVec.ofNat 64 offset)
      (zeros (CType.fieldsSize fields)) := by
  induction fields generalizing offset with
  | nil => exact fills_nil _
  | cons f fields ih =>
    rw [CType.fieldsSize] at hsize ⊢
    obtain ⟨hfirst, hrest⟩ := List.forall_mem_cons.mp h
    have hrest := ih hrest (by omega)
    rw [← add_ofNat_add] at hrest
    rw [Layout.pack, Node.clearMembers, ← zeros_append]
    refine hfirst.append ?_ ?_
    · rwa [zeros, List.length_replicate]
    · rw [zeros, zeros, List.length_replicate, List.length_replicate]
      omega

/-- Members lie behind each other in the struct that the target denotes. -/
theorem Denotes.members {id : Nat} {tag : Option String} {fields : List (String × CType)}
    {l : Layout CType} {k : Nat} (hd : Denotes c locate target (.struct l k) a)
    (hl : Layout.ofFields id tag fields = .ok l) (p : Location) :
    ∀ m ∈ Layout.pack 0 fields,
      Denotes c locate (target.access m.name p) m.type (a + BitVec.ofNat 64 m.offset) := by
  intro m hm
  rw [← CType.members_ofFields hl] at hm
  exact hd.member (CType.member?_of_mem hl hm) p

/-- The stores that clear a target fill it with zeros. -/
theorem fills_clear (ht : t.Sound) (hv : t.isVoid = false) (hsize : t.size < addresses)
    (hd : Denotes c locate target t a) : Fills c locate (target.clear t) a (zeros t.size) := by
  induction ht generalizing target a with
  | primitive k =>
    obtain ⟨hle, hfills⟩ := fills_scalar (.primitive k) rfl hd (amounts_num (.bare target.place) 0)
      target.place
    rwa [littleEndian_zero hle] at hfills
  | pointer hb =>
    obtain ⟨hle, hfills⟩ := fills_scalar (.pointer hb) rfl hd (amounts_num (.bare target.place) 0)
      target.place
    rwa [littleEndian_zero hle] at hfills
  | @array b len hb hbv ih =>
    have hzeros := fills_zeros (fun i hs => ih hbv hs (hd.element hbv i target.place)) 0 hsize
    rw [Nat.mul_zero, BitVec.add_zero, ← List.range_eq_range'] at hzeros
    rw [Node.clear]
    exact hzeros
  | @struct id tag fields l hl hf hfv ih =>
    have hmembers := CType.members_ofFields hl
    have hspan : CType.layoutSize l = CType.fieldsSize fields := CType.layoutSize_eq hmembers
    have hsize : CType.fieldsSize fields < addresses := hspan ▸ hsize
    have heach : ∀ m ∈ Layout.pack 0 fields,
        Fills c locate ((target.access m.name target.place).clear m.type)
          (a + BitVec.ofNat 64 m.offset) (zeros m.type.size) := by
      intro m hm
      have hfield := CType.mem_pack hm
      exact ih _ hfield (hfv _ hfield) (Nat.lt_of_le_of_lt (CType.size_le_fieldsSize hfield) hsize)
        (hd.members hl target.place m hm)
    have hzeros := fills_clearMembers heach hsize
    rw [BitVec.add_zero, ← hspan, ← hmembers] at hzeros
    rw [Node.clear]
    exact hzeros

/-- The stores of numbers fill an array with their bytes. -/
theorem fills_storeElements {base : CType} {p : Location} (hb : base.Sound)
    (hi : base.isInteger = true)
    (hd : ∀ i, Denotes c locate (target.element i p) base (a + BitVec.ofNat 64 (base.size * i)))
    {values : List Int64} (i : Nat) (hsize : base.size * values.length < addresses) :
    Fills c locate (values.mapIdx fun k v => (target.element (k + i) p).store (.literal v p) p)
      (a + BitVec.ofNat 64 (base.size * i)) (values.flatMap (littleEndian base.size)) := by
  have hplain := CType.plain_of_scalar (t := base) (by rw [CType.isScalar, hi, Bool.true_or])
  have hle := CType.size_le_of_isInteger hb hi
  induction values generalizing i with
  | nil => exact fills_nil _
  | cons v values ih =>
    rw [List.length_cons, Nat.mul_succ] at hsize
    obtain ⟨-, hfirst⟩ := fills_scalar hb hplain (hd i) (amounts_num (.bare p) v) p
    have hrest := ih (i + 1) (by omega)
    have hlen := length_flatMap_littleEndian hle values
    have hbytes : (littleEndian base.size v).length = base.size := by
      rw [length_littleEndian, Nat.min_eq_left hle]
    rw [Nat.mul_succ, ← add_ofNat_add] at hrest
    rw [List.flatMap_cons, List.mapIdx_cons, ← List.singleton_append]
    refine Fills.append ?_ ?_ ?_
    · rwa [Nat.zero_add]
    · rw [hbytes]
      simpa only [Nat.add_assoc, Nat.add_comm 1 i] using hrest
    · rw [hbytes, hlen]
      omega

/-- A terminator is one of the zeros behind a string. -/
theorem padded_terminated {n : Nat} {bytes : List UInt8} (h : bytes.length ≤ n) :
    (Initializer.terminated n bytes).length ≤ n ∧
      Initializer.padded n (Initializer.terminated n bytes) = Initializer.padded n bytes := by
  unfold Initializer.terminated
  split
  · exact ⟨h, rfl⟩
  · next hne =>
    have hlen : n - bytes.length = n - (bytes.length + 1) + 1 := by omega
    refine ⟨by rw [List.length_append, List.length_singleton]; omega, ?_⟩
    unfold Initializer.padded
    rw [List.length_append, List.length_singleton, hlen, List.replicate_succ, List.map_append,
      List.append_assoc]
    rfl

/-- The reader leaves its state as it was and gives stores that fill memory with the bytes from `a`
on. -/
def Starts (c : Context) (locate : VarId → Option Word) (x : Parse (List Node)) (a : Word)
    (bytes : List UInt8) : Prop :=
  ∀ s, ∃ stores, x s = .ok stores s ∧ Fills c locate stores a bytes

theorem Fills.starts {stores : List Node} {bytes : List UInt8} (h : Fills c locate stores a bytes) :
    Starts c locate (pure stores) a bytes :=
  fun _ => ⟨stores, rfl, h⟩

/-- Parts that lie behind each other are filled one after the other. -/
theorem Starts.append {x y : Parse (List Node)} {as bs : List UInt8} (hx : Starts c locate x a as)
    (hy : Starts c locate y (a + BitVec.ofNat 64 as.length) bs)
    (h : as.length + bs.length < addresses) :
    Starts c locate (do let front ← x; return front ++ (← y)) a (as ++ bs) := by
  intro s
  obtain ⟨xs, hxs, hx⟩ := hx s
  obtain ⟨ys, hys, hy⟩ := hy s
  refine ⟨xs ++ ys, ?_, hx.append hy h⟩
  rw [Parse.bind_of_ok hxs, Parse.bind_of_ok hys]
  rfl

mutual

/-- The induction is on the initializer; elements and members are filled one behind the other. -/
theorem starts_data (init : Initializer) (t : CType) (target : Node) (a : Word)
    (bytes : List UInt8) (ht : t.Sound) (hsize : t.size < addresses)
    (hd : Denotes c locate target t a) (hdiv : init.All (·.hasQuotients = true))
    (h : init.data t = .ok bytes) : Starts c locate (init.stores target t) a bytes :=
  match init with
  | .expr value => by
    rw [Initializer.data] at h
    split at h
    · next hi =>
      split at h
      · next n hn =>
        cases h
        have hplain := CType.plain_of_scalar (t := t) (by rw [CType.isScalar, hi, Bool.true_or])
        have hvalue : Amounts c locate value n := by
          cases hdiv with
          | expr hdiv => exact amounts_constant value n hn hdiv
        obtain ⟨-, hfills⟩ := fills_scalar ht hplain hd hvalue value.place
        cases t with
        | primitive => exact hfills.starts
        | _ => exact nomatch hi
      · cases h
    · cases h
  | .str chars p => by
    cases t with
    | array base len k =>
      rw [Initializer.data] at h
      split at h
      · next hi =>
        split at h
        · cases h
        · next hlen =>
          cases h
          cases ht with
          | array hb hv =>
            have hfit : chars.length ≤ len.getD 0 := Nat.le_of_not_lt hlen
            -- The stores end the string before they fill up the array; the bytes only fill it up.
            obtain ⟨hroom, hpadded⟩ := padded_terminated hfit
            have hsize : base.size * (Initializer.padded (len.getD 0) chars).length <
                addresses := by
              rw [length_padded hfit]
              exact hsize
            have hfills := fills_storeElements hb hi (fun i => hd.element hv i p) 0 hsize
            rw [Nat.mul_zero, BitVec.add_zero] at hfills
            rw [Initializer.stores]
            simp only [hi, Bool.not_true, Bool.false_eq_true, if_false, gt_iff_lt,
              if_neg (Nat.not_lt.mpr hroom), hpadded]
            exact hfills.starts
      · cases h
    | _ => exact nomatch h
  | .list items p => by
    cases hdiv with
    | list hdiv =>
      cases t with
      | array base len k =>
        rw [Initializer.data] at h
        split at h
        · cases h
        · next hlen =>
          obtain ⟨front, hfront, h⟩ := bind_eq_ok h
          cases h
          cases ht with
          | array hb hv =>
            have hfit : items.length ≤ len.getD 0 := Nat.le_of_not_lt hlen
            have hsplit : base.size * len.getD 0 =
                base.size * items.length + base.size * (len.getD 0 - items.length) := by
              rw [← Nat.mul_add, Nat.add_sub_cancel' hfit]
            have hsize : base.size * len.getD 0 < addresses := hsize
            have hcount := length_elementData items base front hb hfront
            have hx := starts_elementData items base target a p 0 front hb (by omega)
              (fun i => hd.element hv i p) hdiv hfront
            -- Elements without an initializer are cleared behind those with one.
            have hothers := fills_zeros
              (fun i hs => fills_clear hb hv hs (hd.element hv i p)) items.length
              (n := len.getD 0 - items.length) (by omega)
            rw [Nat.mul_zero, BitVec.add_zero] at hx
            rw [← hcount] at hothers
            rw [Initializer.stores]
            simp only [gt_iff_lt, if_neg hlen]
            refine hx.append hothers.starts ?_
            rw [zeros, List.length_replicate, hcount]
            omega
      | struct l k =>
        rw [Initializer.data] at h
        split at h
        · cases h
        · next hlen =>
          cases ht with
          | @struct id tag fields l hl hf hv =>
            have hmembers := CType.members_ofFields hl
            have hspan := CType.layoutSize_eq hmembers
            have hcount : l.members.length = fields.length := by
              rw [hmembers, ← List.length_map (·.name), CType.map_name_pack, List.length_map]
            rw [hmembers] at h
            have hx := starts_memberData items fields 0 target a p bytes
              (fun f hmem => ⟨hf f hmem, hv f hmem⟩) (hspan ▸ hsize) (hd.members hl p)
                (by omega) hdiv h
            rw [BitVec.add_zero, ← hmembers] at hx
            rw [Initializer.stores]
            simp only [gt_iff_lt, if_neg hlen]
            exact hx
      | pointer => exact nomatch h
      | primitive k n =>
        cases k with
        | void => exact nomatch h
        | _ =>
          -- Braces around a scalar hold exactly one initializer.
          match items with
          | [] => exact nomatch h
          | [item] =>
            exact starts_data item _ target a bytes ht hsize hd (hdiv item List.mem_cons_self) h
          | _ :: _ :: _ => exact nomatch h
termination_by structural init

/-- The elements of a list fill an array from its start. -/
theorem starts_elementData (items : List Initializer) (base : CType) (target : Node) (a : Word)
    (p : Location) (i : Nat) (bytes : List UInt8) (hb : base.Sound)
    (hsize : base.size * items.length < addresses)
    (hd : ∀ i, Denotes c locate (target.element i p) base (a + BitVec.ofNat 64 (base.size * i)))
    (hdiv : ∀ item ∈ items, item.All (·.hasQuotients = true))
    (h : Initializer.elementData base items = .ok bytes) :
    Starts c locate (Initializer.elementStores target base p i items)
      (a + BitVec.ofNat 64 (base.size * i)) bytes :=
  match items with
  | [] => by
    cases h
    exact (fills_nil _).starts
  | item :: items => by
    rw [Initializer.elementData] at h
    obtain ⟨front, hfront, h⟩ := bind_eq_ok h
    obtain ⟨rest, hrest, h⟩ := bind_eq_ok h
    cases h
    rw [List.length_cons, Nat.mul_succ] at hsize
    obtain ⟨hitem, hitems⟩ := List.forall_mem_cons.mp hdiv
    have hlen := length_data item base front hb hfront
    have hlen' := length_elementData items base rest hb hrest
    have hx := starts_data item base _ _ front hb (by omega) (hd i) hitem hfront
    have hy := starts_elementData items base target a p (i + 1) rest hb (by omega) hd hitems hrest
    have hnext : a + BitVec.ofNat 64 (base.size * i) + BitVec.ofNat 64 front.length =
        a + BitVec.ofNat 64 (base.size * (i + 1)) := by
      rw [hlen, add_ofNat_add, Nat.mul_succ]
    rw [← hnext] at hy
    exact hx.append hy (by omega)
termination_by structural items

/-- The items of a list fill a struct member by member. -/
theorem starts_memberData (items : List Initializer) (fields : List (String × CType)) (offset : Nat)
    (target : Node) (a : Word) (p : Location) (bytes : List UInt8)
    (hf : ∀ f ∈ fields, f.2.Sound ∧ f.2.isVoid = false)
    (hsize : CType.fieldsSize fields < addresses)
    (hd : ∀ m ∈ Layout.pack offset fields,
      Denotes c locate (target.access m.name p) m.type (a + BitVec.ofNat 64 m.offset))
    (hlen : items.length ≤ fields.length) (hdiv : ∀ item ∈ items, item.All (·.hasQuotients = true))
    (h : Initializer.memberData (Layout.pack offset fields) items = .ok bytes) :
    Starts c locate (Initializer.memberStores target p (Layout.pack offset fields) items)
      (a + BitVec.ofNat 64 offset) bytes :=
  match items with
  | [] => by
    have heach : ∀ m ∈ Layout.pack offset fields,
        Fills c locate ((target.access m.name p).clear m.type) (a + BitVec.ofNat 64 m.offset)
          (zeros m.type.size) := by
      intro m hm
      have hfield := CType.mem_pack hm
      obtain ⟨hsound, hv⟩ := hf _ hfield
      exact fills_clear hsound hv
        (Nat.lt_of_le_of_lt (CType.size_le_fieldsSize hfield) hsize) (hd m hm)
    have hzeros := fills_clearMembers heach hsize
    rw [Initializer.memberData, flatMap_zeros_pack] at h
    cases h
    exact hzeros.starts
  | item :: items => by
    cases fields with
    | nil => exact absurd hlen (Nat.not_succ_le_zero _)
    | cons f fields =>
      rw [Layout.pack, Initializer.memberData] at h
      obtain ⟨front, hfront, h⟩ := bind_eq_ok h
      obtain ⟨rest, hrest, h⟩ := bind_eq_ok h
      cases h
      rw [CType.fieldsSize] at hsize
      obtain ⟨hfirst, hfields⟩ := List.forall_mem_cons.mp hf
      obtain ⟨hdfirst, hdrest⟩ := List.forall_mem_cons.mp hd
      obtain ⟨hitem, hitems⟩ := List.forall_mem_cons.mp hdiv
      have hcount := length_data item f.2 front hfirst.1 hfront
      have hcount' := length_memberData items fields (offset + f.2.size) rest
        (fun f hmem => (hfields f hmem).1) (Nat.le_of_succ_le_succ hlen) hrest
      have hx := starts_data item f.2 _ _ front hfirst.1 (by omega) hdfirst hitem hfront
      have hy := starts_memberData items fields (offset + f.2.size) target a p rest
        hfields (by omega) hdrest (Nat.le_of_succ_le_succ hlen) hitems hrest
      have hnext : a + BitVec.ofNat 64 offset + BitVec.ofNat 64 front.length =
          a + BitVec.ofNat 64 (offset + f.2.size) := by
        rw [hcount, add_ofNat_add]
      rw [← hnext] at hy
      exact hx.append hy (by omega)
termination_by structural items

end

/-- The stores of an initializer fill the object that the target denotes with the bytes of the
initializer. -/
theorem starts_stores (init : Initializer) (t : CType) (target : Node) (a : Word)
    (bytes : List UInt8) (ht : t.Sound) (hsize : t.size < addresses)
    (hd : Denotes c locate target t a) (hdiv : init.All (·.hasQuotients = true))
    (h : init.data t = .ok bytes) :
    bytes.length = t.size ∧ Starts c locate (init.stores target t) a bytes :=
  ⟨length_data init t bytes ht h, starts_data init t target a bytes ht hsize hd hdiv h⟩

/-- The stores of an initializer leave in an object of type `t` the bytes that a global variable of
that type starts with. Nothing else in memory changes, and it does not matter what memory held. An
object has fewer bytes than there are addresses. -/
theorem performAll_stores {init : Initializer} {bytes : List UInt8} (ht : t.Sound)
    (hsize : t.size < addresses) (hdiv : init.All (·.hasQuotients = true))
    (hdata : init.data t = .ok bytes) (hd : Denotes c locate target t a) (s : ParseState) :
    bytes.length = t.size ∧ ∃ stores typed, init.stores target t s = .ok stores s ∧
      elaborateAll c stores = .ok typed ∧
      ∀ rounds m, performAll (flat locate) rounds typed m = some (.ok (), m.fill a bytes) := by
  obtain ⟨hlen, hstarts⟩ := starts_stores init t target a bytes ht hsize hd hdiv hdata
  obtain ⟨stores, hstores, typed, htyped, hperform⟩ := hstarts s
  exact ⟨hlen, stores, typed, hstores, htyped, hperform⟩

def packetSource : String :=
  "struct \x7b short grid[2][2]; char name[4]; struct \x7b long n; \x7d in; int rest; \x7d packet;"

def packetStart : Initializer :=
  let num (v : Int64) : Node := .literal v {}
  .list [
    .list [.list [.expr (.binary (.bare {}) .sub (num 0) (num 2))] {},
      .list [.expr (.binary (.bare {}) .div (num 513) (num 2)), .expr (num 7)] {}] {},
    .str [0xff, 0x21] {},
    .list [.list [.expr (num 5)] {}] {}] {}

def packetBytes : List UInt8 :=
  [0xfe, 0xff, 0, 0, 0, 1, 7, 0, 0xff, 0x21, 0, 0, 5, 0, 0, 0, 0, 0, 0, 0, 0, 0, 0, 0]

theorem hasQuotients_packetStart : packetStart.All (·.hasQuotients = true) := by
  refine .list (List.forall_mem_cons.mpr ⟨.list ?_, List.forall_mem_cons.mpr ⟨.str, ?_⟩⟩)
  · refine List.forall_mem_cons.mpr ⟨.list ?_, List.forall_mem_singleton.mpr (.list ?_)⟩
    · exact List.forall_mem_singleton.mpr (.expr rfl)
    · exact List.forall_mem_cons.mpr ⟨.expr rfl, List.forall_mem_singleton.mpr (.expr rfl)⟩
  · refine List.forall_mem_singleton.mpr (.list ?_)
    exact List.forall_mem_singleton.mpr (.list (List.forall_mem_singleton.mpr (.expr rfl)))

/-- The members without an initializer are zero, and the characters have their sign. -/
theorem performAll_stores_packet :
    ∃ p x, parse packetSource = .ok p ∧ p.var? 0 = some x ∧ x.type.Sound ∧
      packetStart.data x.type = .ok packetBytes ∧
      ∃ stores typed, packetStart.stores (.var {} 0) x.type default = .ok stores default ∧
        elaborateAll ⟨p, .void⟩ stores = .ok typed ∧
        performAll (flat fun _ => some 4096) 0 typed (fun _ => 0xaa) =
          some (.ok (), Memory.fill (fun _ => 0xaa) 4096 packetBytes) := by
  have hcheck : (parse packetSource).toOption.any (fun p => (p.var? 0).any fun x =>
      x.type.size < addresses ∧ (packetStart.data x.type).toOption = some packetBytes) = true := by
    decide +kernel
  obtain ⟨p, hp, hp'⟩ := exists_of_any hcheck
  rcases parse_cases packetSource with ⟨q, hq, hvalid⟩ | ⟨e, he, -⟩
  · cases hq.symm.trans hp
    obtain ⟨x, hx, hx'⟩ := (Option.any_eq_true _ _).mp hp'
    obtain ⟨hsize, hdata⟩ := of_decide_eq_true hx'
    have hdata : packetStart.data x.type = .ok packetBytes := by
      cases h : packetStart.data x.type with
      | error e =>
        rw [h] at hdata
        cases hdata
      | ok bytes =>
        rw [h] at hdata
        cases hdata
        rfl
    have hsound := hvalid.types 0 x hx
    have hd : Denotes ⟨p, .void⟩ (fun _ => some 4096) (.var {} 0) x.type 4096 := denotes_var hx rfl
    obtain ⟨-, stores, typed, hstores, htyped, hperform⟩ :=
      performAll_stores hsound hsize hasQuotients_packetStart hdata hd default
    exact ⟨p, x, hp, hx, hsound, hdata, stores, typed, hstores, htyped, hperform 0 _⟩
  · cases he.symm.trans hp

end Semantics

end StackC
