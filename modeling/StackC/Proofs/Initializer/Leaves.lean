import StackC.Proofs.Grammar.Programs
import StackC.Proofs.Grammar.Reading
import StackC.Proofs.Initializer.Targets
import StackC.Proofs.Lists

/-!
The scalars in an object. Those of an array or a struct lie behind each other without gaps, and an
initializer of a local variable stores in each of them once, from the first to the last.
-/

namespace StackC

inductive Selector where
  | element (i : Nat)
  | member (name : String)

/-- A scalar in an object: how it is selected, its type and its distance from the start. -/
structure Leaf where
  path : List Selector
  type : CType
  offset : Nat

def Leaf.Covers (leaf : Leaf) (b : Nat) : Prop := leaf.offset ≤ b ∧ b < leaf.offset + leaf.type.size

namespace CType

mutual

/-- The scalars of a type in the order of its layout, in an object that is selected by `path` and
starts at `offset`. -/
def leaves (path : List Selector) (offset : Nat) (t : CType) : List Leaf :=
  match t with
  | .array base len _ => (List.range (len.getD 0)).flatMap fun i =>
      base.leaves (path ++ [.element i]) (offset + base.size * i)
  | .struct ⟨_, _, members⟩ _ => memberLeaves path offset members
  | .primitive kind size => [⟨path, .primitive kind size, offset⟩]
  | .pointer base size => [⟨path, .pointer base size, offset⟩]

def memberLeaves (path : List Selector) (offset : Nat) (members : List (Member CType)) :
    List Leaf :=
  match members with
  | [] => []
  | ⟨name, t, distance⟩ :: members =>
    t.leaves (path ++ [.member name]) (offset + distance) ++ memberLeaves path offset members

end

variable {path : List Selector} {offset : Nat} {t : CType}

theorem leaves_of_scalar (h : (t.isArray || t.isStruct) = false) :
    t.leaves path offset = [⟨path, t, offset⟩] := by
  cases t with
  | primitive | pointer => rw [leaves]
  | _ => cases h

theorem memberLeaves_cons (m : Member CType) (members : List (Member CType)) :
    memberLeaves path offset (m :: members) =
      m.type.leaves (path ++ [.member m.name])
        (offset + m.offset) ++ memberLeaves path offset members := by
  rw [memberLeaves]

theorem leaves_struct (l : Layout CType) (size : Nat) :
    (CType.struct l size).leaves path offset = memberLeaves path offset l.members := by
  rw [leaves]

theorem exists_of_mem_memberLeaves {members : List (Member CType)} {leaf : Leaf}
    (h : leaf ∈ memberLeaves path offset members) :
    ∃ m ∈ members, leaf ∈ m.type.leaves (path ++ [.member m.name]) (offset + m.offset) := by
  induction members with
  | nil =>
    rw [memberLeaves] at h
    exact absurd h List.not_mem_nil
  | cons m members ih =>
    rw [memberLeaves_cons] at h
    rcases List.mem_append.mp h with h | h
    · exact ⟨m, List.mem_cons_self, h⟩
    · obtain ⟨m', hm, h⟩ := ih h
      exact ⟨m', List.mem_cons_of_mem _ hm, h⟩

/-- Only integers and pointers are left when arrays and structs are taken apart. -/
theorem Sound.of_mem_leaves {leaf : Leaf} (ht : t.Sound) (hv : t.isVoid = false)
    (h : leaf ∈ t.leaves path offset) : leaf.type.Sound ∧ leaf.type.isScalar = true := by
  induction ht generalizing path offset with
  | primitive k =>
    rw [leaves, List.mem_singleton] at h
    subst h
    refine ⟨.primitive k, ?_⟩
    cases k with
    | void => cases hv
    | _ => rfl
  | pointer hb =>
    rw [leaves, List.mem_singleton] at h
    subst h
    exact ⟨.pointer hb, rfl⟩
  | array _ hbv ih =>
    rw [leaves] at h
    obtain ⟨i, -, h⟩ := List.mem_flatMap.mp h
    exact ih hbv h
  | struct hl _ hfv ih =>
    rw [leaves_struct, members_ofFields hl] at h
    obtain ⟨m, hm, h⟩ := exists_of_mem_memberLeaves h
    exact ih _ (mem_pack hm) (hfv _ (mem_pack hm)) h

end CType

/-- The scalars fill the bytes from `start` to `stop`, each where the one before it ends. -/
def Tiles : Nat → List Leaf → Nat → Prop
  | start, [], stop => start = stop
  | start, leaf :: leaves, stop => leaf.offset = start ∧ Tiles (start + leaf.type.size) leaves stop

/-- Scalars that fill two adjacent ranges fill both. -/
theorem Tiles.append {start middle stop : Nat} {xs ys : List Leaf} (hx : Tiles start xs middle)
    (hy : Tiles middle ys stop) : Tiles start (xs ++ ys) stop := by
  induction xs generalizing start with
  | nil =>
    cases hx
    exact hy
  | cons x xs ih => exact ⟨hx.1, ih hx.2⟩

theorem Tiles.start_le {start stop i : Nat} {leaves : List Leaf} {leaf : Leaf}
    (h : Tiles start leaves stop) (hi : leaves[i]? = some leaf) : start ≤ leaf.offset := by
  induction leaves generalizing start i with
  | nil => cases hi
  | cons first leaves ih =>
    cases i with
    | zero =>
      cases hi
      exact Nat.le_of_eq h.1.symm
    | succ i => exact Nat.le_trans (Nat.le_add_right _ _) (ih h.2 hi)

/-- Every byte belongs to exactly one of the scalars. -/
theorem Tiles.existsUnique {start stop b : Nat} {leaves : List Leaf} (h : Tiles start leaves stop)
    (hstart : start ≤ b) (hstop : b < stop) :
    ∃! i : Nat, ∃ leaf, leaves[i]? = some leaf ∧ leaf.Covers b := by
  induction leaves generalizing start with
  | nil =>
    have hend : start = stop := h
    omega
  | cons first leaves ih =>
    obtain ⟨hfirst, hrest⟩ := h
    by_cases hb : b < start + first.type.size
    · refine ⟨0, ⟨first, rfl, by omega, by omega⟩, ?_⟩
      rintro (_ | i) ⟨leaf, hleaf, hlow, -⟩
      · rfl
      · have hbehind := hrest.start_le hleaf
        omega
    · obtain ⟨i, hi, hunique⟩ := ih hrest (Nat.le_of_not_lt hb)
      refine ⟨i + 1, hi, ?_⟩
      rintro (_ | j) ⟨leaf, hleaf, hcovers⟩
      · cases hleaf
        have hhigh := hcovers.2
        omega
      · exact congrArg (· + 1) (hunique j ⟨leaf, hleaf, hcovers⟩)

theorem tiles_flatMap_range' {f : Nat → List Leaf} {size : Nat} (start : Nat)
    (h : ∀ i, Tiles (start + size * i) (f i) (start + size * i + size)) (n i : Nat) :
    Tiles (start + size * i) ((List.range' i n).flatMap f) (start + size * (i + n)) := by
  induction n generalizing i with
  | zero => exact rfl
  | succ n ih =>
    have hrest := ih (i + 1)
    rw [Nat.mul_succ, ← Nat.add_assoc, Nat.add_right_comm i 1 n] at hrest
    rw [List.range'_succ, List.flatMap_cons]
    exact (h i).append hrest

theorem tiles_memberLeaves {fields : List (String × CType)} (path : List Selector)
    (offset distance : Nat)
    (h : ∀ f ∈ fields, ∀ path offset, Tiles offset (f.2.leaves path offset) (offset + f.2.size)) :
    Tiles (offset + distance) (CType.memberLeaves path offset (Layout.pack distance fields))
      (offset + distance + CType.fieldsSize fields) := by
  induction fields generalizing distance with
  | nil =>
    rw [Layout.pack, CType.memberLeaves]
    exact rfl
  | cons f fields ih =>
    obtain ⟨hfirst, hfields⟩ := List.forall_mem_cons.mp h
    have hrest := ih (distance + f.2.size) hfields
    rw [← Nat.add_assoc] at hrest
    rw [Layout.pack, CType.memberLeaves_cons, CType.fieldsSize, ← Nat.add_assoc]
    exact (hfirst _ _).append hrest

/-- The scalars of a sound type fill all of its bytes. -/
theorem CType.Sound.tiles {t : CType} (ht : t.Sound) (path : List Selector) (offset : Nat) :
    Tiles offset (t.leaves path offset) (offset + t.size) := by
  induction ht generalizing path offset with
  | primitive | pointer =>
    rw [leaves]
    exact ⟨rfl, rfl⟩
  | @array b len _ _ ih =>
    have helements := tiles_flatMap_range' offset (fun i => ih (path ++ [.element i]) _)
      (len.getD 0) 0
    rw [Nat.mul_zero, Nat.add_zero, Nat.zero_add, ← List.range_eq_range'] at helements
    rw [leaves]
    exact helements
  | @struct id tag fields l hl _ _ ih =>
    have hmembers := members_ofFields hl
    have htiles := tiles_memberLeaves path offset 0 ih
    rw [Nat.add_zero, ← hmembers, ← layoutSize_eq hmembers] at htiles
    rw [leaves_struct]
    exact htiles

inductive Node.Selects (object : Node) : List Selector → Node → Prop where
  | self : Selects object [] object
  | element {path n} (h : Selects object path n) (i : Nat) (p : Location) :
      Selects object (path ++ [.element i]) (n.element i p)
  | member {path n} (h : Selects object path n) (name : String) (p : Location) :
      Selects object (path ++ [.member name]) (n.access name p)

namespace Semantics

open Assembly Machine Typing
open Initializer (bind_eq_ok)

variable {c : Context} {target e n : Node} {t : CType} {path : List Selector} {k : Nat}

/-- The typed form of an assignment has the typed target and a typed value. -/
theorem exists_of_elaborate_assign {i : Info} {value l e : Node} (hl : elaborate c n = .ok l)
    (h : elaborate c (.assign i n value) = .ok e) :
    ∃ j value', (elaborate c value >>= decay) = .ok value' ∧ e = .assign j l value' := by
  rw [elaborate, hl] at h
  obtain ⟨_, ⟨⟩, h⟩ := bind_eq_ok h
  obtain ⟨t, -, h⟩ := bind_eq_ok h
  obtain ⟨x, hx, h⟩ := bind_eq_ok h
  obtain ⟨x', hx', h⟩ := bind_eq_ok h
  obtain ⟨value', hvalue, h⟩ := bind_eq_ok h
  cases h
  obtain ⟨rfl, -⟩ := (yields_scalarValue _ _).of_ok hvalue
  refine ⟨_, value', ?_, rfl⟩
  rw [hx]
  exact hx'

/-- The typed form of a store has the typed form of its target. -/
theorem exists_of_elaborate_store {value l stmt : Node} {p : Location} (hl : elaborate c n = .ok l)
    (h : elaborate c (n.store value p) = .ok stmt) :
    ∃ i j value', (elaborate c value >>= decay) = .ok value' ∧
      stmt = .exprStmt i (.assign j l value') := by
  rw [Node.store, Node.ofExpr, elaborate] at h
  obtain ⟨e, he, h⟩ := bind_eq_ok h
  obtain ⟨e', he', h⟩ := bind_eq_ok h
  obtain ⟨u, -, h⟩ := bind_eq_ok h
  cases h
  obtain ⟨j, value', hvalue, rfl⟩ := exists_of_elaborate_assign hl he
  -- An assignment denotes no object, so it is not taken for an array.
  rcases (yields_decay_cases _).of_ok he' with rfl | ⟨hr, -⟩
  · exact ⟨_, j, value', hvalue, rfl⟩
  · cases hr

/-- The expression selects a part of the target, and the part is where the path leads to. -/
structure PartOf (c : Context) (target e : Node) (path : List Selector) (n : Node) (t : CType)
    (k : Nat) :
    Prop where
  selects : target.Selects path n
  behind : Behind c e n t k

theorem PartOf.element {base : CType} {len : Option Nat} {size : Nat}
    (h : PartOf c target e path n (.array base len size) k) (hv : base.isVoid = false)
    (p : Location)
    (i : Nat) : PartOf c target e (path ++ [.element i]) (n.element i p) base (k + base.size * i) :=
  ⟨h.selects.element i p, h.behind.element hv i p⟩

theorem PartOf.members {id size : Nat} {tag : Option String} {fields : List (String × CType)}
    {l : Layout CType} (h : PartOf c target e path n (.struct l size) k)
    (hl : Layout.ofFields id tag fields = .ok l) (p : Location) :
    ∀ m ∈ Layout.pack 0 fields,
      PartOf c target e (path ++ [.member m.name]) (n.access m.name p) m.type (k + m.offset) := by
  intro m hm
  rw [← CType.members_ofFields hl] at hm
  exact ⟨h.selects.member m.name p, h.behind.member (CType.member?_of_mem hl hm) p⟩

/-- The statement assigns to the scalar of the target, and its typed form writes a value of the type
of the scalar at the distance of the scalar. -/
def StoresAt (c : Context) (target e : Node) (leaf : Leaf) (stmt : Node) : Prop :=
  ∃ n value p, stmt = n.store value p ∧ PartOf c target e leaf.path n leaf.type leaf.offset ∧
    ∀ stmt', elaborate c stmt = .ok stmt' → ∃ value', (elaborate c value >>= decay) = .ok value' ∧
      ∀ {σ : Type} {o : Objects σ Machine.Word}, o.Bytewise → ∀ {rounds s a s'},
        object o rounds e s = some (.ok a, s') →
        perform o rounds stmt' s =
          (eval o rounds value' >>= o.write (some leaf.type) (a + BitVec.ofNat 64 leaf.offset)) s'

/-- An assignment to a part of the target stores in that part. -/
theorem PartOf.storesAt (h : PartOf c target e path n t k) (value : Node) (p : Location) :
    StoresAt c target e ⟨path, t, k⟩ (n.store value p) := by
  refine ⟨n, value, p, rfl, h, fun stmt' hstmt => ?_⟩
  obtain ⟨l, hl, -, htype, hobject⟩ := h.behind
  obtain ⟨i, j, value', hvalue, rfl⟩ := exists_of_elaborate_store hl hstmt
  refine ⟨value', hvalue, ?_⟩
  intro σ o ho rounds s a s' ha
  rw [perform, eval, bind_assoc, Run.bind_of_ok (hobject ho ha), htype]
  simp only [bind_assoc, pure_bind, bind_pure_unit]

theorem PartOf.storesScalar (h : PartOf c target e path n t k)
    (ht : (t.isArray || t.isStruct) = false) (value : Node) (p : Location) :
    List.Forall₂ (StoresAt c target e) (t.leaves path k) [n.store value p] := by
  rw [CType.leaves_of_scalar ht]
  exact .cons (h.storesAt value p) .nil

theorem storesAt_clearMembers {p : Location} {members : List (Member CType)}
    (h : ∀ m ∈ members, List.Forall₂ (StoresAt c target e)
      (m.type.leaves (path ++ [.member m.name]) (k + m.offset))
      ((n.access m.name p).clear m.type)) :
    List.Forall₂ (StoresAt c target e) (CType.memberLeaves path k members)
      (n.clearMembers p members) := by
  induction members with
  | nil =>
    rw [CType.memberLeaves, Node.clearMembers]
    exact .nil
  | cons m members ih =>
    obtain ⟨hfirst, hrest⟩ := List.forall_mem_cons.mp h
    rw [CType.memberLeaves_cons, Node.clearMembers]
    exact List.rel_append hfirst (ih hrest)

/-- Zeros are stored in the scalars of a part without an initializer. -/
theorem PartOf.clear (ht : t.Sound) (h : PartOf c target e path n t k) :
    List.Forall₂ (StoresAt c target e) (t.leaves path k) (n.clear t) := by
  induction ht generalizing n path k with
  | primitive | pointer =>
    rw [Node.clear]
    exact h.storesScalar rfl _ _
  | array _ hv ih =>
    rw [CType.leaves, Node.clear]
    exact Lists.forall₂_flatMap (fun i => ih (h.element hv _ i)) _
  | struct hl _ _ ih =>
    rw [CType.leaves_struct, Node.clear]
    refine storesAt_clearMembers fun m hm => ?_
    rw [CType.members_ofFields hl] at hm
    exact ih _ (CType.mem_pack hm) (h.members hl _ m hm)

def StoresIn (c : Context) (target e : Node) (leaves : List Leaf) (x : Parse (List Node)) : Prop :=
  ∀ s stores s', x s = .ok stores s' → List.Forall₂ (StoresAt c target e) leaves stores

theorem storesIn_pure {leaves : List Leaf} {stores : List Node}
    (h : List.Forall₂ (StoresAt c target e) leaves stores) :
    StoresIn c target e leaves (pure stores) := by
  rintro s _ s' ⟨⟩
  exact h

theorem storesIn_fault {leaves : List Leaf} {f : DeclarationFault} {p : Location} :
    StoresIn c target e leaves (Parse.declarationFault f p) := by
  rintro s stores s' ⟨⟩

theorem StoresIn.append {xs ys : List Leaf} {x y : Parse (List Node)}
    (hx : StoresIn c target e xs x) (hy : StoresIn c target e ys y) :
    StoresIn c target e (xs ++ ys) (do let front ← x; return front ++ (← y)) := by
  intro s stores s' h
  obtain ⟨front, s₁, hfront, h⟩ := Parse.exists_of_bind h
  obtain ⟨others, s₂, hothers, h⟩ := Parse.exists_of_bind h
  cases h
  exact List.rel_append (hx _ _ _ hfront) (hy _ _ _ hothers)

/-- One store for each element of an array of integers. -/
theorem storesAt_storeElements {base : CType} {p : Location} (hi : base.isInteger = true)
    (h : ∀ i, PartOf c target e (path ++ [.element i]) (n.element i p) base (k + base.size * i))
    (values : List Int64) (i : Nat) :
    List.Forall₂ (StoresAt c target e)
      ((List.range' i values.length).flatMap fun i =>
        base.leaves (path ++ [.element i]) (k + base.size * i))
      (values.mapIdx fun j v => (n.element (j + i) p).store (.literal v p) p) := by
  have hplain := CType.plain_of_scalar (t := base) (by rw [CType.isScalar, hi, Bool.true_or])
  induction values generalizing i with
  | nil => exact .nil
  | cons v values ih =>
    have hrest := ih (i + 1)
    rw [List.length_cons, List.range'_succ, List.flatMap_cons, List.mapIdx_cons,
      CType.leaves_of_scalar hplain, List.singleton_append]
    refine .cons ?_ ?_
    · rw [Nat.zero_add]
      exact (h i).storesAt _ _
    · simp only [Nat.add_assoc, Nat.add_comm 1 i]
      exact hrest

mutual

/-- The induction is on the initializer: what it leaves out is cleared behind what it gives. -/
theorem storesIn_stores (init : Initializer) (t : CType) (n : Node) (path : List Selector) (k : Nat)
    (ht : t.Sound) (h : PartOf c target e path n t k) :
    StoresIn c target e (t.leaves path k) (init.stores n t) :=
  match init with
  | .expr value => by
    cases t with
    | array | struct => exact storesIn_fault
    | primitive | pointer => exact storesIn_pure (h.storesScalar rfl _ _)
  | .str bytes p => by
    cases t with
    | array base len size =>
      rw [Initializer.stores]
      split
      · exact storesIn_fault
      · next hi =>
        split
        · exact storesIn_fault
        · next hlen =>
          rw [Bool.not_eq_true', Bool.not_eq_false] at hi
          have hcount := Initializer.length_padded (Nat.le_of_not_lt hlen)
          have hstores := storesAt_storeElements hi (h.element ht.element.2 p)
            (Initializer.padded (len.getD 0) (Initializer.terminated (len.getD 0) bytes)) 0
          rw [hcount, ← List.range_eq_range'] at hstores
          rw [CType.leaves]
          exact storesIn_pure hstores
    | struct => exact storesIn_fault
    | primitive | pointer =>
      intro s stores s' hs
      obtain ⟨id, s₁, -, hs⟩ := Parse.exists_of_bind hs
      cases hs
      exact h.storesScalar rfl _ _
  | .list items p => by
    cases t with
    | array base len size =>
      rw [Initializer.stores]
      split
      · exact storesIn_fault
      · next hlen =>
        obtain ⟨hb, hv⟩ := ht.element
        have hfit : items.length ≤ len.getD 0 := Nat.le_of_not_lt hlen
        have hfront := storesIn_elementStores items base n path k p 0 hb (h.element hv p)
        have hothers := Lists.forall₂_flatMap (fun i => PartOf.clear hb (h.element hv p i))
          (List.range' items.length (len.getD 0 - items.length))
        rw [CType.leaves, Lists.range_eq_append hfit, List.flatMap_append]
        exact hfront.append (storesIn_pure hothers)
    | struct l size =>
      rw [Initializer.stores]
      split
      · exact storesIn_fault
      · next hlen =>
        cases ht with
        | struct hl hf hv =>
          have hmembers := CType.members_ofFields hl
          rw [CType.leaves_struct]
          refine storesIn_memberStores items _ n path k p (Nat.le_of_not_lt hlen) ?_
          intro m hm
          rw [hmembers] at hm
          exact ⟨hf _ (CType.mem_pack hm), h.members hl p m hm⟩
    | primitive | pointer =>
      -- Braces around a scalar hold exactly one initializer.
      match items with
      | [] | _ :: _ :: _ => exact storesIn_fault
      | [item] => exact storesIn_stores item _ n path k ht h
termination_by structural init

/-- The stores of a list reach the scalars of its elements in order. -/
theorem storesIn_elementStores (items : List Initializer) (base : CType) (n : Node)
    (path : List Selector) (k : Nat) (p : Location) (i : Nat) (hb : base.Sound)
    (h : ∀ i, PartOf c target e (path ++ [.element i]) (n.element i p) base (k + base.size * i)) :
    StoresIn c target e
      ((List.range' i items.length).flatMap fun i =>
        base.leaves (path ++ [.element i]) (k + base.size * i))
      (Initializer.elementStores n base p i items) :=
  match items with
  | [] => storesIn_pure .nil
  | item :: items => by
    have hfirst := storesIn_stores item base _ _ _ hb (h i)
    have hrest := storesIn_elementStores items base n path k p (i + 1) hb h
    exact hfirst.append hrest
termination_by structural items

/-- The stores of a list reach the scalars of the members in order. -/
theorem storesIn_memberStores (items : List Initializer) (members : List (Member CType)) (n : Node)
    (path : List Selector) (k : Nat) (p : Location) (hlen : items.length ≤ members.length)
    (h : ∀ m ∈ members, m.type.Sound ∧
      PartOf c target e (path ++ [.member m.name]) (n.access m.name p) m.type (k + m.offset)) :
    StoresIn c target e (CType.memberLeaves path k members)
      (Initializer.memberStores n p members items) :=
  match items with
  | [] => storesIn_pure (storesAt_clearMembers fun m hm => (h m hm).2.clear (h m hm).1)
  | item :: items => by
    cases members with
    | nil => exact absurd hlen (Nat.not_succ_le_zero _)
    | cons m members =>
      obtain ⟨⟨hsound, hpart⟩, hmembers⟩ := List.forall_mem_cons.mp h
      have hfirst := storesIn_stores item m.type _ _ _ hsound hpart
      have hrest := storesIn_memberStores items members n path k p
        (Nat.le_of_succ_le_succ hlen) hmembers
      rw [CType.memberLeaves_cons]
      exact hfirst.append hrest
termination_by structural items

end

/-- The stores of an initializer assign to the scalars of the target one after the other, in the
order of the layout. The scalars are integers and pointers of a size that a store can have, and
each byte of the target belongs to exactly one of them. -/
theorem stores_leaves (ht : t.Sound) (hv : t.isVoid = false) (he : elaborate c target = .ok e)
    (hr : e.isReferable = true) (hte : e.type? = some t) {init : Initializer} {s s' : ParseState}
    {stores : List Node} (h : init.stores target t s = .ok stores s') :
    List.Forall₂ (StoresAt c target e) (t.leaves [] 0) stores ∧
      (∀ leaf ∈ t.leaves [] 0, leaf.type.isScalar = true ∧
        ∃ w, Width.ofBytes? leaf.type.size = some w ∧ w.bytes = leaf.type.size) ∧
      Tiles 0 (t.leaves [] 0) t.size ∧
      ∀ b < t.size, ∃! i : Nat, ∃ leaf, (t.leaves [] 0)[i]? = some leaf ∧ leaf.Covers b := by
  have htiles := ht.tiles [] 0
  rw [Nat.zero_add] at htiles
  have hself : PartOf c target e [] target t 0 := ⟨.self, behind_self he hr hte⟩
  refine ⟨storesIn_stores init t target [] 0 ht hself s stores s' h, fun leaf hleaf => ?_, htiles,
    fun b hb => htiles.existsUnique (Nat.zero_le b) hb⟩
  obtain ⟨hsound, hscalar⟩ := ht.of_mem_leaves hv hleaf
  obtain ⟨w, hw⟩ := hsound.width (CType.plain_of_scalar hscalar)
  exact ⟨hscalar, w, hw, Memory.bytes_of_ofBytes? hw⟩

def shelfSource : String :=
  "struct \x7b char tag[3]; struct \x7b short a; int *p; \x7d in[2]; long n; \x7d shelf;"

def shelfStart : Initializer :=
  .list [.str [0x61, 0x62] {}, .list [.list [.expr (.literal 1 {})] {}] {}] {}

def shelfChecks (p : Program) : Bool :=
  (p.var? 0).any fun x =>
    !x.type.isVoid && (x.type.leaves [] 0).map (fun leaf => (leaf.offset, leaf.type.size)) ==
        [(0, 1), (1, 1), (2, 1), (3, 2), (5, 8), (13, 2), (15, 8), (23, 8)] &&
      match shelfStart.stores (.var {} 0) x.type default with
      | .ok _ _ => true
      | .error _ _ => false

/-- Three characters, two pairs of a number and a pointer, and a number: eight stores. -/
theorem stores_leaves_shelf :
    ∃ p x stores s, parse shelfSource = .ok p ∧ p.var? 0 = some x ∧
      shelfStart.stores (.var {} 0) x.type default = .ok stores s ∧ stores.length = 8 ∧
      (x.type.leaves [] 0).map (fun leaf => (leaf.offset, leaf.type.size)) =
        [(0, 1), (1, 1), (2, 1), (3, 2), (5, 8), (13, 2), (15, 8), (23, 8)] ∧
      List.Forall₂ (StoresAt ⟨p, .void⟩ (.var {} 0) (.var (.typed {} x.type) 0))
      (x.type.leaves [] 0)
        stores := by
  have hcheck : (parse shelfSource).toOption.any shelfChecks = true := by decide +kernel
  obtain ⟨p, hp, hchecks⟩ := exists_of_any hcheck
  obtain ⟨x, hx, hshelf⟩ := (Option.any_eq_true _ _).mp hchecks
  simp only [Bool.and_eq_true, Bool.not_eq_true', beq_iff_eq] at hshelf
  obtain ⟨⟨hv, hleaves⟩, hstores⟩ := hshelf
  split at hstores
  case h_2 => cases hstores
  next stores s hs =>
  have hsound : x.type.Sound := by
    rcases parse_cases shelfSource with ⟨q, hq, hvalid⟩ | ⟨e, he, -⟩
    · cases hq.symm.trans hp
      exact hvalid.types 0 x hx
    · cases he.symm.trans hp
  have he : elaborate ⟨p, .void⟩ (.var {} 0) = .ok (.var (.typed {} x.type) 0) := by
    rw [elaborate, hx]
  obtain ⟨hassigns, -, -, -⟩ := stores_leaves hsound hv he rfl rfl hs
  have hlength : stores.length = 8 := by
    rw [← hassigns.length_eq, ← List.length_map
      (fun leaf : Leaf => (leaf.offset, leaf.type.size)), hleaves]
    rfl
  exact ⟨p, x, stores, s, hp, hx, hs, hlength, hleaves, hassigns⟩

end Semantics

end StackC
