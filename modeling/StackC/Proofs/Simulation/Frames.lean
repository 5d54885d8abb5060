import StackC.Proofs.Emission.Functions
import StackC.Proofs.Program.Frame
import StackC.Proofs.Program.Valid
import StackC.Proofs.Simulation.Fragments

namespace StackC

open Assembly Machine

def Function.width? (p : Program) (f : Function) (id : VarId) : Option Width :=
  if id ∈ f.locals then
    match p.vars[id]? with
    | some x => if x.type.isScalar then Width.ofBytes? x.type.size else none
    | none => none
  else none

namespace Semantics

abbrev Store := VarId → Word

def Store.set (s : Store) (id : VarId) (v : Word) : Store := fun x => if x = id then v else s x

def scalars (p : Program) (f : Function) : Objects Store VarId where
  named id := (f.width? p id).map fun _ => id
  pointee _ := none
  member _ _ := none
  address _ := none
  load w id s := if f.width? p id = some w then some (s id) else none
  store w id v s := if f.width? p id = some w then some (s.set id (narrow w v)) else none
  call _ _ _ := none

end Semantics

namespace Simulation

open Emission Semantics

/-- How many bytes lie between an address and the stack pointer at the entry of the function, whose
base pointer was saved right below. -/
def Setting.depth (K : Setting) (x : Word) : Nat := (K.frame + 7 - x).toNat

/-- Below the saved base pointer lies a frame of the given size, and below the frame the operand
stack. Together they fit the address space. -/
structure Framed (K : Setting) (size : Nat) : Prop where
  base : K.base = K.frame - BitVec.ofNat 64 size
  fits : 8 + size + K.room < 0x10000000000000000

namespace Framed

variable {K : Setting} {size k : Nat} {x v : Word} {m : Memory} {w : Width}

/-- Operands lie below the frame. -/
theorem own_iff (h : Framed K size) :
    K.Own x ↔ 8 + size ≤ K.depth x ∧ K.depth x < 8 + size + K.room := by
  have hbase := h.base
  have hfits := h.fits
  -- Both distances are taken modulo the size of the address space; `hfits` keeps them from
  -- wrapping.
  unfold Setting.Own Setting.below Setting.depth
  rw [hbase]
  constructor
  · intro hx
    bv_omega
  · intro hx
    bv_omega

/-- The bytes from an offset of the frame on. -/
theorem depth_local (h : Framed K size) (hk : k ≤ size) {j : Nat} (hj : j < 8) (hjk : j < 8 + k) :
    K.depth (K.frame - BitVec.ofNat 64 k + BitVec.ofNat 64 j) = 7 + k - j := by
  have hfits := h.fits
  unfold Setting.depth
  bv_omega

/-- A store to a local changes only bytes of the local. -/
theorem store_local (h : Framed K size) (hk : k ≤ size) (hw : w.bytes ≤ k)
    (hx : K.depth x < 8 + k - w.bytes ∨ 8 + k ≤ K.depth x) :
    m.store w (K.frame - BitVec.ofNat 64 k) v x = m x := by
  have hfits := h.fits
  have hle := Memory.width_bytes_le w
  apply Memory.store_of_le
  unfold Setting.depth at hx
  generalize w.bytes = b at *
  bv_omega

/-- Saving the base pointer changes nothing below. -/
theorem store_saved (hx : 8 ≤ K.depth x) : m.store .quad K.frame v x = m x := by
  apply Memory.store_of_le
  unfold Setting.depth at hx
  simp only [Width.bytes]
  bv_omega

end Framed

theorem bytes_of_width? {p : Program} {f : Function} {id : VarId} {w : Width}
    (h : f.width? p id = some w) : id ∈ f.locals ∧ w.bytes = Frame.varSize p.vars id := by
  unfold Function.width? at h
  obtain ⟨hid, h⟩ := Option.ite_none_right_eq_some.mp h
  refine ⟨hid, ?_⟩
  unfold Frame.varSize
  cases hx : p.vars[id]? with
  | none =>
    rw [hx] at h
    exact nomatch h
  | some x =>
    rw [hx] at h
    obtain ⟨-, hw⟩ := Option.ite_none_right_eq_some.mp h
    exact Memory.bytes_of_ofBytes? hw

abbrev frameOf (p : Program) (f : Function) : Frame := .ofLocals p.vars f.locals

def Setting.slotOf (K : Setting) (p : Program) (f : Function) (id : VarId) : Word :=
  K.frame - BitVec.ofNat 64 (((frameOf p f).offset? id).getD 0)

variable {K : Setting} {p : Program} {f : Function} {id id' : VarId} {w w' : Width} {x v : Word}
  {m m' : Memory}

/-- Every scalar local lies within the frame. -/
theorem exists_slot (hw : f.width? p id = some w) :
    ∃ k, (frameOf p f).offset? id = some k ∧ w.bytes ≤ k ∧ k ≤ (frameOf p f).size ∧
      K.slotOf p f id = K.frame - BitVec.ofNat 64 k := by
  obtain ⟨hid, hbytes⟩ := bytes_of_width? hw
  obtain ⟨k, hk⟩ := Frame.offset?_isSome p.vars hid
  refine ⟨k, hk, ?_, Frame.offset?_le_size hk, ?_⟩
  · rw [hbytes]
    exact Frame.varSize_le_offset? hk
  · unfold Setting.slotOf
    rw [hk]
    rfl

/-- Locals lie between the saved base pointer and the operand stack. -/
theorem Framed.depth_slotOf (h : Framed K (frameOf p f).size)
    (hw : f.width? p id = some w) {j : Nat} (hj : j < w.bytes) :
    8 ≤ K.depth (K.slotOf p f id + BitVec.ofNat 64 j) ∧
      K.depth (K.slotOf p f id + BitVec.ofNat 64 j) < 8 + (frameOf p f).size := by
  obtain ⟨k, -, hlow, hhigh, hslot⟩ := exists_slot (K := K) hw
  have hle := Memory.width_bytes_le w
  rw [hslot, h.depth_local hhigh (by omega) (by omega)]
  omega

theorem Framed.depth_saved (h : Framed K (frameOf p f).size) {j : Nat} (hj : j < 8) :
    K.depth (K.frame + BitVec.ofNat 64 j) < 8 := by
  have hd := h.depth_local (Nat.zero_le _) hj (by omega)
  rw [BitVec.sub_zero] at hd
  omega

/-- A store to a local leaves the saved base pointer, the operand stack and all memory outside of
the stack of the function alone. -/
theorem Framed.store_slotOf (h : Framed K (frameOf p f).size) (hw : f.width? p id = some w)
    (hx : K.depth x < 8 ∨ 8 + (frameOf p f).size ≤ K.depth x) :
    m.store w (K.slotOf p f id) v x = m x := by
  obtain ⟨k, -, hlow, hhigh, hslot⟩ := exists_slot (K := K) hw
  rw [hslot]
  apply h.store_local hhigh hlow
  omega

/-- A store to a local leaves the other locals alone. -/
theorem Framed.load_store_other (h : Framed K (frameOf p f).size) (hw : f.width? p id = some w)
    (hw' : f.width? p id' = some w') (hne : id ≠ id') :
    (m.store w (K.slotOf p f id) v).load w' (K.slotOf p f id') = m.load w' (K.slotOf p f id') := by
  obtain ⟨k, hk, hlow, hhigh, hslot⟩ := exists_slot (K := K) hw
  obtain ⟨k', hk', hlow', hhigh', hslot'⟩ := exists_slot (K := K) hw'
  have hle := Memory.width_bytes_le w'
  have hsep := Frame.offset?_apart hk hk' hne
  rw [← (bytes_of_width? hw).2, ← (bytes_of_width? hw').2] at hsep
  apply Memory.load_congr
  intro j hj
  rw [hslot, hslot']
  apply h.store_local hhigh hlow
  rw [h.depth_local hhigh' (by omega) (by omega)]
  omega

/-- The frame of a function that was entered in the state `entry`: scalar locals have their values
in the store, the base pointer of the caller is saved, and memory outside of the stack of the
function is as it was. -/
structure InFrame (K : Setting) (p : Program) (f : Function) (entry : State) (s : Store)
    (m : Memory) : Prop where
  locals : ∀ id w, f.width? p id = some w → m.load w (K.slotOf p f id) = s id
  saved : m.load .quad K.frame = entry.regs .rbp
  rest : ∀ x, 8 + (frameOf p f).size + K.room ≤ K.depth x → m x = entry.mem x

namespace InFrame

variable {entry : State} {s : Store}

/-- Operands are no part of the frame. -/
theorem apart (h : Framed K (frameOf p f).size) : Apart K (InFrame K p f entry) := by
  intro s m m' hm hout
  have hsame (x : Word) (hx : K.depth x < 8 + (frameOf p f).size ∨
      8 + (frameOf p f).size + K.room ≤ K.depth x) : m' x = m x := by
    apply hout
    rw [h.own_iff]
    omega
  refine ⟨fun id w hw => ?_, ?_, fun x hx => ?_⟩
  · rw [← hm.locals id w hw]
    exact Memory.load_congr fun j hj => hsame _ (.inl (h.depth_slotOf hw hj).2)
  · rw [← hm.saved]
    refine Memory.load_congr fun j hj => hsame _ (.inl ?_)
    exact Nat.lt_of_lt_of_le (h.depth_saved hj) (Nat.le_add_right _ _)
  · rw [← hm.rest x hx]
    exact hsame x (.inr hx)

/-- A store to a scalar local changes the word of this local only. -/
theorem store (hm : InFrame K p f entry s m) (h : Framed K (frameOf p f).size)
    (hw : f.width? p id = some w) (v : Word) :
    InFrame K p f entry (s.set id (narrow w v)) (m.store w (K.slotOf p f id) v) := by
  refine ⟨fun id' w' hw' => ?_, ?_, fun x hx => ?_⟩
  · by_cases hne : id' = id
    · subst hne
      cases hw.symm.trans hw'
      rw [Memory.load_store_same, Store.set, if_pos rfl]
    · rw [h.load_store_other hw hw' (Ne.symm hne), hm.locals id' w' hw', Store.set, if_neg hne]
  · rw [← hm.saved]
    exact Memory.load_congr fun j hj => h.store_slotOf hw (.inl (h.depth_saved hj))
  · rw [← hm.rest x hx]
    exact h.store_slotOf hw (.inr (Nat.le_trans (Nat.le_add_right _ _) hx))

end InFrame

/-- The frame of a function represents its scalar locals. -/
theorem represents_scalars {body : Node} (hd : f.Defined p body) (h : Framed K (frameOf p f).size)
    {entry : State} : Represents K (.ofFunction p f) (scalars p f) (InFrame K p f entry)
      (K.slotOf p f) where
  apart := InFrame.apart h
  named id r lea hn hl := by
    obtain ⟨w, hw, rfl⟩ := Option.map_eq_some_iff.mp hn
    cases hl with
    | @onFrame x k hv hlocal hk =>
      have hk : (frameOf p f).offset? id = some k := hk
      rw [Setting.slotOf, hk]
      rfl
    | inData hv hglobal =>
      -- Locals do not lie in the section of data.
      obtain ⟨x, hx, hlocal⟩ := hd.locals id (bytes_of_width? hw).1
      cases hx.symm.trans hv
      exact nomatch hlocal.symm.trans hglobal
  pointee a r hp := nomatch hp
  member r k r' hm := nomatch hm
  address r a ha := nomatch ha
  load s m w id v hm hl := by
    obtain ⟨hw, hv⟩ := Option.ite_none_right_eq_some.mp hl
    cases hv
    exact hm.locals id w hw
  store s m w id v s' hm hs := by
    obtain ⟨hw, hs⟩ := Option.ite_none_right_eq_some.mp hs
    cases hs
    refine ⟨hm.store h hw v, fun x hx => h.store_slotOf hw (.inr ?_)⟩
    exact (h.own_iff.mp hx).1
  call name args s st v s' n _ hc := nomatch hc

end Simulation

end StackC
