import StackC.Proofs.Initializer.Length
import StackC.Proofs.Machine.Memory

namespace StackC

theorem littleEndian_zero {n : Nat} (h : n ≤ 8) : littleEndian n 0 = Initializer.zeros n := by
  have hzero (i : Nat) : ((0 : Int64).toUInt64 >>> (8 * i).toUInt64).toUInt8 = 0 := by
    have hword : (0 : Int64).toUInt64 = 0 := rfl
    rw [hword, UInt64.zero_shiftRight]
    rfl
  unfold littleEndian Initializer.zeros
  simp only [hzero, Nat.min_eq_left h, List.map_const', List.length_range]

/-- The bytes of a word are found by shifting it. -/
theorem toBitVec_byte (v : Int64) {k : Nat} (h : k < 8) :
    (v.toUInt64 >>> (8 * k).toUInt64).toUInt8.toBitVec = (v.toBitVec >>> (8 * k)).setWidth 8 := by
  have hshift : ((8 * k).toUInt64.toBitVec % 64).toNat = 8 * k := by
    have hsixtyFour : (64 : BitVec 64).toNat = 64 := rfl
    rw [Nat.toUInt64_eq, UInt64.toBitVec_ofNat', BitVec.toNat_umod, BitVec.toNat_ofNat, hsixtyFour]
    omega
  rw [UInt64.toBitVec_toUInt8, UInt64.toBitVec_shiftRight, BitVec.ushiftRight_eq', hshift]
  rfl

namespace Machine

open Assembly

def addresses : Nat := 0x10000000000000000

namespace Memory

def fill (m : Memory) (a : Word) (bytes : List UInt8) : Memory := fun x =>
  match bytes[(x - a).toNat]? with
  | some b => b.toBitVec
  | none => m x

variable {m : Memory} {a x : Word} {as bs : List UInt8}

/-- The distance of an address from a later one. Addresses behind the last come again. -/
theorem distance_add {n : Nat} (h : n < addresses) :
    (x - (a + BitVec.ofNat 64 n)).toNat =
      if n ≤ (x - a).toNat then (x - a).toNat - n else (x - a).toNat + addresses - n := by
  have hlt := (x - a).isLt
  unfold addresses at h ⊢
  rw [← BitVec.sub_sub, BitVec.toNat_sub (x - a), BitVec.toNat_ofNat]
  split <;> omega

/-- Filling two adjacent ranges is filling both at once. -/
theorem fill_append (h : as.length + bs.length < addresses) :
    (m.fill a as).fill (a + BitVec.ofNat 64 as.length) bs = m.fill a (as ++ bs) := by
  funext x
  unfold fill
  rw [distance_add (by omega)]
  by_cases hle : as.length ≤ (x - a).toNat
  · rw [if_pos hle, List.getElem?_append_right hle, List.getElem?_eq_none hle]
  · -- The address is one of the first bytes, so it is far behind the last ones.
    have hfar : bs.length ≤ (x - a).toNat + addresses - as.length := by omega
    rw [if_neg hle, List.getElem?_append_left (Nat.lt_of_not_le hle), List.getElem?_eq_none hfar]

/-- A store writes the low bytes of a word. -/
theorem store_eq_fill (m : Memory) (w : Width) (a : Word) (v : Int64) :
    m.store w a v.toBitVec = m.fill a (littleEndian w.bytes v) := by
  funext x
  have hle := width_bytes_le w
  unfold store fill
  split
  · next hlt =>
    have hget : (littleEndian w.bytes v)[(x - a).toNat]? =
        some (v.toUInt64 >>> (8 * (x - a).toNat).toUInt64).toUInt8 := by
      rw [littleEndian, List.getElem?_map, List.getElem?_range (by omega)]
      rfl
    rw [hget]
    exact (toBitVec_byte v (by omega)).symm
  · next hge =>
    rw [List.getElem?_eq_none (by rw [length_littleEndian]; omega)]

end Memory

end Machine

end StackC
