import Mathlib.Algebra.Ring.Nat
import StackC.Assembly.Basic

namespace StackC

namespace Machine

open Assembly

abbrev Word := BitVec 64

def narrow (w : Width) (v : Word) : Word := (v.setWidth (8 * w.bytes)).signExtend 64

abbrev Memory := Word → BitVec 8

namespace Memory

def number (m : Memory) (a : Word) : Nat → Nat
  | 0 => 0
  | n + 1 => (m a).toNat + 256 * m.number (a + 1) n

def load (m : Memory) (w : Width) (a : Word) : Word :=
  (BitVec.ofNat (8 * w.bytes) (m.number a w.bytes)).signExtend 64

def store (m : Memory) (w : Width) (a v : Word) : Memory := fun x =>
  if (x - a).toNat < w.bytes then (v >>> (8 * (x - a).toNat)).setWidth 8 else m x

variable {m m' : Memory} {w : Width} {a v x : Word}

theorem width_bytes_le (w : Width) : w.bytes ≤ 8 := by
  cases w <;> decide

theorem bytes_of_ofBytes? {n : Nat} (h : Width.ofBytes? n = some w) : w.bytes = n := by
  unfold Width.ofBytes? at h
  split at h <;> cases h <;> rfl

theorem toNat_add_sub {k : Nat} (h : k < 8) : (a + BitVec.ofNat 64 k - a).toNat = k := by
  rw [BitVec.add_comm, BitVec.add_sub_cancel, BitVec.toNat_ofNat]
  omega

theorem exists_offset {n : Nat} (h : (x - a).toNat < n) : ∃ k < n, x = a + BitVec.ofNat 64 k := by
  refine ⟨(x - a).toNat, h, ?_⟩
  have hx : BitVec.ofNat 64 (x - a).toNat = x - a := by
    apply BitVec.eq_of_toNat_eq
    rw [BitVec.toNat_ofNat, Nat.mod_eq_of_lt (x - a).isLt]
  rw [hx, BitVec.add_comm, BitVec.sub_add_cancel]

theorem store_of_le (h : w.bytes ≤ (x - a).toNat) : m.store w a v x = m x :=
  if_neg (Nat.not_lt.mpr h)

/-- A store writes the bytes of the word, lowest first. -/
theorem store_byte {k : Nat} (h : k < w.bytes) :
    (m.store w a v) (a + BitVec.ofNat 64 k) = (v >>> (8 * k)).setWidth 8 := by
  have hk : (a + BitVec.ofNat 64 k - a).toNat = k :=
    toNat_add_sub (Nat.lt_of_lt_of_le h (width_bytes_le w))
  unfold store
  rw [hk, if_pos h]

/-- What a store writes does not depend on the memory. -/
theorem store_congr (h : m x = m' x) : m.store w a v x = m'.store w a v x := by
  unfold store
  split
  · rfl
  · exact h

/-- The number that bytes spell depends on these bytes only. -/
theorem number_congr {n : Nat}
    (h : ∀ k < n, m (a + BitVec.ofNat 64 k) = m' (a + BitVec.ofNat 64 k)) :
    m.number a n = m'.number a n := by
  induction n generalizing a with
  | zero => rfl
  | succ n ih =>
    have hfirst : m a = m' a := by simpa using h 0 (Nat.succ_pos n)
    have hrest : m.number (a + 1) n = m'.number (a + 1) n := by
      apply ih
      intro k hk
      have hs := h (k + 1) (Nat.succ_lt_succ hk)
      rwa [Nat.add_comm k 1, BitVec.ofNat_add, ← BitVec.add_assoc] at hs
    rw [number, number, hfirst, hrest]

theorem load_congr (h : ∀ k < w.bytes, m (a + BitVec.ofNat 64 k) = m' (a + BitVec.ofNat 64 k)) :
    m.load w a = m'.load w a := by
  unfold load
  rw [number_congr h]

/-- The bytes that a store has written from the one with number `k` on. -/
theorem number_store {k n : Nat} (h : k + n ≤ w.bytes) :
    (m.store w a v).number (a + BitVec.ofNat 64 k) n = v.toNat / 256 ^ k % 256 ^ n := by
  induction n generalizing k with
  | zero => rw [number, Nat.pow_zero, Nat.mod_one]
  | succ n ih =>
    have hbyte : ((m.store w a v) (a + BitVec.ofNat 64 k)).toNat = v.toNat / 256 ^ k % 256 := by
      rw [store_byte (by omega), BitVec.toNat_setWidth, BitVec.toNat_ushiftRight,
        Nat.shiftRight_eq_div_pow, Nat.pow_mul]
    have hnext : a + BitVec.ofNat 64 k + 1 = a + BitVec.ofNat 64 (k + 1) := by
      rw [BitVec.ofNat_add, ← BitVec.add_assoc]
      rfl
    have hrest : v.toNat / 256 ^ (k + 1) = v.toNat / 256 ^ k / 256 := by
      rw [Nat.div_div_eq_div_mul, Nat.pow_succ]
    rw [number, hbyte, hnext, ih (by omega), hrest, Nat.pow_succ, Nat.mul_comm (256 ^ n),
      Nat.mod_mul]

/-- What is loaded behind a store is the part that was stored. -/
theorem load_store_same : (m.store w a v).load w a = narrow w v := by
  have hn : (m.store w a v).number a w.bytes = v.toNat % 256 ^ w.bytes := by
    have h := number_store (m := m) (w := w) (a := a) (v := v) (k := 0) (n := w.bytes) (by omega)
    simpa using h
  unfold load narrow
  rw [hn]
  congr 1
  apply BitVec.eq_of_toNat_eq
  rw [BitVec.toNat_ofNat, BitVec.toNat_setWidth, Nat.pow_mul]
  exact Nat.mod_mod _ _

theorem narrow_quad (v : Word) : narrow .quad v = v := by
  simp [narrow, Width.bytes]

end Memory

end Machine

end StackC
