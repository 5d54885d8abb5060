import StackC.Proofs.Machine.Run
import StackC.Proofs.Semantics.Interpreter

namespace StackC

namespace Machine

open Assembly Semantics

theorem setWidth_merge_byte (old v : Word) : (merge .byte old v).setWidth 8 = v.setWidth 8 := by
  apply BitVec.eq_of_getLsbD_eq
  intro i hi
  simp [merge, hi]

/-- A flag that is set in the low byte of a register and extended to all of it. -/
theorem extended_flag (old : Word) (b : Bool) :
    ((merge .byte old (if b then 1 else 0)).setWidth 8).setWidth 64 = bit b := by
  rw [setWidth_merge_byte]
  cases b <;> rfl

/-- The sign of a word before the word itself makes the same number in two words. -/
theorem toInt_sign_append (a : Word) : (a.sshiftRight 63 ++ a).toInt = a.toInt := by
  have hsign : (a.sshiftRight 63).toInt = a.toInt / 2 ^ 63 := by
    rw [BitVec.toInt_sshiftRight, Int.shiftRight_eq_div_pow]
    rfl
  have ha := BitVec.toInt_eq_toNat_cond a
  have hlt := a.isLt
  rw [BitVec.toInt_append, hsign]
  simp only [Nat.reduceBEq, Bool.false_eq_true, if_false]
  split at ha <;> omega

/-- A quotient is a word unless the smallest number is divided by minus one. -/
theorem ofInt_tdiv {a b : Word} (h : ¬(a = BitVec.intMin 64 ∧ b = -1)) :
    (BitVec.ofInt 64 (a.toInt.tdiv b.toInt)).toInt = a.toInt.tdiv b.toInt ∧
      BitVec.ofInt 64 (a.toInt.tdiv b.toInt) = a.sdiv b := by
  have hq : (a.sdiv b).toInt = a.toInt.tdiv b.toInt := by
    apply BitVec.toInt_sdiv_of_ne_or_ne
    by_cases ha : a = BitVec.intMin 64
    · exact .inr fun hb => h ⟨ha, hb⟩
    · exact .inl ha
  rw [← hq, BitVec.ofInt_toInt]
  exact ⟨rfl, rfl⟩

/-- The division of a sign-extended word. -/
theorem divide_sign (a b : Word) : divide (a.sshiftRight 63) a b =
    if b = 0 ∨ a = BitVec.intMin 64 ∧ b = -1 then none else some (a.sdiv b, a.srem b) := by
  unfold divide
  simp only [toInt_sign_append]
  by_cases hb : b = 0
  · simp [hb]
  · by_cases ho : a = BitVec.intMin 64 ∧ b = -1
    · obtain ⟨rfl, rfl⟩ := ho
      decide
    · obtain ⟨hq, hs⟩ := ofInt_tdiv ho
      have hr : BitVec.ofInt 64 (a.toInt.tmod b.toInt) = a.srem b := by
        rw [← BitVec.toInt_srem, BitVec.ofInt_toInt]
      have hfits : ¬(b = 0 ∨ a.toInt.tdiv b.toInt ≠
          (BitVec.ofInt 64 (a.toInt.tdiv b.toInt)).toInt) := fun h => h.elim hb fun h => h hq.symm
      rw [if_neg hfits, if_neg fun h => h.elim hb ho, hs, hr]

end Machine

end StackC
