import Mathlib.Tactic

/-! The bits of a byte: reading one by shift and mask, setting and clearing one,
and extensionality. -/

namespace ByteBits

theorem get_eq_testBit (x : UInt8) {j : ℕ} (hj : j < 8) :
    ((x >>> UInt8.ofNat j) &&& 1 == 1) = x.toNat.testBit j := by
  rw [Bool.eq_iff_iff, beq_iff_eq, ← UInt8.toNat_inj]
  simp [Nat.testBit, Nat.and_comm, Nat.mod_eq_of_lt hj]

theorem testBit_mask {j k : ℕ} (hj : j < 8) (hk : k < 8) :
    ((1 : UInt8) <<< UInt8.ofNat j).toNat.testBit k = (k == j) := by
  have hmod : (UInt8.ofNat j).toNat % 8 = j := by
    rw [UInt8.toNat_ofNat']
    omega
  rw [UInt8.toNat_shiftLeft, hmod, Nat.testBit_mod_two_pow, UInt8.toNat_one, Nat.one_shiftLeft,
    Nat.testBit_two_pow, decide_eq_true hk, Bool.true_and, Bool.eq_iff_iff,
    decide_eq_true_eq, beq_iff_eq]
  exact eq_comm

theorem testBit_set (x : UInt8) {j k : ℕ} (hj : j < 8) (hk : k < 8) :
    (x ||| (1 <<< UInt8.ofNat j)).toNat.testBit k = (x.toNat.testBit k || k == j) := by
  rw [UInt8.toNat_or, Nat.testBit_or, testBit_mask hj hk]

theorem testBit_clear (x : UInt8) {j k : ℕ} (hj : j < 8) (hk : k < 8) :
    (x &&& ~~~(1 <<< UInt8.ofNat j)).toNat.testBit k = (x.toNat.testBit k && !(k == j)) := by
  have hnot : (~~~((1 : UInt8) <<< UInt8.ofNat j)).toNat.testBit k = !(k == j) := by
    rw [← testBit_mask hj hk, ← UInt8.toNat_toBitVec, ← UInt8.toNat_toBitVec, UInt8.toBitVec_not,
      BitVec.testBit_toNat, BitVec.testBit_toNat, BitVec.getLsbD_not]
    simp [hk]
  rw [UInt8.toNat_and, Nat.testBit_and, hnot]

theorem ext {x y : UInt8} (h : ∀ j < 8, x.toNat.testBit j = y.toNat.testBit j) : x = y := by
  rw [← UInt8.toNat_inj]
  apply Nat.eq_of_testBit_eq
  intro i
  by_cases hi : i < 8
  · exact h i hi
  · have high : ∀ z : UInt8, z.toNat.testBit i = false := fun z =>
      Nat.testBit_lt_two_pow (lt_of_lt_of_le z.toNat_lt
        (Nat.pow_le_pow_right (by norm_num) (by omega)))
    rw [high, high]

theorem testBit_ones {j : ℕ} (hj : j < 8) : (0xFF : UInt8).toNat.testBit j = true := by
  interval_cases j <;> rfl

end ByteBits
