import Mathlib.Data.BitVec

/-!
# Rounding up to an alignment

A number rounded up to a multiple of another, and the mask by which C rounds an address
up to a power of two. The mask computes the rounded number modulo the size of a word,
also where the addition in front of it wraps (`round_toNat`): the power of two divides
`2 ^ w`, so nothing is lost but the whole.
-/

namespace MicroRosDemos.Lib

/-- `x` rounded up to a multiple of `a`. -/
def alignUp (x a : Nat) : Nat := (x + (a - 1)) / a * a

variable {x a k w : Nat}

@[simp] theorem alignUp_one (x : Nat) : alignUp x 1 = x := by
  rw [alignUp, Nat.sub_self, Nat.add_zero, Nat.div_one, Nat.mul_one]

theorem dvd_alignUp (x a : Nat) : a ∣ alignUp x a := Nat.dvd_mul_left _ _

theorem le_alignUp (ha : 0 < a) : x ≤ alignUp x a := by
  have hsplit := Nat.div_add_mod' (x + (a - 1)) a
  have hrest := Nat.mod_lt (x + (a - 1)) ha
  unfold alignUp
  omega

/-- Rounding up skips less than the alignment. -/
theorem alignUp_le_add (x a : Nat) : alignUp x a ≤ x + (a - 1) := Nat.div_mul_le_self _ _

/-- A multiple that is not below `x` is not below `x` rounded up. -/
theorem alignUp_le {y : Nat} (ha : 0 < a) (hy : a ∣ y) (h : x ≤ y) : alignUp x a ≤ y := by
  obtain ⟨q, rfl⟩ := hy
  have hquot : (x + (a - 1)) / a < q + 1 := by
    rw [Nat.div_lt_iff_lt_mul ha, Nat.add_mul, Nat.mul_comm q a]
    omega
  rw [alignUp, Nat.mul_comm a q]
  exact Nat.mul_le_mul_right a (Nat.le_of_lt_succ hquot)

/-! ## The mask -/

/-- `~(2 ^ k - 1)` clears the last `k` bits. -/
theorem and_not_mask {y m : BitVec w} (hm : m.toNat = 2 ^ k - 1) : y &&& ~~~m = y >>> k <<< k := by
  refine BitVec.eq_of_getLsbD_eq fun i hi => ?_
  have hbit : m.getLsbD i = decide (i < k) := by
    rw [← BitVec.testBit_toNat, hm, Nat.testBit_two_pow_sub_one]
  rw [BitVec.getLsbD_and, BitVec.getLsbD_not, BitVec.getLsbD_shiftLeft, BitVec.getLsbD_ushiftRight, hbit]
  rcases Nat.lt_or_ge i k with hik | hik
  · simp [hik]
  · simp [hi, Nat.not_lt.mpr hik, Nat.add_sub_of_le hik]

theorem and_not_mask_toNat {y m : BitVec w} (hm : m.toNat = 2 ^ k - 1) :
    (y &&& ~~~m).toNat = y.toNat / 2 ^ k * 2 ^ k := by
  have hle := Nat.div_mul_le_self y.toNat (2 ^ k)
  have hlt := y.isLt
  rw [and_not_mask hm, BitVec.toNat_shiftLeft, BitVec.toNat_ushiftRight, Nat.shiftRight_eq_div_pow,
    Nat.shiftLeft_eq, Nat.mod_eq_of_lt (by omega)]

/-- `(x + a - 1) & ~(a - 1)` is `x` rounded up to `a`, modulo `2 ^ w`. -/
theorem round_toNat {x a : BitVec w} (ha : a.toNat = 2 ^ k) :
    ((x + a - 1) &&& ~~~(a - 1)).toNat = alignUp x.toNat (2 ^ k) % 2 ^ w := by
  have hpos : 0 < 2 ^ k := Nat.two_pow_pos k
  have hkw : k < w := (Nat.pow_lt_pow_iff_right (by omega)).mp (ha ▸ a.isLt)
  have hone : (1 : BitVec w).toNat = 1 := BitVec.toNat_one (by omega)
  have hle : (1 : BitVec w) ≤ a := by
    rw [BitVec.le_def, hone, ha]
    exact hpos
  have hmask : (a - 1).toNat = 2 ^ k - 1 := by
    rw [BitVec.toNat_sub_of_le hle, ha, hone]
  have hsum : (x + a - 1).toNat = (x.toNat + (2 ^ k - 1)) % 2 ^ w := by
    rw [add_sub_assoc, BitVec.toNat_add, hmask]
  obtain ⟨j, rfl⟩ := Nat.exists_eq_add_of_lt hkw
  have hword : 2 ^ (k + j + 1) = 2 ^ k * 2 ^ (j + 1) := by rw [Nat.add_assoc, Nat.pow_add]
  rw [and_not_mask_toNat hmask, hsum, alignUp, hword, Nat.mod_mul_right_div_self, Nat.mul_comm (2 ^ k),
    Nat.mul_mod_mul_right]

end MicroRosDemos.Lib
