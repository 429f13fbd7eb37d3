import Mathlib.Data.BitVec
import Mathlib.Data.Nat.ModEq

/-!
# Wrapping counters

A free-running counter of `w` bits stands for a natural number it has long
forgotten. `Counter.after c n` is what such a counter holds after `n`
increments from the value `c`. The laws below turn comparisons of counters
back into comparisons of the numbers they stand for, as long as those are
closer than `2 ^ w`, and turn a masked counter into a residue, so that two
counters that differ by less than the ring size select different slots,
wrapped or not.
-/

namespace MicroRosDemos.Lib.Counter

variable {w : Nat}

/-- The counter after `n` increments from `c`. -/
def after (c : BitVec w) (n : Nat) : BitVec w := c + BitVec.ofNat w n

@[simp] theorem after_zero (c : BitVec w) : after c 0 = c := by
  simp [after]

theorem after_succ (c : BitVec w) (n : Nat) : after c n + 1 = after c (n + 1) := by
  simp only [after, BitVec.ofNat_add, BitVec.add_assoc]
  rfl

theorem after_toNat (c : BitVec w) (n : Nat) : (after c n).toNat = (c.toNat + n) % 2 ^ w := by
  simp [after, BitVec.toNat_add]

/-- The distance of two counters is the distance of the numbers they stand for. -/
theorem after_sub (c : BitVec w) {m n : Nat} (h : m ≤ n) :
    after c n - after c m = BitVec.ofNat w (n - m) := by
  obtain ⟨k, rfl⟩ := Nat.exists_eq_add_of_le h
  rw [Nat.add_sub_cancel_left]
  simp only [after, BitVec.ofNat_add, ← BitVec.add_assoc]
  exact add_sub_cancel_left _ _

/-- Two counters closer than `2 ^ w` are equal only when their numbers are. -/
theorem after_inj (c : BitVec w) {m n : Nat} (h : m ≤ n) (hlt : n - m < 2 ^ w) :
    after c n = after c m ↔ n = m := by
  constructor
  · intro heq
    have hsub := after_sub c h
    rw [heq, BitVec.sub_self] at hsub
    have hz : n - m = 0 := by
      have := congrArg BitVec.toNat hsub
      simpa [BitVec.toNat_ofNat, Nat.mod_eq_of_lt hlt] using this.symm
    omega
  · rintro rfl
    rfl

/-- A counter stands for one number of any stretch shorter than `2 ^ w`. -/
theorem eq_of_after_eq (c : BitVec w) {m n : Nat} (hmn : m < n + 2 ^ w) (hnm : n < m + 2 ^ w)
    (heq : after c m = after c n) : m = n := by
  rcases Nat.le_total m n with hle | hle
  · exact ((after_inj c hle (by omega)).mp heq.symm).symm
  · exact (after_inj c hle (by omega)).mp heq

/-- The full test of a ring: a distance compared with a constant below `2 ^ w`. -/
theorem after_sub_eq_iff (c : BitVec w) {m n k : Nat} (h : m ≤ n) (hn : n - m < 2 ^ w)
    (hk : k < 2 ^ w) : after c n - after c m = BitVec.ofNat w k ↔ n - m = k := by
  rw [after_sub c h]
  constructor
  · intro heq
    have := congrArg BitVec.toNat heq
    simpa [BitVec.toNat_ofNat, Nat.mod_eq_of_lt hn, Nat.mod_eq_of_lt hk] using this
  · intro heq
    rw [heq]

/-- A counter masked with `2 ^ k - 1` is a residue modulo `2 ^ k`, wrapped or not. -/
theorem after_and_mask (c : BitVec w) (n : Nat) {k : Nat} (hk : k ≤ w) {mask : BitVec w}
    (hmask : mask.toNat = 2 ^ k - 1) :
    (after c n &&& mask).toNat = (c.toNat + n) % 2 ^ k := by
  rw [BitVec.toNat_and, hmask, Nat.and_two_pow_sub_one_eq_mod, after_toNat,
    Nat.mod_mod_of_dvd _ (Nat.pow_dvd_pow 2 hk)]

/-- Inside a window of the ring size, equal residues are equal numbers. -/
theorem eq_of_residue_eq {a m n size : Nat} (h : m ≤ n) (hlt : n - m < size)
    (heq : (a + m) % size = (a + n) % size) : m = n := by
  have hmod : a + m ≡ a + n [MOD size] := heq
  have hdvd : size ∣ n - m := (Nat.modEq_iff_dvd' h).mp (Nat.ModEq.add_left_cancel' a hmod)
  have hz := Nat.eq_zero_of_dvd_of_lt hdvd hlt
  omega

end MicroRosDemos.Lib.Counter
