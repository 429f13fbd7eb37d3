import Mathlib.Data.BitVec
import Mathlib.Data.Nat.ModEq

/-!
# One's-complement sums

Addition with the carry brought round to the low end, and sums of it. Words of
`w` bits stand for numbers modulo `2 ^ w - 1`, zero twice: as all zeros and as all
ones. A sum is all zeros only when every summand is, so it is one word for each
residue and the zero of the sum (`rep`): everything here follows from that
(`toNat_onesSum`).
-/

namespace MicroRosDemos.Lib

/-- The number from 1 to `k` that is congruent to `n` modulo `k`, and 0 for 0. -/
def rep (k n : Nat) : Nat := if n = 0 then 0 else (n - 1) % k + 1

section
variable {k : Nat}

@[simp] theorem rep_zero (k : Nat) : rep k 0 = 0 := if_pos rfl

theorem rep_succ (k n : Nat) : rep k (n + 1) = n % k + 1 := by
  rw [rep, if_neg (Nat.succ_ne_zero n), Nat.add_sub_cancel]

theorem rep_eq_zero {n : Nat} : rep k n = 0 ↔ n = 0 := by
  cases n with
  | zero => simp only [rep_zero]
  | succ n => simp only [rep_succ, Nat.succ_ne_zero]

theorem rep_modEq (k n : Nat) : rep k n ≡ n [MOD k] := by
  cases n with
  | zero =>
    rw [rep_zero]
  | succ n =>
    rw [rep_succ]
    exact (Nat.mod_modEq n k).add_right 1

theorem rep_le (hk : 0 < k) (n : Nat) : rep k n ≤ k := by
  cases n with
  | zero =>
    rw [rep_zero]
    omega
  | succ n =>
    rw [rep_succ]
    exact Nat.mod_lt n hk

/-- A number has one representative. -/
theorem rep_congr {a b : Nat} (h : a ≡ b [MOD k]) (hzero : a = 0 ↔ b = 0) : rep k a = rep k b := by
  cases a with
  | zero => rw [hzero.mp rfl]
  | succ a =>
    cases b with
    | zero => cases hzero.mpr rfl
    | succ b =>
      have hpred : a ≡ b [MOD k] := Nat.ModEq.add_right_cancel' 1 h
      rw [rep_succ, rep_succ, hpred]

theorem rep_of_le {n : Nat} (h : n ≤ k) : rep k n = n := by
  cases n with
  | zero => exact rep_zero k
  | succ n => rw [rep_succ, Nat.mod_eq_of_lt h]

theorem rep_rep_add (k a b : Nat) : rep k (rep k a + b) = rep k (a + b) := by
  refine rep_congr ((rep_modEq k a).add_right b) ?_
  rw [Nat.add_eq_zero_iff, Nat.add_eq_zero_iff, rep_eq_zero]

/-- Folding what is above a word back in. -/
theorem rep_fold (k n : Nat) : rep k (n % (k + 1) + n / (k + 1)) = rep k n := by
  have hsplit := Nat.mod_add_div n (k + 1)
  refine rep_congr ?_ ?_
  · have hcarry : n = n % (k + 1) + n / (k + 1) + k * (n / (k + 1)) := by
      rw [Nat.add_mul, Nat.one_mul] at hsplit
      omega
    conv_rhs => rw [hcarry]
    exact (Nat.add_mul_mod_self_left _ k _).symm
  · constructor
    · intro h
      rw [Nat.add_eq_zero_iff] at h
      rw [← hsplit, h.1, h.2, Nat.mul_zero]
    · rintro rfl
      rw [Nat.zero_mod, Nat.zero_div]

/-- A number and what is missing to `k`. -/
theorem rep_add_sub (hk : 0 < k) (n : Nat) : rep k (n + (k - rep k n)) = k := by
  have hle := rep_le hk n
  rw [← rep_rep_add, Nat.add_sub_cancel' hle, rep_of_le (Nat.le_refl k)]

/-- The multiples of `k` but for zero are those that stand for all ones. -/
theorem rep_eq_top (hk : 0 < k) (n : Nat) : rep k n = k ↔ 0 < n ∧ n % k = 0 := by
  cases n with
  | zero =>
    rw [rep_zero]
    omega
  | succ n =>
    obtain ⟨j, rfl⟩ := Nat.exists_eq_succ_of_ne_zero hk.ne'
    rw [rep_succ, Nat.succ_eq_add_one, Nat.succ_mod_succ_eq_zero_iff]
    omega

end

variable {w : Nat}

/-- One's-complement addition: the carry out of the top comes in at the bottom. -/
def onesAdd (a b : BitVec w) : BitVec w := if a.toNat + b.toNat < 2 ^ w then a + b else a + b + 1

/-- The one's-complement sum. -/
def onesSum (ws : List (BitVec w)) : BitVec w := ws.foldl onesAdd 0

theorem toNat_onesAdd (a b : BitVec w) :
    (onesAdd a b).toNat = rep (2 ^ w - 1) (a.toNat + b.toNat) := by
  have ha := a.isLt
  have hb := b.isLt
  unfold onesAdd
  split
  · next h =>
    rw [BitVec.toNat_add, Nat.mod_eq_of_lt h, rep_of_le (by omega)]
  · next h =>
    have hword : 1 < 2 ^ w := by omega
    have hone : (1 : BitVec w).toNat = 1 := (BitVec.toNat_ofNat 1 w).trans (Nat.mod_eq_of_lt hword)
    have hwrap : (a.toNat + b.toNat) % 2 ^ w = a.toNat + b.toNat - 2 ^ w := by
      rw [Nat.mod_eq_sub_mod (by omega), Nat.mod_eq_of_lt (by omega)]
    have hsum : (a + b + 1).toNat = a.toNat + b.toNat - (2 ^ w - 1) := by
      rw [BitVec.toNat_add, BitVec.toNat_add, hwrap, hone, Nat.mod_eq_of_lt (by omega)]
      omega
    rw [hsum, ← rep_of_le (k := 2 ^ w - 1) (n := a.toNat + b.toNat - (2 ^ w - 1)) (by omega)]
    refine rep_congr ?_ (by omega)
    exact (Nat.mod_eq_sub_mod (by omega)).symm

theorem toNat_foldl_onesAdd (ws : List (BitVec w)) (a : BitVec w) :
    (ws.foldl onesAdd a).toNat = rep (2 ^ w - 1) (a.toNat + (ws.map BitVec.toNat).sum) := by
  induction ws generalizing a with
  | nil =>
    have ha := a.isLt
    rw [List.foldl_nil, List.map_nil, List.sum_nil, Nat.add_zero, rep_of_le (by omega)]
  | cons v ws ih =>
    rw [List.foldl_cons, ih, toNat_onesAdd, rep_rep_add, List.map_cons, List.sum_cons,
      Nat.add_assoc]

/-- The sum as a number. -/
theorem toNat_onesSum (ws : List (BitVec w)) :
    (onesSum ws).toNat = rep (2 ^ w - 1) (ws.map BitVec.toNat).sum := by
  have hzero : (0 : BitVec w).toNat = 0 := BitVec.toNat_zero
  rw [onesSum, toNat_foldl_onesAdd, hzero, Nat.zero_add]

/-- **A word left blank and then filled with the complement of the sum** makes the
sum all ones. -/
theorem onesSum_complement (us vs : List (BitVec w)) :
    onesSum (us ++ ~~~onesSum (us ++ 0 :: vs) :: vs) = BitVec.allOnes w := by
  rcases Nat.eq_zero_or_pos w with rfl | hw
  · exact BitVec.eq_of_zero_length rfl
  have hpos : 0 < 2 ^ w - 1 := by
    have := Nat.one_lt_two_pow hw.ne'
    omega
  have hzero : (0 : BitVec w).toNat = 0 := BitVec.toNat_zero
  apply BitVec.eq_of_toNat_eq
  rw [toNat_onesSum, BitVec.toNat_allOnes, List.map_append, List.map_cons, List.sum_append,
    List.sum_cons, BitVec.toNat_not, toNat_onesSum, List.map_append, List.map_cons, List.sum_append,
    List.sum_cons, hzero, Nat.zero_add, Nat.add_left_comm, Nat.add_comm]
  exact rep_add_sub hpos _

/-- What multiplies each word by a number multiplies the sum by it. -/
theorem onesSum_map {f : BitVec w → BitVec w} (c : Nat)
    (hmod : ∀ v, (f v).toNat ≡ c * v.toNat [MOD 2 ^ w - 1])
    (hzero : ∀ v, (f v).toNat = 0 ↔ v.toNat = 0) (ws : List (BitVec w)) :
    onesSum (ws.map f) = f (onesSum ws) := by
  have hboth : ((ws.map f).map BitVec.toNat).sum ≡ c * (ws.map BitVec.toNat).sum [MOD 2 ^ w - 1] ∧
      (((ws.map f).map BitVec.toNat).sum = 0 ↔ (ws.map BitVec.toNat).sum = 0) := by
    induction ws with
    | nil => exact ⟨rfl, Iff.rfl⟩
    | cons v ws ih =>
      simp only [List.map_cons, List.sum_cons, Nat.mul_add, Nat.add_eq_zero_iff, hzero]
      exact ⟨(hmod v).add ih.1, and_congr_right fun _ => ih.2⟩
  obtain ⟨hsum, hnone⟩ := hboth
  have hlt := (f (onesSum ws)).isLt
  apply BitVec.eq_of_toNat_eq
  rw [toNat_onesSum, ← rep_of_le (k := 2 ^ w - 1) (n := (f (onesSum ws)).toNat) (by omega)]
  refine rep_congr ?_ ?_
  · calc ((ws.map f).map BitVec.toNat).sum
        ≡ c * (ws.map BitVec.toNat).sum [MOD 2 ^ w - 1] := hsum
      _ ≡ c * (onesSum ws).toNat [MOD 2 ^ w - 1] := by
          rw [toNat_onesSum]
          exact ((rep_modEq _ _).mul_left c).symm
      _ ≡ (f (onesSum ws)).toNat [MOD 2 ^ w - 1] := (hmod _).symm
  · rw [hnone, hzero, toNat_onesSum, rep_eq_zero]

end MicroRosDemos.Lib
