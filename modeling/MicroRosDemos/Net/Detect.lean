import MicroRosDemos.Net.Checksum

/-!
# What the IP checksum detects

A receiver sums the header again and takes it when the sum is all ones. The sum weighs
each byte by 256 or by 1, in turns (`netSum_write`), so a change of two neighbouring bytes
changes it by less than one whole turn of 65535, and goes unseen only when it exchanges
the two zeros of the one's complement (`setIpChksum_detects`).
-/

namespace MicroRosDemos.Net

open MicroRosDemos.Lib

variable {m : Mem} {p n : Nat}

/-- The sum of the words in network order, without a carry. -/
def netSum (m : Mem) (p n : Nat) : Nat := ((netWords m p n).map BitVec.toNat).sum

/-- What a byte counts for in the sum: it is the high byte of its word or the low one. -/
def weight (k : Nat) : Nat := if k % 2 = 0 then 256 else 1

theorem netSum_succ (m : Mem) (p n : Nat) :
    netSum m p (n + 1) = netSum m p n + ((m (p + 2 * n)).toNat * 256 + (m (p + 2 * n + 1)).toNat) := by
  unfold netSum netWords
  rw [List.range_succ, List.map_append, List.map_append, List.sum_append, List.map_singleton,
    List.map_singleton, List.sum_singleton, toNat_append_byte]

theorem netSum_congr {m' : Mem} (h : ∀ a, p ≤ a → a < p + 2 * n → m a = m' a) :
    netSum m p n = netSum m' p n := by
  rw [netSum, netSum, netWords_eq, netWords_eq, nativeWords_congr h]

/-- One byte more or less. -/
theorem netSum_write (m : Mem) {p n k : Nat} (hk : k < 2 * n) (x : Byte) :
    netSum (m.write (p + k) [x]) p n + weight k * (m (p + k)).toNat =
      netSum m p n + weight k * x.toNat := by
  induction n with
  | zero => omega
  | succ n ih =>
    have hself : m.write (p + k) [x] (p + k) = x := Mem.write_add m (p + k) [x] 0
    have hother {a : Nat} (ha : a ≠ p + k) : m.write (p + k) [x] a = m a :=
      Mem.write_outside m (p + k) [x] (by simp only [List.length_singleton]; omega)
    rw [netSum_succ, netSum_succ]
    by_cases hlast : k < 2 * n
    · have hrest := ih hlast
      rw [hother (by omega), hother (by omega)]
      omega
    · have hsame : netSum (m.write (p + k) [x]) p n = netSum m p n :=
        netSum_congr fun a _ ha => hother (by omega)
      rw [hsame]
      -- the byte is in the last word, high or low
      rcases (by omega : k = 2 * n ∨ k = 2 * n + 1) with rfl | rfl
      · rw [hself, hother (by omega), weight, if_pos (by omega)]
        omega
      · have hlow : m.write (p + (2 * n + 1)) [x] (p + 2 * n + 1) = x := hself
        have hwas : m (p + (2 * n + 1)) = m (p + 2 * n + 1) := rfl
        rw [hother (by omega), hlow, hwas, weight, if_neg (by omega)]
        omega

/-- The first byte is part of the sum. -/
theorem le_netSum (m : Mem) (p : Nat) (hn : 0 < n) : (m p).toNat ≤ netSum m p n := by
  induction n with
  | zero => omega
  | succ n ih =>
    rw [netSum_succ]
    rcases Nat.eq_zero_or_pos n with rfl | hpos
    · rw [Nat.mul_zero, Nat.add_zero]
      omega
    · have := ih hpos
      omega

/-- A header is taken when its sum is a multiple of 65535, and not zero. -/
theorem verifies_iff (m : Mem) (p n : Nat) :
    onesSum (netWords m p n) = 0xFFFF ↔ 0 < netSum m p n ∧ netSum m p n % 65535 = 0 := by
  have htop : (0xFFFF : BitVec 16).toNat = 2 ^ 16 - 1 := rfl
  rw [← BitVec.toNat_inj, toNat_onesSum, htop, rep_eq_top (by decide)]
  rfl

/-- Sums that differ by two words agree modulo 65535 if the words are the same, or the two
zeros of the one's complement. -/
theorem swapped_iff {a b s t : Nat} (ha : a ≤ 65535) (hb : b ≤ 65535) (hzero : s % 65535 = 0)
    (h : t + a = s + b) : t % 65535 = 0 ↔ b = a ∨ (b = 0 ∧ a = 65535) ∨ (b = 65535 ∧ a = 0) := by
  omega

/-- Two bytes that count for 256 and for 1, in either order. -/
theorem pair_eq_iff {k : Nat} {x y u v : Byte} {s t : Nat} (hzero : s % 65535 = 0)
    (h : t + weight k * u.toNat + weight (k + 1) * v.toNat =
      s + weight k * x.toNat + weight (k + 1) * y.toNat) :
    t % 65535 = 0 ↔ (x = u ∧ y = v) ∨ (x = 0 ∧ y = 0 ∧ u = 0xFF ∧ v = 0xFF) ∨
      (x = 0xFF ∧ y = 0xFF ∧ u = 0 ∧ v = 0) := by
  have hx := x.isLt
  have hy := y.isLt
  have hu := u.isLt
  have hv := v.isLt
  have hzeros : (0 : Byte).toNat = 0 := rfl
  have hones : (0xFF : Byte).toNat = 255 := rfl
  simp only [← BitVec.toNat_inj, hzeros, hones]
  rcases Nat.mod_two_eq_zero_or_one k with heven | hodd
  · rw [weight, weight, if_pos heven, if_neg (by omega)] at h
    rw [swapped_iff (by omega) (by omega) hzero
      (by omega : t + (256 * u.toNat + v.toNat) = s + (256 * x.toNat + y.toNat))]
    omega
  · rw [weight, weight, if_neg (by omega), if_pos (by omega)] at h
    rw [swapped_iff (by omega) (by omega) hzero
      (by omega : t + (u.toNat + 256 * v.toNat) = s + (x.toNat + 256 * y.toNat))]
    omega

/-- **The checksum detects a change of two neighbouring bytes.** Whatever header
`set_ip_chksum` has summed and whatever two bytes behind its first one are replaced, at an
even place or an odd one: a receiver takes the header exactly if they are as they were, or
if two bytes of all zeros and two of all ones were exchanged. -/
theorem setIpChksum_detects (m : Mem) (ip : Nat) (hihl : 5 ≤ ((m ip).setWidth 4).toNat) {k : Nat}
    (hpos : 0 < k) (hk : k + 1 < 2 * headerWords m ip) (x y : Byte) :
    let sent := setIpChksum m ip
    let u := sent (ip + k)
    let v := sent (ip + k + 1)
    onesSum (netWords (sent.write (ip + k) [x, y]) ip (headerWords m ip)) = 0xFFFF ↔
      (x = u ∧ y = v) ∨ (x = 0 ∧ y = 0 ∧ u = 0xFF ∧ v = 0xFF) ∨
        (x = 0xFF ∧ y = 0xFF ∧ u = 0 ∧ v = 0) := by
  intro sent u v
  obtain ⟨_, hmod⟩ := (verifies_iff _ _ _).mp (setIpChksum_checksummed m ip hihl).verifies
  have hfirst : sent ip = m ip := setIpChksum_outside m ip (by omega)
  have hbyte : 0 < (m ip).toNat := by
    rw [BitVec.toNat_setWidth] at hihl
    omega
  -- two stores of a byte
  have hwrite : sent.write (ip + k) [x, y] = (sent.write (ip + k) [x]).write (ip + (k + 1)) [y] :=
    (Mem.write_append sent (ip + k) [x] [y]).symm
  have hv : sent.write (ip + k) [x] (ip + (k + 1)) = v :=
    Mem.write_outside sent (ip + k) [x] (by simp only [List.length_singleton]; omega)
  have hone : netSum (sent.write (ip + k) [x]) ip (headerWords m ip) + weight k * u.toNat =
      netSum sent ip (headerWords m ip) + weight k * x.toNat :=
    netSum_write sent (by omega) x
  have htwo : netSum (sent.write (ip + k) [x, y]) ip (headerWords m ip) + weight (k + 1) * v.toNat =
      netSum (sent.write (ip + k) [x]) ip (headerWords m ip) + weight (k + 1) * y.toNat := by
    rw [hwrite, ← hv]
    exact netSum_write _ hk y
  have hleft : (m ip).toNat ≤ netSum (sent.write (ip + k) [x, y]) ip (headerWords m ip) := by
    have hle := le_netSum (sent.write (ip + k) [x, y]) ip (by omega : 0 < headerWords m ip)
    rwa [Mem.write_outside sent (ip + k) [x, y] (by omega), hfirst] at hle
  have hchange : netSum (sent.write (ip + k) [x, y]) ip (headerWords m ip) + weight k * u.toNat +
      weight (k + 1) * v.toNat =
        netSum sent ip (headerWords m ip) + weight k * x.toNat + weight (k + 1) * y.toNat := by
    omega
  have hnew : 0 < netSum (sent.write (ip + k) [x, y]) ip (headerWords m ip) := by omega
  rw [verifies_iff, and_iff_right hnew]
  exact pair_eq_iff hmod hchange

/-- The address of the sender of a header with one bit changed, across two words. -/
theorem setIpChksum_detects_someHeader :
    onesSum (netWords ((setIpChksum someHeader 0).write 13 [0xA8, 1]) 0 10) ≠ 0xFFFF := by
  have hiff := setIpChksum_detects someHeader 0 (by decide) (k := 13) (by decide) (by decide) 0xA8 1
  refine fun htaken => absurd (hiff.mp htaken) ?_
  decide +kernel

end MicroRosDemos.Net
