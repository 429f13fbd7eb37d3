import MicroRosDemos.Lib.OnesComplement
import MicroRosDemos.Net.Packet

/-!
# The IP checksum

`set_ip_chksum` sums the header's 16-bit words as the little-endian machine loads
them, folds the carries, and stores the complement as it is. Exchanging the bytes
of every word exchanges those of the one's-complement sum (`onesSum_bswap16`), so
what is stored, read in network order, is the Internet checksum of the header's
words in network order (`setIpChksum_correct`).
-/

namespace MicroRosDemos.Net

open MicroRosDemos.Lib

variable {m : Mem} {p ip n : Nat}

/-! ## The definition of the checksum -/

/-- The `n` 16-bit words from `p` on, in network order. -/
def netWords (m : Mem) (p n : Nat) : List (BitVec 16) :=
  (List.range n).map fun i => m (p + 2 * i) ++ m (p + 2 * i + 1)

/-- The Internet checksum of words: the complement of their one's-complement sum. -/
def internetChecksum (ws : List (BitVec 16)) : BitVec 16 := ~~~onesSum ws

/-! ## The words as the machine loads them -/

/-- The `n` 16-bit words from `p` on, as the machine loads them. -/
def nativeWords (m : Mem) (p n : Nat) : List (BitVec 16) :=
  (List.range n).map fun i => m.load16 (p + 2 * i)

theorem netWords_eq (m : Mem) (p n : Nat) : netWords m p n = (nativeWords m p n).map bswap16 := by
  rw [netWords, nativeWords, List.map_map]
  exact List.map_congr_left fun i _ => (bswap16_append _ _).symm

/-- The words of a range in three parts, the middle one a single word. -/
theorem nativeWords_split (m : Mem) (p k j : Nat) :
    nativeWords m p (k + (1 + j)) =
      nativeWords m p k ++ m.load16 (p + 2 * k) :: nativeWords m (p + 2 * (k + 1)) j := by
  have hmiddle : (List.range 1).map (fun i => m.load16 (p + 2 * (k + i))) = [m.load16 (p + 2 * k)] := rfl
  unfold nativeWords
  rw [List.range_add, List.map_append, List.map_map, List.range_add, List.map_append, List.map_map]
  simp only [Function.comp_def]
  rw [hmiddle, List.singleton_append]
  congr 3
  funext i
  congr 1
  omega

theorem nativeWords_congr {m m' : Mem} (h : ∀ a, p ≤ a → a < p + 2 * n → m a = m' a) :
    nativeWords m p n = nativeWords m' p n := by
  refine List.map_congr_left fun i hi => Mem.load16_congr fun j hj => h _ ?_ ?_
  · omega
  · have := List.mem_range.mp hi
    omega

theorem toNat_append_byte (hi lo : Byte) : (hi ++ lo).toNat = hi.toNat * 256 + lo.toNat := by
  rw [BitVec.toNat_append, ← Nat.shiftLeft_add_eq_or_of_lt lo.isLt, Nat.shiftLeft_eq]

theorem toNat_bswap16 (v : BitVec 16) :
    (bswap16 v).toNat = v.toNat % 256 * 256 + v.toNat / 256 := by
  have hv := v.isLt
  have hlo : (v.extractLsb' 0 8).toNat = v.toNat % 256 := by
    rw [BitVec.extractLsb'_toNat, Nat.shiftRight_zero]
  have hhi : (v.extractLsb' 8 8).toNat = v.toNat / 256 := by
    rw [BitVec.extractLsb'_toNat, Nat.shiftRight_eq_div_pow]
    exact Nat.mod_eq_of_lt (by omega)
  rw [bswap16, toNat_append_byte, hlo, hhi]

/-- Exchanging the bytes of every word exchanges those of the sum: it multiplies
each word by 256 modulo 65535. -/
theorem onesSum_bswap16 (ws : List (BitVec 16)) :
    onesSum (ws.map bswap16) = bswap16 (onesSum ws) := by
  refine onesSum_map 256 (fun v => ?_) (fun v => ?_) ws
  · have hsplit : 256 * v.toNat = (bswap16 v).toNat + (2 ^ 16 - 1) * (v.toNat / 256) := by
      rw [toNat_bswap16]
      omega
    rw [hsplit]
    exact (Nat.add_mul_mod_self_left _ _ _).symm
  · rw [toNat_bswap16]
    omega

theorem bswap16_not (v : BitVec 16) : bswap16 (~~~v) = ~~~bswap16 v := by
  have hv := v.isLt
  apply BitVec.eq_of_toNat_eq
  rw [BitVec.toNat_not, toNat_bswap16, toNat_bswap16, BitVec.toNat_not]
  omega

/-! ## The two loops -/

/-- The accumulator is the sum itself, which at 65536 words or fewer fits. -/
theorem toNat_sumWords (m : Mem) (buf : Nat) (hn : n ≤ 65536) :
    (sumWords m buf n).toNat = ((nativeWords m buf n).map BitVec.toNat).sum ∧
      (sumWords m buf n).toNat ≤ n * 65535 := by
  induction n with
  | zero => exact ⟨rfl, Nat.le_refl 0⟩
  | succ n ih =>
    obtain ⟨hsum, hle⟩ := ih (by omega)
    have hword := (m.load16 (buf + 2 * n)).isLt
    have hset : ((m.load16 (buf + 2 * n)).setWidth 32).toNat = (m.load16 (buf + 2 * n)).toNat := by
      rw [BitVec.toNat_setWidth]
      exact Nat.mod_eq_of_lt (by omega)
    have hnext : (sumWords m buf (n + 1)).toNat =
        (sumWords m buf n).toNat + (m.load16 (buf + 2 * n)).toNat := by
      rw [sumWords, BitVec.toNat_add, hset]
      exact Nat.mod_eq_of_lt (by omega)
    refine ⟨?_, by rw [hnext]; omega⟩
    rw [hnext, hsum, nativeWords, nativeWords, List.range_succ, List.map_append, List.map_append,
      List.sum_append]
    rfl

/-- The second loop as its runs: from a sum to the value it ends with. -/
inductive Folds : BitVec 32 → BitVec 32 → Prop
  | done {sum : BitVec 32} : sum >>> 16 = 0 → Folds sum sum
  | again {sum t : BitVec 32} :
    sum >>> 16 ≠ 0 → Folds ((sum &&& 0xFFFF#32) + (sum >>> 16)) t → Folds sum t

/-- The second loop terminates from every sum. -/
theorem folds_foldSum (sum : BitVec 32) : Folds sum (foldSum sum) := by
  induction sum using foldSum.induct with
  | case1 sum h ih =>
    rw [foldSum, dif_pos h]
    exact .again h ih
  | case2 sum h =>
    rw [foldSum, dif_neg h]
    exact .done (not_not.mp h)

theorem Folds.toNat {sum t : BitVec 32} (h : Folds sum t) : t.toNat = rep 65535 sum.toNat := by
  induction h with
  | @done sum h =>
    have hdiv := shiftRight_eq_zero.mp h
    rw [rep_of_le (by omega)]
  | @again sum t h _ ih =>
    rw [ih, toNat_fold]
    exact rep_fold 65535 sum.toNat

/-- The two loops together give the one's-complement sum of the native words. -/
theorem foldSum_sumWords (m : Mem) (buf : Nat) (hn : n ≤ 65536) :
    foldSum (sumWords m buf n) = (onesSum (nativeWords m buf n)).setWidth 32 := by
  have hlt := (onesSum (nativeWords m buf n)).isLt
  apply BitVec.eq_of_toNat_eq
  rw [(folds_foldSum _).toNat, (toNat_sumWords m buf hn).1, BitVec.toNat_setWidth,
    Nat.mod_eq_of_lt (by omega), toNat_onesSum]
  rfl

/-! ## The checksum field -/

/-- The 16-bit words of the header at `ip`. -/
def headerWords (m : Mem) (ip : Nat) : Nat := 2 * ((m ip).setWidth 4).toNat

/-- The header with a check field of zero. -/
def zeroCheck (m : Mem) (ip : Nat) : Mem := m.write (ip + 10) (le16 0)

/-- What `set_ip_chksum` stores, as it stores it. -/
def nativeChecksum (m : Mem) (ip : Nat) : BitVec 16 :=
  internetChecksum (nativeWords (zeroCheck m ip) ip (headerWords m ip))

theorem zeroCheck_outside (m : Mem) (ip : Nat) {a : Nat} (h : a < ip + 10 ∨ ip + 12 ≤ a) :
    zeroCheck m ip a = m a := Mem.write_outside m _ _ (by rw [le16_length]; omega)

/-- The complement is taken at 32 bits and stored at 16. -/
theorem setWidth_not_setWidth (v : BitVec 16) : (~~~v.setWidth 32).setWidth 16 = ~~~v := by
  rw [BitVec.setWidth_not (by omega), BitVec.setWidth_setWidth_of_le _ (by omega), BitVec.setWidth_eq]

/-- `set_ip_chksum` is one store. -/
theorem setIpChksum_eq (m : Mem) (ip : Nat) :
    setIpChksum m ip = m.write (ip + 10) (le16 (nativeChecksum m ip)) := by
  have hnibble := ((m ip).setWidth 4).isLt
  have hfirst : m.write (ip + 10) (le16 0) ip = m ip := zeroCheck_outside m ip (by omega)
  have hwords : ((m ip).setWidth 4).toNat * 4 / 2 = headerWords m ip := by
    unfold headerWords
    omega
  unfold setIpChksum
  dsimp only
  rw [hfirst, hwords, foldSum_sumWords _ _ (by unfold headerWords; omega),
    setWidth_not_setWidth,
    Mem.write_le16_write]
  rfl

theorem load16_setIpChksum (m : Mem) (ip : Nat) :
    (setIpChksum m ip).load16 (ip + 10) = nativeChecksum m ip := by
  rw [setIpChksum_eq, Mem.load16_eq_iff]
  exact Mem.read_write_self m (ip + 10) (le16 (nativeChecksum m ip))

theorem setIpChksum_outside (m : Mem) (ip : Nat) {a : Nat} (h : a < ip + 10 ∨ ip + 12 ≤ a) :
    setIpChksum m ip a = m a := by
  rw [setIpChksum_eq]
  exact Mem.write_outside m _ _ (by rw [le16_length]; omega)

/-- The words with the stored field sum to all ones. -/
theorem onesSum_setIpChksum (m : Mem) (ip : Nat) (hihl : 5 ≤ ((m ip).setWidth 4).toNat) :
    onesSum (nativeWords (setIpChksum m ip) ip (headerWords m ip)) = BitVec.allOnes 16 := by
  obtain ⟨j, hj⟩ : ∃ j, headerWords m ip = 5 + (1 + j) :=
    ⟨headerWords m ip - 6, by unfold headerWords; omega⟩
  have hlow : nativeWords (setIpChksum m ip) ip 5 = nativeWords (zeroCheck m ip) ip 5 :=
    nativeWords_congr fun a _ _ => by
      rw [setIpChksum_outside m ip (by omega), zeroCheck_outside m ip (by omega)]
  have hhigh : nativeWords (setIpChksum m ip) (ip + 12) j = nativeWords (zeroCheck m ip) (ip + 12) j :=
    nativeWords_congr fun a _ _ => by
      rw [setIpChksum_outside m ip (by omega), zeroCheck_outside m ip (by omega)]
  have hblank : (zeroCheck m ip).load16 (ip + 10) = 0 :=
    Mem.load16_eq_iff.mpr (Mem.read_write_self m (ip + 10) (le16 0))
  have hfilled := load16_setIpChksum m ip
  rw [nativeChecksum, internetChecksum, hj, nativeWords_split, hblank] at hfilled
  rw [hj, nativeWords_split, hfilled, hlow, hhigh]
  exact onesSum_complement _ _

theorem nativeChecksum_setIpChksum (m : Mem) (ip : Nat) :
    nativeChecksum (setIpChksum m ip) ip = nativeChecksum m ip := by
  have hzero : zeroCheck (setIpChksum m ip) ip = zeroCheck m ip := by
    rw [zeroCheck, setIpChksum_eq, Mem.write_le16_write]
    rfl
  have hwords : headerWords (setIpChksum m ip) ip = headerWords m ip := by
    rw [headerWords, setIpChksum_outside m ip (by omega), headerWords]
  rw [nativeChecksum, hzero, hwords, nativeChecksum]

/-- What `set_ip_chksum` leaves in memory. -/
structure Checksummed (m : Mem) (ip : Nat) (m' : Mem) : Prop where
  stored : m' (ip + 10) ++ m' (ip + 11) =
    internetChecksum (netWords (zeroCheck m ip) ip (headerWords m ip))
  verifies : onesSum (netWords m' ip (headerWords m ip)) = 0xFFFF
  others : ∀ a, a ≠ ip + 10 → a ≠ ip + 11 → m' a = m a
  again : setIpChksum m' ip = m'

theorem setIpChksum_checksummed (m : Mem) (ip : Nat) (hihl : 5 ≤ ((m ip).setWidth 4).toNat) :
    Checksummed m ip (setIpChksum m ip) := by
  constructor
  · have hswap : (setIpChksum m ip) (ip + 10) ++ (setIpChksum m ip) (ip + 11) =
        bswap16 ((setIpChksum m ip).load16 (ip + 10)) := (bswap16_append _ _).symm
    rw [hswap, load16_setIpChksum, nativeChecksum, internetChecksum, bswap16_not, netWords_eq,
      internetChecksum, onesSum_bswap16]
  · rw [netWords_eq, onesSum_bswap16, onesSum_setIpChksum m ip hihl]
    decide
  · exact fun a h₁ h₂ => setIpChksum_outside m ip (by omega)
  · rw [setIpChksum_eq (setIpChksum m ip), nativeChecksum_setIpChksum, setIpChksum_eq,
      Mem.write_le16_write]

/-- **`set_ip_chksum` writes the Internet checksum.** For every header of five
words or more: the accumulator is the sum of the words at every turn, the folding
loop terminates with the value the code stores, and the field, read in network
order, is the checksum of the header in network order. -/
theorem setIpChksum_correct (m : Mem) (ip : Nat) (hihl : 5 ≤ ((m ip).setWidth 4).toNat) :
    (∀ k ≤ headerWords m ip, (sumWords (zeroCheck m ip) ip k).toNat =
      ((nativeWords (zeroCheck m ip) ip k).map BitVec.toNat).sum) ∧
    (∃ sum, Folds (sumWords (zeroCheck m ip) ip (headerWords m ip)) sum ∧
      setIpChksum m ip = m.write (ip + 10) (le16 ((~~~sum).setWidth 16))) ∧
    Checksummed m ip (setIpChksum m ip) := by
  have hnibble := ((m ip).setWidth 4).isLt
  have hwords : headerWords m ip ≤ 30 := by
    unfold headerWords
    omega
  refine ⟨fun k hk => (toNat_sumWords _ _ (by omega)).1, ⟨_, folds_foldSum _, ?_⟩,
    setIpChksum_checksummed m ip hihl⟩
  rw [setIpChksum_eq, foldSum_sumWords _ _ (by omega), setWidth_not_setWidth]
  rfl

/-- A header of 20 bytes, with something in the check field. -/
def someHeader : Mem :=
  .ofList [0x45, 0, 0, 0x73, 0, 0, 0x40, 0, 0x40, 0x11, 7, 9, 0xC0, 0xA8, 0, 1, 0xC0, 0xA8, 0, 0xC7]

theorem setIpChksum_correct_someHeader :
    Checksummed someHeader 0 (setIpChksum someHeader 0) ∧
      (setIpChksum someHeader 0).read 10 2 = [0xB8, 0x61] :=
  ⟨(setIpChksum_correct someHeader 0 (by decide)).2.2, by decide +kernel⟩

end MicroRosDemos.Net
