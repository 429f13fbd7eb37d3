import MicroRosDemos.Net.Packet

/-!
# Which packets the node accepts

`is_addressed_to_me` compares five fields, and the last byte it looks at is at
offset 37. `wanted` lists the bytes it compares with, so that its answer can be
read off byte by byte (`isAddressedToMe_iff`): that is what decides whether the
answer depends on the frame or on what lies behind it.
-/

namespace MicroRosDemos.Net

open MicroRosDemos.Lib

variable {hdrs : TxHdrs} {m : Mem} {p : Nat}

/-- The byte that `is_addressed_to_me` wants at an offset: the destination MAC,
the protocol of the frame, that of the packet, the destination address, the
destination port. -/
def wanted (hdrs : TxHdrs) (k : Nat) : Option Byte :=
  if k < 6 then hdrs.eth.hSource.toList[k]?
  else if 12 ≤ k ∧ k < 14 then (le16 (htons ethPIp))[k - 12]?
  else if k = 23 then some ipprotoUdp
  else if 30 ≤ k ∧ k < 34 then (le32 hdrs.ip.saddr)[k - 30]?
  else if 36 ≤ k ∧ k < 38 then (le16 hdrs.udp.uhSport)[k - 36]?
  else none

theorem wanted_lt {k : Nat} {b : Byte} (h : wanted hdrs k = some b) : k < 38 := by
  by_contra hge
  unfold wanted at h
  rw [if_neg (by omega), if_neg (by omega), if_neg (by omega), if_neg (by omega),
    if_neg (by omega)] at h
  cases h

/-- A field read from memory has a value when each of its bytes is there. -/
theorem read_eq_iff {a n : Nat} {bs : List Byte} (hlen : bs.length = n) :
    m.read a n = bs ↔ ∀ i b, bs[i]? = some b → m (a + i) = b := by
  subst hlen
  constructor
  · intro h i b hb
    have hi : i < bs.length := (List.getElem?_eq_some_iff.mp hb).1
    have hget : (m.read a bs.length)[i]? = some (m (a + i)) := by
      rw [List.getElem?_eq_getElem (by rw [Mem.read_length]; exact hi), Mem.getElem_read]
    rw [h, hb] at hget
    exact (Option.some.inj hget).symm
  · intro h
    refine List.ext_getElem (Mem.read_length _ _ _) fun i h₁ h₂ => ?_
    rw [Mem.getElem_read]
    exact h i bs[i] (List.getElem?_eq_getElem h₂)

/-- `is_addressed_to_me`, field by field. -/
theorem isAddressedToMe_iff_fields :
    isAddressedToMe hdrs m p = true ↔
      m.read p 6 = hdrs.eth.hSource.toList ∧ m.read (p + 12) 2 = le16 (htons ethPIp) ∧
        m.read (p + 30) 4 = le32 hdrs.ip.saddr ∧ m.read (p + 23) 1 = [ipprotoUdp] ∧
          m.read (p + 36) 2 = le16 hdrs.udp.uhSport := by
  have hproto : m.load16 (p + 12) = htons ethPIp ↔ m.read (p + 12) 2 = le16 (htons ethPIp) :=
    Mem.load16_eq_iff
  have haddr : m.load32 (p + 30) = hdrs.ip.saddr ↔ m.read (p + 30) 4 = le32 hdrs.ip.saddr :=
    Mem.load32_eq_iff
  have hudp : m (p + 23) = ipprotoUdp ↔ m.read (p + 23) 1 = [ipprotoUdp] := by
    simp [Mem.read, List.range_succ]
  have hport : m.load16 (p + 36) = hdrs.udp.uhSport ↔ m.read (p + 36) 2 = le16 hdrs.udp.uhSport :=
    Mem.load16_eq_iff
  rw [← hproto, ← haddr, ← hudp, ← hport]
  unfold isAddressedToMe
  simp only [ethLen, ipLen, Nat.add_assoc, Nat.reduceAdd]
  by_cases h₁ : m.read p 6 = hdrs.eth.hSource.toList <;>
    by_cases h₂ : m.load16 (p + 12) = htons ethPIp <;>
      by_cases h₃ : m.load32 (p + 30) = hdrs.ip.saddr <;>
        by_cases h₄ : m (p + 23) = ipprotoUdp <;>
          by_cases h₅ : m.load16 (p + 36) = hdrs.udp.uhSport <;> simp [h₁, h₂, h₃, h₄, h₅]

/-- `is_addressed_to_me`, byte by byte. -/
theorem isAddressedToMe_iff :
    isAddressedToMe hdrs m p = true ↔ ∀ k b, wanted hdrs k = some b → m (p + k) = b := by
  have hmac : hdrs.eth.hSource.toList.length = 6 := Vector.length_toList
  rw [isAddressedToMe_iff_fields, read_eq_iff hmac, read_eq_iff (le16_length _),
    read_eq_iff (le32_length _), read_eq_iff (n := 1) rfl,
    read_eq_iff (le16_length _)]
  constructor
  · rintro ⟨h₁, h₂, h₃, h₄, h₅⟩ k b hb
    unfold wanted at hb
    split at hb
    · exact h₁ k b hb
    split at hb
    · have := h₂ (k - 12) b hb
      rwa [Nat.add_assoc, Nat.add_sub_cancel' (by omega)] at this
    split at hb
    · next hk =>
      subst hk
      exact h₄ 0 b hb
    split at hb
    · have := h₃ (k - 30) b hb
      rwa [Nat.add_assoc, Nat.add_sub_cancel' (by omega)] at this
    split at hb
    · have := h₅ (k - 36) b hb
      rwa [Nat.add_assoc, Nat.add_sub_cancel' (by omega)] at this
    · cases hb
  · intro h
    refine ⟨?_, ?_, ?_, ?_, ?_⟩
    · intro i b hb
      have hi := (List.getElem?_eq_some_iff.mp hb).1
      refine h i b ?_
      rw [wanted, if_pos (by omega)]
      exact hb
    · intro i b hb
      have hi : i < 2 := (List.getElem?_eq_some_iff.mp hb).1
      rw [Nat.add_assoc]
      refine h (12 + i) b ?_
      rw [wanted, if_neg (by omega), if_pos (by omega), Nat.add_sub_cancel_left]
      exact hb
    · intro i b hb
      have hi : i < 4 := (List.getElem?_eq_some_iff.mp hb).1
      rw [Nat.add_assoc]
      refine h (30 + i) b ?_
      rw [wanted, if_neg (by omega), if_neg (by omega), if_neg (by omega), if_pos (by omega),
        Nat.add_sub_cancel_left]
      exact hb
    · intro i b hb
      have hi : i < 1 := (List.getElem?_eq_some_iff.mp hb).1
      have hz : i = 0 := by omega
      subst hz
      exact h 23 b hb
    · intro i b hb
      have hi : i < 2 := (List.getElem?_eq_some_iff.mp hb).1
      rw [Nat.add_assoc]
      refine h (36 + i) b ?_
      rw [wanted, if_neg (by omega), if_neg (by omega), if_neg (by omega), if_neg (by omega),
        if_pos (by omega), Nat.add_sub_cancel_left]
      exact hb

/-- An accepted packet passes the assertions of `get_payload` and `get_payload_len`. -/
theorem isUdp_of_addressed (h : isAddressedToMe hdrs m p = true) : isUdp m p = true := by
  have hudp : m (p + 23) = ipprotoUdp := isAddressedToMe_iff.mp h 23 ipprotoUdp rfl
  simp only [isUdp, ethLen, Nat.add_assoc, Nat.reduceAdd, hudp, beq_self_eq_true]

/-! ## A frame at the start of a block -/

/-- The frame alone passes the filter. -/
def addressed (hdrs : TxHdrs) (frame : List Byte) : Bool := isAddressedToMe hdrs (Mem.ofList frame) 0

/-- The UDP length of a frame. -/
def uhUlen (frame : List Byte) : Nat := (htons ((Mem.ofList frame).load16 38)).toNat

/-- The UDP payload of a frame. -/
def udpPayload (frame : List Byte) : List Byte := (frame.drop 42).take (uhUlen frame - 8)

/-- What is assumed of a guest's frame: it holds the three headers and fits a
block, and an addressed one has a UDP length that fits it. -/
def FrameOk (hdrs : TxHdrs) (frame : List Byte) : Prop :=
  42 ≤ frame.length ∧ frame.length ≤ 2048 ∧
    (addressed hdrs frame = true → 8 ≤ uhUlen frame ∧ uhUlen frame ≤ frame.length - 34)

instance (hdrs : TxHdrs) (frame : List Byte) : Decidable (FrameOk hdrs frame) :=
  inferInstanceAs (Decidable (_ ∧ _))

section
variable {frame : List Byte}

theorem udpPayload_length (hfits : uhUlen frame ≤ frame.length - 34) (hlen : 42 ≤ frame.length) :
    (udpPayload frame).length = uhUlen frame - 8 := by
  rw [udpPayload, List.length_take, List.length_drop]
  omega

theorem ofList_of_read (h : m.read p frame.length = frame) {a : Nat} (ha : a < frame.length) :
    m (p + a) = Mem.ofList frame (0 + a) := by
  have hget := (read_eq_iff rfl).mp h a frame[a] (List.getElem?_eq_getElem ha)
  rw [hget, Nat.zero_add, Mem.ofList, List.getD_eq_getElem?_getD, List.getElem?_eq_getElem ha]
  rfl

/-- The filter looks at the frame only. -/
theorem isAddressedToMe_of_read (h : m.read p frame.length = frame) (hlen : 38 ≤ frame.length) :
    isAddressedToMe hdrs m p = addressed hdrs frame := by
  rw [Bool.eq_iff_iff, addressed, isAddressedToMe_iff, isAddressedToMe_iff]
  constructor
  · intro hall k b hb
    have hk := wanted_lt hb
    rw [← ofList_of_read h (by omega)]
    exact hall k b hb
  · intro hall k b hb
    have hk := wanted_lt hb
    rw [ofList_of_read h (by omega)]
    exact hall k b hb

/-- So does the payload length. -/
theorem getPayloadLen_eq_of_read (h : m.read p frame.length = frame) (hlen : 40 ≤ frame.length) :
    getPayloadLen m p = getPayloadLen (Mem.ofList frame) 0 := by
  have hload : m.load16 (p + 38) = (Mem.ofList frame).load16 (0 + 38) := by
    refine Mem.load16_congr fun i hi => ?_
    rw [Nat.add_assoc, ofList_of_read h (by omega), Nat.add_assoc]
  unfold getPayloadLen
  simp only [ethLen, ipLen, Nat.add_assoc, Nat.reduceAdd]
  rw [hload]

theorem getPayloadLen_of_read (h : m.read p frame.length = frame) (hlen : 40 ≤ frame.length)
    (hulen : 8 ≤ uhUlen frame) : (getPayloadLen m p).toNat = uhUlen frame - 8 := by
  have height : (8 : BitVec 64).toNat = 8 := rfl
  have hlt := (htons ((Mem.ofList frame).load16 38)).isLt
  rw [getPayloadLen_eq_of_read h hlen]
  unfold getPayloadLen uhUlen at *
  rw [BitVec.toNat_sub, BitVec.toNat_setWidth, height]
  simp only [ethLen, ipLen, Nat.reduceAdd]
  omega

/-- And so does the payload, when the frame holds it. -/
theorem read_getPayload_of_read (h : m.read p frame.length = frame)
    (hfits : uhUlen frame ≤ frame.length - 34) (hlen : 42 ≤ frame.length) :
    m.read (getPayload p) (uhUlen frame - 8) = udpPayload frame := by
  have hdrop : m.read (p + 42) (frame.length - 42) = frame.drop 42 := by
    rw [← Mem.read_drop _ _ _ hlen, h]
  have haddr : getPayload p = p + 42 := rfl
  rw [haddr, udpPayload, ← hdrop, Mem.read_take _ _ _ (by omega)]

end

end MicroRosDemos.Net
