import MicroRosDemos.Net.Filter

/-!
# What a UDP datagram is

A decoder of Ethernet frames that goes by the standard: the UDP header stands behind
an IP header of `ihl` words, and a fragment is not a datagram. It is not taken from
the source, which looks at fixed offsets; `Harmless` says for which frames that comes
to the same.
-/

namespace MicroRosDemos.Net.Datagram

open MicroRosDemos.Lib

/-! ## The fields of a frame -/

section
variable (frame : List Byte)

/-- The length of the IP header, in words. -/
def ihl : Nat := ((Mem.ofList frame 14).setWidth 4).toNat

def version : Nat := (Mem.ofList frame 14 >>> 4).toNat

def totLen : Nat := (htons ((Mem.ofList frame).load16 16)).toNat

/-- The flags and the fragment offset. -/
def fragOff : BitVec 16 := htons ((Mem.ofList frame).load16 20)

/-- Where the UDP header begins. -/
def udpAt : Nat := ethLen + 4 * ihl frame

/-- The destination port, in network order. -/
def dport : BitVec 16 := (Mem.ofList frame).load16 (udpAt frame + 2)

def ulen : Nat := (htons ((Mem.ofList frame).load16 (udpAt frame + 4))).toNat

/-- What follows both headers, as far as the UDP length says. -/
def payload : List Byte := (frame.drop (udpAt frame + udpLen)).take (ulen frame - udpLen)

/-- The lengths that a frame states are those of its parts. -/
structure Consistent : Prop where
  frame_length : ethLen + totLen frame ≤ frame.length
  totLen : 4 * ihl frame + udpLen ≤ totLen frame
  ulen : ulen frame = Datagram.totLen frame - 4 * ihl frame

/-- An IPv4 header that may have options, of a packet that is not a fragment. -/
def Legal : Prop := version frame = 4 ∧ 5 ≤ ihl frame ∧ fragOff frame &&& 0x3FFF = 0

/-- The same, without options. -/
def Plain : Prop := version frame = 4 ∧ ihl frame = 5 ∧ fragOff frame &&& 0x3FFF = 0

instance : Decidable (Legal frame) := inferInstanceAs (Decidable (_ ∧ _))

end

/-- The fields that every packet has at the same place are those of a UDP packet to
the node: the destination MAC, the protocol of the frame and that of the packet, and
the destination address. -/
def ForNode (hdrs : TxHdrs) (m : Mem) (p : Nat) : Prop :=
  m.read p 6 = hdrs.eth.hSource.toList ∧ m.load16 (p + 12) = htons ethPIp ∧
    m (p + 23) = ipprotoUdp ∧ m.load32 (p + 30) = hdrs.ip.saddr

instance (hdrs : TxHdrs) (m : Mem) (p : Nat) : Decidable (ForNode hdrs m p) :=
  inferInstanceAs (Decidable (_ ∧ _))

/-- A UDP datagram to the node. -/
def IsDatagram (hdrs : TxHdrs) (frame : List Byte) : Prop :=
  ForNode hdrs (Mem.ofList frame) 0 ∧ Legal frame ∧ dport frame = hdrs.udp.uhSport

instance (hdrs : TxHdrs) (frame : List Byte) : Decidable (IsDatagram hdrs frame) :=
  inferInstanceAs (Decidable (_ ∧ _))

/-- The payload of a datagram to the node; every other frame has none. -/
def decode (hdrs : TxHdrs) (frame : List Byte) : Option (List Byte) :=
  if IsDatagram hdrs frame then some (payload frame) else none

/-! ## Where fixed offsets do -/

section
variable (hdrs : TxHdrs) (frame : List Byte) (m : Mem) (p : Nat) (len : BitVec 64)

/-- What lies at 34, where a UDP header without IP options before it is, says what
the UDP header says: it has the node's port just when that has, and then it has its
length, and the bytes behind it are the payload. (No payload comes out of a length
that does not fit the buffer, either.) -/
def SameUdp : Prop :=
  (m.load16 (p + 36) = hdrs.udp.uhSport ↔ dport frame = hdrs.udp.uhSport) ∧
    (dport frame = hdrs.udp.uhSport →
      ((htons (m.load16 (p + 38))).toNat = ulen frame ∧
        m.read (p + 42) (ulen frame - udpLen) = payload frame) ∨
      (ulen frame = udpLen ∧ len < getPayloadLen m p))

/-- Looking at fixed offsets does no harm: the frame is for somebody else, or it has no
IP options and is no fragment; or the bytes that are taken for the UDP header agree with
it, or, when there is none, do not have the node's port. -/
def Harmless : Prop :=
  ¬ ForNode hdrs m p ∨ Plain frame ∨ (Legal frame ∧ SameUdp hdrs frame m p len) ∨
    (¬ Legal frame ∧ m.load16 (p + 36) ≠ hdrs.udp.uhSport)

end

/-! ## The frame in memory -/

variable {hdrs : TxHdrs} {frame : List Byte} {m : Mem} {p : Nat} {len : BitVec 64}

theorem Plain.legal (h : Plain frame) : Legal frame := ⟨h.1, Nat.le_of_eq h.2.1.symm, h.2.2⟩

theorem load16_of_read (h : m.read p frame.length = frame) {a : Nat} (ha : a + 2 ≤ frame.length) :
    m.load16 (p + a) = (Mem.ofList frame).load16 a := by
  refine Mem.load16_congr fun i hi => ?_
  rw [Nat.add_assoc, ofList_of_read h (by omega), Nat.zero_add]

theorem read_of_read (h : m.read p frame.length = frame) {a n : Nat} (ha : a + n ≤ frame.length) :
    m.read (p + a) n = (frame.drop a).take n := by
  have hdrop : m.read (p + a) (frame.length - a) = frame.drop a := by
    rw [← Mem.read_drop _ _ _ (by omega), h]
  rw [← hdrop, Mem.read_take _ _ _ (by omega)]

theorem forNode_of_read (h : m.read p frame.length = frame) (hlen : 34 ≤ frame.length) :
    ForNode hdrs m p ↔ ForNode hdrs (Mem.ofList frame) 0 := by
  have hself : (Mem.ofList frame).read 0 frame.length = frame := Mem.read_ofList frame
  have hmac : m.read p 6 = (Mem.ofList frame).read 0 6 :=
    (read_of_read (a := 0) h (by omega)).trans (read_of_read (a := 0) hself (by omega)).symm
  have hproto : m (p + 23) = Mem.ofList frame (0 + 23) := ofList_of_read h (by omega)
  have haddr : m.load32 (p + 30) = (Mem.ofList frame).load32 (0 + 30) := by
    simp only [Mem.load32, Nat.add_assoc]
    rw [ofList_of_read h (by omega), ofList_of_read h (by omega), ofList_of_read h (by omega),
      ofList_of_read h (by omega)]
  unfold ForNode
  rw [hmac, load16_of_read h (by omega), hproto, haddr]

/-- A consistent frame with a legal header has both headers and the payload. -/
theorem lengths_of_consistent (hframe : Consistent frame) (hlegal : Legal frame) :
    udpLen ≤ ulen frame ∧ udpAt frame + ulen frame ≤ frame.length ∧ 34 ≤ udpAt frame := by
  obtain ⟨h₁, h₂, h₃⟩ := hframe
  obtain ⟨_, hihl, _⟩ := hlegal
  simp only [udpAt, ethLen, udpLen] at *
  omega

theorem payload_length (hframe : Consistent frame) (hlegal : Legal frame) :
    (payload frame).length = ulen frame - udpLen := by
  obtain ⟨h₁, h₂, _⟩ := lengths_of_consistent hframe hlegal
  rw [payload, List.length_take, List.length_drop]
  omega

/-- The filter: the fields at the same place in every packet, and the two bytes at 36. -/
theorem isAddressedToMe_iff_forNode :
    isAddressedToMe hdrs m p = true ↔ ForNode hdrs m p ∧ m.load16 (p + 36) = hdrs.udp.uhSport := by
  unfold isAddressedToMe ForNode
  simp only [ethLen, ipLen, Nat.add_assoc, Nat.reduceAdd]
  split
  · next h => exact ⟨fun hno => (by cases hno), fun hall => absurd hall.1.1 h⟩
  split
  · next h => exact ⟨fun hno => (by cases hno), fun hall => absurd hall.1.2.1 h⟩
  split
  · next h => exact ⟨fun hno => (by cases hno), fun hall => absurd hall.1.2.2.2 h⟩
  split
  · next h => exact ⟨fun hno => (by cases hno), fun hall => absurd hall.1.2.2.1 h⟩
  split
  · next h => exact ⟨fun hno => (by cases hno), fun hall => absurd hall.2 h⟩
  · next h₁ h₂ h₃ h₄ h₅ =>
    exact ⟨fun _ => ⟨⟨not_not.mp h₁, not_not.mp h₂, not_not.mp h₄, not_not.mp h₃⟩, not_not.mp h₅⟩,
      fun _ => rfl⟩

/-- A payload length is that of the UDP length it is computed from. -/
theorem getPayloadLen_toNat (h : udpLen ≤ (htons (m.load16 (p + 38))).toNat) :
    (getPayloadLen m p).toNat = (htons (m.load16 (p + 38))).toNat - udpLen := by
  have height : (8 : BitVec 64).toNat = 8 := rfl
  have hlt := (htons (m.load16 (p + 38))).isLt
  unfold getPayloadLen
  simp only [ethLen, ipLen, udpLen, Nat.add_assoc, Nat.reduceAdd] at *
  rw [BitVec.toNat_sub, BitVec.toNat_setWidth, height]
  omega

/-- A payload length that is not one of a UDP length is larger than any frame. -/
theorem ulen_of_getPayloadLen {n : Nat} (hn : n + udpLen < 2 ^ 16) (h : (getPayloadLen m p).toNat = n) :
    (htons (m.load16 (p + 38))).toNat = n + udpLen := by
  have height : (8 : BitVec 64).toNat = 8 := rfl
  have hlt := (htons (m.load16 (p + 38))).isLt
  unfold getPayloadLen at h
  simp only [ethLen, ipLen, udpLen, Nat.add_assoc, Nat.reduceAdd] at *
  rw [BitVec.toNat_sub, BitVec.toNat_setWidth, height] at h
  omega

end MicroRosDemos.Net.Datagram
