import MicroRosDemos.Net.Datagram
import MicroRosDemos.Sel4.FromGuestStale

/-!
# From the guest to ping_pong: datagrams and the packets that are read

`custom_transport_seL4_read` takes the bytes at fixed offsets for the UDP header. A
decoder that goes by the standard finds it behind `ihl` words, and no fragment is a
datagram to it. The two agree on a frame just when the fixed offsets do no harm
(`read_datagram_iff`): all frames without IP options that are not fragments are among
these.
-/

namespace MicroRosDemos.Sel4.FromGuest

open MicroRosDemos.Lib MicroRosDemos.Net MicroRosDemos.Spsc MicroRosDemos.Net.Datagram

variable {Q : Type} {hdrs : TxHdrs} {N : NetRing Q} {m : Mem} {p pkt : Nat} {len : BitVec 64}
  {frame : List Byte} {s : State Q} {call : ReadCall}

/-- What an accepted packet gives is the datagram's payload just when the length at 38
is the datagram's and the bytes behind it are, or nothing is returned and nothing is there. -/
theorem readPkt_eq_payload_iff (hframe : Consistent frame) (hme : isAddressedToMe hdrs m p = true)
    (hlegal : Legal frame) (hfits : (payload frame).length ≤ len.toNat) :
    readPkt hdrs m p len = some (payload frame) ↔
      ((htons (m.load16 (p + 38))).toNat = ulen frame ∧
        m.read (p + 42) (ulen frame - udpLen) = payload frame) ∨
      (ulen frame = udpLen ∧ len < getPayloadLen m p) := by
  obtain ⟨hulen, _, _⟩ := lengths_of_consistent hframe hlegal
  have hlength := payload_length hframe hlegal
  have hbound : ulen frame < 2 ^ 16 := (htons _).isLt
  rw [readPkt_some hme]
  by_cases hlarge : len < getPayloadLen m p
  · have hlt : len.toNat < (getPayloadLen m p).toNat := hlarge
    rw [if_pos hlarge]
    constructor
    · intro hnil
      have := congrArg List.length (Option.some.inj hnil)
      rw [Mem.read_length] at this
      exact .inr ⟨by omega, hlarge⟩
    · rintro (⟨hsame, _⟩ | ⟨hzero, _⟩)
      · have := getPayloadLen_toNat (m := m) (p := p) (by omega)
        omega
      · have hnil : payload frame = [] := List.eq_nil_of_length_eq_zero (by omega)
        rw [hnil]
        rfl
  · rw [if_neg hlarge]
    constructor
    · intro hread
      have hbytes := Option.some.inj hread
      have hcount := congrArg List.length hbytes
      rw [Mem.read_length, hlength] at hcount
      refine .inl ⟨?_, ?_⟩
      · rw [ulen_of_getPayloadLen (by omega) hcount]
        omega
      · rw [← hcount]
        exact hbytes
    · rintro (⟨hsame, hbytes⟩ | ⟨_, hno⟩)
      · rw [getPayloadLen_toNat (by omega), hsame]
        exact congrArg some hbytes
      · exact absurd hno hlarge

section
variable (hmem : m.read p frame.length = frame) (hframe : Consistent frame)
include hmem hframe

theorem decode_of_other (hother : ¬ ForNode hdrs m p) : decode hdrs frame = none := by
  refine if_neg fun hdatagram => hother ?_
  obtain ⟨_, hfits, hudp⟩ := lengths_of_consistent hframe hdatagram.2.1
  exact (forNode_of_read hmem (by omega)).mpr hdatagram.1

theorem decode_of_legal (hfor : ForNode hdrs m p) (hlegal : Legal frame) :
    decode hdrs frame = if dport frame = hdrs.udp.uhSport then some (payload frame) else none := by
  obtain ⟨_, hfits, hudp⟩ := lengths_of_consistent hframe hlegal
  have hsame := (forNode_of_read hmem (by omega)).mp hfor
  unfold decode
  by_cases hport : dport frame = hdrs.udp.uhSport
  · rw [if_pos hport, if_pos ⟨hsame, hlegal, hport⟩]
  · rw [if_neg hport, if_neg fun hdatagram => hport hdatagram.2.2]

/-- Without options the UDP header is at 34. -/
theorem sameUdp_of_plain (hplain : Plain frame) : SameUdp hdrs frame m p len := by
  obtain ⟨hulen, hfits, _⟩ := lengths_of_consistent hframe hplain.legal
  have hlen : udpLen = 8 := rfl
  have hat : udpAt frame = 34 := by
    rw [udpAt, hplain.2.1]
  have hport : m.load16 (p + 36) = dport frame := by
    rw [dport, hat, load16_of_read hmem (by omega)]
  refine ⟨by rw [hport], fun _ => .inl ⟨?_, ?_⟩⟩
  · rw [ulen, hat, load16_of_read hmem (by omega)]
  · rw [payload, hat, read_of_read hmem (by omega), hlen]

omit hmem hframe in
/-- A packet for the node is passed over when the port is not at its fixed place. -/
theorem readPkt_eq_none_iff_port (hfor : ForNode hdrs m p) :
    readPkt hdrs m p len = none ↔ m.load16 (p + 36) ≠ hdrs.udp.uhSport := by
  have hfilter : isAddressedToMe hdrs m p = true ↔ m.load16 (p + 36) = hdrs.udp.uhSport :=
    isAddressedToMe_iff_forNode.trans (and_iff_right hfor)
  rw [readPkt_eq_none_iff, Ne, ← hfilter, Bool.not_eq_true]

/-- With a legal header both answers turn on the port, and then on the length. -/
theorem readPkt_eq_decode_iff_sameUdp (hfits : (payload frame).length ≤ len.toNat)
    (hfor : ForNode hdrs m p) (hlegal : Legal frame) :
    readPkt hdrs m p len = decode hdrs frame ↔ SameUdp hdrs frame m p len := by
  rw [decode_of_legal hmem hframe hfor hlegal]
  by_cases hport : dport frame = hdrs.udp.uhSport
  · rw [if_pos hport]
    by_cases hfixed : m.load16 (p + 36) = hdrs.udp.uhSport
    · have hme : isAddressedToMe hdrs m p = true := isAddressedToMe_iff_forNode.mpr ⟨hfor, hfixed⟩
      rw [readPkt_eq_payload_iff hframe hme hlegal hfits]
      exact ⟨fun hudp => ⟨iff_of_true hfixed hport, fun _ => hudp⟩, fun hsame => hsame.2 hport⟩
    · rw [(readPkt_eq_none_iff_port hfor).mpr hfixed]
      constructor
      · exact fun hnone => absurd hnone (Option.some_ne_none _).symm
      · exact fun hsame => absurd (hsame.1.mpr hport) hfixed
  · rw [if_neg hport, readPkt_eq_none_iff_port hfor]
    constructor
    · exact fun hfixed => ⟨iff_of_false hfixed hport, fun hno => absurd hno hport⟩
    · exact fun hsame hfixed => hport (hsame.1.mp hfixed)

/-- The read treats a frame as the decoder does, just when the fixed offsets do no harm. -/
theorem readPkt_eq_decode_iff (hfits : (payload frame).length ≤ len.toNat) :
    readPkt hdrs m p len = decode hdrs frame ↔ Harmless hdrs frame m p len := by
  by_cases hfor : ForNode hdrs m p
  case neg =>
    have hme : isAddressedToMe hdrs m p = false :=
      Bool.eq_false_of_not_eq_true fun hme => hfor (isAddressedToMe_iff_forNode.mp hme).1
    rw [readPkt_none hme, decode_of_other hmem hframe hfor]
    exact ⟨fun _ => .inl hfor, fun _ => rfl⟩
  by_cases hlegal : Legal frame
  case neg =>
    have hnone : decode hdrs frame = none := if_neg fun hdatagram => hlegal hdatagram.2.1
    rw [hnone, readPkt_eq_none_iff_port hfor]
    constructor
    · exact fun hport => .inr (.inr (.inr ⟨hlegal, hport⟩))
    · rintro (hother | hplain | ⟨hno, _⟩ | ⟨_, hport⟩)
      · exact absurd hfor hother
      · exact absurd hplain.legal hlegal
      · exact absurd hno hlegal
      · exact hport
  rw [readPkt_eq_decode_iff_sameUdp hmem hframe hfits hfor hlegal]
  constructor
  · exact fun hudp => .inr (.inr (.inl ⟨hlegal, hudp⟩))
  · rintro (hother | hplain | ⟨_, hudp⟩ | ⟨hno, _⟩)
    · exact absurd hfor hother
    · exact sameUdp_of_plain hmem hframe hplain
    · exact hudp
    · exact absurd hlegal hno

end

/-- The read does this with the packet at `pkt`: it pops it and waits for the next, or it
pops it and returns these bytes. -/
def Treated (hdrs : TxHdrs) (N : NetRing Q) (s : State Q) (pkt : Nat) (call : ReadCall) :
    Option (List Byte) → Prop
  | none => ∃ n, (machine hdrs N).exec s (List.replicate n .read) = some (s.skipped pkt call)
  | some bs => ∃ n, (machine hdrs N).exec s (List.replicate n .read) =
    some (s.returned pkt call (BitVec.ofNat 64 bs.length) (s.node.write call.buf bs))

theorem treated_readPkt (hr : s.read = .filter call) (hc : s.ring.consumer = .block pkt) :
    Treated hdrs N s pkt call (readPkt hdrs s.ring.mem pkt call.len) := by
  cases hread : readPkt hdrs s.ring.mem pkt call.len with
  | none => exact ⟨4, exec_readPkt_none hr hc hread⟩
  | some bs => exact exec_readPkt_some hr hc hread

/-- **A read returns the payloads of the datagrams to the node** just when the fixed
offsets do no harm. For a read that comes to a packet, with a consistent frame at the
start of its block, whatever is behind it, and room for the payload in the caller's
buffer: what it does with the packet is what the decoder says of the frame, to return
exactly the payload of a datagram and to pass over everything else, if and only if the
frame is not for the node by the fields that have one place; or has neither options nor
a fragment's fields; or has options over which the bytes at the fixed offsets agree with
its UDP header; or has no legal header and not the node's port at 36. -/
theorem read_datagram_iff (hr : s.read = .filter call) (hc : s.ring.consumer = .block pkt)
    (hmem : s.ring.mem.read pkt frame.length = frame) (hframe : Consistent frame)
    (hfits : (payload frame).length ≤ call.len.toNat) :
    let answer := readPkt hdrs s.ring.mem pkt call.len
    Treated hdrs N s pkt call answer ∧
      (answer = decode hdrs frame ↔ Harmless hdrs frame s.ring.mem pkt call.len) :=
  ⟨treated_readPkt hr hc, readPkt_eq_decode_iff hmem hframe hfits⟩

/-- A read that has come to a packet of one byte from the peer. -/
theorem read_datagram_one :
    ∃ s, (machine pingPongHdrs (listRing 2)).Reach smallStart s ∧
      let answer := readPkt pingPongHdrs s.ring.mem 0 512
      Treated pingPongHdrs (listRing 2) s 0 ⟨0, 512⟩ answer ∧
        (answer = decode pingPongHdrs (toNode [7]) ↔
          Harmless pingPongHdrs (toNode [7]) s.ring.mem 0 512) := by
  obtain ⟨s, hreach, hr, hc, hmem⟩ := (machine pingPongHdrs (listRing 2)).exists_reach
    (P := fun s => s.read = .filter ⟨0, 512⟩ ∧ s.ring.consumer = .block 0 ∧
      s.ring.mem.read 0 (toNode [7]).length = toNode [7])
    (s := smallStart)
    (runFault [toNode [7]] ++ runDrain ++ [.call (fun _ => 9) ⟨0, 512⟩] ++ List.replicate 8 .read)
    (by decide +kernel)
  exact ⟨s, hreach, read_datagram_iff hr hc hmem ⟨by decide +kernel, by decide +kernel,
    by decide +kernel⟩ (by decide +kernel)⟩

/-- A datagram to the node whose IP header has one word of options (four no-operations). -/
def optionFrame : List Byte :=
  (((toNode [7]).take 34 ++ [1, 1, 1, 1] ++ (toNode [7]).drop 34).set 14 0x46).set 17 33

/-- A later fragment of a packet to the node, with data that looks like a UDP header. -/
def laterFragment : List Byte := (toNode [9]).set 21 1

/-- The datagram is passed over, and the fragment is taken for one. -/
theorem read_takes_fragment :
    Consistent optionFrame ∧ decode pingPongHdrs optionFrame = some [7] ∧
      Consistent laterFragment ∧ decode pingPongHdrs laterFragment = none ∧
        ∃ s, (machine pingPongHdrs (listRing 2)).Reach smallStart s ∧
          s.sent = [optionFrame, laterFragment] ∧ s.ring.popped = 2 ∧
            s.results.map (fun r => (r.call, r.ret, r.after 0)) = [(⟨0, 512⟩, 1, 9)] := by
  refine ⟨⟨by decide +kernel, by decide +kernel, by decide +kernel⟩, by decide +kernel,
    ⟨by decide +kernel, by decide +kernel, by decide +kernel⟩, by decide +kernel, ?_⟩
  exact (machine pingPongHdrs (listRing 2)).exists_reach
    (runFault [optionFrame, laterFragment] ++ runDrain ++ runDrain ++ [.call (fun _ => 0) ⟨0, 512⟩] ++
      List.replicate 22 .read)
    (by decide +kernel)

end MicroRosDemos.Sel4.FromGuest
