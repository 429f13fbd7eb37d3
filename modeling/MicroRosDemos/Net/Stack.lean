import MicroRosDemos.Net.Checksum
import MicroRosDemos.Net.RoundTrip
import MicroRosDemos.Net.Datagram

/-!
# The guest's network stack

The kernel under `vm_echo` is not part of the repository, so it is a parameter: what a
frame brings to the socket, and the frame that a datagram is sent in. `Stack.Serves` is
what is documented of it, in terms of the decoder that goes by the standard. That the
packets of `make_pkt` are such datagrams is proved here (`decode_pktBytes`).
-/

namespace MicroRosDemos.Net

open MicroRosDemos.Lib

/-- `struct sockaddr_in`, in network order. -/
structure SockaddrIn where
  sinAddr : BitVec 32
  sinPort : BitVec 16
deriving DecidableEq

/-- A datagram, with where it comes from or where it goes. -/
structure Dgram where
  peer : SockaddrIn
  data : List Byte
deriving DecidableEq

/-- Where the packets with these headers come from. -/
def TxHdrs.source (hdrs : TxHdrs) : SockaddrIn := ⟨hdrs.ip.saddr, hdrs.udp.uhSport⟩

namespace Datagram

/-- Where a frame says that it comes from. -/
def source (frame : List Byte) : SockaddrIn :=
  ⟨(Mem.ofList frame).load32 26, (Mem.ofList frame).load16 (udpAt frame)⟩

/-- The header checksum is right, and the UDP checksum is not used. -/
structure Checked (frame : List Byte) : Prop where
  ip : onesSum (netWords (Mem.ofList frame) 14 (2 * ihl frame)) = 0xFFFF
  udp : (Mem.ofList frame).load16 (udpAt frame + 6) = 0

end Datagram

/-- The stack of the guest: the datagram that a frame brings to the socket, and the
frame of a datagram that the socket sends. -/
structure Stack where
  recv : List Byte → Option Dgram
  send : Dgram → List Byte

open Datagram in
/-- What the stack does at an address: a datagram to it that is whole, within the MTU
and rightly summed comes to the socket with its payload and its sender, and what the
socket sends to the node is such a datagram, unfragmented while it fits the MTU. -/
structure Stack.Serves (K : Stack) (guest node : TxHdrs) : Prop where
  recv : ∀ frame payload, Consistent frame → Datagram.totLen frame ≤ ethMtu → Checked frame →
    decode guest frame = some payload → K.recv frame = some ⟨Datagram.source frame, payload⟩
  send : ∀ payload : List Byte, ipLen + udpLen + payload.length ≤ ethMtu →
    let frame := K.send ⟨node.source, payload⟩
    frame.length ≤ ethFrameMax ∧ Consistent frame ∧ Plain frame ∧ decode node frame = some payload

/-! ## The packets of `make_pkt` -/

namespace Datagram

variable {hdrs node : TxHdrs} {payload trailing : List Byte} {m : Mem}

theorem setWidth_eq_extract (b : Byte) : b.setWidth 4 = b.extractLsb' 0 4 := by
  apply BitVec.eq_of_toNat_eq
  rw [BitVec.toNat_setWidth, BitVec.extractLsb'_toNat, Nat.shiftRight_zero]

theorem shiftRight_toNat (b : Byte) : (b >>> 4).toNat = (b.extractLsb' 4 4).toNat := by
  have hlt := b.isLt
  rw [BitVec.toNat_ushiftRight, BitVec.extractLsb'_toNat, Nat.shiftRight_eq_div_pow,
    Nat.mod_eq_of_lt (by omega)]

/-- The headers at the start of a frame that begins with a packet. -/
structure Begins (hdrs : TxHdrs) (payload : List Byte) (frame : List Byte) : Prop where
  length : 42 + payload.length ≤ frame.length
  eth : Ethhdr.load (Mem.ofList frame) 0 = hdrs.eth
  ip : Iphdr.load (Mem.ofList frame) 14 = hdrs.ip
  udp : Udphdr.load (Mem.ofList frame) 34 = hdrs.udp
  data : (frame.drop 42).take payload.length = payload

theorem begins_rawPkt (payload : List Byte) (hdrs : TxHdrs) (trailing : List Byte) :
    Begins hdrs payload (rawPkt payload hdrs ++ trailing) := by
  have hlen := rawPkt_length payload hdrs
  have hall : Holds (Mem.ofList (rawPkt payload hdrs ++ trailing)) 0 (rawPkt payload hdrs ++ trailing) :=
    Mem.read_ofList _
  obtain ⟨heth, hip, hudp, hdata⟩ := holds_rawPkt (holds_append.mp hall).1
  refine ⟨?_, heth, hip, hudp, ?_⟩
  · rw [List.length_append]
    omega
  · have hself : (Mem.ofList (rawPkt payload hdrs ++ trailing)).read 0
        (rawPkt payload hdrs ++ trailing).length = rawPkt payload hdrs ++ trailing := Mem.read_ofList _
    rw [← read_of_read (a := 42) hself (by rw [List.length_append]; omega)]
    exact hdata

section
variable {frame : List Byte} (h : Begins hdrs payload frame)
include h

theorem Begins.ihl : Datagram.ihl frame = hdrs.ip.ihl.toNat := by
  rw [← congrArg Iphdr.ihl h.ip, Datagram.ihl, setWidth_eq_extract]
  rfl

theorem Begins.version : Datagram.version frame = hdrs.ip.version.toNat := by
  rw [← congrArg Iphdr.version h.ip, Datagram.version, shiftRight_toNat]
  rfl

theorem Begins.totLen : Datagram.totLen frame = (htons hdrs.ip.totLen).toNat := by
  rw [← congrArg Iphdr.totLen h.ip]
  rfl

theorem Begins.fragOff : Datagram.fragOff frame = htons hdrs.ip.fragOff := by
  rw [← congrArg Iphdr.fragOff h.ip]
  rfl

/-- Where the UDP header stands, without options, and what it says. -/
theorem Begins.udpHdr (hihl : hdrs.ip.ihl = 5) :
    udpAt frame = 34 ∧ dport frame = hdrs.udp.uhDport ∧
      ulen frame = (htons hdrs.udp.uhUlen).toNat ∧
        Datagram.source frame = hdrs.source ∧ (Mem.ofList frame).load16 (udpAt frame + 6) = hdrs.udp.uhSum := by
  have hat : udpAt frame = 34 := by
    rw [udpAt, h.ihl, hihl]
    rfl
  have hsaddr : (Mem.ofList frame).load32 26 = hdrs.ip.saddr := congrArg Iphdr.saddr h.ip
  have hsport : (Mem.ofList frame).load16 34 = hdrs.udp.uhSport := congrArg Udphdr.uhSport h.udp
  have hdport : (Mem.ofList frame).load16 (34 + 2) = hdrs.udp.uhDport := congrArg Udphdr.uhDport h.udp
  have hulen : (Mem.ofList frame).load16 (34 + 4) = hdrs.udp.uhUlen := congrArg Udphdr.uhUlen h.udp
  have hsum : (Mem.ofList frame).load16 (34 + 6) = hdrs.udp.uhSum := congrArg Udphdr.uhSum h.udp
  unfold dport ulen Datagram.source TxHdrs.source
  rw [hat, hdport, hulen, hsaddr, hsport, hsum]
  exact ⟨rfl, rfl, rfl, rfl, rfl⟩

/-- The fields that the node's filter looks at. -/
theorem Begins.forNode (hudp : hdrs.ip.protocol = ipprotoUdp) (hnode : Net.ForNode node hdrs) :
    Datagram.ForNode node (Mem.ofList frame) 0 := by
  have hmac : (Ethhdr.load (Mem.ofList frame) 0).hDest.toList = (Mem.ofList frame).read 0 6 :=
    vector_ofFn_toList _ 0 6
  refine ⟨?_, ?_, ?_, ?_⟩
  · rw [← hmac, h.eth, hnode.mac]
  · exact (congrArg Ethhdr.hProto h.eth).trans hnode.proto
  · exact (congrArg Iphdr.protocol h.ip).trans hudp
  · exact (congrArg Iphdr.daddr h.ip).trans hnode.ip

end

/-- An IP header without options that says UDP, of a packet that is not a fragment. -/
structure PlainHdrs (hdrs : TxHdrs) : Prop where
  version : hdrs.ip.version = 4
  ihl : hdrs.ip.ihl = 5
  fragOff : hdrs.ip.fragOff = 0
  protocol : hdrs.ip.protocol = ipprotoUdp

/-- The headers of `transport_init` are such. -/
theorem plainHdrs_make {srcMac dstMac : Vector Byte 6} {srcIp dstIp : BitVec 32}
    {srcPort dstPort : BitVec 16} {udpHdr : Udphdr} :
    PlainHdrs (.make srcMac dstMac srcIp dstIp srcPort dstPort udpHdr) := ⟨rfl, rfl, rfl, rfl⟩

/-- The headers of the packets to a node are for it. -/
theorem forNode_make {mac mac' : Vector Byte 6} {ip ip' : BitVec 32} {port port' : BitVec 16}
    {udpHdr udpHdr' : Udphdr} :
    Net.ForNode (.make mac mac' ip ip' port port' udpHdr) (.make mac' mac ip' ip port' port udpHdr') :=
  ⟨rfl, rfl, rfl, rfl⟩

/-- The header of a packet that `make_pkt` built sums to all ones. -/
theorem onesSum_pktBytes (hihl : hdrs.ip.ihl = 5) (payload trailing : List Byte) :
    onesSum (netWords (Mem.ofList (pktBytes payload hdrs ++ trailing)) 14 10) = 0xFFFF := by
  obtain ⟨stored, hstored⟩ : ∃ m : Mem, m = ((((Mem.ofList []).write 0 hdrs.eth.bytes).write 14
      hdrs.ip.bytes).write 34 hdrs.udp.bytes).write 42 payload := ⟨_, rfl⟩
  -- the header when `set_ip_chksum` looks at it
  obtain ⟨m, hm⟩ : ∃ m : Mem, m = stored.write 16
      (le16 (htons (BitVec.ofNat 16 (ipLen + udpLen + payload.length)))) := ⟨_, rfl⟩
  have hbuilt : makePkt (Mem.ofList []) 0 payload hdrs.eth hdrs.ip hdrs.udp =
      ((setIpChksum m 14).write 38 (le16 (htons (BitVec.ofNat 16 (udpLen + payload.length))))).write 40
        (le16 0) := by
    unfold makePkt
    simp only [ethLen, ipLen, udpLen, Nat.zero_add, Nat.reduceAdd] at hm ⊢
    rw [hm, hstored]
  have hfirst : ((m 14).setWidth 4).toNat = 5 := by
    have hbyte : m 14 = hdrs.ip.version ++ hdrs.ip.ihl := by
      rw [hm, hstored, Mem.write_outside _ _ _ (.inl (by omega)), Mem.write_outside _ _ _ (.inl (by omega)),
        Mem.write_outside _ _ _ (.inl (by omega))]
      exact Mem.write_add _ _ _ 0
    rw [hbyte, BitVec.setWidth_append, dif_pos (Nat.le_refl 4), BitVec.setWidth_eq, hihl]
    rfl
  have hverifies := (setIpChksum_checksummed m 14 (by omega)).verifies
  have hwords : headerWords m 14 = 10 := by rw [headerWords, hfirst]
  rw [hwords] at hverifies
  suffices hsame : nativeWords (Mem.ofList (pktBytes payload hdrs ++ trailing)) 14 10 =
      nativeWords (setIpChksum m 14) 14 10 by
    rw [netWords_eq, hsame, ← netWords_eq]
    exact hverifies
  refine nativeWords_congr fun a hlo hhi => ?_
  have hlen := pktBytes_length payload hdrs
  have hget : (pktBytes payload hdrs ++ trailing)[a]? = (pktBytes payload hdrs)[a]? :=
    List.getElem?_append_left (by omega)
  have hwrite := makePkt_eq_write (Mem.ofList []) 0 payload hihl
  rw [hbuilt] at hwrite
  have hsame : setIpChksum m 14 a = (Mem.ofList []).write 0 (pktBytes payload hdrs) a := by
    rw [← hwrite, Mem.write_outside _ _ _ (.inl (by omega)), Mem.write_outside _ _ _ (.inl (by omega))]
  have hbyte := Mem.write_add (Mem.ofList []) 0 (pktBytes payload hdrs) a
  rw [Nat.zero_add] at hbyte
  rw [hsame, hbyte, Mem.ofList, List.getD_eq_getElem?_getD, hget]
  rfl

/-- **The packets of `make_pkt` are datagrams.** The decoder finds the payload and the
sender in what `make_pkt` built, whatever follows it, and its checksum is right. -/
theorem decode_pktBytes (hplain : PlainHdrs hdrs) (hnode : Net.ForNode node hdrs)
    (hlen : 28 + payload.length < 2 ^ 16) (trailing : List Byte) :
    let frame := pktBytes payload hdrs ++ trailing
    Consistent frame ∧ Plain frame ∧ Datagram.totLen frame = 28 + payload.length ∧ Checked frame ∧
      Datagram.source frame = hdrs.source ∧ decode node frame = some payload := by
  intro frame
  have hlength : frame.length = 42 + payload.length + trailing.length := by
    rw [List.length_append, pktBytes_length]
  obtain ⟨check, hbytes⟩ := pktBytes_eq payload hdrs
  have h : Begins (sentHdrs payload hdrs check) payload frame := by
    show Begins _ _ (pktBytes payload hdrs ++ trailing)
    rw [hbytes]
    exact begins_rawPkt _ _ _
  obtain ⟨hat, hdport, hulen, hsource, hsum⟩ := h.udpHdr hplain.ihl
  have hihl : Datagram.ihl frame = 5 := by
    rw [h.ihl]
    exact congrArg BitVec.toNat hplain.ihl
  have htot : Datagram.totLen frame = 28 + payload.length := by
    rw [h.totLen]
    show (htons (htons _)).toNat = _
    rw [htons, bswap16_bswap16, BitVec.toNat_ofNat, Nat.mod_eq_of_lt (by omega)]
  have hudplen : ulen frame = 8 + payload.length := by
    rw [hulen]
    show (htons (htons _)).toNat = _
    rw [htons, bswap16_bswap16, BitVec.toNat_ofNat, Nat.mod_eq_of_lt (by omega)]
  have hframe : Plain frame := by
    refine ⟨?_, hihl, ?_⟩
    · rw [h.version]
      exact congrArg BitVec.toNat hplain.version
    · rw [h.fragOff]
      show htons hdrs.ip.fragOff &&& 0x3FFF = 0
      rw [hplain.fragOff]
      rfl
  have hconsistent : Consistent frame := by
    refine ⟨?_, ?_, ?_⟩ <;> simp only [ethLen, udpLen, htot, hihl, hudplen, hlength] <;> omega
  refine ⟨hconsistent, hframe, htot, ⟨?_, hsum⟩, hsource, ?_⟩
  · rw [hihl]
    exact onesSum_pktBytes hplain.ihl payload trailing
  · have hfor : Datagram.ForNode node (Mem.ofList frame) 0 :=
      h.forNode hplain.protocol ⟨hnode.mac, hnode.proto, hnode.ip, hnode.port⟩
    have hport : dport frame = node.udp.uhSport := hdport.trans hnode.port
    have hpayload : Datagram.payload frame = payload := by
      rw [Datagram.payload, hat, hudplen]
      simp only [udpLen, Nat.reduceAdd, Nat.add_sub_cancel_left]
      exact h.data
    rw [decode, if_pos ⟨hfor, hframe.legal, hport⟩, hpayload]

/-- **`make_pkt` makes datagrams.** Wherever it builds a packet and whatever is in the
buffer, a receiver that goes by the standard finds a datagram there: lengths that fit, a
header that sums to all ones, no fragment, the sender's address and port, and the payload. -/
theorem makePkt_datagram (hplain : PlainHdrs hdrs) (hnode : Net.ForNode node hdrs)
    (hlen : 28 + payload.length < 2 ^ 16) (m : Mem) (outBuf n : Nat) :
    let frame := (makePkt m outBuf payload hdrs.eth hdrs.ip hdrs.udp).read outBuf
      (42 + payload.length + n)
    Consistent frame ∧ Plain frame ∧ Datagram.totLen frame = 28 + payload.length ∧ Checked frame ∧
      Datagram.source frame = hdrs.source ∧ decode node frame = some payload := by
  have hbytes := pktBytes_length payload hdrs
  have hframe : (makePkt m outBuf payload hdrs.eth hdrs.ip hdrs.udp).read outBuf
      (42 + payload.length + n) = pktBytes payload hdrs ++ m.read (outBuf + (42 + payload.length)) n := by
    rw [makePkt_eq_write m outBuf payload hplain.ihl, Mem.read_write _ _ _ _ (by omega), hbytes,
      Nat.add_sub_cancel_left]
  rw [hframe]
  exact decode_pktBytes hplain hnode hlen _

/-- Two bytes to the node's peer, in a buffer that is not clean. -/
theorem makePkt_datagram_two :
    decode peerHdrs ((makePkt (fun _ => 7) 100 [5, 6] pingPongHdrs.eth pingPongHdrs.ip
      pingPongHdrs.udp).read 100 60) = some [5, 6] :=
  (makePkt_datagram plainHdrs_make forNode_make (by decide) (fun _ => 7) 100 16).2.2.2.2.2

/-! ## What the node makes of a datagram -/

/-- A plain datagram to the node passes its filter, states lengths that fit, and has its
payload where the node looks for it. -/
theorem frameOk_of_decode {frame : List Byte} (hconsistent : Consistent frame) (hframe : Plain frame)
    (hlen : frame.length ≤ ethFrameMax) (hdecode : decode node frame = some payload) :
    FrameOk node frame ∧ addressed node frame = true ∧ udpPayload frame = payload := by
  have hat : udpAt frame = 34 := by rw [udpAt, hframe.2.1]
  obtain ⟨hulen, hfits, _⟩ := lengths_of_consistent hconsistent hframe.legal
  unfold decode at hdecode
  split at hdecode
  · next hdatagram =>
    have hsame : uhUlen frame = ulen frame := by rw [uhUlen, ulen, hat]
    rw [hat] at hfits
    simp only [udpLen, ethFrameMax, ethMtu, ethLen] at hulen hlen
    refine ⟨⟨by omega, by omega, fun _ => by omega⟩, ?_, ?_⟩
    · refine isAddressedToMe_iff_forNode.mpr ⟨hdatagram.1, ?_⟩
      have hport := hdatagram.2.2
      rw [dport, hat] at hport
      exact hport
    · rw [udpPayload, hsame, ← Option.some.inj hdecode, Datagram.payload, hat]
      rfl
  · cases hdecode

end Datagram

end MicroRosDemos.Net
