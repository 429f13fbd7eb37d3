import MicroRosDemos.Net.Packet

/-!
# What `make_pkt` builds

`make_pkt` writes its structures, then goes back to patch four fields. Whatever
the block held before, the outcome is one write of the same bytes
(`makePkt_eq_write`): the patches fall inside what was already written, and the
checksum reads nothing else, because the node's IP header has no options.
-/

namespace MicroRosDemos.Net

open MicroRosDemos.Lib

/-! ## The checksum of a written header -/

/-- The sum looks at its own words only. -/
theorem sumWords_congr {m m' : Mem} {buf buf' : Nat} :
    ∀ {n : Nat}, (∀ i, i < 2 * n → m (buf + i) = m' (buf' + i)) →
      sumWords m buf n = sumWords m' buf' n
  | 0, _ => rfl
  | n + 1, h => by
    have hword : m.load16 (buf + 2 * n) = m'.load16 (buf' + 2 * n) := by
      refine Mem.load16_congr fun i hi => ?_
      have := h (2 * n + i) (by omega)
      rwa [← Nat.add_assoc, ← Nat.add_assoc] at this
    simp only [sumWords, hword]
    rw [sumWords_congr fun i hi => h i (by omega)]

/-- The checksum field of a header of 20 bytes that starts 14 bytes into `bs`. -/
def ipChksum (bs : List Byte) : BitVec 16 :=
  (~~~foldSum (sumWords (Mem.ofList (Mem.overlay 24 (le16 0) bs)) 14 10)).setWidth 16

/-- `set_ip_chksum` on a written header without options patches two of the
written bytes. -/
theorem setIpChksum_write (m : Mem) (p : Nat) {bs : List Byte} (hlen : 34 ≤ bs.length)
    {first : Byte} (hfirst : bs[14]? = some first) (hihl : first.setWidth 4 = 5#4) :
    setIpChksum (m.write p bs) (p + 14) =
      m.write p (Mem.overlay 24 (le16 (ipChksum bs)) bs) := by
  have hfit : 24 + (le16 0).length ≤ bs.length := by simp; omega
  have hzero : (m.write p bs).write (p + 14 + 10) (le16 0) =
      m.write p (Mem.overlay 24 (le16 0) bs) := Mem.write_inside_write m p _ _ hfit
  have hzlen : (Mem.overlay 24 (le16 0) bs).length = bs.length := Mem.overlay_length hfit
  have hbyte : m.write p (Mem.overlay 24 (le16 0) bs) (p + 14) = first := by
    rw [Mem.write_add, Mem.overlay_getElem? hfit, if_neg (by omega), hfirst]
    rfl
  have hsum : sumWords (m.write p (Mem.overlay 24 (le16 0) bs)) (p + 14) 10 =
      sumWords (Mem.ofList (Mem.overlay 24 (le16 0) bs)) 14 10 := by
    refine sumWords_congr fun i hi => ?_
    rw [Nat.add_assoc, Mem.write_add, Mem.ofList, List.getD_eq_getElem?_getD,
      List.getElem?_eq_getElem (by omega)]
    rfl
  have hpatch : (m.write p (Mem.overlay 24 (le16 0) bs)).write (p + 24) (le16 (ipChksum bs)) =
      m.write p (Mem.overlay 24 (le16 (ipChksum bs)) bs) := by
    rw [← hzero, Nat.add_assoc, Mem.write_write _ _ _ _ (by simp)]
    exact Mem.write_inside_write m p _ _ hfit
  unfold setIpChksum
  dsimp only
  rw [hzero, hbyte, hihl, ← hpatch, ipChksum, ← hsum]
  rfl

/-! ## The whole packet -/

/-- The four structures as first written. -/
def rawPkt (payload : List Byte) (hdrs : TxHdrs) : List Byte :=
  hdrs.eth.bytes ++ hdrs.ip.bytes ++ hdrs.udp.bytes ++ payload

/-- The bytes `make_pkt` leaves for a payload: its four patches over the
structures as first written. -/
def pktBytes (payload : List Byte) (hdrs : TxHdrs) : List Byte :=
  let raw := rawPkt payload hdrs
  let raw := Mem.overlay 16 (le16 (htons (BitVec.ofNat 16 (28 + payload.length)))) raw
  let raw := Mem.overlay 24 (le16 (ipChksum raw)) raw
  let raw := Mem.overlay 38 (le16 (htons (BitVec.ofNat 16 (8 + payload.length)))) raw
  Mem.overlay 40 (le16 0) raw

theorem rawPkt_length (payload : List Byte) (hdrs : TxHdrs) :
    (rawPkt payload hdrs).length = 42 + payload.length := by
  simp only [rawPkt, List.length_append, Ethhdr.bytes_length, Iphdr.bytes_length,
    Udphdr.bytes_length]

/-- The first byte of the IP header stays what the structure has there. -/
theorem rawPkt_getElem?_ihl (payload : List Byte) (hdrs : TxHdrs) :
    (rawPkt payload hdrs)[14]? = some (hdrs.ip.version ++ hdrs.ip.ihl) := by
  have heth : hdrs.eth.bytes.length = 14 := Ethhdr.bytes_length _
  unfold rawPkt
  rw [List.append_assoc, List.append_assoc, List.getElem?_append_right (by omega), heth]
  rfl

/-- The lengths after each patch, in the order `pktBytes` makes them. -/
private theorem patch_lengths (payload : List Byte) (raw : List Byte) (c t u : List Byte)
    (hraw : raw.length = 42 + payload.length) (hc : c.length = 2) (ht : t.length = 2)
    (hu : u.length = 2) :
    (Mem.overlay 16 t raw).length = 42 + payload.length ∧
      (Mem.overlay 24 c (Mem.overlay 16 t raw)).length = 42 + payload.length ∧
      (Mem.overlay 38 u (Mem.overlay 24 c (Mem.overlay 16 t raw))).length = 42 + payload.length := by
  have h₁ : (Mem.overlay 16 t raw).length = 42 + payload.length :=
    (Mem.overlay_length (by omega)).trans hraw
  have h₂ : (Mem.overlay 24 c (Mem.overlay 16 t raw)).length = 42 + payload.length :=
    (Mem.overlay_length (by omega)).trans h₁
  exact ⟨h₁, h₂, (Mem.overlay_length (by omega)).trans h₂⟩

theorem pktBytes_length (payload : List Byte) (hdrs : TxHdrs) :
    (pktBytes payload hdrs).length = 42 + payload.length := by
  obtain ⟨_, _, h₃⟩ := patch_lengths payload (rawPkt payload hdrs) _ _ _
    (rawPkt_length payload hdrs) (le16_length _) (le16_length _) (le16_length _)
  exact (Mem.overlay_length (by rw [h₃, le16_length]; omega)).trans h₃

/-- **What `make_pkt` builds.** Whatever the memory held, `make_pkt` with an IP
header without options is one write of `42 + len` bytes that depend on the
payload and the headers only. -/
theorem makePkt_eq_write (m : Mem) (p : Nat) (payload : List Byte) {hdrs : TxHdrs}
    (hihl : hdrs.ip.ihl = 5) :
    makePkt m p payload hdrs.eth hdrs.ip hdrs.udp = m.write p (pktBytes payload hdrs) := by
  have hraw := rawPkt_length payload hdrs
  have hstore : ((((m.write p hdrs.eth.bytes).write (p + 14) hdrs.ip.bytes).write (p + 14 + 20)
      hdrs.udp.bytes).write (p + 14 + 20 + 8) payload) = m.write p (rawPkt payload hdrs) := by
    have h₁ := Mem.write_append m p hdrs.eth.bytes hdrs.ip.bytes
    have h₂ := Mem.write_append m p (hdrs.eth.bytes ++ hdrs.ip.bytes) hdrs.udp.bytes
    have h₃ := Mem.write_append m p (hdrs.eth.bytes ++ hdrs.ip.bytes ++ hdrs.udp.bytes) payload
    simp only [List.length_append, Ethhdr.bytes_length, Iphdr.bytes_length,
      Udphdr.bytes_length, Nat.add_assoc, Nat.reduceAdd] at h₁ h₂ h₃ ⊢
    rw [h₁, h₂, h₃, rawPkt]
  obtain ⟨h₁, h₂, h₃⟩ := patch_lengths payload (rawPkt payload hdrs)
    (le16 (ipChksum (Mem.overlay 16 (le16 (htons (BitVec.ofNat 16 (28 + payload.length))))
      (rawPkt payload hdrs))))
    (le16 (htons (BitVec.ofNat 16 (28 + payload.length))))
    (le16 (htons (BitVec.ofNat 16 (8 + payload.length)))) hraw rfl rfl rfl
  -- the patch of tot_len leaves the first byte of the IP header alone
  have hfirst : (Mem.overlay 16 (le16 (htons (BitVec.ofNat 16 (28 + payload.length))))
      (rawPkt payload hdrs))[14]? = some (hdrs.ip.version ++ hdrs.ip.ihl) := by
    rw [Mem.overlay_getElem? (by rw [hraw, le16_length]; omega), if_neg (by omega)]
    exact rawPkt_getElem?_ihl payload hdrs
  have hnibble : (hdrs.ip.version ++ hdrs.ip.ihl).setWidth 4 = 5#4 := by
    rw [BitVec.setWidth_append]
    simpa using hihl
  unfold makePkt
  simp only [ethLen, ipLen, udpLen]
  rw [hstore, Nat.add_assoc p 14 2, Mem.write_inside_write m p _ _ (by rw [hraw, le16_length]; omega),
    setIpChksum_write m p (by omega) hfirst hnibble, Nat.add_assoc, Nat.add_assoc,
    Mem.write_inside_write m p _ _ (by rw [h₂, le16_length]; omega), Nat.add_assoc, Nat.add_assoc,
    Mem.write_inside_write m p _ _ (by rw [h₃, le16_length]; omega)]
  rfl

/-- The UDP length of the packet, where `make_pkt` puts it. -/
theorem pktBytes_getElem?_ulen (payload : List Byte) (hdrs : TxHdrs) {i : Nat} (hi : i < 2) :
    (pktBytes payload hdrs)[38 + i]? =
      (le16 (htons (BitVec.ofNat 16 (8 + payload.length))))[i]? := by
  obtain ⟨_, h₂, h₃⟩ := patch_lengths payload (rawPkt payload hdrs)
    (le16 (ipChksum (Mem.overlay 16 (le16 (htons (BitVec.ofNat 16 (28 + payload.length))))
      (rawPkt payload hdrs))))
    (le16 (htons (BitVec.ofNat 16 (28 + payload.length))))
    (le16 (htons (BitVec.ofNat 16 (8 + payload.length)))) (rawPkt_length _ _) rfl rfl rfl
  unfold pktBytes
  dsimp only
  rw [Mem.overlay_getElem? (by rw [h₃, le16_length]; omega), if_neg (by omega),
    Mem.overlay_getElem? (by rw [h₂, le16_length]; omega), if_pos (by simp; omega),
    Nat.add_sub_cancel_left]

/-- `get_payload_len` of a packet that `make_pkt` built is the length of its payload. -/
theorem getPayloadLen_makePkt (m : Mem) (p : Nat) {payload : List Byte} {hdrs : TxHdrs}
    (hihl : hdrs.ip.ihl = 5) (hlen : payload.length ≤ 1500) :
    getPayloadLen (makePkt m p payload hdrs.eth hdrs.ip hdrs.udp) p =
      BitVec.ofNat 64 payload.length := by
  have hfield : (makePkt m p payload hdrs.eth hdrs.ip hdrs.udp).load16 (p + 38) =
      htons (BitVec.ofNat 16 (8 + payload.length)) := by
    rw [makePkt_eq_write _ _ _ hihl]
    refine Mem.load16_eq ?_ ?_
    · rw [Mem.write_add, pktBytes_getElem?_ulen payload hdrs (i := 0) (by omega)]
      rfl
    · rw [Nat.add_assoc, Mem.write_add, pktBytes_getElem?_ulen payload hdrs (i := 1) (by omega)]
      rfl
  have height : (8 : BitVec 64).toNat = 8 := rfl
  unfold getPayloadLen
  simp only [ethLen, ipLen, Nat.add_assoc, Nat.reduceAdd]
  rw [hfield, htons, bswap16_bswap16]
  apply BitVec.eq_of_toNat_eq
  simp only [BitVec.toNat_sub, BitVec.toNat_setWidth, BitVec.toNat_ofNat, height]
  omega

/-- `pkt_len` of a packet that `make_pkt` built is the length of what it wrote. -/
theorem pktLen_makePkt (m : Mem) (p : Nat) {payload : List Byte} {hdrs : TxHdrs}
    (hihl : hdrs.ip.ihl = 5) (hlen : payload.length ≤ 1500) :
    (pktLen (makePkt m p payload hdrs.eth hdrs.ip hdrs.udp) p).toNat = 42 + payload.length := by
  rw [pktLen, getPayloadLen_makePkt m p hihl hlen]
  simp only [hdrsLen, ethLen, ipLen, udpLen, BitVec.toNat_add, BitVec.toNat_ofNat]
  omega

/-! ## The length it states -/

/-- The MTU of Ethernet, and the longest frame. -/
def ethMtu : Nat := 1500

def ethFrameMax : Nat := ethLen + ethMtu

/-- `tot_len` of a packet that `make_pkt` built. -/
theorem totLen_makePkt (m : Mem) (p : Nat) (payload : List Byte) (ethHdr : Ethhdr) (ipHdr : Iphdr)
    (udpHdr : Udphdr) :
    (makePkt m p payload ethHdr ipHdr udpHdr).load16 (p + 16) =
      htons (BitVec.ofNat 16 (ipLen + udpLen + payload.length)) := by
  refine Mem.load16_eq_iff.mpr ?_
  unfold makePkt setIpChksum
  simp only [ethLen, ipLen, udpLen, Nat.add_assoc, Nat.reduceAdd]
  -- the checksum and the UDP fields are written behind it
  rw [Mem.read_write_disjoint _ _ _ _ (.inl (by omega)), Mem.read_write_disjoint _ _ _ _ (.inl (by omega)),
    Mem.read_write_disjoint _ _ _ _ (.inl (by omega)), Mem.read_write_disjoint _ _ _ _ (.inl (by omega))]
  exact Mem.read_write_self _ _ _

end MicroRosDemos.Net
