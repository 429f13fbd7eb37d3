import MicroRosDemos.Net.Build
import MicroRosDemos.Net.Filter

/-!
# Building a packet and looking at it are inverse

The headers are loaded field by field where `networking.h` casts its pointers,
and a header that was stored is loaded back (`Ethhdr.load_eq`, `Iphdr.load_eq`,
`Udphdr.load_eq`). What `make_pkt` leaves is the three headers with its four
patches in their fields, then the payload (`pktBytes_eq`), so everything that
looks at the packet finds what was given to `make_pkt` (`makePkt_parses`).
-/

namespace MicroRosDemos.Net

open MicroRosDemos.Lib

variable {m : Mem} {p : Nat}

/-! ## Headers in memory -/

/-- The fields of `*(ethhdr *)p`. -/
def Ethhdr.load (m : Mem) (p : Nat) : Ethhdr where
  hDest := .ofFn fun i => m (p + i)
  hSource := .ofFn fun i => m (p + 6 + i)
  hProto := m.load16 (p + 12)

/-- The fields of `*(iphdr *)p`. -/
def Iphdr.load (m : Mem) (p : Nat) : Iphdr where
  ihl := (m p).extractLsb' 0 4
  version := (m p).extractLsb' 4 4
  tos := m (p + 1)
  totLen := m.load16 (p + 2)
  id := m.load16 (p + 4)
  fragOff := m.load16 (p + 6)
  ttl := m (p + 8)
  protocol := m (p + 9)
  check := m.load16 (p + 10)
  saddr := m.load32 (p + 12)
  daddr := m.load32 (p + 16)

/-- The fields of `*(udphdr *)p`. -/
def Udphdr.load (m : Mem) (p : Nat) : Udphdr where
  uhSport := m.load16 p
  uhDport := m.load16 (p + 2)
  uhUlen := m.load16 (p + 4)
  uhSum := m.load16 (p + 6)

/-- Memory holds these bytes from `p` on. -/
def Holds (m : Mem) (p : Nat) (bs : List Byte) : Prop := m.read p bs.length = bs

theorem holds_append {bs cs : List Byte} :
    Holds m p (bs ++ cs) ↔ Holds m p bs ∧ Holds m (p + bs.length) cs := by
  unfold Holds
  rw [List.length_append, Mem.read_add]
  constructor
  · exact fun h => List.append_inj h (Mem.read_length _ _ _)
  · rintro ⟨hbs, hcs⟩
    rw [hbs, hcs]

theorem holds_pair {a b : Byte} : Holds m p [a, b] ↔ m p = a ∧ m (p + 1) = b := by
  have hread : m.read p 2 = [m p, m (p + 1)] := rfl
  rw [Holds, List.length_cons, List.length_singleton, hread, List.cons.injEq, List.cons.injEq]
  exact and_congr_right fun _ => and_iff_left rfl

theorem holds_le16 {v : BitVec 16} : Holds m p (le16 v) ↔ m.load16 p = v := Mem.load16_eq_iff.symm

theorem holds_le32 {v : BitVec 32} : Holds m p (le32 v) ↔ m.load32 p = v := Mem.load32_eq_iff.symm

/-- What was written is there. -/
theorem holds_write (m : Mem) (p : Nat) (bs : List Byte) : Holds (m.write p bs) p bs :=
  Mem.read_write_self m p bs

theorem Udphdr.load_eq {h : Udphdr} (hold : Holds m p h.bytes) : Udphdr.load m p = h := by
  simp only [Udphdr.bytes, holds_append, holds_le16, List.length_append, le16_length,
    Nat.reduceAdd] at hold
  obtain ⟨⟨⟨hsport, hdport⟩, hulen⟩, hsum⟩ := hold
  unfold Udphdr.load
  rw [hsport, hdport, hulen, hsum]

theorem Iphdr.load_eq {h : Iphdr} (hold : Holds m p h.bytes) : Iphdr.load m p = h := by
  simp only [Iphdr.bytes, holds_append, holds_le16, holds_le32, holds_pair, List.length_append,
    List.length_cons, List.length_nil, le16_length, le32_length, Nat.add_assoc, Nat.reduceAdd] at hold
  obtain ⟨⟨⟨⟨⟨⟨⟨⟨hfirst, htos⟩, htot⟩, hid⟩, hfrag⟩, httl, hproto⟩, hcheck⟩, hsaddr⟩, hdaddr⟩ :=
    hold
  have hihl : (h.version ++ h.ihl).extractLsb' 0 4 = h.ihl := BitVec.extractLsb'_append_eq_right
  have hversion : (h.version ++ h.ihl).extractLsb' 4 4 = h.version := BitVec.extractLsb'_append_eq_left
  unfold Iphdr.load
  rw [hfirst, hihl, hversion, htos, htot, hid, hfrag, httl, hproto, hcheck, hsaddr, hdaddr]

theorem vector_load_eq {n : Nat} {v : Vector Byte n} (hold : Holds m p v.toList) :
    Vector.ofFn (fun i : Fin n => m (p + i)) = v := by
  refine Vector.ext fun i hi => ?_
  have hlen : i < (m.read p v.toList.length).length := by
    rw [Mem.read_length, Vector.length_toList]
    exact hi
  have hbyte := Mem.getElem_read m p v.toList.length hlen
  rw [Vector.getElem_ofFn, ← hbyte]
  simp only [show m.read p v.toList.length = v.toList from hold, Vector.getElem_toList]

theorem Ethhdr.load_eq {h : Ethhdr} (hold : Holds m p h.bytes) : Ethhdr.load m p = h := by
  simp only [Ethhdr.bytes, holds_append, holds_le16, List.length_append, Vector.length_toList,
    Nat.reduceAdd] at hold
  obtain ⟨⟨hdest, hsource⟩, hproto⟩ := hold
  unfold Ethhdr.load
  rw [vector_load_eq hdest, vector_load_eq hsource, hproto]

/-! ## The patches in their fields -/

theorem overlay_append_left {k : Nat} {bs cs ds : List Byte} (h : k + bs.length ≤ cs.length) :
    Mem.overlay k bs (cs ++ ds) = Mem.overlay k bs cs ++ ds := by
  unfold Mem.overlay
  rw [List.take_append_of_le_length (by omega), List.drop_append_of_le_length h]
  simp only [List.append_assoc]

theorem overlay_append_right {k : Nat} {bs cs ds : List Byte} (h : cs.length ≤ k) :
    Mem.overlay k bs (cs ++ ds) = cs ++ Mem.overlay (k - cs.length) bs ds := by
  unfold Mem.overlay
  rw [List.take_append, List.take_of_length_le h, List.drop_append, List.drop_eq_nil_of_le (by omega),
    List.nil_append, Nat.sub_add_comm h]
  simp only [List.append_assoc]

/-- A patch inside the IP header of a packet. -/
theorem overlay_ip {k : Nat} {bs : List Byte} (payload : List Byte) (hdrs : TxHdrs)
    (hk : k + bs.length ≤ 20) :
    Mem.overlay (14 + k) bs (rawPkt payload hdrs) =
      hdrs.eth.bytes ++ Mem.overlay k bs hdrs.ip.bytes ++ hdrs.udp.bytes ++ payload := by
  have heth : hdrs.eth.bytes.length = 14 := Ethhdr.bytes_length _
  have hip : hdrs.ip.bytes.length = 20 := Iphdr.bytes_length _
  unfold rawPkt
  rw [overlay_append_left (by simp only [List.length_append, heth, hip]; omega),
    overlay_append_left (by simp only [List.length_append, heth, hip]; omega),
    overlay_append_right (by omega), heth, Nat.add_sub_cancel_left]

/-- A patch inside the UDP header of a packet. -/
theorem overlay_udp {k : Nat} {bs : List Byte} (payload : List Byte) (hdrs : TxHdrs)
    (hk : k + bs.length ≤ 8) :
    Mem.overlay (34 + k) bs (rawPkt payload hdrs) =
      hdrs.eth.bytes ++ hdrs.ip.bytes ++ Mem.overlay k bs hdrs.udp.bytes ++ payload := by
  have hboth : (hdrs.eth.bytes ++ hdrs.ip.bytes).length = 34 := by
    rw [List.length_append, Ethhdr.bytes_length, Iphdr.bytes_length]
  have hudp : hdrs.udp.bytes.length = 8 := Udphdr.bytes_length _
  unfold rawPkt
  rw [overlay_append_left (by rw [List.length_append, hboth, hudp]; omega),
    overlay_append_right (by omega), hboth, Nat.add_sub_cancel_left]

/-- The headers of a packet as `make_pkt` leaves them. -/
def sentHdrs (payload : List Byte) (hdrs : TxHdrs) (check : BitVec 16) : TxHdrs where
  eth := hdrs.eth
  ip := { hdrs.ip with totLen := htons (BitVec.ofNat 16 (28 + payload.length)), check }
  udp := { hdrs.udp with uhUlen := htons (BitVec.ofNat 16 (8 + payload.length)), uhSum := 0 }

/-- **What `make_pkt` leaves** are the three headers with their patched fields, and
the payload. -/
theorem pktBytes_eq (payload : List Byte) (hdrs : TxHdrs) :
    ∃ check, pktBytes payload hdrs = rawPkt payload (sentHdrs payload hdrs check) := by
  have htot (hdrs : TxHdrs) (v : BitVec 16) : Mem.overlay 16 (le16 v) (rawPkt payload hdrs) =
      rawPkt payload { hdrs with ip := { hdrs.ip with totLen := v } } :=
    overlay_ip (k := 2) payload hdrs (by rw [le16_length]; omega)
  have hcheck (hdrs : TxHdrs) (v : BitVec 16) : Mem.overlay 24 (le16 v) (rawPkt payload hdrs) =
      rawPkt payload { hdrs with ip := { hdrs.ip with check := v } } :=
    overlay_ip (k := 10) payload hdrs (by rw [le16_length]; omega)
  have hulen (hdrs : TxHdrs) (v : BitVec 16) : Mem.overlay 38 (le16 v) (rawPkt payload hdrs) =
      rawPkt payload { hdrs with udp := { hdrs.udp with uhUlen := v } } :=
    overlay_udp (k := 4) payload hdrs (by rw [le16_length]; omega)
  have hsum (hdrs : TxHdrs) (v : BitVec 16) : Mem.overlay 40 (le16 v) (rawPkt payload hdrs) =
      rawPkt payload { hdrs with udp := { hdrs.udp with uhSum := v } } :=
    overlay_udp (k := 6) payload hdrs (by rw [le16_length])
  unfold pktBytes
  dsimp only
  rw [htot, hcheck, hulen, hsum]
  exact ⟨_, rfl⟩

/-! ## What a look at the packet finds -/

/-- Everything that looks at the packet at `p` finds the payload and the headers it
was built from, `before` being the memory before. -/
structure Parses (before m : Mem) (p : Nat) (payload : List Byte) (hdrs : TxHdrs) : Prop where
  isUdp : isUdp m p = true
  getPayloadLen : (getPayloadLen m p).toNat = payload.length
  pktLen : (pktLen m p).toNat = 42 + payload.length
  getPayload : m.read (getPayload p) payload.length = payload
  eth : Ethhdr.load m p = hdrs.eth
  ip : ∃ check, Iphdr.load m (p + 14) =
    { hdrs.ip with totLen := (Iphdr.load m (p + 14)).totLen, check }
  totLen : (htons (Iphdr.load m (p + 14)).totLen).toNat = 28 + payload.length
  udp : Udphdr.load m (p + 34) =
    { hdrs.udp with uhUlen := (Udphdr.load m (p + 34)).uhUlen, uhSum := 0 }
  uhUlen : (htons (Udphdr.load m (p + 34)).uhUlen).toNat = 8 + payload.length
  untouched : ∀ a, a < p ∨ p + 42 + payload.length ≤ a → m a = before a

/-- The packet in memory, part by part. -/
theorem holds_rawPkt {payload : List Byte} {hdrs : TxHdrs} (h : Holds m p (rawPkt payload hdrs)) :
    Ethhdr.load m p = hdrs.eth ∧ Iphdr.load m (p + 14) = hdrs.ip ∧
      Udphdr.load m (p + 34) = hdrs.udp ∧ Holds m (p + 42) payload := by
  simp only [rawPkt, holds_append, List.length_append, Ethhdr.bytes_length, Iphdr.bytes_length,
    Udphdr.bytes_length, Nat.reduceAdd] at h
  obtain ⟨⟨⟨heth, hip⟩, hudp⟩, hpayload⟩ := h
  exact ⟨Ethhdr.load_eq heth, Iphdr.load_eq hip, Udphdr.load_eq hudp, hpayload⟩

theorem ofNat16_toNat {n : Nat} (h : n ≤ 1600) : (BitVec.ofNat 16 n).toNat = n := by
  rw [BitVec.toNat_ofNat]
  omega

/-- **Looking at a packet undoes `make_pkt`.** -/
theorem makePkt_parses (m : Mem) (p : Nat) {payload : List Byte} {hdrs : TxHdrs}
    (hihl : hdrs.ip.ihl = 5) (hudp : hdrs.ip.protocol = ipprotoUdp)
    (hlen : payload.length ≤ 1500) :
    Parses m (makePkt m p payload hdrs.eth hdrs.ip hdrs.udp) p payload hdrs := by
  have hlen64 := getPayloadLen_makePkt m p hihl hlen
  have hpkt := pktLen_makePkt m p hihl hlen
  rw [makePkt_eq_write m p payload hihl] at hlen64 hpkt ⊢
  obtain ⟨check, hbytes⟩ := pktBytes_eq payload hdrs
  have hhold := holds_write m p (pktBytes payload hdrs)
  have hframe : ∀ a, a < p ∨ p + 42 + payload.length ≤ a → m.write p (pktBytes payload hdrs) a = m a :=
    fun a ha => Mem.write_outside m p _ (by rw [pktBytes_length]; omega)
  generalize m.write p (pktBytes payload hdrs) = m' at hlen64 hpkt hhold hframe ⊢
  rw [hbytes] at hhold
  obtain ⟨heth, hip, hudp', hpayload⟩ := holds_rawPkt hhold
  have htot : (Iphdr.load m' (p + 14)).totLen = htons (BitVec.ofNat 16 (28 + payload.length)) := by
    rw [hip]
    rfl
  have hulen : (Udphdr.load m' (p + 34)).uhUlen = htons (BitVec.ofNat 16 (8 + payload.length)) := by
    rw [hudp']
    rfl
  have hproto : (Iphdr.load m' (p + 14)).protocol = ipprotoUdp := by
    rw [hip]
    exact hudp
  constructor
  · exact beq_iff_eq.mpr hproto
  · rw [hlen64, BitVec.toNat_ofNat]
    omega
  · exact hpkt
  · exact hpayload
  · exact heth
  · exact ⟨check, by rw [htot]; exact hip⟩
  · rw [htot, htons, bswap16_bswap16, ofNat16_toNat (by omega)]
  · rw [hulen]
    exact hudp'
  · rw [hulen, htons, bswap16_bswap16, ofNat16_toNat (by omega)]
  · exact hframe

/-- The headers are those of a packet for the node `node`. -/
structure ForNode (node hdrs : TxHdrs) : Prop where
  mac : hdrs.eth.hDest = node.eth.hSource
  proto : hdrs.eth.hProto = htons ethPIp
  ip : hdrs.ip.daddr = node.ip.saddr
  port : hdrs.udp.uhDport = node.udp.uhSport

/-- The bytes an array field is loaded from. -/
theorem vector_ofFn_toList (m : Mem) (p n : Nat) :
    (Vector.ofFn fun i : Fin n => m (p + i)).toList = m.read p n := by
  refine List.ext_getElem (by rw [Vector.length_toList, Mem.read_length]) fun i h₁ h₂ => ?_
  rw [Mem.getElem_read, Vector.getElem_toList, Vector.getElem_ofFn]

/-- A packet built for the node passes its filter. -/
theorem isAddressedToMe_makePkt (m : Mem) (p : Nat) {payload : List Byte} {node hdrs : TxHdrs}
    (hihl : hdrs.ip.ihl = 5) (hudp : hdrs.ip.protocol = ipprotoUdp)
    (hlen : payload.length ≤ 1500) (hnode : ForNode node hdrs) :
    isAddressedToMe node (makePkt m p payload hdrs.eth hdrs.ip hdrs.udp) p = true := by
  have hparses := makePkt_parses m p hihl hudp hlen
  generalize makePkt m p payload hdrs.eth hdrs.ip hdrs.udp = m' at hparses ⊢
  obtain ⟨check, hip⟩ := hparses.ip
  have hmac : m'.read p 6 = node.eth.hSource.toList := by
    rw [← hnode.mac, ← congrArg Ethhdr.hDest hparses.eth]
    exact (vector_ofFn_toList m' p 6).symm
  have hproto : m'.load16 (p + 12) = htons ethPIp :=
    (congrArg Ethhdr.hProto hparses.eth).trans hnode.proto
  have hdaddr : m'.load32 (p + 14 + 16) = node.ip.saddr :=
    (congrArg Iphdr.daddr hip).trans hnode.ip
  have hport : m'.load16 (p + 34 + 2) = node.udp.uhSport :=
    (congrArg Udphdr.uhDport hparses.udp).trans hnode.port
  have hprotocol : m' (p + 14 + 9) = ipprotoUdp := beq_iff_eq.mp hparses.isUdp
  rw [isAddressedToMe_iff_fields, ← Mem.load16_eq_iff, ← Mem.load32_eq_iff, ← Mem.load16_eq_iff]
  refine ⟨hmac, hproto, hdaddr, ?_, hport⟩
  have hread : m'.read (p + 23) 1 = [m' (p + 23)] := rfl
  rw [hread, ← hprotocol, Nat.add_assoc]

end MicroRosDemos.Net
