import MicroRosDemos.Lib.Endian

/-!
# Packets: `util/networking.h` and `is_addressed_to_me`

The three headers as the C structures lay them out on the little-endian target,
and the functions that build a packet at an address and look at one there. A
multi-byte field holds the value the C field holds, so a field in network order
is the byte swap of the number it means. Every function reads or writes the
memory at the addresses the source does, whatever is there.
-/

namespace MicroRosDemos.Net

open MicroRosDemos.Lib

/-- `struct ethhdr`. -/
structure Ethhdr where
  hDest : Vector Byte 6
  hSource : Vector Byte 6
  hProto : BitVec 16

/-- `struct iphdr`, without options. -/
structure Iphdr where
  ihl : BitVec 4
  version : BitVec 4
  tos : Byte
  totLen : BitVec 16
  id : BitVec 16
  fragOff : BitVec 16
  ttl : Byte
  protocol : Byte
  check : BitVec 16
  saddr : BitVec 32
  daddr : BitVec 32

/-- `struct udphdr`. -/
structure Udphdr where
  uhSport : BitVec 16
  uhDport : BitVec 16
  uhUlen : BitVec 16
  uhSum : BitVec 16

/-- `htons`, and `ntohs`, on the little-endian target. -/
abbrev htons (v : BitVec 16) : BitVec 16 := bswap16 v

/-- `IPPROTO_UDP`. -/
def ipprotoUdp : Byte := 17

/-- `ETH_P_IP`. -/
def ethPIp : BitVec 16 := 0x0800

/-! ## Layout -/

/-- `sizeof(ethhdr)`. -/
abbrev ethLen : Nat := 14

/-- `sizeof(iphdr)`. -/
abbrev ipLen : Nat := 20

/-- `sizeof(udphdr)`. -/
abbrev udpLen : Nat := 8

/-- `hdrs_len` of common.h. -/
abbrev hdrsLen : Nat := ethLen + ipLen + udpLen

attribute [simp] ethLen ipLen udpLen hdrsLen

/-- The bytes of an Ethernet header in memory. -/
def Ethhdr.bytes (h : Ethhdr) : List Byte := h.hDest.toList ++ h.hSource.toList ++ le16 h.hProto

/-- The bytes of an IP header in memory; `version` is the high half of the first. -/
def Iphdr.bytes (h : Iphdr) : List Byte :=
  [h.version ++ h.ihl, h.tos] ++ le16 h.totLen ++ le16 h.id ++ le16 h.fragOff ++
    [h.ttl, h.protocol] ++ le16 h.check ++ le32 h.saddr ++ le32 h.daddr

/-- The bytes of a UDP header in memory. -/
def Udphdr.bytes (h : Udphdr) : List Byte :=
  le16 h.uhSport ++ le16 h.uhDport ++ le16 h.uhUlen ++ le16 h.uhSum

@[simp] theorem Ethhdr.bytes_length (h : Ethhdr) : h.bytes.length = 14 := by
  simp [bytes]

@[simp] theorem Iphdr.bytes_length (h : Iphdr) : h.bytes.length = 20 := rfl

@[simp] theorem Udphdr.bytes_length (h : Udphdr) : h.bytes.length = 8 := rfl

/-! ## The checksum -/

/-- The first loop of `set_ip_chksum`: the sum of `n` native 16-bit words from `buf`. -/
def sumWords (m : Mem) (buf : Nat) : Nat → BitVec 32
  | 0 => 0
  | n + 1 => sumWords m buf n + (m.load16 (buf + 2 * n)).setWidth 32

/-- One turn of the second loop, as numbers. -/
theorem toNat_fold (sum : BitVec 32) :
    ((sum &&& 0xFFFF#32) + (sum >>> 16)).toNat = sum.toNat % 2 ^ 16 + sum.toNat / 2 ^ 16 := by
  have hand : (sum &&& 0xFFFF#32).toNat = sum.toNat % 2 ^ 16 := by
    rw [BitVec.toNat_and]
    exact Nat.and_two_pow_sub_one_eq_mod sum.toNat 16
  have hlt := sum.isLt
  have hsmall : sum.toNat % 2 ^ 16 + sum.toNat / 2 ^ 16 < 2 ^ 32 := by omega
  rw [BitVec.toNat_add, hand, BitVec.toNat_ushiftRight, Nat.shiftRight_eq_div_pow,
    Nat.mod_eq_of_lt hsmall]

/-- The second loop ends when there is nothing above the low 16 bits. -/
theorem shiftRight_eq_zero {sum : BitVec 32} : sum >>> 16 = 0 ↔ sum.toNat / 2 ^ 16 = 0 := by
  rw [← Nat.shiftRight_eq_div_pow, ← BitVec.toNat_ushiftRight]
  exact ⟨fun h => h ▸ rfl, fun h => BitVec.eq_of_toNat_eq h⟩

/-- A carry folded back in makes the sum smaller. -/
theorem fold_lt {sum : BitVec 32} (h : sum >>> 16 ≠ 0) :
    ((sum &&& 0xFFFF#32) + (sum >>> 16)).toNat < sum.toNat := by
  have hdiv : sum.toNat / 2 ^ 16 ≠ 0 := fun hz => h (shiftRight_eq_zero.mpr hz)
  rw [toNat_fold]
  omega

/-- The second loop: `while (sum >> 16) sum = (sum & 0xFFFF) + (sum >> 16)`. -/
def foldSum (sum : BitVec 32) : BitVec 32 :=
  if _h : sum >>> 16 ≠ 0 then foldSum ((sum &&& 0xFFFF#32) + (sum >>> 16)) else sum
termination_by sum.toNat
decreasing_by exact fold_lt _h

/-- `set_ip_chksum` on the header at `ip`. -/
def setIpChksum (m : Mem) (ip : Nat) : Mem :=
  let m := m.write (ip + 10) (le16 0)
  let numBytes := ((m ip).setWidth 4).toNat * 4
  let sum := foldSum (sumWords m ip (numBytes / 2))
  m.write (ip + 10) (le16 ((~~~sum).setWidth 16))

/-! ## Building a packet -/

/-- `make_pkt` at `outBuf`. -/
def makePkt (m : Mem) (outBuf : Nat) (payload : List Byte) (ethHdr : Ethhdr) (ipHdr : Iphdr)
    (udpHdr : Udphdr) : Mem :=
  let pktEthHdr := outBuf
  let pktIpHdr := outBuf + ethLen
  let pktUdpHdr := outBuf + ethLen + ipLen
  let m := m.write pktEthHdr ethHdr.bytes
  let m := m.write pktIpHdr ipHdr.bytes
  let m := m.write pktUdpHdr udpHdr.bytes
  let m := m.write (pktUdpHdr + udpLen) payload
  let m := m.write (pktIpHdr + 2) (le16 (htons (BitVec.ofNat 16 (ipLen + udpLen + payload.length))))
  let m := setIpChksum m pktIpHdr
  let m := m.write (pktUdpHdr + 4) (le16 (htons (BitVec.ofNat 16 (udpLen + payload.length))))
  m.write (pktUdpHdr + 6) (le16 0)

/-- `make_iphdr`; the arguments are the results of `inet_addr`. -/
def makeIphdr (srcIp dstIp : BitVec 32) : Iphdr where
  version := 4
  ihl := 5
  tos := 0
  totLen := 0
  id := htons 54321
  fragOff := 0
  ttl := 64
  protocol := ipprotoUdp
  saddr := srcIp
  daddr := dstIp
  check := 0

/-- `make_udphdr`; the fields it leaves unset are those of the uninitialised `udpHdr`. -/
def makeUdphdr (udpHdr : Udphdr) (srcPort dstPort : BitVec 16) : Udphdr :=
  { udpHdr with uhSport := htons srcPort, uhDport := htons dstPort }

/-- `make_ethhdr`; the arguments are the results of `parse_mac`. -/
def makeEthhdr (srcMac dstMac : Vector Byte 6) : Ethhdr where
  hDest := dstMac
  hSource := srcMac
  hProto := htons ethPIp

/-- `txEthHdr`, `txIpHdr` and `txUdpHdr`: the headers of the packets the node
sends, and by which it knows the packets meant for it. -/
structure TxHdrs where
  eth : Ethhdr
  ip : Iphdr
  udp : Udphdr

/-- The headers `transport_init` makes from a pair of MAC addresses, of IP
addresses and of ports. -/
def TxHdrs.make (srcMac dstMac : Vector Byte 6) (srcIp dstIp : BitVec 32)
    (srcPort dstPort : BitVec 16) (udpHdr : Udphdr) : TxHdrs where
  eth := makeEthhdr srcMac dstMac
  ip := makeIphdr srcIp dstIp
  udp := makeUdphdr udpHdr srcPort dstPort

/-- The headers of `transport_init`: node 02:00:00:00:00:02 at 10.0.2.100, port
54321, and its peer 02:00:00:00:00:01 at 10.0.2.15, port 8888. -/
def pingPongHdrs : TxHdrs :=
  .make #v[2, 0, 0, 0, 0, 2] #v[2, 0, 0, 0, 0, 1] 0x6402000A 0x0F02000A 54321 8888 ⟨0, 0, 0, 0⟩

/-- The headers of the peer's packets to that node. -/
def peerHdrs : TxHdrs :=
  .make #v[2, 0, 0, 0, 0, 1] #v[2, 0, 0, 0, 0, 2] 0x0F02000A 0x6402000A 8888 54321 ⟨0, 0, 0, 0⟩

/-! ## Looking at a packet -/

/-- `is_udp`. -/
def isUdp (m : Mem) (pkt : Nat) : Bool := m (pkt + ethLen + 9) == ipprotoUdp

/-- `get_payload_len`, without its assertion. `sizeof(udpHdr)` is the size of a
pointer, 8 bytes on the target, and the subtraction is in `size_t`. -/
def getPayloadLen (m : Mem) (pkt : Nat) : BitVec 64 :=
  (htons (m.load16 (pkt + ethLen + ipLen + 4))).setWidth 64 - 8

/-- `pkt_len`, without its assertion. -/
def pktLen (m : Mem) (pkt : Nat) : BitVec 64 := BitVec.ofNat 64 hdrsLen + getPayloadLen m pkt

/-- `get_payload`, without its assertion. -/
def getPayload (pkt : Nat) : Nat := pkt + ethLen + ipLen + udpLen

/-- `is_addressed_to_me`. -/
def isAddressedToMe (hdrs : TxHdrs) (m : Mem) (pkt : Nat) : Bool :=
  let ethHdr := pkt
  let ipHdr := ethHdr + ethLen
  let udpHdr := ipHdr + ipLen
  if m.read ethHdr 6 ≠ hdrs.eth.hSource.toList then false
  else if m.load16 (ethHdr + 12) ≠ htons ethPIp then false
  else if m.load32 (ipHdr + 16) ≠ hdrs.ip.saddr then false
  else if m (ipHdr + 9) ≠ ipprotoUdp then false
  else if m.load16 (udpHdr + 2) ≠ hdrs.udp.uhSport then false
  else true

end MicroRosDemos.Net
