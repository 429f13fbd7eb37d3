import MicroRosDemos.Sel4.FromGuestInv

/-!
# From the guest to ping_pong: what a read can leak

A block carries no length. What `custom_transport_seL4_read` makes of a packet is
decided by the bytes at the offsets it looks at, and the frame the VMM copied
there may be shorter than that. `readPkt` is the read's treatment of one packet,
`exec_readPkt_some` says that the machine does as it says, and `read_frameOnly_iff`
tells for which frames the answer is the frame's own.
-/

namespace MicroRosDemos.Sel4.FromGuest

open MicroRosDemos.Lib MicroRosDemos.Net MicroRosDemos.Spsc

variable {Q : Type} {hdrs : TxHdrs} {N : NetRing Q} {m : Mem} {pkt : Nat} {len : BitVec 64}
  {frame : List Byte}

/-- What `custom_transport_seL4_read` makes of the packet at `pkt`: `none` when it
pops it and goes on to the next, or else the bytes it returns. -/
def readPkt (hdrs : TxHdrs) (m : Mem) (pkt : Nat) (len : BitVec 64) : Option (List Byte) :=
  if isAddressedToMe hdrs m pkt then
    let payloadLen := getPayloadLen m pkt
    -- an oversized payload is popped, and 0 returned
    if len < payloadLen then some [] else some (m.read (getPayload pkt) payloadLen.toNat)
  else none

theorem readPkt_none (h : isAddressedToMe hdrs m pkt = false) : readPkt hdrs m pkt len = none := by
  rw [readPkt, h]
  rfl

theorem readPkt_some (h : isAddressedToMe hdrs m pkt = true) :
    readPkt hdrs m pkt len = some
      (m.read (getPayload pkt) (if len < getPayloadLen m pkt then 0 else (getPayloadLen m pkt).toNat)) := by
  rw [readPkt, if_pos h]
  by_cases hlen : len < getPayloadLen m pkt
  · rw [if_pos hlen, if_pos hlen]
    rfl
  · rw [if_neg hlen, if_neg hlen]

/-- Only a packet that passes the filter gives a result. -/
theorem readPkt_eq_none_iff : readPkt hdrs m pkt len = none ↔ isAddressedToMe hdrs m pkt = false := by
  constructor
  · intro hnone
    by_contra hme
    rw [readPkt_some (Bool.eq_true_of_not_eq_false hme)] at hnone
    cases hnone
  · exact readPkt_none

/-! ## The machine reads so -/

/-- The queue once the packet at `pkt` has been popped. -/
def popPkt (ring : Spsc.State) (pkt : Nat) (consumer : ConsumerPc) : Spsc.State :=
  { ring with
    q := { ring.q with
      consumerCachedFront := ring.q.consumerCachedFront + 1
      front := ring.q.consumerCachedFront + 1 }
    consumer
    taken := ring.taken ++ [ring.mem.read pkt ring.size]
    popped := ring.popped + 1 }

/-- The read has popped the packet and goes on to the next. -/
def State.skipped (s : State Q) (pkt : Nat) (call : ReadCall) : State Q :=
  { s with ring := popPkt s.ring pkt .frontLoadBack, read := .front call }

/-- The read has popped the packet and returned, the caller's memory being `node`. -/
def State.returned (s : State Q) (pkt : Nat) (call : ReadCall) (ret : BitVec 64) (node : Mem) :
    State Q :=
  { s with
    ring := popPkt s.ring pkt .idle, read := .idle, node
    results := s.results ++ [⟨call, ret, s.nodeAtCall, node⟩] }

/-- A packet that is not for the node is popped, and the read waits for the next. -/
theorem exec_readPkt_none {s : State Q} {call : ReadCall} (hr : s.read = .filter call)
    (hc : s.ring.consumer = .block pkt) (h : readPkt hdrs s.ring.mem pkt call.len = none) :
    (machine hdrs N).exec s (List.replicate 4 .read) = some (s.skipped pkt call) := by
  have hme : isAddressedToMe hdrs s.ring.mem pkt = false := by
    by_contra hme
    rw [readPkt_some (Bool.eq_true_of_not_eq_false hme)] at h
    cases h
  simp only [List.replicate, Machine.exec, machine, step, readStep, hr, hc, consumerStep, hme,
    Option.map_some, Bool.false_eq_true, if_false, State.skipped, popPkt]

/-- Any other packet is popped, its bytes are copied to the caller, and the read
returns how many. -/
theorem exec_readPkt_some {s : State Q} {call : ReadCall} {bs : List Byte}
    (hr : s.read = .filter call) (hc : s.ring.consumer = .block pkt)
    (h : readPkt hdrs s.ring.mem pkt call.len = some bs) :
    ∃ n, (machine hdrs N).exec s (List.replicate n .read) =
      some (s.returned pkt call (BitVec.ofNat 64 bs.length) (s.node.write call.buf bs)) := by
  have hme : isAddressedToMe hdrs s.ring.mem pkt = true := by
    by_contra hme
    rw [readPkt_none (Bool.eq_false_of_not_eq_true hme)] at h
    cases h
  have hudp := isUdp_of_addressed hme
  rw [readPkt, if_pos hme] at h
  by_cases hlen : call.len < getPayloadLen s.ring.mem pkt
  · rw [if_pos hlen] at h
    cases h
    have hret : BitVec.ofNat 64 ([] : List Byte).length = 0 := rfl
    refine ⟨6, ?_⟩
    rw [Mem.write_nil, hret]
    simp only [List.replicate, Machine.exec, machine, step, readStep, hr, hc, consumerStep, hme,
      hudp, hlen, Option.map_some, if_true, State.returned, popPkt]
  · rw [if_neg hlen] at h
    cases h
    refine ⟨7, ?_⟩
    rw [Mem.read_length, BitVec.ofNat_toNat, BitVec.setWidth_eq]
    simp only [List.replicate, Machine.exec, machine, step, readStep, hr, hc, consumerStep, hme,
      hudp, hlen, Option.map_some, if_true, if_false, State.returned, popPkt]

/-! ## Whose bytes they are -/

/-- What the read makes of the packet is decided by the frame that was copied to
its block, whatever the memory held before; and the bytes it returns are bytes
of the frame. -/
def FrameOnly (hdrs : TxHdrs) (frame : List Byte) (len : BitVec 64) (pkt : Nat) : Prop :=
  ∀ m m' : Mem,
    readPkt hdrs (m.write pkt frame) pkt len = readPkt hdrs (m'.write pkt frame) pkt len ∧
      ∀ bs, readPkt hdrs (m.write pkt frame) pkt len = some bs →
        bs = (frame.drop 42).take bs.length

/-- One of the frame's own bytes is not the one the filter wants there. -/
def FailsFilter (hdrs : TxHdrs) (frame : List Byte) : Prop :=
  ∃ k b b', wanted hdrs k = some b ∧ frame[k]? = some b' ∧ b ≠ b'

/-- The payload length that goes with a UDP length. -/
def payloadLenOf (ulen : BitVec 16) : BitVec 64 := ulen.setWidth 64 - 8

/-- What the frame has of its `uh_ulen` field agrees with this UDP length. -/
def UlenAgrees (frame : List Byte) (ulen : BitVec 16) : Prop :=
  ∀ i b b', (le16 (htons ulen))[i]? = some b → frame[38 + i]? = some b' → b = b'

/-- The payload is too long for the buffer, or empty, or in the frame. -/
def PayloadInside (frame : List Byte) (len : BitVec 64) (ulen : BitVec 16) : Prop :=
  len < payloadLenOf ulen ∨ payloadLenOf ulen = 0 ∨ 42 + (payloadLenOf ulen).toNat ≤ frame.length

/-- The frame alone decides: it fails the filter, or it holds all that the filter
looks at, and with every UDP length its own bytes leave open the payload is not
read behind the end of the frame. -/
def FrameDecides (hdrs : TxHdrs) (frame : List Byte) (len : BitVec 64) : Prop :=
  FailsFilter hdrs frame ∨
    (38 ≤ frame.length ∧ ∀ ulen, UlenAgrees frame ulen → PayloadInside frame len ulen)

theorem getPayloadLen_eq : getPayloadLen m pkt = payloadLenOf (htons (m.load16 (pkt + 38))) := rfl

theorem wanted_port : ∃ b, wanted hdrs 37 = some b := ⟨_, rfl⟩

/-- The UDP length that is read agrees with the bytes of the frame. -/
theorem ulenAgrees_write : UlenAgrees frame (htons ((m.write pkt frame).load16 (pkt + 38))) := by
  intro i b b' hb hb'
  have hload := Mem.load16_eq_iff.mp (rfl : (m.write pkt frame).load16 (pkt + 38) = _)
  rw [htons, htons, bswap16_bswap16] at hb
  have hbyte := (read_eq_iff (le16_length _)).mp hload i b hb
  rw [Nat.add_assoc, Mem.write_add, hb'] at hbyte
  exact hbyte.symm

theorem isAddressedToMe_of_failsFilter (h : FailsFilter hdrs frame) :
    isAddressedToMe hdrs (m.write pkt frame) pkt = false := by
  obtain ⟨k, b, b', hwant, hbyte, hne⟩ := h
  by_contra hme
  have hall := isAddressedToMe_iff.mp (Bool.eq_true_of_not_eq_false hme) k b hwant
  rw [Mem.write_add, hbyte] at hall
  exact hne hall.symm

/-- A payload that is not read behind the frame is the frame's. -/
theorem readPkt_of_inside (hme : isAddressedToMe hdrs (m.write pkt frame) pkt = true)
    (h : PayloadInside frame len (htons ((m.write pkt frame).load16 (pkt + 38)))) :
    readPkt hdrs (m.write pkt frame) pkt len = some ((frame.drop 42).take
      (if len < getPayloadLen (m.write pkt frame) pkt then 0
        else (getPayloadLen (m.write pkt frame) pkt).toNat)) := by
  rw [readPkt_some hme]
  rw [PayloadInside, ← getPayloadLen_eq] at h
  generalize getPayloadLen (m.write pkt frame) pkt = payloadLen at h ⊢
  congr 1
  by_cases hlen : len < payloadLen
  · rw [if_pos hlen]
    rfl
  · rw [if_neg hlen]
    rcases h with hdrop | hzero | hin
    · exact absurd hdrop hlen
    · rw [hzero]
      rfl
    · have hself := Mem.read_write_self m pkt frame
      have hdrop : (m.write pkt frame).read (pkt + 42) (frame.length - 42) = frame.drop 42 := by
        rw [← Mem.read_drop _ _ _ (by omega), hself]
      rw [← hdrop, Mem.read_take _ _ _ (by omega)]
      rfl

/-- A frame that decides alone is all the read looks at. -/
theorem FrameDecides.frameOnly (h : FrameDecides hdrs frame len) : FrameOnly hdrs frame len pkt := by
  intro m m'
  rcases h with hfail | ⟨hlen, hinside⟩
  · rw [readPkt_none (isAddressedToMe_of_failsFilter hfail),
      readPkt_none (isAddressedToMe_of_failsFilter hfail)]
    exact ⟨rfl, nofun⟩
  · have hview : ∀ m : Mem, isAddressedToMe hdrs (m.write pkt frame) pkt = addressed hdrs frame :=
      fun m => isAddressedToMe_of_read (Mem.read_write_self m pkt frame) hlen
    cases hme : addressed hdrs frame with
    | false =>
      rw [readPkt_none ((hview m).trans hme), readPkt_none ((hview m').trans hme)]
      exact ⟨rfl, nofun⟩
    | true =>
      rw [readPkt_of_inside ((hview m).trans hme) (hinside _ ulenAgrees_write),
        readPkt_of_inside ((hview m').trans hme) (hinside _ ulenAgrees_write)]
      refine ⟨?_, fun bs hbs => ?_⟩
      · by_cases hshort : frame.length ≤ 42
        · rw [List.drop_eq_nil_of_le hshort, List.take_nil, List.take_nil]
        · -- the frame holds its UDP length
          have hload : (m.write pkt frame).load16 (pkt + 38) =
              (m'.write pkt frame).load16 (pkt + 38) := by
            refine Mem.load16_congr fun i hi => ?_
            rw [Nat.add_assoc, Mem.write_add, Mem.write_add, List.getElem?_eq_getElem (by omega)]
            rfl
          rw [getPayloadLen_eq, getPayloadLen_eq, hload]
      · cases hbs
        rw [List.length_take, List.take_eq_take_min]

/-- A memory that would be accepted at `pkt`, with this UDP length. -/
def accepting (hdrs : TxHdrs) (ulen : BitVec 16) (pkt : Nat) : Mem := fun a =>
  if a - pkt < 38 then (wanted hdrs (a - pkt)).getD 0
  else ((le16 (htons ulen))[a - pkt - 38]?).getD 0

theorem accepting_wanted {ulen : BitVec 16} {k : Nat} {b : Byte} (h : wanted hdrs k = some b) :
    accepting hdrs ulen pkt (pkt + k) = b := by
  rw [accepting, Nat.add_sub_cancel_left, if_pos (wanted_lt h), h]
  rfl

/-- A frame that passes the filter as far as it goes is accepted over that memory,
or any that agrees with it on the bytes of the headers. -/
theorem isAddressedToMe_accepting {ulen : BitVec 16} (hpass : ¬ FailsFilter hdrs frame)
    (h : ∀ k, k < 38 → m (pkt + k) = accepting hdrs ulen pkt (pkt + k)) :
    isAddressedToMe hdrs (m.write pkt frame) pkt = true := by
  refine isAddressedToMe_iff.mpr fun k b hb => ?_
  rw [Mem.write_add]
  cases hbyte : frame[k]? with
  | none => exact (h k (wanted_lt hb)).trans (accepting_wanted hb)
  | some b' =>
    by_contra hne
    exact hpass ⟨k, b, b', hb, hbyte, fun heq => hne heq.symm⟩

theorem getPayloadLen_accepting {ulen : BitVec 16} (hagrees : UlenAgrees frame ulen) :
    getPayloadLen ((accepting hdrs ulen pkt).write pkt frame) pkt = payloadLenOf ulen := by
  have hload : ((accepting hdrs ulen pkt).write pkt frame).load16 (pkt + 38) = htons ulen := by
    refine Mem.load16_eq_iff.mpr ((read_eq_iff (le16_length _)).mpr fun i b hb => ?_)
    rw [Nat.add_assoc, Mem.write_add]
    cases hbyte : frame[38 + i]? with
    | none =>
      rw [Option.getD_none, accepting, if_neg (by omega), Nat.add_sub_cancel_left,
        Nat.add_sub_cancel_left, hb]
      rfl
    | some b' => exact (hagrees i b b' hb hbyte).symm
  rw [getPayloadLen_eq, hload, htons, htons, bswap16_bswap16]

/-- A frame that ends before the last byte the filter looks at is accepted over
one memory and skipped over another. -/
theorem FrameOnly.header_inside (h : FrameOnly hdrs frame len pkt) (hpass : ¬ FailsFilter hdrs frame) :
    38 ≤ frame.length := by
  by_contra hshort
  obtain ⟨b, hport⟩ : ∃ b, wanted hdrs 37 = some b := wanted_port
  let good := accepting hdrs 0 pkt
  let bad := good.write (pkt + 37) [b + 1]
  have hgood : isAddressedToMe hdrs (good.write pkt frame) pkt = true :=
    isAddressedToMe_accepting hpass fun _ _ => rfl
  have hbad : isAddressedToMe hdrs (bad.write pkt frame) pkt = false := by
    by_contra hme
    have hbyte := isAddressedToMe_iff.mp (Bool.eq_true_of_not_eq_false hme) 37 b hport
    have hflip : bad (pkt + 37) = b + 1 := Mem.write_add good (pkt + 37) [b + 1] 0
    rw [Mem.write_add, List.getElem?_eq_none (by omega), Option.getD_none, hflip] at hbyte
    bv_omega
  have heq := (h good bad).1
  rw [readPkt_some hgood, readPkt_none hbad] at heq
  cases heq

/-- A payload that is returned and that is not in the frame is not the frame's. -/
theorem FrameOnly.payload_inside {ulen : BitVec 16} (h : FrameOnly hdrs frame len pkt)
    (hpass : ¬ FailsFilter hdrs frame) (hagrees : UlenAgrees frame ulen) :
    PayloadInside frame len ulen := by
  by_contra hout
  obtain ⟨hroom, hne, hlong⟩ := not_or.mp hout |>.imp_right not_or.mp
  have hme : isAddressedToMe hdrs ((accepting hdrs ulen pkt).write pkt frame) pkt = true :=
    isAddressedToMe_accepting hpass fun _ _ => rfl
  have hread : readPkt hdrs _ pkt len = _ := readPkt_some hme
  rw [getPayloadLen_accepting hagrees, if_neg hroom] at hread
  have htake := (h _ (fun _ => 0)).2 _ hread
  have hlen := congrArg List.length htake
  rw [Mem.read_length, List.length_take, List.length_drop] at hlen
  have hzero : (payloadLenOf ulen).toNat ≠ 0 := fun hz => hne (BitVec.eq_of_toNat_eq hz)
  omega

/-- **The read answers by the frame alone** just when the frame decides alone:
whatever the block and the memory behind it held before, the packet is skipped
or its payload returned in the same way, from bytes of the frame only. -/
theorem read_frameOnly_iff : FrameOnly hdrs frame len pkt ↔ FrameDecides hdrs frame len := by
  constructor
  · intro h
    by_cases hfail : FailsFilter hdrs frame
    · exact .inl hfail
    · exact .inr ⟨h.header_inside hfail, fun ulen hagrees => h.payload_inside hfail hagrees⟩
  · intro h
    exact h.frameOnly

/-- A frame to the node that ends with its UDP header, and says that one byte
of payload follows. -/
def cutFrame : List Byte := (toNode [7]).take 42

/-- The same frame, over blocks of zeros and over blocks of ones: both reads
return one byte, and it is not the same byte. -/
theorem read_leaks :
    ∃ s t,
      (machine pingPongHdrs (listRing 2)).Reach
        (State.start twoFrames (fun _ => 0) (fun _ => 0) [⟨0, 0⟩, ⟨2048, 0⟩] [] false) s ∧
      (machine pingPongHdrs (listRing 2)).Reach
        (State.start twoFrames (fun _ => 1) (fun _ => 0) [⟨0, 0⟩, ⟨2048, 0⟩] [] false) t ∧
      s.sent = [cutFrame] ∧ t.sent = [cutFrame] ∧
      s.results.map (fun r => (r.ret, r.after 0)) = [(1, 0)] ∧
      t.results.map (fun r => (r.ret, r.after 0)) = [(1, 1)] := by
  obtain ⟨s, hs, hsent, hread⟩ := (machine pingPongHdrs (listRing 2)).exists_reach
    (P := fun s => s.sent = [cutFrame] ∧ s.results.map (fun r => (r.ret, r.after 0)) = [(1, 0)])
    (s := State.start twoFrames (fun _ => 0) (fun _ => 0) [⟨0, 0⟩, ⟨2048, 0⟩] [] false)
    (runFault [cutFrame] ++ runDrain ++ [.call (fun _ => 9) ⟨0, 512⟩] ++ List.replicate 15 .read)
    (by decide +kernel)
  obtain ⟨t, ht, htsent, htread⟩ := (machine pingPongHdrs (listRing 2)).exists_reach
    (P := fun s => s.sent = [cutFrame] ∧ s.results.map (fun r => (r.ret, r.after 0)) = [(1, 1)])
    (s := State.start twoFrames (fun _ => 1) (fun _ => 0) [⟨0, 0⟩, ⟨2048, 0⟩] [] false)
    (runFault [cutFrame] ++ runDrain ++ [.call (fun _ => 9) ⟨0, 512⟩] ++ List.replicate 15 .read)
    (by decide +kernel)
  exact ⟨s, t, hs, ht, hsent, htsent, hread, htread⟩

end MicroRosDemos.Sel4.FromGuest
