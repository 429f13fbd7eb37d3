import MicroRosDemos.Net.RoundTrip
import MicroRosDemos.Sel4.FromGuestReturn

/-!
# From the guest to ping_pong: a packet that `make_pkt` built

A packet that `make_pkt` built with headers for the node, once it is at the front
of the queue, is what the next read answers: the read comes back with exactly the
payload and takes exactly that packet (`makePkt_roundTrip`).
-/

namespace MicroRosDemos.Sel4.FromGuest

open MicroRosDemos.Lib MicroRosDemos.Net MicroRosDemos.Spsc

variable {Q : Type} {hdrs node : TxHdrs} {N : NetRing Q} {c : Word}
variable {contents : Q → List NetBuffDesc} {capacity : Nat} {offsets : List Nat}
variable {s t : State Q} {packet payload : List Byte} {rest : List (List Byte)}

/-- The states the two domains reach from an initialised queue of 2048-byte blocks
and free buffers in `net_tx`. -/
inductive Reached (hdrs : TxHdrs) (N : NetRing Q) : State Q → Prop
  | run {contents : Q → List NetBuffDesc} {capacity : Nat} {offsets : List Nat}
      {q₀ q : SpscQueue} {b e : Nat} {mem txData : Mem} {txFree txActive : Q} {pending : Bool}
      {s : State Q} (hN : N.Fifo contents capacity) (he : e < 2 ^ 64)
      (hinit : spscInit q₀ b e 11 = (true, q))
      (hfree : ((contents txFree).map NetBuffDesc.ioOrOffset).Perm offsets)
      (hcap : offsets.length ≤ capacity) (hactive : contents txActive = [])
      (hrun : (machine hdrs N).Run FramesFit (State.start q mem txData txFree txActive pending) s) :
      Reached hdrs N s

/-- The read called in `s`, which has just begun in `t`, comes back with the
payload and leaves the packets `rest`. -/
def ReadsBack (hdrs : TxHdrs) (N : NetRing Q) (s : State Q) (call : ReadCall) (mem : Mem)
    (payload : List Byte) (rest : List (List Byte)) (t : State Q) : Prop :=
  ComesBack hdrs N t ∧
  ∀ u, (machine hdrs N).Run Quiet t u → u.read = .idle → u.queued = rest ∧
    u.results = s.results ++
      [⟨call, BitVec.ofNat 64 payload.length, mem, mem.write call.buf payload⟩]

/-! ## What the block says about the packet in it -/

/-- What the filter and the lengths look at is the packet at the start of the block. -/
theorem block_of_packet {m : Mem} {p len : Nat} (h : packet.take (42 + len) = m.read p (42 + len)) :
    addressed hdrs packet = isAddressedToMe hdrs m p ∧ statedLen packet = getPayloadLen m p ∧
      (packet.drop 42).take len = m.read (getPayload p) len := by
  have hlen : 42 + len ≤ packet.length := by
    have := congrArg List.length h
    rw [List.length_take, Mem.read_length] at this
    omega
  have hsize : (packet.take (42 + len)).length = 42 + len := List.length_take_of_le hlen
  have hblock : (Mem.ofList packet).read 0 packet.length = packet := Mem.read_ofList packet
  have hprefix : (Mem.ofList packet).read 0 (packet.take (42 + len)).length =
      packet.take (42 + len) := by
    rw [hsize, ← Mem.read_take _ 0 _ hlen, hblock]
  have hmem : m.read p (packet.take (42 + len)).length = packet.take (42 + len) := by
    rw [hsize, h]
  refine ⟨?_, ?_, ?_⟩
  · rw [isAddressedToMe_of_read hmem (by omega), addressed,
      isAddressedToMe_of_read hprefix (by omega)]
  · rw [getPayloadLen_eq_of_read hmem (by omega), statedLen,
      getPayloadLen_eq_of_read hprefix (by omega)]
  · have hdrop := congrArg (List.drop 42) h
    rw [List.drop_take, Nat.add_sub_cancel_left, Mem.read_drop _ _ _ (by omega),
      Nat.add_sub_cancel_left] at hdrop
    exact hdrop

/-- A read of a queue with a packet for the node at its front takes that packet. -/
theorem first_of_queued (hqueued : s.queued = packet :: rest) (hme : addressed hdrs packet = true)
    {packet' : List Byte} {rest' : List (List Byte)} (h : First hdrs s packet' rest') :
    packet' = packet ∧ rest' = rest := by
  obtain ⟨⟨others, hothers, hall⟩, _⟩ := h
  cases others with
  | nil =>
    rw [hqueued, List.nil_append] at hothers
    cases hothers
    exact ⟨rfl, rfl⟩
  | cons other others =>
    rw [hqueued, List.cons_append] at hothers
    cases hothers
    rw [hall packet List.mem_cons_self] at hme
    cases hme

/-- The answer to a packet that states the length of its payload, and has room for
it in its block and in the caller's buffer, is the payload. -/
theorem Answers.eq {r : ReadResult} (h : Answers packet r)
    (hstated : statedLen packet = BitVec.ofNat 64 payload.length) (hlen : payload.length ≤ 1500)
    (hpayload : (packet.drop 42).take payload.length = payload)
    (hfits : payload.length ≤ r.call.len.toNat) :
    r.ret = BitVec.ofNat 64 payload.length ∧ r.after = r.before.write r.call.buf payload := by
  have hnat : (statedLen packet).toNat = payload.length := by
    rw [hstated, BitVec.toNat_ofNat]
    omega
  unfold Answers at h
  rw [if_neg (by rw [BitVec.lt_def, hnat]; omega), hnat, hpayload] at h
  obtain ⟨hret, bs, hbs, htake, hafter⟩ := h
  rw [List.take_of_length_le (by omega)] at htake
  exact ⟨hret.trans hstated, htake ▸ hafter⟩

/-! ## The read -/

/-- A read of a queue with the packet at its front comes back with the payload. -/
theorem readsBack_of_queued (hs : Reached node N s) (hqueued : s.queued = packet :: rest)
    (hme : addressed node packet = true)
    (hstated : statedLen packet = BitVec.ofNat 64 payload.length) (hlen : payload.length ≤ 1500)
    (hpayload : (packet.drop 42).take payload.length = payload) {call : ReadCall} {mem : Mem}
    (hfits : payload.length ≤ call.len.toNat) (hcall : step node N s (.call mem call) = some t) :
    ReadsBack node N s call mem payload rest t := by
  obtain @⟨contents, capacity, offsets, _, _, _, _, _, _, _, _, _, _, hN, he, hinit, hfree, hcap,
    hactive, hrun⟩ := hs
  have hsome : ∃ packet ∈ s.queued, addressed node packet = true :=
    ⟨packet, by rw [hqueued]; exact List.mem_cons_self, hme⟩
  have hinv := run_inv hN he hinit hfree hcap hactive hrun
  have hinv' := step_inv hN hcap hinv (show FramesFit s (.call mem call) from trivial) hcall
  obtain ⟨hback, hall⟩ := readReturns_of_some hN hcap hinv' (call_during hcall) hsome
  refine ⟨hback, fun u hquiet hidle => ?_⟩
  rcases hall u hquiet hidle with ⟨packet', ret, hfirst, hresults, hanswers⟩ | ⟨hnone, _, _⟩
  · obtain ⟨rfl, hrest⟩ := first_of_queued hqueued hme hfirst
    obtain ⟨hret, hafter⟩ := hanswers.eq hstated hlen hpayload hfits
    dsimp only at hret hafter
    rw [hresults, hret, hafter]
    exact ⟨hrest, rfl⟩
  · have hother := hnone packet (by rw [hqueued]; exact List.mem_cons_self)
    rw [hother] at hme
    cases hme

/-- **`make_pkt` and what looks at its packets are inverse.** For every payload of
at most 1500 bytes, every three headers without IP options that say UDP, and
every memory: the packet parses as what it was built from. With headers for the
node the filter accepts it, and a read of a queue that has it at its front, called
with room for the payload, comes back with the payload and takes only it. -/
theorem makePkt_roundTrip (m : Mem) (p : Nat) {payload : List Byte} {hdrs : TxHdrs}
    (hihl : hdrs.ip.ihl = 5) (hudp : hdrs.ip.protocol = ipprotoUdp)
    (hlen : payload.length ≤ 1500) :
    let built := makePkt m p payload hdrs.eth hdrs.ip hdrs.udp
    Parses m built p payload hdrs ∧
    ∀ node, ForNode node hdrs → isAddressedToMe node built p = true ∧
      ∀ {Q : Type} (N : NetRing Q) (s t : State Q) (packet : List Byte) (rest : List (List Byte))
        (call : ReadCall) (mem : Mem), Reached node N s → s.queued = packet :: rest →
        packet.take (42 + payload.length) = built.read p (42 + payload.length) →
        payload.length ≤ call.len.toNat → step node N s (.call mem call) = some t →
        ReadsBack node N s call mem payload rest t := by
  intro built
  have hparses : Parses m built p payload hdrs := makePkt_parses m p hihl hudp hlen
  refine ⟨hparses, fun node hnode => ?_⟩
  have hme : isAddressedToMe node built p = true := isAddressedToMe_makePkt m p hihl hudp hlen hnode
  refine ⟨hme, fun N s t packet rest call mem hs hqueued hpacket hfits hcall => ?_⟩
  obtain ⟨haddressed, hstated, hpayload⟩ := block_of_packet hpacket
  exact readsBack_of_queued hs hqueued (haddressed.trans hme)
    (hstated.trans (getPayloadLen_makePkt m p hihl hlen)) hlen
    (hpayload.trans hparses.getPayload) hfits hcall

/-- A packet of one byte from the peer, over a block that held something else, in
front of a packet for somebody else. -/
theorem makePkt_roundTrip_one :
    ∃ s t, (machine pingPongHdrs (listRing 2)).Run FramesFit smallStart s ∧ s.queued.length = 2 ∧
      step pingPongHdrs (listRing 2) s (.call (fun _ => 9) ⟨0, 1⟩) = some t ∧
        ReadsBack pingPongHdrs (listRing 2) s ⟨0, 1⟩ (fun _ => 9) [5] (s.queued.drop 1) t := by
  have hall := @makePkt_roundTrip (fun _ => 7) 0 [5] peerHdrs rfl rfl (by decide)
  obtain ⟨s, hreach, hidle, hlen, hpacket⟩ :=
    ((machine pingPongHdrs (listRing 2)).restrict FramesFit).exists_reach
      (P := fun s => s.read = .idle ∧ s.queued.length = 2 ∧ (s.queued.headD []).take 43 =
        (makePkt (fun _ => 7) 0 [5] peerHdrs.eth peerHdrs.ip peerHdrs.udp).read 0 43)
      (s := smallStart)
      (runFault [(makePkt (fun _ => 7) 0 [5] peerHdrs.eth peerHdrs.ip peerHdrs.udp).read 0 43,
        toOther] ++ runDrain ++ runDrain)
      (by decide +kernel)
  have hrun := Machine.run_of_restrict hreach
  have hcall : step pingPongHdrs (listRing 2) s (.call (fun _ => 9) ⟨0, 1⟩) = some _ :=
    step_call hidle _ _
  refine ⟨s, _, hrun, hlen, hcall, (hall.2 pingPongHdrs ⟨rfl, rfl, rfl, rfl⟩).2 (listRing 2) s _
    (s.queued.headD []) _ _ _ (.run (listRing_fifo 2) (by decide) twoFrames_init (List.Perm.refl _)
      (by decide) rfl hrun) ?_ hpacket (by decide) hcall⟩
  cases hq : s.queued with
  | nil =>
    rw [hq] at hlen
    cases hlen
  | cons packet rest => rfl

end MicroRosDemos.Sel4.FromGuest
