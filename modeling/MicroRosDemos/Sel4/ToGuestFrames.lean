import MicroRosDemos.Sel4.ToGuestInv

/-!
# From ping_pong to the guest: which frames arrive

`Frames` follows a payload through the system. What the queue holds are the
packets of the accepted payloads, each laid over what its block held before;
what the handler has put on the active ring is what it has read from the queue.
So the frames the guest gets begin with the packets that were written, in order
and each once (`write_delivers`), and end with whatever the blocks held
(`guest_frame_never_exact`).
-/

namespace MicroRosDemos.Sel4.ToGuest

open MicroRosDemos.Lib MicroRosDemos.Net MicroRosDemos.Spsc

variable {Q : Type} {hdrs : TxHdrs} {N : NetRing Q} {c : Word}

/-- The payloads `custom_transport_seL4_write` does not refuse. -/
def State.accepted (s : State Q) : List (List Byte) := s.calls.filter fun p => p.length ≤ 1500

/-- A block that held `stale` after `make_pkt` has filled it. -/
def blockBytes (hdrs : TxHdrs) (payload stale : List Byte) : List Byte :=
  pktBytes payload hdrs ++ stale.drop (42 + payload.length)

/-- The accepted payload no packet has been made of yet. -/
def WritePc.unmade : WritePc → List (List Byte)
  | .newBlock payload | .makePkt payload => [payload]
  | .idle | .push _ | .notify _ => []

/-- The packet copied to a guest buffer and not yet on the active ring. -/
def NotifiedPc.inHand (rxData : Mem) : NotifiedPc → List (List Byte)
  | .enqueueActive buf => [rxData.read buf.ioOrOffset pktSize]
  | _ => []

/-- The path of the payloads: made into packets in the blocks, in the order of
the calls, and put on the active ring in the order read. -/
structure Frames (hdrs : TxHdrs) (s : State Q) : Prop where
  made : ∃ made, s.accepted = made ++ s.write.unmade ∧ made.length = s.covered.length ∧
    s.ring.filled = List.zipWith (blockBytes hdrs) made s.covered
  taken : s.ring.taken = s.enqueued.map Prod.snd ++ s.notified.inHand s.rxData
  len : ∀ d ∈ s.enqueued, d.1.len = pktSize
  stale : ∀ bs ∈ s.covered, bs.length = pktSize

/-! ## Filling a block -/

/-- `make_pkt` over a block that held `stale`. -/
theorem read_makePkt (m : Mem) (p : Nat) {payload : List Byte} (hihl : hdrs.ip.ihl = 5)
    (hlen : payload.length ≤ 1500) :
    (makePkt m p payload hdrs.eth hdrs.ip hdrs.udp).read p 2048 =
      blockBytes hdrs payload (m.read p 2048) := by
  have hbytes := pktBytes_length payload hdrs
  rw [makePkt_eq_write _ _ _ hihl, Mem.read_write _ _ _ _ (by omega), blockBytes, hbytes,
    Mem.read_drop _ _ _ (by omega)]

/-- The packet alone, wherever it was made. -/
theorem read_makePkt_self (m : Mem) (p : Nat) (payload : List Byte) (hihl : hdrs.ip.ihl = 5) :
    (makePkt m p payload hdrs.eth hdrs.ip hdrs.udp).read p (42 + payload.length) =
      pktBytes payload hdrs := by
  rw [makePkt_eq_write _ _ _ hihl, ← pktBytes_length payload hdrs, Mem.read_write_self]

/-! ## Each step moves the payloads along -/

/-- What a zip of two lists relates to the first of them. -/
theorem forall₂_zipWith {α β γ : Type*} {R : α → γ → Prop} {f : α → β → γ}
    (hR : ∀ a b, R a (f a b)) (as : List α) (bs : List β) (h : as.length = bs.length) :
    List.Forall₂ R as (List.zipWith f as bs) := by
  induction as generalizing bs with
  | nil => exact .nil
  | cons a as ih =>
    cases bs with
    | nil => cases h
    | cons b bs => exact .cons (hR a b) (ih bs (Nat.succ.inj h))

theorem WriteMove.frames {s t : State Q} (hihl : hdrs.ip.ihl = 5) (hinv : Inv c s)
    (h : Frames hdrs s) (hmove : WriteMove hdrs s t) : Frames hdrs t := by
  obtain ⟨⟨made, hacc, hlen, hfilled⟩, htaken, hdesc, hstale⟩ := h
  cases hmove with
  | inside ring hring hphase hpushed =>
    obtain ⟨hmem, _, htk, _, hsize⟩ := producerStep_frame hring
    refine ⟨⟨made, hacc, hlen, ?_⟩, htk.trans htaken, hdesc, hstale⟩
    exact (filled_congr hpushed hphase hmem hsize).trans hfilled
  | handed payload p ring hw hring hp hpushed =>
    obtain ⟨_, _, htk, _, _⟩ := producerStep_frame hring
    have hat := hinv.write
    rw [hw] at hat hacc
    refine ⟨⟨made, hacc, hlen, ?_⟩, htk.trans htaken, hdesc, hstale⟩
    rw [← hfilled, filled_of_block hp, filled_of_newBlock hat, hpushed]
  | made payload p hw hp =>
    have hfit := hinv.fits payload (by rw [hw]; exact List.mem_singleton.mpr rfl)
    rw [hw] at hacc
    refine ⟨⟨made ++ [payload], ?_, ?_, ?_⟩, htaken, hdesc, ?_⟩
    · exact hacc.trans (List.append_nil _).symm
    · simp only [List.length_append, hlen, List.length_singleton]
    · rw [filled_of_block hp] at hfilled
      rw [List.zipWith_append hlen, ← hfilled]
      show _ ++ [Mem.read _ p s.ring.size] = _
      rw [hinv.size, read_makePkt _ _ hihl hfit]
      rfl
    · exact forall_mem_grown.mpr ⟨hstale, Mem.read_length _ _ _⟩
  | pushed payload p ring hw hphase hring hp hpushed =>
    obtain ⟨_, _, htk, _, _⟩ := producerStep_frame hring
    rw [hw] at hacc
    refine ⟨⟨made, hacc, hlen, ?_⟩, htk.trans htaken, hdesc, hstale⟩
    exact (filled_of_published hphase hp hpushed).trans hfilled
  | notified payload hw =>
    rw [hw] at hacc
    exact ⟨⟨made, hacc, hlen, hfilled⟩, htaken, hdesc, hstale⟩

theorem NotifiedMove.frames {s t : State Q} (hinv : Inv c s) (h : Frames hdrs s)
    (hmove : NotifiedMove N s t) : Frames hdrs t := by
  obtain ⟨⟨made, hacc, hlen, hfilled⟩, htaken, hdesc, hstale⟩ := h
  have hconsumer : ∀ {ring}, consumerStep s.ring = some ring →
      ring.filled = List.zipWith (blockBytes hdrs) made s.covered ∧
        ring.taken = s.ring.taken := by
    intro ring hring
    obtain ⟨hmem, hp, hpushed, htk, hsize⟩ := consumerStep_frame hring
    exact ⟨(filled_congr hpushed (congrArg _ hp) hmem hsize).trans hfilled, htk⟩
  cases hmove with
  | inside ring hring hphase hpopped =>
    obtain ⟨hf, htk⟩ := hconsumer hring
    exact ⟨⟨made, hacc, hlen, hf⟩, htk.trans htaken, hdesc, hstale⟩
  | handed p ring hn hring hp =>
    obtain ⟨hf, htk⟩ := hconsumer hring
    rw [hn] at htaken
    exact ⟨⟨made, hacc, hlen, hf⟩, htk.trans htaken, hdesc, hstale⟩
  | popped ring hn hring hp =>
    obtain ⟨hf, htk⟩ := hconsumer hring
    rw [hn] at htaken
    exact ⟨⟨made, hacc, hlen, hf⟩, htk.trans htaken, hdesc, hstale⟩
  | leave hn | enter hn | dequeued buf rxFree hn | starved junk hn =>
    rw [hn] at htaken
    exact ⟨⟨made, hacc, hlen, hfilled⟩, htaken, hdesc, hstale⟩
  | copied buf p hn hp =>
    rw [hn] at htaken
    refine ⟨⟨made, hacc, hlen, hfilled⟩, ?_, hdesc, hstale⟩
    have hlen : (s.ring.mem.read p pktSize).length = pktSize := Mem.read_length _ _ _
    have hback := Mem.read_write_self s.rxData buf.ioOrOffset (s.ring.mem.read p pktSize)
    rw [hlen] at hback
    show s.ring.taken ++ [s.ring.mem.read p s.ring.size] = s.enqueued.map Prod.snd ++
      [(s.rxData.write buf.ioOrOffset (s.ring.mem.read p pktSize)).read buf.ioOrOffset pktSize]
    rw [hback, hinv.size, htaken]
    exact congrArg (· ++ _) (List.append_nil _)
  | enqueued buf hn =>
    rw [hn] at htaken
    refine ⟨⟨made, hacc, hlen, hfilled⟩, ?_, ?_, hstale⟩
    · simp only [NotifiedPc.inHand] at htaken ⊢
      rw [htaken, List.map_append, List.append_nil]
      simp only [List.map_cons, List.map_nil]
    · exact forall_mem_grown.mpr ⟨hdesc, rfl⟩

theorem step_frames {s t : State Q} {a : Act} (hihl : hdrs.ip.ihl = 5) (hinv : Inv c s)
    (h : Frames hdrs s) (hstep : step hdrs N s a = some t) : Frames hdrs t := by
  cases step_move hinv.write hinv.notified hstep with
  | write _ hmove => exact hmove.frames hihl hinv h
  | notified junk _ hmove => exact hmove.frames hinv h
  | refused payload hw hbig =>
    obtain ⟨⟨made, hacc, hlen, hfilled⟩, htaken, hdesc, hstale⟩ := h
    refine ⟨⟨made, ?_, hlen, hfilled⟩, htaken, hdesc, hstale⟩
    have hmade : s.accepted = made ++ s.write.unmade := hacc
    simp only [State.accepted, List.filter_append, List.filter_cons] at hmade ⊢
    rw [hmade, if_neg (by simpa using hbig)]
    exact List.append_nil _
  | called payload hw hfit =>
    obtain ⟨⟨made, hacc, hlen, hfilled⟩, htaken, hdesc, hstale⟩ := h
    have hat := hinv.write
    rw [hw] at hat hacc
    have hmade : s.accepted = made := hacc.trans (List.append_nil _)
    refine ⟨⟨made, ?_, hlen, ?_⟩, htaken, hdesc, hstale⟩
    · simp only [State.accepted, List.filter_append, List.filter_cons] at hmade ⊢
      rw [hmade, if_pos (by simpa using hfit)]
      rfl
    · rw [filled_of_idle hat] at hfilled
      rw [← hfilled]
      exact filled_of_newBlock rfl
  | woken hn | handled n rxFree rxActive delivered hn hshared =>
    obtain ⟨hmade, htaken, hdesc, hstale⟩ := h
    rw [hn] at htaken
    exact ⟨hmade, htaken, hdesc, hstale⟩

/-- The frames on the active ring are the first of the blocks filled, one for
each of the first accepted payloads. -/
theorem Frames.enqueued_eq {s : State Q} (h : Frames hdrs s) (hring : Spsc.Inv c s.ring) :
    s.enqueued.length ≤ s.covered.length ∧ s.covered.length ≤ s.accepted.length ∧
      s.enqueued.map Prod.snd =
        List.zipWith (blockBytes hdrs) (s.accepted.take s.enqueued.length)
          (s.covered.take s.enqueued.length) := by
  obtain ⟨⟨made, hacc, hlen, hfilled⟩, htaken, _⟩ := h
  have hfill : s.ring.pushed.map Prod.snd <+: List.zipWith (blockBytes hdrs) made s.covered := by
    rw [← hfilled]
    exact pushed_prefix_filled _
  have hread : s.enqueued.map Prod.snd <+: s.ring.taken := by
    rw [htaken]
    exact List.prefix_append _ _
  have hpre : s.enqueued.map Prod.snd <+: List.zipWith (blockBytes hdrs) made s.covered := by
    refine (hread.trans ?_).trans hfill
    rw [hring.taken]
    exact List.take_prefix _ _
  have hle : s.enqueued.length ≤ s.covered.length := by
    have := hpre.length_le
    rw [List.length_map, List.length_zipWith] at this
    omega
  have htake : s.accepted.take s.enqueued.length = made.take s.enqueued.length := by
    rw [hacc, List.take_append_of_le_length (by omega)]
  refine ⟨hle, ?_, ?_⟩
  · rw [hacc, List.length_append]
    omega
  · rw [htake, ← List.take_zipWith]
    have heq := List.prefix_iff_eq_take.mp hpre
    rwa [List.length_map] at heq

/-! ## The device's turn -/

/-- What is assumed of the code outside the repository: a buffer is free when
one is asked for, and the device takes every active buffer in its turn. -/
def SddfOk (contents : Q → List NetBuffDesc) (s : State Q) : Act → Prop
  | .notified _ => s.notified = .dequeueFree → contents s.rxFree ≠ []
  | .handleRx n => (contents s.rxActive).length ≤ n
  | _ => True

instance (contents : Q → List NetBuffDesc) (s : State Q) (a : Act) :
    Decidable (SddfOk contents s a) :=
  match a with
  | .notified _ => inferInstanceAs (Decidable (s.notified = .dequeueFree → contents s.rxFree ≠ []))
  | .handleRx n => inferInstanceAs (Decidable ((contents s.rxActive).length ≤ n))
  | .call _ | .write | .wake => inferInstanceAs (Decidable True)

/-- The frames put on the active ring were handed to the guest, but for the one
that waits for the device's turn. -/
structure Delivered (contents : Q → List NetBuffDesc) (s : State Q) : Prop where
  split : s.enqueued.map Prod.snd = s.delivered ++ (contents s.rxActive).map (NetBuffDesc.bytes s.rxData)
  waiting : s.notified ≠ .handleRx → contents s.rxActive = []

theorem virtioNetHandleRx_drains {contents : Q → List NetBuffDesc} {capacity : Nat}
    (hN : N.Fifo contents capacity) (s : State Q) {n : Nat} (h : (contents s.rxActive).length ≤ n) :
    contents (virtioNetHandleRx N s n).rxActive = [] ∧
      (virtioNetHandleRx N s n).delivered =
        s.delivered ++ (contents s.rxActive).map (NetBuffDesc.bytes s.rxData) := by
  induction n generalizing s with
  | zero =>
    have hnil := List.eq_nil_of_length_eq_zero (Nat.le_zero.mp h)
    simp only [virtioNetHandleRx, hnil, List.map_nil, List.append_nil, and_self]
  | succ n ih =>
    unfold virtioNetHandleRx
    cases hdeq : N.dequeue s.rxActive with
    | none =>
      have hnil : contents s.rxActive = [] := hN.dequeue_eq_none.mp hdeq
      simp only [hnil, List.map_nil, List.append_nil, and_self]
    | some found =>
      obtain ⟨buf, rest⟩ := found
      have hcons := hN.dequeue_some hdeq
      rw [hcons, List.length_cons] at h
      obtain ⟨hempty, hdelivered⟩ := ih
        { s with
          rxActive := rest, rxFree := N.enqueue s.rxFree buf
          delivered := s.delivered ++ [s.rxData.read buf.ioOrOffset buf.len] }
        (Nat.le_of_succ_le_succ h)
      refine ⟨hempty, hdelivered.trans ?_⟩
      rw [hcons, List.map_cons, List.append_assoc]
      rfl

theorem step_delivered {contents : Q → List NetBuffDesc} {capacity : Nat}
    (hN : N.Fifo contents capacity) (hcap : 0 < capacity) {s t : State Q} {a : Act}
    (hinv : Inv c s) (h : Delivered contents s) (hok : SddfOk contents s a)
    (hstep : step hdrs N s a = some t) : Delivered contents t := by
  obtain ⟨hsplit, hwaiting⟩ := h
  cases step_move hinv.write hinv.notified hstep with
  | write _ hmove => cases hmove <;> exact ⟨hsplit, hwaiting⟩
  | refused | called => exact ⟨hsplit, hwaiting⟩
  | woken hn => exact ⟨hsplit, fun _ => hwaiting (by simp [hn])⟩
  | notified junk _ hmove =>
    cases hmove with
    | inside => exact ⟨hsplit, hwaiting⟩
    | leave hn | enter hn | handed p ring hn | dequeued buf rxFree hn | starved junk hn
    | popped ring hn => exact ⟨hsplit, fun _ => hwaiting (by simp [hn])⟩
    | copied buf p hn hp =>
      have hnil := hwaiting (by simp [hn])
      rw [hnil] at hsplit
      refine ⟨?_, fun _ => hnil⟩
      rw [hnil]
      exact hsplit
    | enqueued buf hn =>
      have hnil := hwaiting (by simp [hn])
      have henq := hN.enqueue s.rxActive { buf with len := pktSize } (by rw [hnil]; exact hcap)
      rw [hnil] at hsplit henq
      refine ⟨?_, fun hne => absurd rfl hne⟩
      rw [henq, List.map_append, hsplit]
      simp only [List.map_nil, List.append_nil, List.nil_append, List.map_cons, NetBuffDesc.bytes]
  | handled n rxFree rxActive delivered hn hshared =>
    obtain ⟨hnil, hdelivered⟩ := virtioNetHandleRx_drains hN s hok
    rw [hshared] at hnil hdelivered
    dsimp only at hnil hdelivered
    refine ⟨?_, fun _ => hnil⟩
    simp only [hnil, hdelivered, List.map_nil, List.append_nil]
    exact hsplit

/-! ## End to end -/

theorem start_frames (q : SpscQueue) (mem rxData : Mem) (rxFree rxActive : Q) (pending : Bool) :
    Frames hdrs (State.start q mem rxData rxFree rxActive pending) :=
  ⟨⟨[], rfl, rfl, rfl⟩, rfl, nofun, nofun⟩

/-- **Delivery to the guest.** From a freshly initialised queue, in every
interleaving: the frames put on the active ring begin with the packets that
`make_pkt` builds for the accepted payloads, in order and each once, and the
guest is handed these frames in that order. A refused payload changes nothing
but the record of the call. -/
theorem write_delivers {contents : Q → List NetBuffDesc} {capacity : Nat}
    (hN : N.Fifo contents capacity) (hcap : 0 < capacity) {q₀ q : SpscQueue} {b e : Nat}
    (he : e < 2 ^ 64) (hinit : spscInit q₀ b e 11 = (true, q)) (mem rxData : Mem)
    (rxFree rxActive : Q) (hactive : contents rxActive = []) (pending : Bool)
    (srcMac dstMac : Vector Byte 6) (srcIp dstIp : BitVec 32) (srcPort dstPort : BitVec 16)
    (udpHdr : Udphdr) {hdrs : TxHdrs}
    (hhdrs : hdrs = TxHdrs.make srcMac dstMac srcIp dstIp srcPort dstPort udpHdr) {s : State Q}
    (hrun : (machine hdrs N).Run (SddfOk contents)
      (State.start q mem rxData rxFree rxActive pending) s) :
    List.Forall₂
      (fun payload frame => ∀ m p, frame.take (42 + payload.length) =
        (makePkt m p payload hdrs.eth hdrs.ip hdrs.udp).read p (42 + payload.length))
      (s.accepted.take s.enqueued.length) (s.enqueued.map Prod.snd) ∧
    s.delivered <+: s.enqueued.map Prod.snd ∧
    ∀ payload t, 1500 < payload.length → step hdrs N s (.call payload) = some t →
      t = { s with calls := s.calls ++ [payload], returned := s.returned ++ [0] } ∧
        t.accepted = s.accepted := by
  have hihl : hdrs.ip.ihl = 5 := by
    rw [hhdrs]
    rfl
  obtain ⟨hsound, _, _, hsize⟩ := spscInit_sound (by decide) he hinit
  rw [spscInit_startAt hinit] at hrun
  have hall := hrun.invariant (fun s => Inv 0 s ∧ Frames hdrs s ∧ Delivered contents s)
    ⟨start_inv hsound hsize _ _ _ _ _, start_frames _ _ _ _ _ _,
      (by rw [State.start, hactive]; rfl), fun _ => hactive⟩
    fun s a t h hok hstep => ⟨step_inv hihl h.1 hstep, step_frames hihl h.1 h.2.1 hstep,
      step_delivered hN hcap h.1 h.2.2 hok hstep⟩
  obtain ⟨hinv, hframes, hdelivered, _⟩ := hall
  obtain ⟨hle, hlen, heq⟩ := hframes.enqueued_eq hinv.ring
  refine ⟨?_, ?_, ?_⟩
  · rw [heq]
    refine forall₂_zipWith (fun payload stale m p => ?_) _ _ ?_
    · rw [read_makePkt_self _ _ _ hihl, ← pktBytes_length payload hdrs]
      exact List.take_left' rfl
    · simp only [List.length_take]
      omega
  · rw [hdelivered]
    exact List.prefix_append _ _
  · intro payload t hbig hstep
    simp only [step] at hstep
    split at hstep
    · rw [if_pos hbig] at hstep
      cases hstep
      refine ⟨rfl, ?_⟩
      simp only [State.accepted, List.filter_append, List.filter_cons]
      rw [if_neg (by simpa using hbig)]
      exact List.append_nil _
    · cases hstep

/-- Two payloads and a refused one between them: the guest is handed two frames. -/
theorem write_delivers_two :
    ∃ s, (machine pingPongHdrs (listRing 4)).Run (SddfOk id) (smallStart 0) s ∧ s.calls.length = 3 ∧
      s.enqueued.length = 2 ∧ s.delivered.length = 2 ∧
        s.delivered <+: s.enqueued.map Prod.snd := by
  obtain ⟨s, hreach, hcalls, henq, hdelivered⟩ :=
    ((machine pingPongHdrs (listRing 4)).restrict (SddfOk id)).exists_reach
      (P := fun s => s.calls.length = 3 ∧ s.enqueued.length = 2 ∧ s.delivered.length = 2)
      (s := smallStart 0)
      (runWrite [7] ++ [.call (List.replicate 1501 0), .wake] ++ runSend ++ runWrite [8] ++ runSend)
      (by decide +kernel)
  have hrun := Machine.run_of_restrict hreach
  have hall := write_delivers (listRing_fifo 4) (by decide) (by decide) twoFrames_init
    _ _ _ _ rfl _ _ _ _ _ _ _ _ rfl hrun
  exact ⟨s, hrun, hcalls, henq, hdelivered, hall.2.1⟩

/-- The descriptor says the length that `pkt_len` computes, and its bytes are
those `make_pkt` built. -/
def HandedExactly (hdrs : TxHdrs) (payload : List Byte) (d : NetBuffDesc × List Byte) : Prop :=
  ∀ m p, let built := makePkt m p payload hdrs.eth hdrs.ip hdrs.udp
    d.1.len = (pktLen built p).toNat ∧ d.2 = built.read p (42 + payload.length)

/-- **The guest is never handed exactly the packet.** In every interleaving, the
descriptor of every accepted payload is of `PKT_SIZE` bytes, and ends with what
its block held before `make_pkt` filled it. -/
theorem guest_frame_never_exact {q₀ q : SpscQueue} {b e : Nat} (he : e < 2 ^ 64)
    (hinit : spscInit q₀ b e 11 = (true, q)) (mem rxData : Mem) (rxFree rxActive : Q)
    (pending : Bool) (srcMac dstMac : Vector Byte 6) (srcIp dstIp : BitVec 32)
    (srcPort dstPort : BitVec 16) (udpHdr : Udphdr) {hdrs : TxHdrs}
    (hhdrs : hdrs = TxHdrs.make srcMac dstMac srcIp dstIp srcPort dstPort udpHdr) {s : State Q}
    (hrun : (machine hdrs N).Reach (State.start q mem rxData rxFree rxActive pending) s)
    {i : Nat} {payload : List Byte} {d : NetBuffDesc × List Byte}
    (hpayload : s.accepted[i]? = some payload) (hd : s.enqueued[i]? = some d) :
    ¬ HandedExactly hdrs payload d ∧ d.1.len = 2048 ∧ d.2.length = 2048 ∧
      ∃ stale, s.covered[i]? = some stale ∧
        d.2.drop (42 + payload.length) = stale.drop (42 + payload.length) := by
  have hihl : hdrs.ip.ihl = 5 := by
    rw [hhdrs]
    rfl
  obtain ⟨hsound, _, _, hsize⟩ := spscInit_sound (by decide) he hinit
  rw [spscInit_startAt hinit] at hrun
  have hall := hrun.invariant (fun s => Inv 0 s ∧ Frames hdrs s)
    ⟨start_inv hsound hsize _ _ _ _ _, start_frames _ _ _ _ _ _⟩
    fun s a t h _ hstep => ⟨step_inv hihl h.1 hstep, step_frames hihl h.1 h.2 hstep⟩
  obtain ⟨hinv, hframes⟩ := hall
  obtain ⟨hle, hlen, heq⟩ := hframes.enqueued_eq hinv.ring
  have hi : i < s.enqueued.length := (List.getElem?_eq_some_iff.mp hd).1
  have hfit : payload.length ≤ 1500 := by
    have hmem := List.mem_of_getElem? hpayload
    simpa [State.accepted] using (List.mem_filter.mp hmem).2
  have hdesc : d.1.len = 2048 := hframes.len d (List.mem_of_getElem? hd)
  obtain ⟨stale, hstale⟩ : ∃ stale, s.covered[i]? = some stale :=
    ⟨_, List.getElem?_eq_getElem (by omega)⟩
  have hcovered : stale.length = 2048 := hframes.stale stale (List.mem_of_getElem? hstale)
  have hbytes : d.2 = blockBytes hdrs payload stale := by
    have hget := congrArg (·[i]?) heq
    simp only [List.getElem?_map, hd, List.getElem?_zipWith, List.getElem?_take_of_lt hi, hpayload,
      hstale, Option.map_some, Option.some.injEq] at hget
    exact hget
  have hpkt := pktBytes_length payload hdrs
  refine ⟨fun hexact => ?_, hdesc, ?_, stale, hstale, ?_⟩
  · have hlen := (hexact mem 0).1
    rw [pktLen_makePkt _ _ hihl hfit, hdesc] at hlen
    omega
  · rw [hbytes, blockBytes, List.length_append, List.length_drop]
    omega
  · rw [hbytes, blockBytes, ← hpkt]
    exact List.drop_left' rfl

/-- The first frame of the small system, over blocks of zeros. -/
theorem guest_frame_never_exact_first :
    ∃ s d, (machine pingPongHdrs (listRing 4)).Reach (smallStart 0) s ∧ s.enqueued[0]? = some d ∧
      ¬ HandedExactly pingPongHdrs [7] d := by
  obtain ⟨s, hrun, hcalls, henq⟩ := (machine pingPongHdrs (listRing 4)).exists_reach
    (P := fun s => s.calls = [[7]] ∧ s.enqueued.length = 1) (s := smallStart 0)
    (runWrite [7] ++ [.wake] ++ runSend) (by decide +kernel)
  have hd : s.enqueued[0]? = some s.enqueued[0] := List.getElem?_eq_getElem (by omega)
  have hpayload : s.accepted[0]? = some [7] := by
    rw [State.accepted, hcalls]
    rfl
  exact ⟨s, _, hrun, hd, (guest_frame_never_exact (by decide) twoFrames_init _ _ _ _ _ _ _ _ _ _ _
    _ rfl hrun hpayload hd).1⟩

/-- The same payload over two earlier contents of its block: the descriptors are
of 2048 bytes, not of 43, and their bytes differ. -/
theorem guest_frame_leaks :
    ∃ s t, (machine pingPongHdrs (listRing 4)).Reach (smallStart 0) s ∧
      (machine pingPongHdrs (listRing 4)).Reach (smallStart 1) t ∧
      s.calls = [[7]] ∧ t.calls = [[7]] ∧
      ∃ d e, s.enqueued = [d] ∧ t.enqueued = [e] ∧ d.1.len = 2048 ∧ e.1.len = 2048 ∧ d.2 ≠ e.2 := by
  obtain ⟨s, hs, hscalls, hsenq⟩ := (machine pingPongHdrs (listRing 4)).exists_reach
    (P := fun s => s.calls = [[7]] ∧
      s.enqueued.map (fun d => (d.1.len, d.2[100]?)) = [(2048, some 0)]) (s := smallStart 0)
    (runWrite [7] ++ [.wake] ++ runSend) (by decide +kernel)
  obtain ⟨t, ht, htcalls, htenq⟩ := (machine pingPongHdrs (listRing 4)).exists_reach
    (P := fun s => s.calls = [[7]] ∧
      s.enqueued.map (fun d => (d.1.len, d.2[100]?)) = [(2048, some 1)]) (s := smallStart 1)
    (runWrite [7] ++ [.wake] ++ runSend) (by decide +kernel)
  obtain ⟨d, hd, hdval⟩ := List.map_eq_singleton_iff.mp hsenq
  obtain ⟨e, he, heval⟩ := List.map_eq_singleton_iff.mp htenq
  obtain ⟨hdlen, hdbyte⟩ := Prod.mk.inj hdval
  obtain ⟨helen, hebyte⟩ := Prod.mk.inj heval
  refine ⟨s, t, hs, ht, hscalls, htcalls, d, e, hd, he, hdlen, helen, fun heq => ?_⟩
  rw [heq, hebyte] at hdbyte
  cases hdbyte

end MicroRosDemos.Sel4.ToGuest
