import MicroRosDemos.Spsc.Phase
import MicroRosDemos.Spsc.Fifo
import MicroRosDemos.Sel4.ToGuest

/-!
# From ping_pong to the guest: the queue inside

Each domain's place and the place of its side of the queue belong together
(`WritePc.At`, `NotifiedPc.At`). With that, every step of the two domains is a
run of the queue's own machine (`step_ring`), so the queue's invariant holds in
every state the two domains reach.
-/

namespace MicroRosDemos.Sel4.ToGuest

open MicroRosDemos.Lib MicroRosDemos.Net MicroRosDemos.Spsc

variable {Q : Type} {hdrs : TxHdrs} {N : NetRing Q} {c : Word}

/-- The phase of the producer at each place of `custom_transport_seL4_write`. -/
def WritePc.At : WritePc → ProducerPhase → Prop
  | .idle, phase | .notify _, phase => phase = .idle
  | .newBlock _, phase => phase = .newBlock
  | .makePkt _, phase => ∃ p, phase = .block p
  | .push _, phase => ∃ p, phase = .push p

/-- The phase of the consumer at each place of `notified` and `send_pkt_to_guest`. -/
def NotifiedPc.At : NotifiedPc → ConsumerPhase → Prop
  | .idle, phase => phase = .idle
  | .empty, phase => phase = .empty
  | .front, phase => phase = .front
  | .dequeueFree, phase | .copy _, phase => ∃ p, phase = .block p
  | .enqueueActive _, phase | .handleRx, phase => ∃ p content, phase = .holding p content
  | .pop, phase => phase = .pop

/-- The accepted payload that is not in the queue yet. -/
def WritePc.unsent : WritePc → List (List Byte)
  | .newBlock payload | .makePkt payload | .push payload => [payload]
  | .idle | .notify _ => []

/-- The invariant the two domains keep around the queue. -/
structure Inv (c : Word) (s : State Q) : Prop where
  ring : Spsc.Inv c s.ring
  blockSize : s.ring.q.log2BlockSize = 11
  write : s.write.At s.ring.producer.phase
  notified : s.notified.At s.ring.consumer.phase
  fits : ∀ payload ∈ s.write.unsent, payload.length ≤ 1500

/-! ## Everything a step of ping_pong does -/

/-- The steps of `custom_transport_seL4_write`. -/
inductive WriteMove (hdrs : TxHdrs) (s : State Q) : State Q → Prop
  | inside (ring : Spsc.State) (hring : producerStep s.ring = some ring)
    (hphase : ring.producer.phase = s.ring.producer.phase) (hpushed : ring.pushed = s.ring.pushed) :
    WriteMove hdrs s { s with ring }
  | handed (payload : List Byte) (p : Nat) (ring : Spsc.State) (hw : s.write = .newBlock payload)
    (hring : producerStep s.ring = some ring) (hp : ring.producer = .block p)
    (hpushed : ring.pushed = s.ring.pushed) :
    WriteMove hdrs s { s with ring, write := .makePkt payload }
  | made (payload : List Byte) (p : Nat) (hw : s.write = .makePkt payload)
    (hp : s.ring.producer = .block p) :
    WriteMove hdrs s { s with
      ring := { s.ring with
        mem := makePkt s.ring.mem p payload hdrs.eth hdrs.ip hdrs.udp, producer := .pushLoad p }
      write := .push payload, covered := s.covered ++ [s.ring.mem.read p pktSize] }
  | pushed (payload : List Byte) (p : Nat) (ring : Spsc.State) (hw : s.write = .push payload)
    (hphase : s.ring.producer.phase = .push p) (hring : producerStep s.ring = some ring)
    (hp : ring.producer = .idle)
    (hpushed : ring.pushed = s.ring.pushed ++ [(p, s.ring.mem.read p s.ring.size)]) :
    WriteMove hdrs s { s with ring, write := .notify payload }
  | notified (payload : List Byte) (hw : s.write = .notify payload) :
    WriteMove hdrs s { s with
      pending := true, write := .idle, returned := s.returned ++ [payload.length] }

theorem writeStep_move {s t : State Q} (hat : s.write.At s.ring.producer.phase)
    (h : writeStep hdrs s = some t) : WriteMove hdrs s t := by
  unfold writeStep at h
  cases hw : s.write with
  | idle => simp only [hw, reduceCtorEq] at h
  | newBlock payload =>
    simp only [hw, Option.map_eq_some_iff] at h
    simp only [hw, WritePc.At] at hat
    obtain ⟨ring, hring, rfl⟩ := h
    rcases producerStep_newBlock hat hring with ⟨hphase, hpushed, hout⟩ | ⟨p, hp, hpushed⟩
    · split
      · next p hp => exact absurd hp (hout p)
      · rw [← hw]
        exact .inside ring hring hphase hpushed
    · simp only [hp]
      exact .handed payload p ring hw hring hp hpushed
  | makePkt payload =>
    simp only [hw] at h
    split at h
    · next p hp =>
      cases h
      exact .made payload p hw hp
    · cases h
  | push payload =>
    simp only [hw, Option.map_eq_some_iff] at h
    simp only [hw, WritePc.At] at hat
    obtain ⟨p, hat⟩ := hat
    obtain ⟨ring, hring, rfl⟩ := h
    rcases producerStep_push hat hring with ⟨hphase, hpushed, hout⟩ | ⟨hp, hpushed⟩
    · split
      · next hp => exact absurd hp hout
      · rw [← hw]
        exact .inside ring hring hphase hpushed
    · simp only [hp]
      exact .pushed payload p ring hw hat hring hp hpushed
  | notify payload =>
    simp only [hw] at h
    cases h
    exact .notified payload hw

/-! ## Everything a step of the handler does -/

/-- The steps of `notified` and `send_pkt_to_guest`, the device's turn apart. -/
inductive NotifiedMove (N : NetRing Q) (s : State Q) : State Q → Prop
  | inside (ring : Spsc.State) (hring : consumerStep s.ring = some ring)
    (hphase : ring.consumer.phase = s.ring.consumer.phase) (hpopped : ring.popped = s.ring.popped) :
    NotifiedMove N s { s with ring }
  | leave (hn : s.notified = .empty) (hpc : s.ring.consumer = .emptyDone true) :
    NotifiedMove N s { s with ring := { s.ring with consumer := .idle }, notified := .idle }
  | enter (hn : s.notified = .empty) (hpc : s.ring.consumer = .emptyDone false) :
    NotifiedMove N s { s with
      ring := { s.ring with consumer := .frontLoadBack }, notified := .front }
  | handed (p : Nat) (ring : Spsc.State) (hn : s.notified = .front)
    (hring : consumerStep s.ring = some ring) (hp : ring.consumer = .block p) :
    NotifiedMove N s { s with ring, notified := .dequeueFree }
  | dequeued (buf : NetBuffDesc) (rxFree : Q) (hn : s.notified = .dequeueFree)
    (hdeq : N.dequeue s.rxFree = some (buf, rxFree)) :
    NotifiedMove N s { s with rxFree, notified := .copy buf }
  | starved (junk : NetBuffDesc) (hn : s.notified = .dequeueFree)
    (hdeq : N.dequeue s.rxFree = none) : NotifiedMove N s { s with notified := .copy junk }
  | copied (buf : NetBuffDesc) (p : Nat) (hn : s.notified = .copy buf)
    (hp : s.ring.consumer = .block p) :
    NotifiedMove N s { s with
      ring := { s.ring with
        consumer := .holding p (s.ring.mem.read p s.ring.size)
        taken := s.ring.taken ++ [s.ring.mem.read p s.ring.size] }
      rxData := s.rxData.write buf.ioOrOffset (s.ring.mem.read p pktSize)
      notified := .enqueueActive buf }
  | enqueued (buf : NetBuffDesc) (hn : s.notified = .enqueueActive buf) :
    NotifiedMove N s { s with
      rxActive := N.enqueue s.rxActive { buf with len := pktSize }
      enqueued := s.enqueued ++
        [({ buf with len := pktSize }, s.rxData.read buf.ioOrOffset pktSize)]
      notified := .handleRx }
  | popped (ring : Spsc.State) (hn : s.notified = .pop) (hring : consumerStep s.ring = some ring)
    (hp : ring.consumer = .idle) :
    NotifiedMove N s { s with ring := { ring with consumer := .emptyLoad }, notified := .empty }

theorem notifiedStep_move {s t : State Q} {junk : NetBuffDesc}
    (hat : s.notified.At s.ring.consumer.phase) (h : notifiedStep N s junk = some t) :
    NotifiedMove N s t := by
  unfold notifiedStep at h
  cases hn : s.notified with
  | idle | handleRx => simp only [hn, reduceCtorEq] at h
  | empty =>
    simp only [hn] at h
    simp only [hn, NotifiedPc.At] at hat
    split at h
    · next hpc =>
      cases h
      exact .leave hn hpc
    · next hpc =>
      cases h
      exact .enter hn hpc
    · rw [Option.map_eq_some_iff] at h
      obtain ⟨ring, hring, rfl⟩ := h
      obtain ⟨hphase, hpopped⟩ := consumerStep_inEmpty hat hring
      rw [← hn]
      exact .inside ring hring hphase hpopped
  | front =>
    simp only [hn, Option.map_eq_some_iff] at h
    simp only [hn, NotifiedPc.At] at hat
    obtain ⟨ring, hring, rfl⟩ := h
    rcases consumerStep_front hat hring with ⟨hphase, hpopped, hout⟩ | ⟨p, hp, hpopped⟩
    · split
      · next p hp => exact absurd hp (hout p)
      · rw [← hn]
        exact .inside ring hring hphase hpopped
    · simp only [hp]
      exact .handed p ring hn hring hp
  | dequeueFree =>
    simp only [hn] at h
    split at h
    · next buf rxFree hdeq =>
      cases h
      exact .dequeued buf rxFree hn hdeq
    · next hdeq =>
      cases h
      exact .starved junk hn hdeq
  | copy buf =>
    simp only [hn] at h
    split at h
    · next p hp =>
      cases h
      exact .copied buf p hn hp
    · cases h
  | enqueueActive buf =>
    simp only [hn] at h
    cases h
    exact .enqueued buf hn
  | pop =>
    simp only [hn, Option.map_eq_some_iff] at h
    simp only [hn, NotifiedPc.At] at hat
    obtain ⟨ring, hring, rfl⟩ := h
    rcases consumerStep_pop hat hring with ⟨hphase, hpopped, hout⟩ | ⟨hp, hpopped⟩
    · split
      · next hp => exact absurd hp hout
      · rw [← hn]
        exact .inside ring hring hphase hpopped
    · simp only [hp]
      exact .popped ring hn hring hp

/-! ## Everything a step does -/

/-- The device's turn touches the net rings and what was handed to the guest. -/
theorem virtioNetHandleRx_frame (s : State Q) (n : Nat) :
    ∃ rxFree rxActive delivered,
      virtioNetHandleRx N s n = { s with rxFree, rxActive, delivered } := by
  induction n generalizing s with
  | zero => exact ⟨_, _, _, rfl⟩
  | succ n ih =>
    unfold virtioNetHandleRx
    split
    · exact ⟨_, _, _, rfl⟩
    · obtain ⟨rxFree, rxActive, delivered, hrest⟩ := ih _
      exact ⟨rxFree, rxActive, delivered, hrest⟩

/-- The steps of the two domains. -/
inductive Move (hdrs : TxHdrs) (N : NetRing Q) (s : State Q) : Act → State Q → Prop
  | refused (payload : List Byte) (hw : s.write = .idle) (hbig : 1500 < payload.length) :
    Move hdrs N s (.call payload)
      { s with calls := s.calls ++ [payload], returned := s.returned ++ [0] }
  | called (payload : List Byte) (hw : s.write = .idle) (hfit : payload.length ≤ 1500) :
    Move hdrs N s (.call payload) { s with
      ring := { s.ring with producer := .newBlockLoadBack }
      write := .newBlock payload, calls := s.calls ++ [payload] }
  | write (t : State Q) (hmove : WriteMove hdrs s t) : Move hdrs N s .write t
  | woken (hn : s.notified = .idle) :
    Move hdrs N s .wake { s with
      ring := { s.ring with consumer := .emptyLoad }, pending := false, notified := .empty }
  | notified (junk : NetBuffDesc) (t : State Q) (hmove : NotifiedMove N s t) :
    Move hdrs N s (.notified junk) t
  | handled (n : Nat) (rxFree rxActive : Q) (delivered : List (List Byte))
    (hn : s.notified = .handleRx)
    (hshared : virtioNetHandleRx N s n = { s with rxFree, rxActive, delivered }) :
    Move hdrs N s (.handleRx n) { s with
      ring := { s.ring with consumer := .popLoad }, notified := .pop
      rxFree, rxActive, delivered }

theorem step_move {s t : State Q} {a : Act} (hw : s.write.At s.ring.producer.phase)
    (hn : s.notified.At s.ring.consumer.phase) (h : step hdrs N s a = some t) :
    Move hdrs N s a t := by
  cases a with
  | write => exact .write t (writeStep_move hw h)
  | notified junk => exact .notified junk t (notifiedStep_move hn h)
  | call payload =>
    simp only [step] at h
    split at h
    · next hidle =>
      split at h
      · next hbig =>
        cases h
        exact .refused payload hidle hbig
      · next hfit =>
        cases h
        exact .called payload hidle (Nat.not_lt.mp hfit)
    · cases h
  | wake =>
    simp only [step] at h
    split at h
    · next hidle _ =>
      cases h
      exact .woken hidle
    · cases h
  | handleRx n =>
    simp only [step] at h
    split at h
    · next hturn =>
      cases h
      obtain ⟨rxFree, rxActive, delivered, hshared⟩ := virtioNetHandleRx_frame (N := N) s n
      rw [hshared]
      exact .handled n rxFree rxActive delivered hturn hshared
    · cases h

/-! ## A run of the queue inside every step -/

theorem Inv.size {s : State Q} (h : Inv c s) : s.ring.size = 2048 := by
  rw [Spsc.State.size, h.blockSize]
  rfl

theorem WriteMove.ring_reach {s t : State Q} (hihl : hdrs.ip.ihl = 5) (h : Inv c s)
    (hmove : WriteMove hdrs s t) : Spsc.machine.Reach s.ring t.ring := by
  cases hmove with
  | inside ring hring => exact .single (a := .producer) trivial hring
  | handed payload p ring hw hring => exact .single (a := .producer) trivial hring
  | pushed payload p ring hw hphase hring => exact .single (a := .producer) trivial hring
  | notified payload hw => exact .refl
  | made payload p hw hp =>
    have hlen : payload.length ≤ 1500 := h.fits payload (by rw [hw]; exact List.mem_singleton.mpr rfl)
    have hroom : (pktBytes payload hdrs).length ≤ s.ring.size := by
      rw [pktBytes_length, h.size]
      omega
    have hfill : Spsc.machine.step s.ring (.fill (pktBytes payload hdrs)) =
        some { s.ring with mem := s.ring.mem.write p (pktBytes payload hdrs) } := by
      simp only [Spsc.machine, Spsc.step, hp, if_pos hroom]
    refine (Machine.Run.single trivial hfill).step (a := .push) trivial ?_
    rw [makePkt_eq_write _ _ _ hihl]
    simp only [Spsc.machine, Spsc.step, hp]

theorem NotifiedMove.ring_reach {s t : State Q} (hmove : NotifiedMove N s t) :
    Spsc.machine.Reach s.ring t.ring := by
  cases hmove with
  | inside ring hring => exact .single (a := .consumer) trivial hring
  | handed p ring hn hring => exact .single (a := .consumer) trivial hring
  | dequeued | starved | enqueued => exact .refl
  | leave hn hpc =>
    refine .single (a := .emptyRet) trivial ?_
    simp only [Spsc.machine, Spsc.step, hpc]
  | enter hn hpc =>
    have hret : Spsc.machine.step s.ring .emptyRet = some { s.ring with consumer := .idle } := by
      simp only [Spsc.machine, Spsc.step, hpc]
    exact (Machine.Run.single trivial hret).step (a := .front) trivial rfl
  | copied buf p hn hp =>
    refine .single (a := .read) trivial ?_
    simp only [Spsc.machine, Spsc.step, hp]
  | popped ring hn hring hp =>
    refine (Machine.Run.single (a := .consumer) trivial hring).step (a := .empty) trivial ?_
    simp only [Spsc.machine, Spsc.step, hp]

/-- Every step of the two domains is a run of the queue between them. -/
theorem step_ring {s t : State Q} {a : Act} (hihl : hdrs.ip.ihl = 5) (h : Inv c s)
    (hstep : step hdrs N s a = some t) : Spsc.machine.Reach s.ring t.ring := by
  have hwrite := h.write
  have hnotified := h.notified
  cases step_move hwrite hnotified hstep with
  | write _ hmove => exact hmove.ring_reach hihl h
  | notified junk _ hmove => exact hmove.ring_reach
  | refused payload hw hbig => exact .refl
  | called payload hw hfit =>
    rw [hw] at hwrite
    have hidle : s.ring.producer = .idle := ProducerPc.phase_idle.mp hwrite
    refine .single (a := .newBlock) trivial ?_
    simp only [Spsc.machine, Spsc.step, hidle]
  | woken hn =>
    rw [hn] at hnotified
    have hidle : s.ring.consumer = .idle := ConsumerPc.phase_idle.mp hnotified
    refine .single (a := .empty) trivial ?_
    simp only [Spsc.machine, Spsc.step, hidle]
  | handled n rxFree rxActive delivered hn hshared =>
    rw [hn] at hnotified
    obtain ⟨p, content, hphase⟩ := hnotified
    have hpc : s.ring.consumer = .holding p content := ConsumerPc.phase_holding.mp hphase
    refine .single (a := .pop) trivial ?_
    simp only [Spsc.machine, Spsc.step, hpc]

/-! ## Places -/

theorem WriteMove.at {s t : State Q} (hw : s.write.At s.ring.producer.phase)
    (hn : s.notified.At s.ring.consumer.phase) (hmove : WriteMove hdrs s t) :
    t.write.At t.ring.producer.phase ∧ t.notified.At t.ring.consumer.phase := by
  cases hmove with
  | inside ring hring hphase =>
    obtain ⟨_, hc, _⟩ := producerStep_frame hring
    exact ⟨hphase ▸ hw, hc ▸ hn⟩
  | handed payload p ring heq hring hp =>
    obtain ⟨_, hc, _⟩ := producerStep_frame hring
    exact ⟨⟨p, by rw [hp]; rfl⟩, hc ▸ hn⟩
  | made payload p heq hp => exact ⟨⟨p, rfl⟩, hn⟩
  | pushed payload p ring heq hphase hring hp =>
    obtain ⟨_, hc, _⟩ := producerStep_frame hring
    exact ⟨by rw [hp]; rfl, hc ▸ hn⟩
  | notified payload heq =>
    rw [heq] at hw
    exact ⟨hw, hn⟩

theorem NotifiedMove.at {s t : State Q} (hw : s.write.At s.ring.producer.phase)
    (hn : s.notified.At s.ring.consumer.phase) (hmove : NotifiedMove N s t) :
    t.write.At t.ring.producer.phase ∧ t.notified.At t.ring.consumer.phase := by
  cases hmove with
  | inside ring hring hphase =>
    obtain ⟨_, hp, _⟩ := consumerStep_frame hring
    exact ⟨hp ▸ hw, hphase ▸ hn⟩
  | handed p ring heq hring hpc =>
    obtain ⟨_, hp, _⟩ := consumerStep_frame hring
    exact ⟨hp ▸ hw, ⟨p, by rw [hpc]; rfl⟩⟩
  | popped ring heq hring hpc =>
    obtain ⟨_, hp, _⟩ := consumerStep_frame hring
    exact ⟨hp ▸ hw, rfl⟩
  | leave | enter => exact ⟨hw, rfl⟩
  | dequeued buf rxFree heq | starved junk heq =>
    rw [heq] at hn
    exact ⟨hw, hn⟩
  | copied buf p heq hp => exact ⟨hw, ⟨p, _, rfl⟩⟩
  | enqueued buf heq =>
    rw [heq] at hn
    exact ⟨hw, hn⟩

/-- Every step keeps the two places together. -/
theorem step_at {s t : State Q} {a : Act} (hw : s.write.At s.ring.producer.phase)
    (hn : s.notified.At s.ring.consumer.phase) (hstep : step hdrs N s a = some t) :
    t.write.At t.ring.producer.phase ∧ t.notified.At t.ring.consumer.phase := by
  cases step_move hw hn hstep with
  | write _ hmove => exact hmove.at hw hn
  | notified junk _ hmove => exact hmove.at hw hn
  | refused payload hidle hbig => exact ⟨hw, hn⟩
  | called payload hidle hfit => exact ⟨rfl, hn⟩
  | woken | handled => exact ⟨hw, rfl⟩

/-! ## Every step keeps the invariant -/

theorem WriteMove.fits {s t : State Q} (hfits : ∀ payload ∈ s.write.unsent, payload.length ≤ 1500)
    (hmove : WriteMove hdrs s t) : ∀ payload ∈ t.write.unsent, payload.length ≤ 1500 := by
  cases hmove with
  | inside => exact hfits
  | handed payload p ring heq | made payload p heq =>
    rw [heq] at hfits
    exact hfits
  | pushed | notified => exact fun _ hmem => nomatch hmem

/-- ping_pong leaves the handler's place alone. -/
theorem WriteMove.handler {s t : State Q} (hmove : WriteMove hdrs s t) :
    t.notified = s.notified := by
  cases hmove <;> rfl

/-- The handler leaves ping_pong's place alone. -/
theorem NotifiedMove.write {s t : State Q} (hmove : NotifiedMove N s t) : t.write = s.write := by
  cases hmove <;> rfl

theorem step_fits {s t : State Q} {a : Act} (h : Inv c s) (hstep : step hdrs N s a = some t) :
    ∀ payload ∈ t.write.unsent, payload.length ≤ 1500 := by
  cases step_move h.write h.notified hstep with
  | write _ hmove => exact hmove.fits h.fits
  | notified junk _ hmove =>
    rw [hmove.write]
    exact h.fits
  | called payload hw hfit =>
    intro p hmem
    rw [List.mem_singleton.mp hmem]
    exact hfit
  | refused | woken | handled => exact h.fits

theorem step_inv {s t : State Q} {a : Act} (hihl : hdrs.ip.ihl = 5) (h : Inv c s)
    (hstep : step hdrs N s a = some t) : Inv c t := by
  have hreach := step_ring hihl h hstep
  have hsize : t.ring.q.log2BlockSize = 11 :=
    (congrArg (·.2.2.1) (reach_geometry hreach)).trans h.blockSize
  obtain ⟨hw, hn⟩ := step_at h.write h.notified hstep
  exact ⟨reach_inv h.ring hreach, hsize, hw, hn, step_fits h hstep⟩

/-- Both domains idle over a queue of blocks of 2048 bytes. -/
theorem start_inv {q : SpscQueue} (hq : q.Sound) (hsize : q.log2BlockSize = 11) (mem rxData : Mem)
    (rxFree rxActive : Q) (pending : Bool) :
    Inv c (State.start (q.startAt c) mem rxData rxFree rxActive pending) where
  ring := Spsc.start_inv hq c mem
  blockSize := hsize
  write := rfl
  notified := rfl
  fits := fun _ hmem => nomatch hmem

/-- The invariant holds in every state that the two domains reach from a fresh queue. -/
theorem reach_inv (hihl : hdrs.ip.ihl = 5) {q₀ q : SpscQueue} {b e : Nat} (he : e < 2 ^ 64)
    (hinit : spscInit q₀ b e 11 = (true, q)) {mem rxData : Mem} {rxFree rxActive : Q} {pending : Bool}
    {s : State Q} (hreach : (machine hdrs N).Reach (State.start q mem rxData rxFree rxActive pending) s) :
    Inv 0 s := by
  obtain ⟨hsound, _, _, hsize⟩ := spscInit_sound (by decide) he hinit
  rw [spscInit_startAt hinit] at hreach
  exact hreach.invariant _ (start_inv hsound hsize mem rxData rxFree rxActive pending)
    fun _ _ _ h _ hstep => step_inv hihl h hstep

/-! ## A small system to run -/

/-- A header over two blocks of 2048 bytes at 0, as `spsc_init` leaves it. -/
def twoFrames : SpscQueue := ⟨0, 0, 0, 0, 0, 0, 0, 4096, 11, 1⟩

theorem twoFrames_init : spscInit twoFrames 0 4096 11 = (true, twoFrames) := by decide +kernel

/-- The start of the small system, every byte of the blocks being `stale`. -/
def smallStart (stale : Byte) : State (List NetBuffDesc) :=
  State.start twoFrames (fun _ => stale) (fun _ => 0) [⟨0, 0⟩] [] false

/-- ping_pong writes a payload, alone. -/
def runWrite (payload : List Byte) : List Act := .call payload :: List.replicate 8 .write

/-- The handler finds a packet and sends it, alone. -/
def runSend : List Act :=
  List.replicate 11 (.notified ⟨0, 0⟩) ++ .handleRx 1 :: List.replicate 3 (.notified ⟨0, 0⟩)

/-- The handler finds the queue empty, and returns. -/
def runLeave : List Act := List.replicate 5 (.notified ⟨0, 0⟩)

end MicroRosDemos.Sel4.ToGuest
