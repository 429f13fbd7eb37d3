import MicroRosDemos.Spsc.Fifo
import MicroRosDemos.Sel4.FromGuest

/-!
# From the guest to ping_pong: the queue and the buffers

As on the way to the guest, each domain's place fixes the phase of its side of
the queue, and every step is a run of the queue's machine. The VMM copies a
whole buffer into a block, so this needs the lengths of the active buffers, and
those need that no buffer is lost or in two places: the free ring, the active
ring and the VMM's hands share out the buffers of `net_tx` (`Inv.buffers`).
-/

namespace MicroRosDemos.Sel4.FromGuest

open MicroRosDemos.Lib MicroRosDemos.Net MicroRosDemos.Spsc

variable {Q : Type} {hdrs : TxHdrs} {N : NetRing Q} {c : Word}
variable {contents : Q → List NetBuffDesc} {capacity : Nat} {offsets : List Nat}

/-- The phase of the producer at each place of `fault` and `process_tx_pending`. -/
def FaultPc.At : FaultPc → ProducerPhase → Prop
  | .idle, phase | .faultHandle, phase | .drain, phase | .enqueueFree _, phase | .notify, phase =>
    phase = .idle
  | .newBlock _, phase => phase = .newBlock
  | .fill _, phase => ∃ p, phase = .block p
  | .push _, phase => ∃ p, phase = .push p

/-- The phase of the consumer at each place of `custom_transport_seL4_read`. -/
def ReadPc.At : ReadPc → ConsumerPhase → Prop
  | .idle, phase => phase = .idle
  | .empty, phase => phase = .empty
  | .front _, phase => phase = .front
  | .filter _, phase => ∃ p, phase = .block p
  | .skip _, phase | .finish _ _, phase => phase = .pop
  | .getPayload _, phase | .getPayloadLen _, phase | .copy _ _, phase | .assertFailed, phase =>
    ∃ p content, phase = .holding p content

/-- The buffer the VMM has taken from the active ring and not returned. -/
def FaultPc.held : FaultPc → List NetBuffDesc
  | .newBlock buf | .fill buf | .push buf | .enqueueFree buf => [buf]
  | .idle | .faultHandle | .drain | .notify => []

/-- Every buffer of `net_tx`, wherever it is. -/
def State.buffers (contents : Q → List NetBuffDesc) (s : State Q) : List Nat :=
  (contents s.txFree ++ contents s.txActive ++ s.fault.held).map NetBuffDesc.ioOrOffset

/-- What the two domains keep around the queue, whatever its counters hold. -/
structure Around (contents : Q → List NetBuffDesc) (offsets : List Nat) (s : State Q) : Prop where
  blockSize : s.ring.q.log2BlockSize = 11
  fault : s.fault.At s.ring.producer.phase
  read : s.read.At s.ring.consumer.phase
  buffers : (s.buffers contents).Perm offsets
  fits : ∀ d ∈ contents s.txActive ++ s.fault.held, d.len ≤ 2048

/-- The invariant the two domains keep around the queue and the buffers. -/
structure Inv (c : Word) (contents : Q → List NetBuffDesc) (offsets : List Nat) (s : State Q) : Prop
    extends Around contents offsets s where
  ring : Spsc.Inv c s.ring

/-- The frames of the guest fit a buffer. -/
def FramesFit (_ : State Q) : Act → Prop
  | .guestFrame frame => frame.length ≤ 2048
  | _ => True

/-! ## Everything a step of the VMM does -/

/-- The steps of `process_tx_pending`. -/
inductive FaultMove (N : NetRing Q) (s : State Q) : State Q → Prop
  | inside (ring : Spsc.State) (hring : producerStep s.ring = some ring)
    (hphase : ring.producer.phase = s.ring.producer.phase) (hpushed : ring.pushed = s.ring.pushed) :
    FaultMove N s { s with ring }
  | drained (hf : s.fault = .drain) (hdeq : N.dequeue s.txActive = none) :
    FaultMove N s { s with fault := .idle }
  | dequeued (buf : NetBuffDesc) (txActive : Q) (hf : s.fault = .drain)
    (hdeq : N.dequeue s.txActive = some (buf, txActive)) :
    FaultMove N s { s with
      ring := { s.ring with producer := .newBlockLoadBack }, txActive, fault := .newBlock buf }
  | handed (buf : NetBuffDesc) (p : Nat) (ring : Spsc.State) (hf : s.fault = .newBlock buf)
    (hring : producerStep s.ring = some ring) (hp : ring.producer = .block p)
    (hpushed : ring.pushed = s.ring.pushed) :
    FaultMove N s { s with ring, fault := .fill buf }
  | filled (buf : NetBuffDesc) (p : Nat) (hf : s.fault = .fill buf)
    (hp : s.ring.producer = .block p) :
    FaultMove N s { s with
      ring := { s.ring with
        mem := s.ring.mem.write p (s.txData.read buf.ioOrOffset buf.len), producer := .pushLoad p }
      fault := .push buf }
  | pushed (buf : NetBuffDesc) (p : Nat) (ring : Spsc.State) (hf : s.fault = .push buf)
    (hphase : s.ring.producer.phase = .push p) (hring : producerStep s.ring = some ring)
    (hp : ring.producer = .idle)
    (hpushed : ring.pushed = s.ring.pushed ++ [(p, s.ring.mem.read p s.ring.size)]) :
    FaultMove N s { s with ring, fault := .enqueueFree buf }
  | returned (buf : NetBuffDesc) (hf : s.fault = .enqueueFree buf) :
    FaultMove N s { s with txFree := N.enqueue s.txFree buf, fault := .notify }
  | notified (hf : s.fault = .notify) : FaultMove N s { s with pending := true, fault := .drain }

theorem faultStep_move {s t : State Q} (hat : s.fault.At s.ring.producer.phase)
    (h : faultStep N s = some t) : FaultMove N s t := by
  unfold faultStep at h
  cases hf : s.fault with
  | idle | faultHandle => simp only [hf, reduceCtorEq] at h
  | drain =>
    simp only [hf] at h
    split at h
    · next hdeq =>
      cases h
      exact .drained hf hdeq
    · next buf txActive hdeq =>
      cases h
      exact .dequeued buf txActive hf hdeq
  | newBlock buf =>
    simp only [hf, Option.map_eq_some_iff] at h
    simp only [hf, FaultPc.At] at hat
    obtain ⟨ring, hring, rfl⟩ := h
    rcases producerStep_newBlock hat hring with ⟨hphase, hpushed, hout⟩ | ⟨p, hp, hpushed⟩
    · split
      · next p hp => exact absurd hp (hout p)
      · rw [← hf]
        exact .inside ring hring hphase hpushed
    · simp only [hp]
      exact .handed buf p ring hf hring hp hpushed
  | fill buf =>
    simp only [hf] at h
    split at h
    · next p hp =>
      cases h
      exact .filled buf p hf hp
    · cases h
  | push buf =>
    simp only [hf, Option.map_eq_some_iff] at h
    simp only [hf, FaultPc.At] at hat
    obtain ⟨p, hat⟩ := hat
    obtain ⟨ring, hring, rfl⟩ := h
    rcases producerStep_push hat hring with ⟨hphase, hpushed, hout⟩ | ⟨hp, hpushed⟩
    · split
      · next hp => exact absurd hp hout
      · rw [← hf]
        exact .inside ring hring hphase hpushed
    · simp only [hp]
      exact .pushed buf p ring hf hat hring hp hpushed
  | enqueueFree buf =>
    simp only [hf] at h
    cases h
    exact .returned buf hf
  | notify =>
    simp only [hf] at h
    cases h
    exact .notified hf

/-! ## Everything a step of ping_pong does -/

/-- The steps of `spsc_empty` and `custom_transport_seL4_read`. -/
inductive ReadMove (hdrs : TxHdrs) (s : State Q) : State Q → Prop
  | inside (ring : Spsc.State) (hring : consumerStep s.ring = some ring)
    (hphase : ring.consumer.phase = s.ring.consumer.phase) (hpopped : ring.popped = s.ring.popped) :
    ReadMove hdrs s { s with ring }
  | looked (empty : Bool) (hr : s.read = .empty) (hpc : s.ring.consumer = .emptyDone empty) :
    ReadMove hdrs s { s with ring := { s.ring with consumer := .idle }, read := .idle }
  | handed (call : ReadCall) (p : Nat) (ring : Spsc.State) (hr : s.read = .front call)
    (hring : consumerStep s.ring = some ring) (hp : ring.consumer = .block p)
    (hpopped : ring.popped = s.ring.popped) :
    ReadMove hdrs s { s with ring, read := .filter call }
  | accepted (call : ReadCall) (p : Nat) (hr : s.read = .filter call)
    (hp : s.ring.consumer = .block p) (hme : isAddressedToMe hdrs s.ring.mem p = true) :
    ReadMove hdrs s { s with
      ring := { s.ring with
        consumer := .holding p (s.ring.mem.read p s.ring.size)
        taken := s.ring.taken ++ [s.ring.mem.read p s.ring.size] }
      read := .getPayload call }
  | refused (call : ReadCall) (p : Nat) (hr : s.read = .filter call)
    (hp : s.ring.consumer = .block p) (hme : isAddressedToMe hdrs s.ring.mem p = false) :
    ReadMove hdrs s { s with
      ring := { s.ring with
        consumer := .popLoad, taken := s.ring.taken ++ [s.ring.mem.read p s.ring.size] }
      read := .skip call }
  | skipped (call : ReadCall) (ring : Spsc.State) (hr : s.read = .skip call)
    (hring : consumerStep s.ring = some ring) (hp : ring.consumer = .idle)
    (hpopped : ring.popped = s.ring.popped + 1) :
    ReadMove hdrs s { s with
      ring := { ring with consumer := .frontLoadBack }, read := .front call }
  | assertFailed (p : Nat) (content : List Byte)
    (hr : (∃ call, s.read = .getPayload call) ∨ ∃ call, s.read = .getPayloadLen call)
    (hp : s.ring.consumer = .holding p content) (hudp : isUdp s.ring.mem p = false) :
    ReadMove hdrs s { s with read := .assertFailed }
  | payload (call : ReadCall) (hr : s.read = .getPayload call) :
    ReadMove hdrs s { s with read := .getPayloadLen call }
  | dropped (call : ReadCall) (p : Nat) (content : List Byte) (hr : s.read = .getPayloadLen call)
    (hp : s.ring.consumer = .holding p content) (hlen : call.len < getPayloadLen s.ring.mem p) :
    ReadMove hdrs s { s with
      ring := { s.ring with consumer := .popLoad }, read := .finish call 0 }
  | kept (call : ReadCall) (p : Nat) (content : List Byte) (hr : s.read = .getPayloadLen call)
    (hp : s.ring.consumer = .holding p content) (hlen : ¬ call.len < getPayloadLen s.ring.mem p) :
    ReadMove hdrs s { s with read := .copy call (getPayloadLen s.ring.mem p) }
  | copied (call : ReadCall) (payloadLen : BitVec 64) (p : Nat) (content : List Byte)
    (hr : s.read = .copy call payloadLen) (hp : s.ring.consumer = .holding p content) :
    ReadMove hdrs s { s with
      ring := { s.ring with consumer := .popLoad }
      node := s.node.write call.buf (s.ring.mem.read (getPayload p) payloadLen.toNat)
      read := .finish call payloadLen }
  | finished (call : ReadCall) (ret : BitVec 64) (ring : Spsc.State) (hr : s.read = .finish call ret)
    (hring : consumerStep s.ring = some ring) (hp : ring.consumer = .idle)
    (hpopped : ring.popped = s.ring.popped + 1) :
    ReadMove hdrs s { s with
      ring, read := .idle, results := s.results ++ [⟨call, ret, s.nodeAtCall, s.node⟩] }

theorem readStep_move {s t : State Q} (hat : s.read.At s.ring.consumer.phase)
    (h : readStep hdrs s = some t) : ReadMove hdrs s t := by
  unfold readStep at h
  cases hr : s.read with
  | idle | assertFailed => simp only [hr, reduceCtorEq] at h
  | empty =>
    simp only [hr] at h
    simp only [hr, ReadPc.At] at hat
    split at h
    · next empty hpc =>
      cases h
      exact .looked empty hr hpc
    · rw [Option.map_eq_some_iff] at h
      obtain ⟨ring, hring, rfl⟩ := h
      obtain ⟨hphase, hpopped⟩ := consumerStep_inEmpty hat hring
      rw [← hr]
      exact .inside ring hring hphase hpopped
  | front call =>
    simp only [hr, Option.map_eq_some_iff] at h
    simp only [hr, ReadPc.At] at hat
    obtain ⟨ring, hring, rfl⟩ := h
    rcases consumerStep_front hat hring with ⟨hphase, hpopped, hout⟩ | ⟨p, hp, hpopped⟩
    · split
      · next p hp => exact absurd hp (hout p)
      · rw [← hr]
        exact .inside ring hring hphase hpopped
    · simp only [hp]
      exact .handed call p ring hr hring hp hpopped
  | filter call =>
    simp only [hr] at h
    split at h
    · next p hp =>
      split at h
      · next hme =>
        cases h
        exact .accepted call p hr hp hme
      · next hme =>
        cases h
        exact .refused call p hr hp (Bool.not_eq_true _ ▸ hme)
    · cases h
  | skip call =>
    simp only [hr, Option.map_eq_some_iff] at h
    simp only [hr, ReadPc.At] at hat
    obtain ⟨ring, hring, rfl⟩ := h
    rcases consumerStep_pop hat hring with ⟨hphase, hpopped, hout⟩ | ⟨hp, hpopped⟩
    · split
      · next hp => exact absurd hp hout
      · rw [← hr]
        exact .inside ring hring hphase hpopped
    · simp only [hp]
      exact .skipped call ring hr hring hp hpopped
  | getPayload call =>
    simp only [hr] at h
    split at h
    · next p content hp =>
      split at h
      · cases h
        exact .payload call hr
      · next hudp =>
        cases h
        exact .assertFailed p content (.inl ⟨call, hr⟩) hp (Bool.not_eq_true _ ▸ hudp)
    · cases h
  | getPayloadLen call =>
    simp only [hr] at h
    split at h
    · next p content hp =>
      split at h
      · split at h
        · next hlen =>
          cases h
          exact .dropped call p content hr hp hlen
        · next hlen =>
          cases h
          exact .kept call p content hr hp hlen
      · next hudp =>
        cases h
        exact .assertFailed p content (.inr ⟨call, hr⟩) hp (Bool.not_eq_true _ ▸ hudp)
    · cases h
  | copy call payloadLen =>
    simp only [hr] at h
    split at h
    · next p content hp =>
      cases h
      exact .copied call payloadLen p content hr hp
    · cases h
  | finish call ret =>
    simp only [hr, Option.map_eq_some_iff] at h
    simp only [hr, ReadPc.At] at hat
    obtain ⟨ring, hring, rfl⟩ := h
    rcases consumerStep_pop hat hring with ⟨hphase, hpopped, hout⟩ | ⟨hp, hpopped⟩
    · split
      · next hp => exact absurd hp hout
      · rw [← hr]
        exact .inside ring hring hphase hpopped
    · simp only [hp]
      exact .finished call ret ring hr hring hp hpopped

/-! ## Everything a step does -/

/-- The steps of the two domains. -/
inductive Move (hdrs : TxHdrs) (N : NetRing Q) (s : State Q) : Act → State Q → Prop
  | faulted (hf : s.fault = .idle) : Move hdrs N s .fault { s with fault := .faultHandle }
  | framed (frame : List Byte) (buf : NetBuffDesc) (txFree : Q) (hf : s.fault = .faultHandle)
    (hdeq : N.dequeue s.txFree = some (buf, txFree)) :
    Move hdrs N s (.guestFrame frame) { s with
      txFree, txData := s.txData.write buf.ioOrOffset frame
      txActive := N.enqueue s.txActive { buf with len := frame.length }
      sent := s.sent ++ [frame] }
  | handled (success : Bool) (hf : s.fault = .faultHandle) :
    Move hdrs N s (.handled success) { s with fault := if success then .drain else .idle }
  | vmm (t : State Q) (hmove : FaultMove N s t) : Move hdrs N s .vmm t
  | looks (hr : s.read = .idle) :
    Move hdrs N s .empty
      { s with ring := { s.ring with consumer := .emptyLoad }, read := .empty }
  | called (node : Mem) (call : ReadCall) (hr : s.read = .idle) :
    Move hdrs N s (.call node call) { s with
      ring := { s.ring with consumer := .frontLoadBack }, read := .front call
      node, nodeAtCall := node }
  | read (t : State Q) (hmove : ReadMove hdrs s t) : Move hdrs N s .read t

theorem step_move {s t : State Q} {a : Act} (hf : s.fault.At s.ring.producer.phase)
    (hr : s.read.At s.ring.consumer.phase) (h : step hdrs N s a = some t) : Move hdrs N s a t := by
  cases a with
  | vmm => exact .vmm t (faultStep_move hf h)
  | read => exact .read t (readStep_move hr h)
  | fault =>
    simp only [step] at h
    split at h
    · next hidle =>
      cases h
      exact .faulted hidle
    · cases h
  | guestFrame frame =>
    simp only [step] at h
    split at h
    · next buf txFree hplace hdeq =>
      cases h
      exact .framed frame buf txFree hplace hdeq
    · cases h
  | handled success =>
    simp only [step] at h
    split at h
    · next hplace =>
      cases h
      exact .handled success hplace
    · cases h
  | empty =>
    simp only [step] at h
    split at h
    · next hidle =>
      cases h
      exact .looks hidle
    · cases h
  | call node call =>
    simp only [step] at h
    split at h
    · next hidle =>
      cases h
      exact .called node call hidle
    · cases h

/-! ## A run of the queue inside every step -/

theorem Around.size {s : State Q} (h : Around contents offsets s) : s.ring.size = 2048 := by
  rw [Spsc.State.size, h.blockSize]
  rfl

theorem FaultMove.ring_reach {s t : State Q} (h : Around contents offsets s)
    (hmove : FaultMove N s t) : Spsc.machine.Reach s.ring t.ring := by
  have hfault := h.fault
  cases hmove with
  | inside ring hring => exact .single (a := .producer) trivial hring
  | handed buf p ring hf hring => exact .single (a := .producer) trivial hring
  | pushed buf p ring hf hphase hring => exact .single (a := .producer) trivial hring
  | drained | returned | notified => exact .refl
  | dequeued buf txActive hf hdeq =>
    rw [hf] at hfault
    have hidle : s.ring.producer = .idle := ProducerPc.phase_idle.mp hfault
    refine .single (a := .newBlock) trivial ?_
    simp only [Spsc.machine, Spsc.step, hidle]
  | filled buf p hf hp =>
    have hlen : buf.len ≤ 2048 := h.fits buf (by
      rw [hf]
      exact List.mem_append_right _ (List.mem_singleton.mpr rfl))
    have hroom : (s.txData.read buf.ioOrOffset buf.len).length ≤ s.ring.size := by
      rw [Mem.read_length, h.size]
      exact hlen
    have hfill : Spsc.machine.step s.ring (.fill (s.txData.read buf.ioOrOffset buf.len)) =
        some { s.ring with
          mem := s.ring.mem.write p (s.txData.read buf.ioOrOffset buf.len) } := by
      simp only [Spsc.machine, Spsc.step, hp, if_pos hroom]
    refine (Machine.Run.single trivial hfill).step (a := .push) trivial ?_
    simp only [Spsc.machine, Spsc.step, hp]

theorem ReadMove.ring_reach {s t : State Q} (hmove : ReadMove hdrs s t) :
    Spsc.machine.Reach s.ring t.ring := by
  cases hmove with
  | inside ring hring => exact .single (a := .consumer) trivial hring
  | handed call p ring hr hring => exact .single (a := .consumer) trivial hring
  | finished call ret ring hr hring => exact .single (a := .consumer) trivial hring
  | assertFailed | payload | kept => exact .refl
  | looked empty hr hpc =>
    refine .single (a := .emptyRet) trivial ?_
    simp only [Spsc.machine, Spsc.step, hpc]
  | accepted call p hr hp hme =>
    refine .single (a := .read) trivial ?_
    simp only [Spsc.machine, Spsc.step, hp]
  | refused call p hr hp hme =>
    have hread : Spsc.machine.step s.ring .read = some { s.ring with
        consumer := .holding p (s.ring.mem.read p s.ring.size)
        taken := s.ring.taken ++ [s.ring.mem.read p s.ring.size] } := by
      simp only [Spsc.machine, Spsc.step, hp]
    exact (Machine.Run.single trivial hread).step (a := .pop) trivial rfl
  | skipped call ring hr hring hp =>
    refine (Machine.Run.single (a := .consumer) trivial hring).step (a := .front) trivial ?_
    simp only [Spsc.machine, Spsc.step, hp]
  | dropped call p content hr hp | copied call payloadLen p content hr hp =>
    refine .single (a := .pop) trivial ?_
    simp only [Spsc.machine, Spsc.step, hp]

/-- Every step of the two domains is a run of the queue between them. -/
theorem step_ring {s t : State Q} {a : Act} (h : Around contents offsets s)
    (hstep : step hdrs N s a = some t) : Spsc.machine.Reach s.ring t.ring := by
  have hread := h.read
  cases step_move h.fault hread hstep with
  | vmm _ hmove => exact hmove.ring_reach h
  | read _ hmove => exact hmove.ring_reach
  | faulted | framed | handled => exact .refl
  | looks hr =>
    rw [hr] at hread
    have hidle : s.ring.consumer = .idle := ConsumerPc.phase_idle.mp hread
    refine .single (a := .empty) trivial ?_
    simp only [Spsc.machine, Spsc.step, hidle]
  | called node call hr =>
    rw [hr] at hread
    have hidle : s.ring.consumer = .idle := ConsumerPc.phase_idle.mp hread
    refine .single (a := .front) trivial ?_
    simp only [Spsc.machine, Spsc.step, hidle]

/-! ## Places -/

theorem FaultMove.at {s t : State Q} (hf : s.fault.At s.ring.producer.phase)
    (hr : s.read.At s.ring.consumer.phase) (hmove : FaultMove N s t) :
    t.fault.At t.ring.producer.phase ∧ t.read.At t.ring.consumer.phase := by
  cases hmove with
  | inside ring hring hphase =>
    obtain ⟨_, hc, _⟩ := producerStep_frame hring
    exact ⟨hphase ▸ hf, hc ▸ hr⟩
  | handed buf p ring heq hring hp =>
    obtain ⟨_, hc, _⟩ := producerStep_frame hring
    exact ⟨⟨p, by rw [hp]; rfl⟩, hc ▸ hr⟩
  | pushed buf p ring heq hphase hring hp =>
    obtain ⟨_, hc, _⟩ := producerStep_frame hring
    exact ⟨by rw [hp]; rfl, hc ▸ hr⟩
  | dequeued buf txActive heq => exact ⟨rfl, hr⟩
  | filled buf p heq hp => exact ⟨⟨p, rfl⟩, hr⟩
  | drained heq | returned buf heq | notified heq =>
    rw [heq] at hf
    exact ⟨hf, hr⟩

theorem ReadMove.at {s t : State Q} (hf : s.fault.At s.ring.producer.phase)
    (hr : s.read.At s.ring.consumer.phase) (hmove : ReadMove hdrs s t) :
    t.fault.At t.ring.producer.phase ∧ t.read.At t.ring.consumer.phase := by
  cases hmove with
  | inside ring hring hphase =>
    obtain ⟨_, hp, _⟩ := consumerStep_frame hring
    exact ⟨hp ▸ hf, hphase ▸ hr⟩
  | handed call p ring heq hring hpc =>
    obtain ⟨_, hp, _⟩ := consumerStep_frame hring
    exact ⟨hp ▸ hf, ⟨p, by rw [hpc]; rfl⟩⟩
  | skipped call ring heq hring hpc =>
    obtain ⟨_, hp, _⟩ := consumerStep_frame hring
    exact ⟨hp ▸ hf, rfl⟩
  | finished call ret ring heq hring hpc =>
    obtain ⟨_, hp, _⟩ := consumerStep_frame hring
    exact ⟨hp ▸ hf, by rw [hpc]; rfl⟩
  | looked | refused | dropped | copied => exact ⟨hf, rfl⟩
  | accepted call p heq hp hme => exact ⟨hf, p, _, rfl⟩
  | assertFailed p content heq hp => exact ⟨hf, p, content, by rw [hp]; rfl⟩
  | payload call heq =>
    rw [heq] at hr
    exact ⟨hf, hr⟩
  | kept call p content heq =>
    rw [heq] at hr
    exact ⟨hf, hr⟩

/-- The VMM leaves ping_pong's place alone. -/
theorem FaultMove.read {s t : State Q} (hmove : FaultMove N s t) : t.read = s.read := by
  cases hmove <;> rfl

/-- Every step keeps the two places together. -/
theorem step_at {s t : State Q} {a : Act} (hf : s.fault.At s.ring.producer.phase)
    (hr : s.read.At s.ring.consumer.phase) (hstep : step hdrs N s a = some t) :
    t.fault.At t.ring.producer.phase ∧ t.read.At t.ring.consumer.phase := by
  cases step_move hf hr hstep with
  | vmm _ hmove => exact hmove.at hf hr
  | read _ hmove => exact hmove.at hf hr
  | faulted heq =>
    rw [heq] at hf
    exact ⟨hf, hr⟩
  | framed => exact ⟨hf, hr⟩
  | handled success heq =>
    rw [heq] at hf
    cases success <;> exact ⟨hf, hr⟩
  | looks | called => exact ⟨hf, rfl⟩

/-! ## Buffers -/

/-- The steps of ping_pong leave the net rings alone. -/
theorem ReadMove.net {s t : State Q} (hmove : ReadMove hdrs s t) :
    t.fault = s.fault ∧ t.txFree = s.txFree ∧ t.txActive = s.txActive ∧ t.txData = s.txData ∧
      t.sent = s.sent := by
  cases hmove <;> exact ⟨rfl, rfl, rfl, rfl, rfl⟩

/-- A ring that holds fewer buffers than there are has room for one. -/
theorem Around.room {s : State Q} (h : Around contents offsets s) (hcap : offsets.length ≤ capacity) :
    (contents s.txFree).length + (contents s.txActive).length + s.fault.held.length ≤ capacity := by
  have hlen := h.buffers.length_eq
  simp only [State.buffers, List.length_map, List.length_append] at hlen
  omega

theorem FaultMove.buffers {s t : State Q} (hN : N.Fifo contents capacity)
    (hcap : offsets.length ≤ capacity) (h : Around contents offsets s) (hmove : FaultMove N s t) :
    (t.buffers contents).Perm offsets ∧ ∀ d ∈ contents t.txActive ++ t.fault.held, d.len ≤ 2048 := by
  have hroom := h.room hcap
  obtain ⟨_, _, _, hperm, hfits⟩ := h
  cases hmove with
  | inside => exact ⟨hperm, hfits⟩
  | drained hf =>
    rw [State.buffers, hf] at hperm
    rw [hf] at hfits
    exact ⟨hperm, hfits⟩
  | dequeued buf txActive hf hdeq =>
    have hcons := hN.dequeue_some hdeq
    rw [State.buffers, hf, hcons] at hperm
    rw [hf, hcons] at hfits
    constructor
    · refine List.Perm.trans (List.Perm.map _ ?_) hperm
      simp only [FaultPc.held, List.append_assoc, List.append_nil]
      exact (List.perm_append_singleton _ _).append_left _
    · intro d hd
      refine hfits d ?_
      simp only [FaultPc.held, List.mem_append, List.mem_cons, List.append_nil] at hd ⊢
      exact hd.elim Or.inr fun hd => .inl (hd.elim id nofun)
  | handed buf p ring hf | filled buf p hf | pushed buf p ring hf =>
    rw [State.buffers, hf] at hperm
    rw [hf] at hfits
    exact ⟨hperm, hfits⟩
  | returned buf hf =>
    rw [hf] at hroom
    have henq := hN.enqueue s.txFree buf (by simp only [FaultPc.held, List.length_singleton] at hroom; omega)
    rw [State.buffers, hf] at hperm
    rw [hf] at hfits
    constructor
    · refine List.Perm.trans (List.Perm.map _ ?_) hperm
      simp only [FaultPc.held, henq, List.append_nil, List.append_assoc]
      exact List.Perm.append_left _ List.perm_append_comm
    · intro d hd
      exact hfits d (List.mem_append_left _ (by simpa [FaultPc.held] using hd))
  | notified hf =>
    rw [State.buffers, hf] at hperm
    rw [hf] at hfits
    exact ⟨hperm, hfits⟩

/-- A frame moves a buffer from the free ring to the active ring. -/
theorem guestFrame_contents {s : State Q} (frame : List Byte) (hN : N.Fifo contents capacity)
    (hcap : offsets.length ≤ capacity) (h : Around contents offsets s)
    {buf : NetBuffDesc} {txFree : Q} (hdeq : N.dequeue s.txFree = some (buf, txFree)) :
    contents s.txFree = buf :: contents txFree ∧
      contents (N.enqueue s.txActive { buf with len := frame.length }) =
        contents s.txActive ++ [{ buf with len := frame.length }] := by
  have hroom := h.room hcap
  have hcons := hN.dequeue_some hdeq
  rw [hcons, List.length_cons] at hroom
  exact ⟨hcons, hN.enqueue _ _ (by omega)⟩

theorem step_buffers {s t : State Q} {a : Act} (hN : N.Fifo contents capacity)
    (hcap : offsets.length ≤ capacity) (h : Around contents offsets s) (hok : FramesFit s a)
    (hstep : step hdrs N s a = some t) :
    (t.buffers contents).Perm offsets ∧ ∀ d ∈ contents t.txActive ++ t.fault.held, d.len ≤ 2048 := by
  have hperm := h.buffers
  have hfits := h.fits
  cases step_move h.fault h.read hstep with
  | vmm _ hmove => exact hmove.buffers hN hcap h
  | read _ hmove =>
    obtain ⟨hfault, hfree, hactive, _⟩ := hmove.net
    rw [State.buffers, hfault, hfree, hactive]
    exact ⟨hperm, hfits⟩
  | faulted heq =>
    rw [heq] at hfits
    rw [State.buffers, heq] at hperm
    exact ⟨hperm, hfits⟩
  | handled success heq =>
    rw [heq] at hfits
    rw [State.buffers, heq] at hperm
    cases success <;> exact ⟨hperm, hfits⟩
  | framed frame buf txFree heq hdeq =>
    obtain ⟨hcons, henq⟩ := guestFrame_contents frame hN hcap h hdeq
    rw [State.buffers, hcons] at hperm
    refine ⟨?_, ?_⟩
    · refine List.Perm.trans ?_ hperm
      have hmiddle := @List.perm_middle _ buf.ioOrOffset
        ((contents txFree ++ contents s.txActive).map NetBuffDesc.ioOrOffset)
        (s.fault.held.map NetBuffDesc.ioOrOffset)
      simpa only [State.buffers, henq, List.map_append, List.map_cons, List.map_nil,
        List.append_assoc, List.cons_append, List.nil_append] using hmiddle
    · intro d hd
      rw [henq, List.append_assoc] at hd
      rcases List.mem_append.mp hd with hold | hnew
      · exact hfits d (List.mem_append_left _ hold)
      · rcases List.mem_append.mp hnew with hone | hheld
        · rw [List.mem_singleton.mp hone]
          exact hok
        · exact hfits d (List.mem_append_right _ hheld)
  | looks | called => exact ⟨hperm, hfits⟩

theorem step_around {s t : State Q} {a : Act} (hN : N.Fifo contents capacity)
    (hcap : offsets.length ≤ capacity) (h : Around contents offsets s) (hok : FramesFit s a)
    (hstep : step hdrs N s a = some t) : Around contents offsets t := by
  have hsize : t.ring.q.log2BlockSize = 11 :=
    (congrArg (·.2.2.1) (reach_geometry (step_ring h hstep))).trans h.blockSize
  obtain ⟨hf, hr⟩ := step_at h.fault h.read hstep
  obtain ⟨hperm, hfits⟩ := step_buffers hN hcap h hok hstep
  exact ⟨hsize, hf, hr, hperm, hfits⟩

theorem step_inv {s t : State Q} {a : Act} (hN : N.Fifo contents capacity)
    (hcap : offsets.length ≤ capacity) (h : Inv c contents offsets s) (hok : FramesFit s a)
    (hstep : step hdrs N s a = some t) : Inv c contents offsets t :=
  ⟨step_around hN hcap h.toAround hok hstep, reach_inv h.ring (step_ring h.toAround hstep)⟩

/-- Both domains idle over a queue of blocks of 2048 bytes, the active ring
empty and the buffers on the free ring. -/
theorem start_around {q : SpscQueue} (hsize : q.log2BlockSize = 11) (mem txData : Mem)
    {txFree txActive : Q} (hfree : ((contents txFree).map NetBuffDesc.ioOrOffset).Perm offsets)
    (hactive : contents txActive = []) (pending : Bool) :
    Around contents offsets (State.start q mem txData txFree txActive pending) where
  blockSize := hsize
  fault := rfl
  read := rfl
  buffers := by
    simp only [State.buffers, State.start, hactive, FaultPc.held, List.append_nil]
    exact hfree
  fits := by
    simp only [State.start, hactive, FaultPc.held, List.append_nil]
    exact nofun

theorem start_inv {q : SpscQueue} (hq : q.Sound) (hsize : q.log2BlockSize = 11) (mem txData : Mem)
    {txFree txActive : Q} (hfree : ((contents txFree).map NetBuffDesc.ioOrOffset).Perm offsets)
    (hactive : contents txActive = []) (pending : Bool) :
    Inv c contents offsets (State.start (q.startAt c) mem txData txFree txActive pending) where
  toAround := start_around (q := q.startAt c) hsize mem txData hfree hactive pending
  ring := Spsc.start_inv hq c mem

/-! ## A small system to run -/

/-- A header over two blocks of 2048 bytes at 0, as `spsc_init` leaves it. -/
def twoFrames : SpscQueue := ⟨0, 0, 0, 0, 0, 0, 0, 4096, 11, 1⟩

theorem twoFrames_init : spscInit twoFrames 0 4096 11 = (true, twoFrames) := by decide +kernel

/-- The start of the small system: two free buffers. -/
def smallStart : State (List NetBuffDesc) :=
  State.start twoFrames (fun _ => 0) (fun _ => 0) [⟨0, 0⟩, ⟨2048, 0⟩] [] false

/-- A frame from the peer to the node, with a payload of fewer than 248 bytes. -/
def toNode (payload : List Byte) : List Byte :=
  [2, 0, 0, 0, 0, 2] ++ [2, 0, 0, 0, 0, 1] ++ [8, 0] ++
    [0x45, 0, 0, BitVec.ofNat 8 (28 + payload.length), 0, 0, 0, 0, 64, 17, 0, 0] ++
      [10, 0, 2, 15] ++ [10, 0, 2, 100] ++
        [0x22, 0xB8] ++ [0xD4, 0x31] ++ [0, BitVec.ofNat 8 (8 + payload.length), 0, 0] ++ payload

/-- A frame to somebody else. -/
def toOther : List Byte := List.replicate 42 0

/-- One fault with these frames, up to the start of the drain loop. -/
def runFault (frames : List (List Byte)) : List Act :=
  .fault :: frames.map .guestFrame ++ [.handled true]

/-- The drain loop moves one frame into the queue, with room for it. -/
def runDrain : List Act := List.replicate 10 .vmm

end MicroRosDemos.Sel4.FromGuest
