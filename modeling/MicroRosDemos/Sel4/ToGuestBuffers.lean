import MicroRosDemos.Sel4.ToGuestInv

/-!
# From ping_pong to the guest: who owns a receive buffer

The VMM's `init` puts the buffers of `net_rx` on its free ring. From there a
buffer goes through the hands of `send_pkt_to_guest` to the active ring, and
back with the device's turn, so the free ring, the active ring and the hands
share out the buffers (`State.rxBuffers`). That holds as long as the free ring
is not empty when `send_pkt_to_guest` takes a buffer from it: the return value
of `net_dequeue_free` is dropped, and what `buf` holds by chance is used as if
it had been taken.
-/

namespace MicroRosDemos.Sel4.ToGuest

open MicroRosDemos.Lib MicroRosDemos.Net MicroRosDemos.Spsc

variable {Q : Type} {hdrs : TxHdrs} {N : NetRing Q}
variable {contents : Q → List NetBuffDesc} {capacity : Nat} {offsets : List Nat}

/-- The loop of the VMM's `init` that fills the free ring of `net_rx`, `n` turns of it. -/
def initNetRx (N : NetRing Q) (bufSize : Nat) (rxFree : Q) : Nat → Q
  | 0 => rxFree
  | i + 1 => N.enqueue (initNetRx N bufSize rxFree i) ⟨i * bufSize, 0⟩

theorem initNetRx_contents (hN : N.Fifo contents capacity) (bufSize : Nat) {rxFree : Q}
    (hempty : contents rxFree = []) {n : Nat} (hn : n ≤ capacity) :
    contents (initNetRx N bufSize rxFree n) = (List.range n).map fun i => ⟨i * bufSize, 0⟩ := by
  induction n with
  | zero => exact hempty
  | succ n ih =>
    have hfilled := ih (Nat.le_of_succ_le hn)
    rw [initNetRx, hN.enqueue _ _ (by rw [hfilled, List.length_map, List.length_range]; exact hn),
      hfilled, List.range_succ, List.map_append]
    rfl

/-- The buffer `send_pkt_to_guest` works on. -/
def NotifiedPc.held : NotifiedPc → List NetBuffDesc
  | .copy buf | .enqueueActive buf => [buf]
  | .idle | .empty | .front | .dequeueFree | .handleRx | .pop => []

/-- Every buffer of `net_rx`, wherever it is. -/
def State.rxBuffers (contents : Q → List NetBuffDesc) (s : State Q) : List Nat :=
  (contents s.rxFree ++ contents s.rxActive ++ s.notified.held).map NetBuffDesc.ioOrOffset

/-- The free ring is not empty when `send_pkt_to_guest` takes a buffer from it. -/
def HasFree (contents : Q → List NetBuffDesc) (s : State Q) : Act → Prop
  | .notified _ => s.notified = .dequeueFree → contents s.rxFree ≠ []
  | _ => True

instance (contents : Q → List NetBuffDesc) (s : State Q) (a : Act) :
    Decidable (HasFree contents s a) :=
  match a with
  | .notified _ => inferInstanceAs (Decidable (s.notified = .dequeueFree → contents s.rxFree ≠ []))
  | .call _ | .write | .wake | .handleRx _ => inferInstanceAs (Decidable True)

/-- A step uses the receive data as its owner: the buffer it is going to copy to
came off the free ring in this step or was held before, and it copies nowhere else. -/
structure CopiesOwned (N : NetRing Q) (s t : State Q) : Prop where
  taken : ∀ buf, t.notified = .copy buf →
    s.notified = .copy buf ∨ N.dequeue s.rxFree = some (buf, t.rxFree)
  copied : t.rxData = s.rxData ∨
    ∃ buf bs, s.notified = .copy buf ∧ t.rxData = s.rxData.write buf.ioOrOffset bs

/-! ## The buffers are shared out -/

/-- There is room on either ring for a buffer that is in hand or on the other. -/
theorem rxBuffers_room {s : State Q} (h : (s.rxBuffers contents).Perm offsets)
    (hcap : offsets.length ≤ capacity) :
    (contents s.rxFree).length + (contents s.rxActive).length + s.notified.held.length ≤ capacity := by
  have hlen := h.length_eq
  simp only [State.rxBuffers, List.length_map, List.length_append] at hlen
  omega

theorem NotifiedMove.buffers {s t : State Q} (hN : N.Fifo contents capacity)
    (hcap : offsets.length ≤ capacity) (h : (s.rxBuffers contents).Perm offsets)
    (hfree : s.notified = .dequeueFree → contents s.rxFree ≠ []) (hmove : NotifiedMove N s t) :
    (t.rxBuffers contents).Perm offsets := by
  have hroom := rxBuffers_room h hcap
  cases hmove with
  | inside => exact h
  | leave hn | enter hn | handed p ring hn | copied buf p hn | popped ring hn =>
    rw [State.rxBuffers, hn] at h
    exact h
  | starved junk hn hdeq => exact absurd (hN.dequeue_eq_none.mp hdeq) (hfree hn)
  | dequeued buf rxFree hn hdeq =>
    rw [State.rxBuffers, hn, hN.dequeue_some hdeq] at h
    refine List.Perm.trans (List.Perm.map _ ?_) h
    simp only [NotifiedPc.held, List.append_nil, List.cons_append]
    exact List.perm_append_singleton _ _
  | enqueued buf hn =>
    rw [State.rxBuffers, hn] at h
    rw [hn] at hroom
    simp only [NotifiedPc.held, List.length_singleton] at hroom
    have henq := hN.enqueue s.rxActive { buf with len := pktSize } (by omega)
    simpa only [State.rxBuffers, henq, NotifiedPc.held, List.map_append, List.map_cons, List.map_nil,
      List.append_nil, List.append_assoc] using h

/-- The device's turn moves buffers from the active ring to the free ring. -/
theorem virtioNetHandleRx_buffers (hN : N.Fifo contents capacity) {s : State Q}
    (hcap : offsets.length ≤ capacity) (h : (s.rxBuffers contents).Perm offsets) (n : Nat) :
    ((virtioNetHandleRx N s n).rxBuffers contents).Perm offsets := by
  induction n generalizing s with
  | zero => exact h
  | succ n ih =>
    unfold virtioNetHandleRx
    split
    · exact h
    · next buf rxActive hdeq =>
      have hroom := rxBuffers_room h hcap
      rw [State.rxBuffers, hN.dequeue_some hdeq] at h
      rw [hN.dequeue_some hdeq, List.length_cons] at hroom
      have henq := hN.enqueue s.rxFree buf (by omega)
      refine ih ?_
      simpa only [State.rxBuffers, henq, List.map_append, List.map_cons, List.map_nil,
        List.append_assoc, List.cons_append, List.nil_append] using h

theorem step_buffers {s t : State Q} {a : Act} (hN : N.Fifo contents capacity)
    (hcap : offsets.length ≤ capacity) (hn : s.notified.At s.ring.consumer.phase)
    (hw : s.write.At s.ring.producer.phase) (h : (s.rxBuffers contents).Perm offsets)
    (hfree : HasFree contents s a) (hstep : step hdrs N s a = some t) :
    (t.rxBuffers contents).Perm offsets := by
  cases step_move hw hn hstep with
  | write _ hmove => cases hmove <;> exact h
  | notified junk _ hmove => exact hmove.buffers hN hcap h hfree
  | refused | called => exact h
  | woken heq =>
    rw [State.rxBuffers, heq] at h
    exact h
  | handled n rxFree rxActive delivered heq hshared =>
    have hbuffers := virtioNetHandleRx_buffers hN hcap h n
    rw [hshared, State.rxBuffers, heq] at hbuffers
    exact hbuffers

/-! ## A step copies as the owner just when the free ring gave it a buffer -/

theorem NotifiedMove.copiesOwned {s t : State Q} (hN : N.Fifo contents capacity)
    (hat : s.notified.At s.ring.consumer.phase) (hmove : NotifiedMove N s t) :
    CopiesOwned N s t ↔ (s.notified = .dequeueFree → contents s.rxFree ≠ []) := by
  cases hmove with
  | inside ring hring =>
    refine ⟨fun _ hn => ?_, fun _ => ⟨fun _ => .inl, .inl rfl⟩⟩
    -- the consumer holds its block there, and has no step of its own
    rw [hn] at hat
    obtain ⟨p, hphase⟩ := hat
    cases (consumerStep_block hphase).symm.trans hring
  | starved junk hn hdeq =>
    have hnil := hN.dequeue_eq_none.mp hdeq
    refine ⟨fun howned => ?_, fun hfree => absurd hnil (hfree hn)⟩
    rcases howned.taken junk rfl with hcopy | hsome
    · cases hn.symm.trans hcopy
    · cases hdeq.symm.trans hsome
  | dequeued buf rxFree hn hdeq =>
    refine ⟨fun _ _ hnil => ?_, fun _ => ⟨fun d hd => .inr ?_, .inl rfl⟩⟩
    · cases (hN.dequeue_eq_none.mpr hnil).symm.trans hdeq
    · cases hd
      exact hdeq
  | copied buf p hn hp =>
    refine ⟨fun _ hfree => ?_, fun _ => ⟨fun d hd => ?_, .inr ⟨buf, _, hn, rfl⟩⟩⟩
    · cases hn.symm.trans hfree
    · cases hd
  | leave hn | enter hn | handed p ring hn | enqueued buf hn | popped ring hn =>
    refine ⟨fun _ hfree => ?_, fun _ => ⟨fun d hd => ?_, .inl rfl⟩⟩
    · cases hn.symm.trans hfree
    · cases hd

theorem step_copiesOwned {s t : State Q} {a : Act} (hN : N.Fifo contents capacity)
    (hn : s.notified.At s.ring.consumer.phase) (hw : s.write.At s.ring.producer.phase)
    (hstep : step hdrs N s a = some t) : CopiesOwned N s t ↔ HasFree contents s a := by
  cases step_move hw hn hstep with
  | notified junk _ hmove => exact hmove.copiesOwned hN hn
  | write _ hmove =>
    refine ⟨fun _ => trivial, fun _ => ?_⟩
    cases hmove <;> exact ⟨fun _ => .inl, .inl rfl⟩
  | refused | called => exact ⟨fun _ => trivial, fun _ => ⟨fun _ => .inl, .inl rfl⟩⟩
  | woken | handled => exact ⟨fun _ => trivial, fun _ => ⟨fun d hd => (by cases hd), .inl rfl⟩⟩

/-! ## In every run -/

theorem nodup_offsets {bufSize : Nat} (hbuf : 0 < bufSize) (n : Nat) :
    ((List.range n).map (· * bufSize)).Nodup :=
  List.nodup_range.map fun _ _ heq => Nat.eq_of_mul_eq_mul_right hbuf heq

/-- **Each receive buffer has one owner**, in every run that finds a free buffer
whenever it takes one: the free ring, the active ring and `send_pkt_to_guest`
hold exactly the buffers of `init`, each once. And a step copies to a buffer
that it or an earlier step took from the free ring just when it finds one there. -/
theorem rx_buffers_owned (hN : N.Fifo contents capacity) {n bufSize : Nat} (hn : n ≤ capacity)
    (hbuf : 0 < bufSize) {rxFree rxActive : Q} (hfree : contents rxFree = [])
    (hactive : contents rxActive = []) (q : SpscQueue) (mem rxData : Mem) (pending : Bool)
    {s : State Q}
    (hrun : (machine hdrs N).Run (HasFree contents)
      (State.start q mem rxData (initNetRx N bufSize rxFree n) rxActive pending) s) :
    (s.rxBuffers contents).Perm ((List.range n).map (· * bufSize)) ∧
    (s.rxBuffers contents).Nodup ∧
    ∀ a t, step hdrs N s a = some t → (CopiesOwned N s t ↔ HasFree contents s a) := by
  have hcap : ((List.range n).map (· * bufSize)).length ≤ capacity := by
    rw [List.length_map, List.length_range]
    exact hn
  have hstart : ((State.start q mem rxData (initNetRx N bufSize rxFree n) rxActive
      pending).rxBuffers contents).Perm ((List.range n).map (· * bufSize)) := by
    rw [State.rxBuffers, State.start, initNetRx_contents hN bufSize hfree hn, hactive]
    simp only [NotifiedPc.held, List.append_nil, List.map_map]
    exact List.Perm.refl _
  have hall := hrun.invariant
    (fun s => s.write.At s.ring.producer.phase ∧ s.notified.At s.ring.consumer.phase ∧
      (s.rxBuffers contents).Perm ((List.range n).map (· * bufSize)))
    ⟨rfl, rfl, hstart⟩ ?_
  · obtain ⟨hw, hat, hperm⟩ := hall
    exact ⟨hperm, hperm.nodup_iff.mpr (nodup_offsets hbuf n),
      fun a t hstep => step_copiesOwned hN hat hw hstep⟩
  · rintro s a t ⟨hw, hat, hperm⟩ hok hstep
    obtain ⟨hw', hat'⟩ := step_at hw hat hstep
    exact ⟨hw', hat', step_buffers hN hcap hat hw hperm hok hstep⟩

/-- The start of a system with one receive buffer, as `init` leaves it. -/
def oneBuffer : State (List NetBuffDesc) :=
  State.start twoFrames (fun _ => 0) (fun _ => 0) (initNetRx (listRing 1) 2048 [] 1) [] false

/-- One packet goes to the guest, and its buffer comes back. -/
theorem rx_buffers_owned_one :
    ∃ s, (machine pingPongHdrs (listRing 1)).Run (HasFree id) oneBuffer s ∧
      s.enqueued.length = 1 ∧ s.rxFree.length = 1 ∧ (s.rxBuffers id).Perm [0] := by
  obtain ⟨s, hreach, henq, hfree⟩ :=
    ((machine pingPongHdrs (listRing 1)).restrict (HasFree id)).exists_reach
      (P := fun s => s.enqueued.length = 1 ∧ s.rxFree.length = 1) (s := oneBuffer)
      (runWrite [7] ++ .wake :: runSend) (by decide +kernel)
  have hrun := Machine.run_of_restrict hreach
  have hall := rx_buffers_owned (listRing_fifo 1) (n := 1) (Nat.le_refl 1)
    (show 0 < 2048 by decide) rfl rfl _ _ _ _ hrun
  exact ⟨s, hrun, henq, hfree, hall.1⟩

/-- Two packets, and the guest takes none in the turn between them: the second is
copied to wherever `buf` points by chance, and the buffer in hand is not one of
`init`'s. -/
theorem rx_buffer_not_owned :
    ∃ s, (machine pingPongHdrs (listRing 1)).Reach oneBuffer s ∧
      s.notified = .enqueueActive ⟨4096, 0⟩ ∧ s.rxFree = [] ∧ s.rxActive = [⟨0, 2048⟩] ∧
        s.rxData 4096 = 2 ∧ ¬ (s.rxBuffers id).Perm [0] :=
  Machine.exists_reach
    (runWrite [7] ++ runWrite [8] ++ .wake :: List.replicate 11 (.notified ⟨0, 0⟩) ++
      .handleRx 0 :: List.replicate 13 (.notified ⟨4096, 0⟩))
    (by decide +kernel)

end MicroRosDemos.Sel4.ToGuest
