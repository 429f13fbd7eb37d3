import MicroRosDemos.Sel4.ToGuestInv
import MicroRosDemos.Sel4.FromGuestInv

/-!
# Both directions at once

Each domain is one thread. ping_pong is in at most one of
`custom_transport_seL4_write` and `custom_transport_seL4_read`, the VMM in at
most one of `fault` and `notified`, and each of them is the only consumer of the
queue the other produces into. So two waits in `spsc_new_block` at once never
end (`deadlock_forever`), and nothing in the code rules them out: the shipped
queues hold one block each, and two writes beside two frames of one fault get
there (`domains_deadlock`).

`Spares` tells the two steps that complete the circle from all others.
-/

namespace MicroRosDemos.Sel4.Duplex

open MicroRosDemos.Lib MicroRosDemos.Net MicroRosDemos.Spsc

/-- The two directions of the two domains. -/
structure State (Q : Type) where
  toGuest : ToGuest.State Q
  fromGuest : FromGuest.State Q

/-- What happens next, on the way to the guest or on the way back. -/
inductive Act
  | toGuest (a : ToGuest.Act)
  | fromGuest (a : FromGuest.Act)

variable {Q : Type} (hdrs : TxHdrs) (N : NetRing Q)

/-- A domain starts an operation when it is in no other: ping_pong a write, a
read or a look at its queue, the VMM the handling of an event. -/
def Free (s : State Q) : Act → Prop
  | .toGuest (.call _) => s.fromGuest.read = .idle
  | .toGuest .wake => s.fromGuest.fault = .idle
  | .fromGuest .fault => s.toGuest.notified = .idle
  | .fromGuest .empty | .fromGuest (.call _ _) => s.toGuest.write = .idle
  | _ => True

instance (s : State Q) (a : Act) : Decidable (Free s a) :=
  match a with
  | .toGuest (.call _) | .toGuest .wake | .fromGuest .fault | .fromGuest .empty
  | .fromGuest (.call _ _) => inferInstanceAs (Decidable (_ = _))
  | .toGuest .write | .toGuest (.notified _) | .toGuest (.handleRx _) | .fromGuest (.guestFrame _)
  | .fromGuest (.handled _) | .fromGuest .vmm | .fromGuest .read => .isTrue trivial

/-- The two domains, in every interleaving. -/
def step (s : State Q) (a : Act) : Option (State Q) :=
  if Free s a then
    match a with
    | .toGuest a => (ToGuest.step hdrs N s.toGuest a).map fun toGuest => { s with toGuest }
    | .fromGuest a => (FromGuest.step hdrs N s.fromGuest a).map fun fromGuest => { s with fromGuest }
  else none

/-- The machine of the two domains. -/
def machine : Machine (State Q) Act := ⟨step hdrs N⟩

/-- Both domains idle over two initialised queues. -/
def State.start (pp2vmm vmm2pp : SpscQueue) (ppMem vmMem rxData txData : Mem)
    (rxFree rxActive txFree txActive : Q) (ppPending vmPending : Bool) : State Q where
  toGuest := .start pp2vmm ppMem rxData rxFree rxActive vmPending
  fromGuest := .start vmm2pp vmMem txData txFree txActive ppPending

variable {hdrs N}

/-- Every step is one of either direction. -/
theorem step_cases {s t : State Q} {a : Act} (h : step hdrs N s a = some t) :
    Free s a ∧ ((∃ b u, a = .toGuest b ∧ ToGuest.step hdrs N s.toGuest b = some u ∧
        t = { s with toGuest := u }) ∨
      ∃ b u, a = .fromGuest b ∧ FromGuest.step hdrs N s.fromGuest b = some u ∧
        t = { s with fromGuest := u }) := by
  unfold step at h
  split at h
  · next hfree =>
    cases a with
    | toGuest b =>
      rw [Option.map_eq_some_iff] at h
      obtain ⟨u, hu, rfl⟩ := h
      exact ⟨hfree, .inl ⟨b, u, rfl, hu, rfl⟩⟩
    | fromGuest b =>
      rw [Option.map_eq_some_iff] at h
      obtain ⟨u, hu, rfl⟩ := h
      exact ⟨hfree, .inr ⟨b, u, rfl, hu, rfl⟩⟩
  · cases h

/-! ## One operation at a time -/

/-- Outside `write`, ping_pong stays outside until it calls it. -/
theorem write_stays {s t : ToGuest.State Q} {a : ToGuest.Act}
    (hat : s.write.At s.ring.producer.phase) (hn : s.notified.At s.ring.consumer.phase)
    (hw : s.write = .idle) (ha : ∀ payload, a ≠ .call payload)
    (h : ToGuest.step hdrs N s a = some t) : t.write = .idle := by
  cases ToGuest.step_move hat hn h with
  | refused payload | called payload => exact absurd rfl (ha payload)
  | write _ hmove =>
    cases hmove with
    | inside => exact hw
    | handed _ _ _ hplace | made _ _ hplace | pushed _ _ _ hplace => cases hw.symm.trans hplace
    | notified => rfl
  | notified junk _ hmove => exact hmove.write.trans hw
  | woken | handled => exact hw

/-- Outside `notified`, the VMM stays outside until it is woken. -/
theorem notified_stays {s t : ToGuest.State Q} {a : ToGuest.Act}
    (hw : s.write.At s.ring.producer.phase) (hat : s.notified.At s.ring.consumer.phase)
    (hn : s.notified = .idle) (ha : a ≠ .wake) (h : ToGuest.step hdrs N s a = some t) :
    t.notified = .idle := by
  cases ToGuest.step_move hw hat h with
  | woken => exact absurd rfl ha
  | write _ hmove => exact hmove.handler.trans hn
  | notified junk _ hmove =>
    cases hmove with
    | inside => exact hn
    | leave => rfl
    | enter hplace | handed _ _ hplace | dequeued _ _ hplace | starved _ hplace
    | copied _ _ hplace | enqueued _ hplace | popped _ hplace => cases hn.symm.trans hplace
  | handled _ _ _ _ hturn => cases hn.symm.trans hturn
  | refused | called => exact hn

/-- Outside `fault`, the VMM stays outside until the guest faults. -/
theorem fault_stays {s t : FromGuest.State Q} {a : FromGuest.Act}
    (hat : s.fault.At s.ring.producer.phase) (hr : s.read.At s.ring.consumer.phase)
    (hf : s.fault = .idle) (ha : a ≠ .fault) (h : FromGuest.step hdrs N s a = some t) :
    t.fault = .idle := by
  cases FromGuest.step_move hat hr h with
  | faulted => exact absurd rfl ha
  | vmm _ hmove =>
    cases hmove with
    | inside => exact hf
    | drained => rfl
    | dequeued _ _ hplace | handed _ _ _ hplace | filled _ _ hplace | pushed _ _ _ hplace
    | returned _ hplace | notified hplace => cases hf.symm.trans hplace
  | read _ hmove => exact hmove.net.1.trans hf
  | framed _ _ _ hplace | handled _ hplace => cases hf.symm.trans hplace
  | looks | called => exact hf

/-- Outside a read and a look, ping_pong stays outside until it calls one. -/
theorem read_stays {s t : FromGuest.State Q} {a : FromGuest.Act}
    (hf : s.fault.At s.ring.producer.phase) (hat : s.read.At s.ring.consumer.phase)
    (hr : s.read = .idle) (hempty : a ≠ .empty) (hcall : ∀ node call, a ≠ .call node call)
    (h : FromGuest.step hdrs N s a = some t) : t.read = .idle := by
  cases FromGuest.step_move hf hat h with
  | looks => exact absurd rfl hempty
  | called node call => exact absurd rfl (hcall node call)
  | vmm _ hmove => exact hmove.read.trans hr
  | read => simp only [FromGuest.step, FromGuest.readStep, hr, reduceCtorEq] at h
  | faulted | framed | handled => exact hr

/-- The places of both domains: each side of a queue where its domain is, and
each domain in one operation at most. -/
structure Places (s : State Q) : Prop where
  write : s.toGuest.write.At s.toGuest.ring.producer.phase
  notified : s.toGuest.notified.At s.toGuest.ring.consumer.phase
  fault : s.fromGuest.fault.At s.fromGuest.ring.producer.phase
  read : s.fromGuest.read.At s.fromGuest.ring.consumer.phase
  pingPong : s.toGuest.write = .idle ∨ s.fromGuest.read = .idle
  vmm : s.toGuest.notified = .idle ∨ s.fromGuest.fault = .idle

theorem start_places {pp2vmm vmm2pp : SpscQueue} {ppMem vmMem rxData txData : Mem}
    {rxFree rxActive txFree txActive : Q} {ppPending vmPending : Bool} :
    Places (State.start pp2vmm vmm2pp ppMem vmMem rxData txData rxFree rxActive txFree txActive
      ppPending vmPending) :=
  ⟨rfl, rfl, rfl, rfl, .inl rfl, .inl rfl⟩

theorem step_places {s t : State Q} {a : Act} (h : Places s) (hstep : step hdrs N s a = some t) :
    Places t := by
  obtain ⟨hw, hn, hf, hr, hpp, hvmm⟩ := h
  obtain ⟨hfree, ⟨b, u, rfl, hu, rfl⟩ | ⟨b, u, rfl, hu, rfl⟩⟩ := step_cases hstep
  · obtain ⟨hw', hn'⟩ := ToGuest.step_at hw hn hu
    refine ⟨hw', hn', hf, hr, ?_, ?_⟩
    · by_cases hread : s.fromGuest.read = .idle
      · exact .inr hread
      · refine .inl (write_stays hw hn (hpp.resolve_right hread) ?_ hu)
        rintro payload rfl
        exact hread hfree
    · by_cases hfault : s.fromGuest.fault = .idle
      · exact .inr hfault
      · refine .inl (notified_stays hw hn (hvmm.resolve_right hfault) ?_ hu)
        rintro rfl
        exact hfault hfree
  · obtain ⟨hf', hr'⟩ := FromGuest.step_at hf hr hu
    refine ⟨hw, hn, hf', hr', ?_, ?_⟩
    · by_cases hwrite : s.toGuest.write = .idle
      · exact .inl hwrite
      · refine .inr (read_stays hf hr (hpp.resolve_left hwrite) ?_ ?_ hu)
        · rintro rfl
          exact hwrite hfree
        · rintro node call rfl
          exact hwrite hfree
    · by_cases hnotified : s.toGuest.notified = .idle
      · exact .inl hnotified
      · refine .inr (fault_stays hf hr (hvmm.resolve_left hnotified) ?_ hu)
        rintro rfl
        exact hnotified hfree

/-! ## Both waiting -/

/-- ping_pong is in `spsc_new_block(spsc_pp2vmm)`, and the queue is full. -/
def WaitsToWrite (s : ToGuest.State Q) : Prop :=
  (∃ payload, s.write = .newBlock payload) ∧ s.ring.Full

/-- The VMM is in `spsc_new_block(spsc_vmm2pp)`, and the queue is full. -/
def WaitsToForward (s : FromGuest.State Q) : Prop :=
  (∃ buf, s.fault = .newBlock buf) ∧ s.ring.Full

/-- Each domain waits for the other. -/
def Blocked (s : State Q) : Prop := WaitsToWrite s.toGuest ∧ WaitsToForward s.fromGuest

/-- The step does not enter a full queue against a domain that waits already: no
write is called with `pp2vmm` full while the VMM waits to forward, and the VMM
takes no frame with `vmm2pp` full while ping_pong waits to write. -/
def Spares (N : NetRing Q) (s : State Q) : Act → Prop
  | .toGuest (.call payload) =>
    ¬ (payload.length ≤ 1500 ∧ s.toGuest.ring.Full ∧ WaitsToForward s.fromGuest)
  | .fromGuest .vmm =>
    ¬ (s.fromGuest.fault = .drain ∧ (N.dequeue s.fromGuest.txActive).isSome ∧
      s.fromGuest.ring.Full ∧ WaitsToWrite s.toGuest)
  | _ => True

instance (pc : ToGuest.WritePc) : Decidable (∃ payload, pc = .newBlock payload) :=
  match pc with
  | .newBlock payload => .isTrue ⟨payload, rfl⟩
  | .idle | .makePkt _ | .push _ | .notify _ => .isFalse fun ⟨_, h⟩ => nomatch h

instance (pc : FromGuest.FaultPc) : Decidable (∃ buf, pc = .newBlock buf) :=
  match pc with
  | .newBlock buf => .isTrue ⟨buf, rfl⟩
  | .idle | .faultHandle | .drain | .fill _ | .push _ | .enqueueFree _ | .notify =>
    .isFalse fun ⟨_, h⟩ => nomatch h

instance (s : ToGuest.State Q) : Decidable (WaitsToWrite s) := inferInstanceAs (Decidable (_ ∧ _))

instance (s : FromGuest.State Q) : Decidable (WaitsToForward s) := inferInstanceAs (Decidable (_ ∧ _))

instance (N : NetRing Q) (s : State Q) (a : Act) : Decidable (Spares N s a) :=
  match a with
  | .toGuest (.call _) => inferInstanceAs (Decidable (¬ (_ ∧ _ ∧ _)))
  | .fromGuest .vmm => inferInstanceAs (Decidable (¬ (_ ∧ _ ∧ _ ∧ _)))
  | .toGuest .write | .toGuest .wake | .toGuest (.notified _) | .toGuest (.handleRx _)
  | .fromGuest .fault | .fromGuest (.guestFrame _) | .fromGuest (.handled _) | .fromGuest .empty
  | .fromGuest (.call _ _) | .fromGuest .read => .isTrue trivial

/-- How ping_pong comes to wait: it waited before, or it has just called a
write; anything else is a step of the VMM's handler. -/
theorem write_waits {s t : ToGuest.State Q} {a : ToGuest.Act}
    (hw : s.write.At s.ring.producer.phase) (hat : s.notified.At s.ring.consumer.phase)
    (h : ToGuest.step hdrs N s a = some t) (hwaits : WaitsToWrite t) :
    WaitsToWrite s ∨ (∃ payload, a = .call payload ∧ payload.length ≤ 1500 ∧ s.ring.Full) ∨
      a = .wake ∨ s.notified ≠ .idle := by
  cases ToGuest.step_move hw hat h with
  | woken => exact .inr (.inr (.inl rfl))
  | notified junk _ _ =>
    refine .inr (.inr (.inr fun hn => ?_))
    simp only [ToGuest.step, ToGuest.notifiedStep, hn, reduceCtorEq] at h
  | handled _ _ _ _ hturn =>
    refine .inr (.inr (.inr fun hn => ?_))
    cases hn.symm.trans hturn
  | refused => exact .inl hwaits
  | called payload _ hfit => exact .inr (.inl ⟨payload, rfl, hfit, hwaits.2⟩)
  | write _ hmove =>
    refine .inl ?_
    obtain ⟨⟨payload, hpayload⟩, hfull⟩ := hwaits
    cases hmove with
    | inside ring hring hphase hpushed =>
      exact ⟨⟨payload, hpayload⟩, (producerStep_full hring hpushed).mp hfull⟩
    | _ => cases hpayload

/-- How the VMM comes to wait: it waited before, or it has just taken a frame;
anything else is a step of ping_pong's read. -/
theorem forward_waits {s t : FromGuest.State Q} {a : FromGuest.Act}
    (hf : s.fault.At s.ring.producer.phase) (hat : s.read.At s.ring.consumer.phase)
    (h : FromGuest.step hdrs N s a = some t) (hwaits : WaitsToForward t) :
    WaitsToForward s ∨
      (a = .vmm ∧ s.fault = .drain ∧ (N.dequeue s.txActive).isSome ∧ s.ring.Full) ∨
        s.read ≠ .idle := by
  cases FromGuest.step_move hf hat h with
  | read =>
    refine .inr (.inr fun hr => ?_)
    simp only [FromGuest.step, FromGuest.readStep, hr, reduceCtorEq] at h
  | vmm _ hmove =>
    obtain ⟨⟨buf, hbuf⟩, hfull⟩ := hwaits
    cases hmove with
    | inside ring hring hphase hpushed =>
      exact .inl ⟨⟨buf, hbuf⟩, (producerStep_full hring hpushed).mp hfull⟩
    | dequeued buf txActive hdrain hdeq =>
      exact .inr (.inl ⟨rfl, hdrain, by rw [hdeq]; rfl, hfull⟩)
    | _ => cases hbuf
  | faulted =>
    obtain ⟨⟨buf, hbuf⟩, _⟩ := hwaits
    cases hbuf
  | handled success =>
    obtain ⟨⟨buf, hbuf⟩, _⟩ := hwaits
    cases success <;> cases hbuf
  | framed | looks | called => exact .inl hwaits

/-- The steps that complete the circle are those that `Spares` names. -/
theorem step_blocked_iff {s t : State Q} {a : Act} (h : Places s) (hfree : ¬ Blocked s)
    (hstep : step hdrs N s a = some t) : Blocked t ↔ ¬ Spares N s a := by
  obtain ⟨hw, hn, hf, hr, hpp, hvmm⟩ := h
  obtain ⟨hmay, ⟨b, u, rfl, hu, rfl⟩ | ⟨b, u, rfl, hu, rfl⟩⟩ := step_cases hstep
  · constructor
    · rintro ⟨hwrite, hforward⟩
      -- a VMM that waits is not in `notified`
      have hbusy : s.fromGuest.fault ≠ .idle := by
        obtain ⟨⟨buf, hbuf⟩, _⟩ := hforward
        rw [hbuf]
        intro h
        cases h
      rcases write_waits hw hn hu hwrite with hwas | ⟨payload, rfl, hlen, hfull⟩ | rfl | hturn
      · exact absurd ⟨hwas, hforward⟩ hfree
      · exact fun hspares => hspares ⟨hlen, hfull, hforward⟩
      · exact absurd hmay hbusy
      · exact absurd (hvmm.resolve_left hturn) hbusy
    · intro hspares
      cases b with
      | call payload =>
        obtain ⟨hlen, hfull, hforward⟩ := not_not.mp hspares
        simp only [ToGuest.step] at hu
        split at hu
        · rw [if_neg (by omega)] at hu
          cases hu
          exact ⟨⟨⟨payload, rfl⟩, hfull⟩, hforward⟩
        · cases hu
      | _ => exact absurd trivial hspares
  · constructor
    · rintro ⟨hwrite, hforward⟩
      have hbusy : s.toGuest.write ≠ .idle := by
        obtain ⟨⟨payload, hpayload⟩, _⟩ := hwrite
        rw [hpayload]
        intro h
        cases h
      rcases forward_waits hf hr hu hforward with hwas | ⟨rfl, hdrain, hsome, hfull⟩ | hreads
      · exact absurd ⟨hwrite, hwas⟩ hfree
      · exact fun hspares => hspares ⟨hdrain, hsome, hfull, hwrite⟩
      · exact absurd (hpp.resolve_right hreads) hbusy
    · intro hspares
      cases b with
      | vmm =>
        obtain ⟨hdrain, hsome, hfull, hwrite⟩ := not_not.mp hspares
        obtain ⟨⟨buf, txActive⟩, hdeq⟩ := Option.isSome_iff_exists.mp hsome
        simp only [FromGuest.step, FromGuest.faultStep, hdrain, hdeq] at hu
        cases hu
        exact ⟨hwrite, ⟨buf, rfl⟩, hfull⟩
      | _ => exact absurd trivial hspares

/-! ## No way out -/

/-- Both domains are in their wait loops, with both queues full and nobody to pop. -/
structure Deadlock (s : State Q) : Prop where
  blocked : Blocked s
  write : s.toGuest.ring.Stuck
  forward : s.fromGuest.ring.Stuck
  notified : s.toGuest.notified = .idle
  read : s.fromGuest.read = .idle

/-- Inside its loop, ping_pong stays there. -/
theorem writeStep_stuck {s t : ToGuest.State Q} (hwaits : WaitsToWrite s) (hstuck : s.ring.Stuck)
    (h : ToGuest.writeStep hdrs s = some t) :
    WaitsToWrite t ∧ t.ring.Stuck ∧ t.notified = s.notified := by
  obtain ⟨⟨payload, hw⟩, hfull⟩ := hwaits
  have hat : s.write.At s.ring.producer.phase := by
    rw [hw]
    exact hstuck.phase
  cases ToGuest.writeStep_move hat h with
  | inside ring hring hphase hpushed =>
    exact ⟨⟨⟨payload, hw⟩, (producerStep_full hring hpushed).mpr hfull⟩,
      producerStep_stuck hstuck hring, rfl⟩
  | handed payload p ring hw hring hp =>
    have hphase := (producerStep_stuck hstuck hring).phase
    rw [hp] at hphase
    cases hphase
  | made _ _ heq | pushed _ _ _ heq | notified _ heq => cases hw.symm.trans heq

/-- And so does the VMM. -/
theorem faultStep_stuck {s t : FromGuest.State Q} (hwaits : WaitsToForward s)
    (hstuck : s.ring.Stuck) (h : FromGuest.faultStep N s = some t) :
    WaitsToForward t ∧ t.ring.Stuck ∧ t.read = s.read := by
  obtain ⟨⟨buf, hf⟩, hfull⟩ := hwaits
  have hat : s.fault.At s.ring.producer.phase := by
    rw [hf]
    exact hstuck.phase
  cases FromGuest.faultStep_move hat h with
  | inside ring hring hphase hpushed =>
    exact ⟨⟨⟨buf, hf⟩, (producerStep_full hring hpushed).mpr hfull⟩,
      producerStep_stuck hstuck hring, rfl⟩
  | handed buf p ring hf hring hp =>
    have hphase := (producerStep_stuck hstuck hring).phase
    rw [hp] at hphase
    cases hphase
  | drained heq | dequeued _ _ heq | filled _ _ heq | pushed _ _ _ heq | returned _ heq
  | notified heq => cases hf.symm.trans heq

theorem step_deadlock {s t : State Q} {a : Act} (h : Deadlock s) (hstep : step hdrs N s a = some t) :
    Deadlock t := by
  obtain ⟨⟨hwrite, hforward⟩, hwstuck, hfstuck, hn, hr⟩ := h
  obtain ⟨⟨payload, hw⟩, _⟩ := id hwrite
  obtain ⟨⟨buf, hf⟩, _⟩ := id hforward
  obtain ⟨hmay, ⟨b, u, rfl, hu, rfl⟩ | ⟨b, u, rfl, hu, rfl⟩⟩ := step_cases hstep
  · cases b with
    | write =>
      obtain ⟨hwaits, hstuck, heq⟩ := writeStep_stuck hwrite hwstuck hu
      exact ⟨⟨hwaits, hforward⟩, hstuck, hfstuck, heq.trans hn, hr⟩
    | call payload => simp only [ToGuest.step, hw, reduceCtorEq] at hu
    | wake => cases hf.symm.trans hmay
    | notified junk => simp only [ToGuest.step, ToGuest.notifiedStep, hn, reduceCtorEq] at hu
    | handleRx n => simp only [ToGuest.step, hn, reduceCtorEq] at hu
  · cases b with
    | vmm =>
      obtain ⟨hwaits, hstuck, heq⟩ := faultStep_stuck hforward hfstuck hu
      exact ⟨⟨hwrite, hwaits⟩, hwstuck, hstuck, hn, heq.trans hr⟩
    | fault | guestFrame frame | handled success =>
      simp only [FromGuest.step, hf, reduceCtorEq] at hu
    | empty | call node call => cases hw.symm.trans hmay
    | read => simp only [FromGuest.step, FromGuest.readStep, hr, reduceCtorEq] at hu

/-- Whatever the two domains do from there, they go on waiting. -/
theorem deadlock_forever {s t : State Q} (h : Deadlock s) (hrun : (machine hdrs N).Reach s t) :
    Deadlock t :=
  hrun.invariant Deadlock h fun _ _ _ h _ hstep => step_deadlock h hstep

/-! ## The shipped system -/

/-- A header over the region the system description maps, as `spsc_init` leaves
it: 511 blocks, and so room for one. -/
def shipped : SpscQueue := ⟨0, 0, 0, 0, 0, 0, 320, 0xFF940, 11, 0⟩

theorem shipped_init : spscInit shipped sizeofSpscQueue 0x100000 11 = (true, shipped) := by decide +kernel

/-- The start of the shipped system, with two free buffers on either way. -/
def shippedStart : State (List NetBuffDesc) :=
  .start shipped shipped (fun _ => 0) (fun _ => 0) (fun _ => 0) (fun _ => 0)
    [⟨0, 0⟩, ⟨2048, 0⟩] [] [⟨0, 0⟩, ⟨2048, 0⟩] [] false false

/-- One fault with two frames: the first is forwarded, the second waits. -/
def runForward : List Act :=
  (FromGuest.runFault [FromGuest.toOther, FromGuest.toOther] ++
    List.replicate 11 FromGuest.Act.vmm).map .fromGuest

/-- Two writes: the first returns, the second waits. -/
def runWrites : List Act := (ToGuest.runWrite [7] ++ [ToGuest.Act.call [8]]).map .toGuest

/-! ## Runs that block and runs that do not -/

/-- **The domains never wait for each other** in a run whose steps all spare the
waiting domain, and the first step that does not makes them wait. -/
theorem domains_never_block (pp2vmm vmm2pp : SpscQueue) (ppMem vmMem rxData txData : Mem)
    (rxFree rxActive txFree txActive : Q) (ppPending vmPending : Bool) {s : State Q}
    (hrun : (machine hdrs N).Run (Spares N) (State.start pp2vmm vmm2pp ppMem vmMem rxData txData
      rxFree rxActive txFree txActive ppPending vmPending) s) :
    ¬ Blocked s ∧ ∀ a t, step hdrs N s a = some t → (Blocked t ↔ ¬ Spares N s a) := by
  have hall := hrun.invariant (fun s => Places s ∧ ¬ Blocked s) ⟨start_places, ?_⟩ ?_
  · exact ⟨hall.2, fun a t hstep => step_blocked_iff hall.1 hall.2 hstep⟩
  · rintro ⟨⟨⟨payload, hpayload⟩, _⟩, _⟩
    cases hpayload
  · intro s a t h hspares hstep
    refine ⟨step_places h.1 hstep, fun hblocked => ?_⟩
    exact (step_blocked_iff h.1 h.2 hstep).mp hblocked hspares

/-- One write beside the fault spares the VMM, which waits alone. -/
theorem domains_never_block_one :
    ∃ s, (machine pingPongHdrs (listRing 2)).Run (Spares (listRing 2)) shippedStart s ∧
      WaitsToForward s.fromGuest ∧ s.toGuest.returned = [1] ∧ ¬ Blocked s := by
  obtain ⟨s, hs, hwaits, hreturned⟩ :=
    ((machine pingPongHdrs (listRing 2)).restrict (Spares (listRing 2))).exists_reach
      (P := fun s => WaitsToForward s.fromGuest ∧ s.toGuest.returned = [1]) (s := shippedStart)
      (runForward ++ (ToGuest.runWrite [7]).map .toGuest) (by decide +kernel)
  have hrun := Machine.run_of_restrict hs
  exact ⟨s, hrun, hwaits, hreturned,
    (domains_never_block _ _ _ _ _ _ _ _ _ _ _ _ hrun).1⟩

/-- The two runs, one after the other, end in a deadlock. -/
theorem domains_deadlock :
    ∃ s, (machine pingPongHdrs (listRing 2)).Reach shippedStart s ∧ Blocked s ∧
      ∀ t, (machine pingPongHdrs (listRing 2)).Reach s t → Blocked t := by
  obtain ⟨s, hs, hw, hwpc, hwq, hf, hfpc, hfq, hn, hr⟩ :=
    (machine pingPongHdrs (listRing 2)).exists_reach
      (P := fun s => s.toGuest.write = .newBlock [8] ∧
        s.toGuest.ring.producer = .newBlockLoadBack ∧
        s.toGuest.ring.q = { shipped with back := 1, producerCachedBack := 1 } ∧
        s.fromGuest.fault = .newBlock ⟨2048, 42⟩ ∧
        s.fromGuest.ring.producer = .newBlockLoadBack ∧
        s.fromGuest.ring.q = { shipped with back := 1, producerCachedBack := 1 } ∧
        s.toGuest.notified = .idle ∧ s.fromGuest.read = .idle)
      (s := shippedStart) (runForward ++ runWrites) (by decide +kernel)
  have hdead : Deadlock s := by
    refine ⟨⟨⟨⟨_, hw⟩, ?_⟩, ⟨_, hf⟩, ?_⟩, ?_, ?_, hn, hr⟩
    · rw [Spsc.State.Full, hwq]
      decide
    · rw [Spsc.State.Full, hfq]
      decide
    · rw [Spsc.State.Stuck, hwpc, hwq]
      decide
    · rw [Spsc.State.Stuck, hfpc, hfq]
      decide
  exact ⟨s, hs, hdead.blocked, fun t ht => (deadlock_forever hdead ht).blocked⟩

end MicroRosDemos.Sel4.Duplex
