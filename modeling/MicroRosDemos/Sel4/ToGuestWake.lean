import MicroRosDemos.Sel4.ToGuestInv

/-!
# From ping_pong to the guest: no lost wake-up

The handler takes its notification before it looks at the queue, and looks again
after each packet until it finds the queue empty. A push it has not seen is
therefore announced: the bit is set again, or ping_pong is about to set it.
-/

namespace MicroRosDemos.Sel4.ToGuest

open MicroRosDemos.Lib MicroRosDemos.Net MicroRosDemos.Spsc

variable {Q : Type} {hdrs : TxHdrs} {N : NetRing Q} {c : Word}

/-- ping_pong is between a push and the notification that follows it. -/
def WritePc.Pushed (pc : WritePc) : Prop := ∃ payload, pc = .notify payload

/-- What the VMM has not seen of the queue is announced, and once it has found a
packet it does not wait for one. -/
structure Wake (s : State Q) : Prop where
  seen : s.pending = true ∨ s.write.Pushed ∨
    (s.ring.Seen ∧ (s.notified = .idle → s.ring.Empty))
  ready : s.ring.FrontReady

theorem WriteMove.wake {s t : State Q} (h : Wake s) (hmove : WriteMove hdrs s t) : Wake t := by
  obtain ⟨hseen, hready⟩ := h
  cases hmove with
  | inside ring hring hphase hpushed =>
    refine ⟨?_, producerStep_frontReady hring hready⟩
    rcases hseen with hpending | hw | ⟨hs, hidle⟩
    · exact .inl hpending
    · exact .inr (.inl hw)
    · exact .inr (.inr ⟨producerStep_seen hring hpushed hs,
        fun hn => (producerStep_empty hring hpushed).mpr (hidle hn)⟩)
  | handed payload p ring hw hring hp hpushed =>
    refine ⟨?_, producerStep_frontReady hring hready⟩
    rcases hseen with hpending | ⟨_, hnotify⟩ | ⟨hs, hidle⟩
    · exact .inl hpending
    · rw [hw] at hnotify
      cases hnotify
    · exact .inr (.inr ⟨producerStep_seen hring hpushed hs,
        fun hn => (producerStep_empty hring hpushed).mpr (hidle hn)⟩)
  | made payload p hw hp =>
    refine ⟨?_, hready⟩
    rcases hseen with hpending | ⟨_, hnotify⟩ | hs
    · exact .inl hpending
    · rw [hw] at hnotify
      cases hnotify
    · exact .inr (.inr hs)
  | pushed payload p ring hw hphase hring hp hpushed =>
    exact ⟨.inr (.inl ⟨payload, rfl⟩), producerStep_frontReady hring hready⟩
  | notified payload hw => exact ⟨.inl rfl, hready⟩

theorem NotifiedMove.wake {s t : State Q} (hinv : Spsc.Inv c s.ring) (h : Wake s)
    (hmove : NotifiedMove N s t) : Wake t := by
  obtain ⟨hseen, hready⟩ := h
  cases hmove with
  | inside ring hring hphase hpopped =>
    refine ⟨?_, consumerStep_frontReady hinv hready hring⟩
    rcases hseen with hpending | hw | ⟨hs, hidle⟩
    · exact .inl hpending
    · exact .inr (.inl hw)
    · exact .inr (.inr ⟨consumerStep_seen hinv hs hring,
        fun hn => (consumerStep_empty hring hpopped).mpr (hidle hn)⟩)
  | leave hn hpc =>
    refine ⟨?_, trivial⟩
    rcases hseen with hpending | hw | ⟨hs, _⟩
    · exact .inl hpending
    · exact .inr (.inl hw)
    · simp only [Spsc.State.Seen, hpc] at hs
      exact .inr (.inr ⟨trivial, fun _ => hs⟩)
  | enter hn hpc =>
    simp only [Spsc.State.FrontReady, hpc] at hready
    exact ⟨hseen.imp_right (Or.imp_right fun _ => ⟨trivial, nofun⟩), hready⟩
  | handed p ring hn hring hp =>
    refine ⟨hseen.imp_right (Or.imp_right fun _ => ⟨?_, nofun⟩), consumerStep_frontReady hinv hready hring⟩
    simp only [Spsc.State.Seen, hp]
  | dequeued buf rxFree hn hdeq | starved junk hn hdeq | enqueued buf hn =>
    exact ⟨hseen.imp_right (Or.imp_right fun hs => ⟨hs.1, nofun⟩), hready⟩
  | copied buf p hn hp =>
    exact ⟨hseen.imp_right (Or.imp_right fun _ => ⟨trivial, nofun⟩), trivial⟩
  | popped ring hn hring hp =>
    exact ⟨hseen.imp_right (Or.imp_right fun _ => ⟨trivial, nofun⟩), trivial⟩

theorem step_wake {s t : State Q} {a : Act} (hinv : Inv c s) (h : Wake s)
    (hstep : step hdrs N s a = some t) : Wake t := by
  obtain ⟨hseen, hready⟩ := id h
  cases step_move hinv.write hinv.notified hstep with
  | write _ hmove => exact hmove.wake h
  | notified junk _ hmove => exact hmove.wake hinv.ring h
  | refused payload hw hbig => exact ⟨hseen, hready⟩
  | called payload hw hfit =>
    have hquiet : s.pending = true ∨ (s.ring.Seen ∧ (s.notified = .idle → s.ring.Empty)) := by
      rcases hseen with hpending | ⟨_, hnotify⟩ | hs
      · exact .inl hpending
      · rw [hw] at hnotify
        cases hnotify
      · exact .inr hs
    exact ⟨hquiet.imp_right .inr, hready⟩
  | woken hn => exact ⟨.inr (.inr ⟨trivial, by simp⟩), trivial⟩
  | handled n rxFree rxActive delivered hn hshared =>
    exact ⟨hseen.imp_right (Or.imp_right fun _ => ⟨trivial, by simp⟩), trivial⟩

/-- **No lost wake-up, and no spinning.** In every interleaving, over a queue of
any capacity: outside the handler, with no notification pending and ping_pong
not between a push and its notification, the queue is empty; and
`spsc_front_block` never enters its wait loop. -/
theorem notified_drains {q₀ q : SpscQueue} {b e : Nat} (he : e < 2 ^ 64)
    (hinit : spscInit q₀ b e 11 = (true, q)) (c : Word) (mem rxData : Mem) (rxFree rxActive : Q)
    (pending : Bool) (srcMac dstMac : Vector Byte 6) (srcIp dstIp : BitVec 32)
    (srcPort dstPort : BitVec 16) (udpHdr : Udphdr) {s : State Q}
    (hrun : (machine (TxHdrs.make srcMac dstMac srcIp dstIp srcPort dstPort udpHdr) N).Reach
      (State.start (q.startAt c) mem rxData rxFree rxActive pending) s) :
    (s.notified = .idle → s.pending = false → ¬ s.write.Pushed →
      s.ring.q.front = s.ring.q.back ∧ s.ring.pushed.length = s.ring.popped) ∧
    ¬ s.ring.consumer.Waits := by
  obtain ⟨hsound, _, _, hsize⟩ := spscInit_sound (by decide) he hinit
  have hboth : Inv c s ∧ Wake s := by
    refine hrun.invariant (fun s => Inv c s ∧ Wake s)
      ⟨start_inv hsound hsize _ _ _ _ _, .inr (.inr ⟨trivial, fun _ => rfl⟩), trivial⟩ ?_
    exact fun s a t h _ hstep => ⟨step_inv rfl h.1 hstep, step_wake h.1 h.2 hstep⟩
  obtain ⟨hinv, hseen, hready⟩ := hboth
  refine ⟨fun hidle hquiet hnotify => ?_, hready.not_waits⟩
  rcases hseen with hpending | hw | ⟨_, hempty⟩
  · rw [hquiet] at hpending
    cases hpending
  · exact absurd hw hnotify
  · exact ⟨(hempty hidle).symm, hinv.ring.empty_iff.mp (hempty hidle)⟩

/-- Two packets behind one notification: one run of the handler takes both, and
leaves the queue empty. -/
theorem notified_drains_merged :
    ∃ s, (machine pingPongHdrs (listRing 4)).Reach (smallStart 0) s ∧ s.notified = .idle ∧
      s.pending = false ∧ s.returned = [1, 1] ∧ s.ring.popped = 2 ∧
        s.ring.q.front = s.ring.q.back := by
  obtain ⟨s, hrun, hidle, hquiet, hw, hreturned, hpopped⟩ :=
    (machine pingPongHdrs (listRing 4)).exists_reach
      (P := fun s => s.notified = .idle ∧ s.pending = false ∧ s.write = .idle ∧
        s.returned = [1, 1] ∧ s.ring.popped = 2)
      (s := smallStart 0)
      (runWrite [7] ++ runWrite [8] ++ [.wake] ++ runSend ++ runSend ++ runLeave)
      (by decide +kernel)
  have hnotify : ¬ s.write.Pushed := by
    rintro ⟨payload, hpushed⟩
    rw [hw] at hpushed
    cases hpushed
  have hdrained := notified_drains (by decide) twoFrames_init 0 _ _ _ _ _ _ _ _ _ _ _ _ hrun
  exact ⟨s, hrun, hidle, hquiet, hreturned, hpopped, (hdrained.1 hidle hquiet hnotify).1⟩

end MicroRosDemos.Sel4.ToGuest
