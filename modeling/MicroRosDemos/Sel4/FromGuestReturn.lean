import MicroRosDemos.Sel4.FromGuestCall

/-!
# From the guest to ping_pong: when a read comes back

The loop of `custom_transport_seL4_read` goes on to the next packet until one is
addressed to the node, and `spsc_front_block` waits for a packet when there is
none; it never hands out the null pointer that would end the loop. So a read of
a queue that holds a packet for the node comes back with the first such packet,
and any other read does not come back before the VMM pushes again
(`read_returns_iff`).
-/

namespace MicroRosDemos.Sel4.FromGuest

open MicroRosDemos.Lib MicroRosDemos.Net MicroRosDemos.Spsc

variable {Q : Type} {hdrs : TxHdrs} {N : NetRing Q} {c : Word}
variable {contents : Q → List NetBuffDesc} {capacity : Nat} {offsets : List Nat}

/-- The read comes back: there is a bound on the turns ping_pong takes in it, and
until it is back ping_pong can take its next turn. -/
def ComesBack (hdrs : TxHdrs) (N : NetRing Q) (s : State Q) : Prop :=
  ∃ bound, ∀ as t, ((machine hdrs N).restrict Quiet).exec s as = some t →
    as.countP Act.isRead ≤ bound ∧ (t.read = .idle ∨ ∃ u, step hdrs N t .read = some u)

/-! ## The rank of a read -/

/-- Turns that are left of a read, at most, when a packet for the node is queued. -/
def State.rank (s : State Q) : Nat :=
  (s.ring.pushed.length - s.ring.popped) * 20 +
    match s.read with
    | .front _ => 10 + s.ring.turns
    | .filter _ => 10
    | .skip _ => 6 + s.ring.turns
    | .getPayload _ => 9
    | .getPayloadLen _ => 8
    | .copy _ _ => 7
    | .finish _ _ => 3 + s.ring.turns
    | .idle | .empty | .assertFailed => 0

theorem Unseen.rank {s t : State Q} (h : Unseen s t) : t.rank = s.rank := by
  rw [State.rank, State.rank, h.pushed, h.popped, h.read, h.turns]

/-- A packet is queued as long as a read looks for one and there is one for the node. -/
theorem Behind.queued_ne_nil {s : State Q} {rest : List (List Byte)} (h : Behind hdrs s rest)
    (hsome : ∃ packet ∈ s.queued, addressed hdrs packet = true) : rest ≠ [] := by
  obtain ⟨others, hqueued, hall⟩ := h
  obtain ⟨packet, hmem, hme⟩ := hsome
  rintro rfl
  rw [hqueued, List.append_nil] at hmem
  rw [hall packet hmem] at hme
  cases hme

theorem popped_lt_of_queued {s : State Q} (h : s.queued ≠ []) :
    s.ring.popped < s.ring.pushed.length := by
  by_contra hle
  refine h ?_
  rw [State.queued, List.drop_eq_nil_of_le (by omega), List.map_nil]

/-- In `spsc_front_block`, with a packet queued, the shared `back` is ahead. -/
theorem back_ne_of_queued {s : State Q} (hinv : Inv c contents offsets s) (hq : s.queued ≠ [])
    (hphase : s.ring.consumer.phase = .front) : s.ring.q.back ≠ s.ring.q.consumerCachedFront := by
  have hlt := popped_lt_of_queued hq
  have hle := hinv.ring.pushed_le
  have hcap := hinv.ring.sound.capacity_lt
  obtain ⟨cached, _, _, _, hat⟩ := hinv.ring.consumer
  have hfront : s.ring.q.consumerCachedFront = Counter.after c s.ring.popped := by
    cases hp : s.ring.consumer with
    | frontLoadBack | frontPause | frontReloadBack =>
      rw [hp] at hat
      exact hat
    | frontLoadFront | frontStoreBack | frontIndex =>
      rw [hp] at hat
      exact hat.1
    | _ =>
      rw [hp] at hphase
      cases hphase
  rw [hinv.ring.back, hfront]
  exact fun heq => absurd ((Counter.after_inj c hlt.le (by omega)).mp heq) (by omega)

/-- A turn inside one of the queue's operations lowers the rank. -/
theorem rank_inside {t : State Q} {ring : Spsc.State} (hinv : Inv c contents offsets t)
    (hfresh : t.ring.Fresh) (hq : t.ring.consumer.phase = .front → t.queued ≠ [])
    (hread : t.read ≠ .empty) (hring : consumerStep t.ring = some ring)
    (hphase : ring.consumer.phase = t.ring.consumer.phase) (hpopped : ring.popped = t.ring.popped) :
    State.rank { t with ring } < t.rank := by
  have hat := hinv.read
  have hturns : t.ring.consumer.Turning → ring.turns < t.ring.turns := fun hin =>
    consumerStep_turns hfresh hin (fun hf => back_ne_of_queued hinv (hq hf) hf) hring hphase
  unfold State.rank
  rw [(consumerStep_frame hring).2.2.1, hpopped]
  cases hr : t.read with
  | front call =>
    rw [hr] at hat
    have := hturns (.inl hat)
    dsimp only
    omega
  | skip call | finish call ret =>
    rw [hr] at hat
    have := hturns (.inr hat)
    dsimp only
    omega
  | filter call =>
    rw [hr] at hat
    obtain ⟨p, hat⟩ := hat
    cases (consumerStep_block hat).symm.trans hring
  | getPayload | getPayloadLen | copy | assertFailed =>
    rw [hr] at hat
    obtain ⟨p, content, hat⟩ := hat
    cases (consumerStep_holding hat).symm.trans hring
  | idle =>
    rw [hr] at hat
    cases (consumerStep_idle hat).symm.trans hring
  | empty => exact absurd hr hread

theorem ReadMove.rank {s t u : State Q} {call : ReadCall} {node : Mem}
    (hinv : Inv c contents offsets t) (h : During hdrs s call node t)
    (hsome : ∃ packet ∈ s.queued, addressed hdrs packet = true) (hmove : ReadMove hdrs t u) :
    u.rank < t.rank := by
  have hplace := h.place
  have hat := hinv.read
  cases hmove with
  | inside ring hring hphase hpopped =>
    refine rank_inside hinv h.fresh (fun hf => ?_) (fun hr => ?_) hring hphase hpopped
    · cases hr : t.read with
      | front k =>
        rw [hr] at hplace
        exact hplace.2.2.2.queued_ne_nil hsome
      | _ =>
        rw [hr] at hat
        first
        | cases hat.symm.trans hf
        | (obtain ⟨_, hat⟩ := hat; cases hat.symm.trans hf)
        | (obtain ⟨_, _, hat⟩ := hat; cases hat.symm.trans hf)
    · rw [hr] at hplace
      exact hplace
  | looked empty hr =>
    rw [hr] at hplace
    exact hplace.elim
  | handed k p ring hr hring hp hpopped =>
    unfold State.rank
    rw [(consumerStep_frame hring).2.2.1, hpopped, hr]
    rw [hr] at hat
    have := State.turns_pos (.inl hat)
    dsimp only
    omega
  | accepted k p hr | payload k hr | kept k p content hr | dropped k p content hr
  | copied k payloadLen p content hr | refused k p hr =>
    unfold State.rank
    rw [hr]
    dsimp only [State.turns]
    omega
  | assertFailed p content hr =>
    unfold State.rank
    rcases hr with ⟨k, hr⟩ | ⟨k, hr⟩ <;> rw [hr] <;> dsimp only <;> omega
  | skipped k ring hr hring hp hpopped =>
    rw [hr] at hplace
    obtain ⟨_, _, _, packet, rest, hqueued, _⟩ := hplace
    have hlt := popped_lt_of_queued (s := t) (by rw [hqueued]; exact List.cons_ne_nil _ _)
    unfold State.rank
    rw [(consumerStep_frame hring).2.2.1, hpopped, hr]
    rw [hr] at hat
    have hpos := State.turns_pos (.inr hat)
    dsimp only
    refine Nat.lt_of_le_of_lt
      (Nat.add_le_add_left (Nat.add_le_add_left (State.turns_le _) 10) _) ?_
    omega
  | finished k ret ring hr hring hp hpopped =>
    rw [hr] at hplace
    obtain ⟨_, _, packet, rest, hqueued, _⟩ := hplace
    have hlt := popped_lt_of_queued (s := t) (by rw [hqueued]; exact List.cons_ne_nil _ _)
    unfold State.rank
    rw [(consumerStep_frame hring).2.2.1, hpopped, hr]
    dsimp only
    omega

/-! ## The next turn -/

/-- Until it is back, ping_pong can take its next turn. -/
theorem readStep_enabled {s t : State Q} {call : ReadCall} {node : Mem}
    (hinv : Inv c contents offsets t) (h : During hdrs s call node t) :
    t.read = .idle ∨ ∃ u, readStep hdrs t = some u := by
  have hplace := h.place
  have hat := hinv.read
  unfold readStep
  cases hr : t.read with
  | idle => exact .inl rfl
  | front k =>
    rw [hr] at hat
    obtain ⟨ring, hring⟩ := consumerStep_enabled (.inl hat)
    exact .inr ⟨_, by rw [hring]; rfl⟩
  | skip k | finish k ret =>
    rw [hr] at hat
    obtain ⟨ring, hring⟩ := consumerStep_enabled (.inr hat)
    exact .inr ⟨_, by rw [hring]; rfl⟩
  | filter k =>
    rw [hr] at hat
    obtain ⟨p, hat⟩ := hat
    simp only [ConsumerPc.phase_block.mp hat]
    split <;> exact .inr ⟨_, rfl⟩
  | getPayload k =>
    rw [hr] at hat
    obtain ⟨p, content, hat⟩ := hat
    simp only [ConsumerPc.phase_holding.mp hat]
    split <;> exact .inr ⟨_, rfl⟩
  | getPayloadLen k =>
    rw [hr] at hat
    obtain ⟨p, content, hat⟩ := hat
    simp only [ConsumerPc.phase_holding.mp hat]
    split <;> (try split) <;> exact .inr ⟨_, rfl⟩
  | copy k payloadLen =>
    rw [hr] at hat
    obtain ⟨p, content, hat⟩ := hat
    simp only [ConsumerPc.phase_holding.mp hat]
    exact .inr ⟨_, rfl⟩
  | empty | assertFailed =>
    rw [hr] at hplace
    exact hplace.elim

/-! ## Back or not -/

section Call
variable {s t : State Q} {call : ReadCall} {node : Mem}

/-- A read of a queue that holds a packet for the node comes back. -/
theorem comesBack_of_some (hN : N.Fifo contents capacity) (hcap : offsets.length ≤ capacity)
    (hinv : Inv c contents offsets t) (h : During hdrs s call node t)
    (hsome : ∃ packet ∈ s.queued, addressed hdrs packet = true) : ComesBack hdrs N t := by
  refine ⟨t.rank, fun as u hexec => ?_⟩
  have hrun := Machine.run_of_restrict (Machine.reach_of_exec as hexec)
  obtain ⟨hinv', h'⟩ := run_during hN hcap hinv h hrun
  refine ⟨?_, readStep_enabled hinv' h'⟩
  have hcount := Machine.countP_le_rank Act.isRead State.rank
    (fun u => Inv c contents offsets u ∧ During hdrs s call node u) ?_ ?_ ⟨hinv, h⟩ hexec
  · omega
  · intro s a t h hstep
    obtain ⟨hquiet, hstep⟩ := Machine.restrict_step.mp hstep
    exact ⟨step_inv hN hcap h.1 hquiet.fit hstep, step_during h.1 h.2 hquiet hstep⟩
  · intro s a t h hstep
    obtain ⟨hquiet, hstep⟩ := Machine.restrict_step.mp hstep
    cases hr : a.isRead with
    | false => exact Nat.le_of_eq (step_unseen h.1 hquiet hr hstep).rank
    | true =>
      cases a with
      | read => exact (readStep_move h.1.read hstep).rank h.1 h.2 hsome
      | _ => cases hr

/-- A read of a queue that holds none is never back. -/
theorem never_back (h : During hdrs s call node t)
    (hnone : ∀ packet ∈ s.queued, addressed hdrs packet = false) : t.read ≠ .idle := by
  intro hr
  have hplace := h.place
  rw [hr] at hplace
  obtain ⟨packet, ret, ⟨⟨others, hqueued, _⟩, hme⟩, _⟩ := hplace
  have hother := hnone packet (by rw [hqueued]; exact List.mem_append_right _ List.mem_cons_self)
  rw [hother] at hme
  cases hme

/-- ping_pong can then take any number of turns. -/
theorem turns_forever (hN : N.Fifo contents capacity) (hcap : offsets.length ≤ capacity)
    (hinv : Inv c contents offsets t) (h : During hdrs s call node t)
    (hnone : ∀ packet ∈ s.queued, addressed hdrs packet = false) (n : Nat) :
    ∃ u, ((machine hdrs N).restrict Quiet).exec t (List.replicate n .read) = some u := by
  induction n generalizing t with
  | zero => exact ⟨t, rfl⟩
  | succ n ih =>
    rcases readStep_enabled hinv h with hidle | ⟨u, hstep⟩
    · exact absurd hidle (never_back h hnone)
    · have hread : ((machine hdrs N).restrict Quiet).step t .read = some u :=
        Machine.restrict_step.mpr ⟨trivial, hstep⟩
      obtain ⟨v, hexec⟩ := ih (step_inv hN hcap hinv (Quiet.fit (a := .read) trivial) hstep)
        (readStep_during hinv h hstep)
      refine ⟨v, ?_⟩
      rw [List.replicate_succ, Machine.exec, hread]
      exact hexec

/-- What a read that was called in `s` and is back in `u` made of the queue: it
popped the packets up to the first for the node and answered that one, or it
popped them all, none being for the node, and returned 0. -/
def Answered (hdrs : TxHdrs) (s : State Q) (call : ReadCall) (node : Mem) (u : State Q) : Prop :=
  (∃ packet ret, First hdrs s packet u.queued ∧
    u.results = s.results ++ [⟨call, ret, node, u.node⟩] ∧ Answers packet ⟨call, ret, node, u.node⟩) ∨
  ((∀ packet ∈ s.queued, addressed hdrs packet = false) ∧ u.queued = [] ∧
    u.results = s.results ++ [⟨call, 0, node, node⟩])

/-- The read called in `s`, which has just begun in `t`, comes back, and in all it
does until then answers for the queue as it was. -/
def ReadReturns (hdrs : TxHdrs) (N : NetRing Q) (s : State Q) (call : ReadCall) (node : Mem)
    (t : State Q) : Prop :=
  ComesBack hdrs N t ∧
  ∀ u, (machine hdrs N).Run Quiet t u → u.read = .idle → Answered hdrs s call node u

/-- A read of a queue that holds a packet for the node returns. -/
theorem readReturns_of_some (hN : N.Fifo contents capacity) (hcap : offsets.length ≤ capacity)
    (hinv : Inv c contents offsets t) (h : During hdrs s call node t)
    (hsome : ∃ packet ∈ s.queued, addressed hdrs packet = true) :
    ReadReturns hdrs N s call node t := by
  refine ⟨comesBack_of_some hN hcap hinv h hsome, fun u hrun hidle => .inl ?_⟩
  have hplace := (run_during hN hcap hinv h hrun).2.place
  rw [hidle] at hplace
  exact hplace

/-- It does not, when the queue holds none. -/
theorem not_comesBack_of_none (hN : N.Fifo contents capacity) (hcap : offsets.length ≤ capacity)
    (hinv : Inv c contents offsets t) (h : During hdrs s call node t)
    (hnone : ∀ packet ∈ s.queued, addressed hdrs packet = false) : ¬ ComesBack hdrs N t := by
  rintro ⟨bound, hall⟩
  obtain ⟨u, hexec⟩ := turns_forever hN hcap hinv h hnone (bound + 1)
  have hcount := (hall _ u hexec).1
  rw [List.countP_replicate, if_pos (show Act.isRead .read = true from rfl)] at hcount
  omega

end Call

/-- The invariant holds in every state the two domains reach from an empty queue. -/
theorem run_inv (hN : N.Fifo contents capacity) {q₀ q : SpscQueue} {b e : Nat} (he : e < 2 ^ 64)
    (hinit : spscInit q₀ b e 11 = (true, q)) {mem txData : Mem} {txFree txActive : Q}
    (hfree : ((contents txFree).map NetBuffDesc.ioOrOffset).Perm offsets)
    (hcap : offsets.length ≤ capacity) (hactive : contents txActive = []) {pending : Bool}
    {s : State Q} (hrun : (machine hdrs N).Run FramesFit
      (State.start q mem txData txFree txActive pending) s) : Inv 0 contents offsets s := by
  obtain ⟨hsound, _, _, hsize⟩ := spscInit_sound (by decide) he hinit
  rw [spscInit_startAt hinit] at hrun
  exact hrun.invariant _ (start_inv hsound hsize mem txData hfree hactive pending)
    fun _ _ _ h hok hstep => step_inv hN hcap h hok hstep

/-- **A read returns just when the queue holds a packet for the node.** Any state
that the two domains reach with ping_pong outside a read, any call, and from
there on every interleaving with a VMM that pushes nothing. -/
theorem read_returns_iff (hN : N.Fifo contents capacity) {q₀ q : SpscQueue} {b e : Nat}
    (he : e < 2 ^ 64) (hinit : spscInit q₀ b e 11 = (true, q)) (mem txData : Mem)
    {txFree txActive : Q} (hfree : ((contents txFree).map NetBuffDesc.ioOrOffset).Perm offsets)
    (hcap : offsets.length ≤ capacity) (hactive : contents txActive = []) (pending : Bool)
    {s t : State Q} (hrun : (machine hdrs N).Run FramesFit
      (State.start q mem txData txFree txActive pending) s) {node : Mem} {call : ReadCall}
    (hcall : step hdrs N s (.call node call) = some t) :
    ReadReturns hdrs N s call node t ↔ ∃ packet ∈ s.queued, addressed hdrs packet = true := by
  have hinv := run_inv hN he hinit hfree hcap hactive hrun
  have hinv' := step_inv hN hcap hinv (show FramesFit s (.call node call) from trivial) hcall
  have hduring := call_during hcall
  refine ⟨fun hreturns => ?_, readReturns_of_some hN hcap hinv' hduring⟩
  by_contra hnone
  refine not_comesBack_of_none hN hcap hinv' hduring (fun packet hmem => ?_) hreturns.1
  by_contra hme
  exact hnone ⟨packet, hmem, Bool.eq_true_of_not_eq_false hme⟩

/-- A packet for the node behind one for somebody else: the read returns. -/
theorem read_returns_second :
    ∃ s t, (machine pingPongHdrs (listRing 2)).Run FramesFit smallStart s ∧ s.queued.length = 2 ∧
      step pingPongHdrs (listRing 2) s (.call (fun _ => 0) ⟨0, 100⟩) = some t ∧
        ReadReturns pingPongHdrs (listRing 2) s ⟨0, 100⟩ (fun _ => 0) t := by
  obtain ⟨s, hreach, hidle, hlen, hsome⟩ :=
    ((machine pingPongHdrs (listRing 2)).restrict FramesFit).exists_reach
      (P := fun s => s.read = .idle ∧ s.queued.length = 2 ∧
        ∃ packet ∈ s.queued, addressed pingPongHdrs packet = true)
      (s := smallStart) (runFault [toOther, toNode [5]] ++ runDrain ++ runDrain)
      (by decide +kernel)
  have hrun := Machine.run_of_restrict hreach
  have hcall : step pingPongHdrs (listRing 2) s (.call (fun _ => 0) ⟨0, 100⟩) = some _ :=
    step_call hidle _ _
  exact ⟨s, _, hrun, hlen, hcall, (read_returns_iff (listRing_fifo 2) (by decide) twoFrames_init _ _
    (List.Perm.refl _) (by decide) rfl _ hrun hcall).mpr hsome⟩

/-- A packet for somebody else is all that is queued: ping_pong is called to a queue
that is not empty, pops the packet, and does not come back. -/
theorem read_never_returns :
    ∃ s t, (machine pingPongHdrs (listRing 2)).Run FramesFit smallStart s ∧ s.queued.length = 1 ∧
      step pingPongHdrs (listRing 2) s (.call (fun _ => 0) ⟨0, 100⟩) = some t ∧
        ¬ ReadReturns pingPongHdrs (listRing 2) s ⟨0, 100⟩ (fun _ => 0) t := by
  obtain ⟨s, hreach, hidle, hlen, hnone⟩ :=
    ((machine pingPongHdrs (listRing 2)).restrict FramesFit).exists_reach
      (P := fun s => s.read = .idle ∧ s.queued.length = 1 ∧
        ∀ packet ∈ s.queued, addressed pingPongHdrs packet = false)
      (s := smallStart) (runFault [toOther] ++ runDrain) (by decide +kernel)
  have hrun := Machine.run_of_restrict hreach
  have hcall : step pingPongHdrs (listRing 2) s (.call (fun _ => 0) ⟨0, 100⟩) = some _ :=
    step_call hidle _ _
  have hinv := run_inv (listRing_fifo 2) (by decide) twoFrames_init (List.Perm.refl _) (by decide)
    rfl hrun
  have hinv' := step_inv (listRing_fifo 2) (by decide) hinv
    (show FramesFit s (.call (fun _ => 0) ⟨0, 100⟩) from trivial) hcall
  exact ⟨s, _, hrun, hlen, hcall, fun hreturns =>
    not_comesBack_of_none (listRing_fifo 2) (by decide) hinv' (call_during hcall) hnone hreturns.1⟩

end MicroRosDemos.Sel4.FromGuest
