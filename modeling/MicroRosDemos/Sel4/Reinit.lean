import MicroRosDemos.Sel4.FromGuestInv

/-!
# Initialising a queue that is in use

The VMM runs `spsc_init` on both queues when it starts, and ping_pong runs it
again in `transport_init`, when the VMM may have forwarded frames already. What
`spsc_init` stores to `spsc_vmm2pp` is followed here one store at a time, among
the steps of the VMM; ping_pong reads only afterwards.

As long as nothing has been pushed the header is the one `spsc_init` leaves, and
its stores change nothing (`store_stutters`). So a run in which the VMM's stores of
`spsc_push` come after those of `spsc_init` to the same two fields is a run of the
queue as if there were no second initialisation (`reinit_keeps`). A frame pushed
earlier is lost, and a push that overlaps the stores leaves `front` and `back` at
odds (`reinit_breaks`).
-/

namespace MicroRosDemos.Sel4.Reinit

open MicroRosDemos.Lib MicroRosDemos.Net MicroRosDemos.Spsc

/-- The stores of `spsc_init`. -/
inductive InitStore
  | beginPtr
  | endPtr
  | producerCachedFront
  | consumerCachedFront
  | front
  | producerCachedBack
  | consumerCachedBack
  | back
  | log2BlockSize
  | log2Capacity
deriving DecidableEq

/-- `spsc_init`, store by store; a chain of assignments stores from right to left. -/
def initStores : List InitStore :=
  [.beginPtr, .endPtr, .producerCachedFront, .consumerCachedFront, .front, .producerCachedBack,
    .consumerCachedBack, .back, .log2BlockSize, .log2Capacity]

/-- One store, `fresh` being the header that `spsc_init` leaves in the end. -/
def InitStore.apply (fresh q : SpscQueue) : InitStore → SpscQueue
  | .beginPtr => { q with beginPtr := fresh.beginPtr }
  | .endPtr => { q with endPtr := fresh.endPtr }
  | .producerCachedFront => { q with producerCachedFront := fresh.producerCachedFront }
  | .consumerCachedFront => { q with consumerCachedFront := fresh.consumerCachedFront }
  | .front => { q with front := fresh.front }
  | .producerCachedBack => { q with producerCachedBack := fresh.producerCachedBack }
  | .consumerCachedBack => { q with consumerCachedBack := fresh.consumerCachedBack }
  | .back => { q with back := fresh.back }
  | .log2BlockSize => { q with log2BlockSize := fresh.log2BlockSize }
  | .log2Capacity => { q with log2Capacity := fresh.log2Capacity }

/-- All of them together are `spsc_init`. -/
theorem initStores_foldl (fresh q : SpscQueue) :
    initStores.foldl (InitStore.apply fresh) q = fresh := by
  simp only [initStores, List.foldl, InitStore.apply]

/-- Where ping_pong is: before `transport_init`, in its `spsc_init` calls with
these stores to `spsc_vmm2pp` before it, or behind them. -/
inductive Phase
  | before
  | init (rest : List InitStore)
  | after
deriving DecidableEq

/-- The two domains, and how far the second initialisation is. -/
structure State (Q : Type) where
  sys : FromGuest.State Q
  phase : Phase

/-- What happens next: a step of either domain, the start of `transport_init`,
which initialises the other queue first, or its next store to this one. -/
inductive Act
  | fromGuest (a : FromGuest.Act)
  | transportInit
  | store

variable {Q : Type} (hdrs : TxHdrs) (N : NetRing Q) (fresh : SpscQueue)

/-- ping_pong uses its queue behind the `spsc_init` calls only. -/
def Ready (s : State Q) : FromGuest.Act → Prop
  | .empty | .call _ _ | .read => s.phase = .after
  | .fault | .guestFrame _ | .handled _ | .vmm => True

instance (s : State Q) (a : FromGuest.Act) : Decidable (Ready s a) :=
  match a with
  | .empty | .call _ _ | .read => inferInstanceAs (Decidable (_ = _))
  | .fault | .guestFrame _ | .handled _ | .vmm => .isTrue trivial

/-- The two domains and the second initialisation, in every interleaving. -/
def step (s : State Q) : Act → Option (State Q)
  | .fromGuest a =>
    if Ready s a then (FromGuest.step hdrs N s.sys a).map fun sys => { s with sys } else none
  | .transportInit =>
    match s.phase with
    | .before => some { s with phase := .init initStores }
    | _ => none
  | .store =>
    match s.phase with
    | .init (x :: rest) =>
      some { s with
        sys := { s.sys with ring := { s.sys.ring with q := x.apply fresh s.sys.ring.q } }
        phase := .init rest }
    | .init [] => some { s with phase := .after }
    | _ => none

/-- The machine of the second initialisation. -/
def machine : Machine (State Q) Act := ⟨step hdrs N fresh⟩

/-- Everything idle over the queue the VMM has initialised. -/
def State.start (mem txData : Mem) (txFree txActive : Q) (pending : Bool) : State Q :=
  ⟨.start fresh mem txData txFree txActive pending, .before⟩

/-! ## Stores that overlap -/

/-- `spsc_init` has made this store. -/
def Phase.Past (x : InitStore) : Phase → Prop
  | .before => False
  | .init rest => x ∉ rest
  | .after => True

instance (x : InitStore) (phase : Phase) : Decidable (phase.Past x) :=
  match phase with
  | .before => .isFalse id
  | .init rest => inferInstanceAs (Decidable (x ∉ rest))
  | .after => .isTrue trivial

/-- The producer's next store, if it is one of `spsc_push`, comes after the one
of `spsc_init` to the same field. -/
def Phase.Lets (phase : Phase) : ProducerPc → Prop
  | .pushStoreCached _ _ => phase.Past .producerCachedBack
  | .pushStoreBack _ _ => phase.Past .back
  | _ => True

instance (phase : Phase) (pc : ProducerPc) : Decidable (phase.Lets pc) :=
  match pc with
  | .pushStoreCached _ _ | .pushStoreBack _ _ => inferInstanceAs (Decidable (phase.Past _))
  | .idle | .newBlockLoadBack | .newBlockLoadFront _ | .newBlockPause | .newBlockReloadFront
  | .newBlockStoreFront _ | .newBlockIndex | .block _ | .pushLoad _ => .isTrue trivial

/-- The stores of `spsc_push` come after those of `spsc_init`, field by field;
and the frames of the guest fit a buffer. -/
def PushesAfter (s : State Q) : Act → Prop
  | .fromGuest .vmm => s.phase.Lets s.sys.ring.producer
  | .fromGuest a => FromGuest.FramesFit s.sys a
  | _ => True

instance (s : State Q) (a : Act) : Decidable (PushesAfter s a) :=
  match a with
  | .fromGuest .vmm => inferInstanceAs (Decidable (s.phase.Lets _))
  | .fromGuest (.guestFrame _) => inferInstanceAs (Decidable (_ ≤ _))
  | .fromGuest .fault | .fromGuest (.handled _) | .fromGuest .empty | .fromGuest (.call _ _)
  | .fromGuest .read | .transportInit | .store => .isTrue trivial

variable {hdrs N fresh} {contents : Q → List NetBuffDesc} {capacity : Nat} {offsets : List Nat}

/-- A field that `spsc_init` has not stored to yet is as the first initialisation
left it, and so are those that `spsc_push` does not store to. -/
structure Untouched (fresh : SpscQueue) (phase : Phase) (ring : Spsc.State) : Prop where
  rest : ring.q =
    { fresh with producerCachedBack := ring.q.producerCachedBack, back := ring.q.back }
  cachedBack : ¬ phase.Past .producerCachedBack →
    ring.q.producerCachedBack = fresh.producerCachedBack
  back : ¬ phase.Past .back → ring.q.back = fresh.back
  loaded : ∀ front, ring.producer = .newBlockStoreFront front → front = fresh.producerCachedFront

/-- On such a header the next store of `spsc_init` changes nothing. -/
theorem store_stutters {ring : Spsc.State} {x : InitStore} {rest : List InitStore}
    (h : Untouched fresh (.init (x :: rest)) ring) : x.apply fresh ring.q = ring.q := by
  have hnext : ¬ (Phase.init (x :: rest)).Past x := fun hpast => hpast List.mem_cons_self
  cases x with
  | producerCachedBack =>
    rw [InitStore.apply, ← h.cachedBack hnext]
  | back =>
    rw [InitStore.apply, ← h.back hnext]
  | beginPtr | endPtr | producerCachedFront | consumerCachedFront | front | consumerCachedBack
  | log2BlockSize | log2Capacity =>
    rw [h.rest]
    rfl

theorem Untouched.later {phase later : Phase} {ring : Spsc.State} (h : Untouched fresh phase ring)
    (hpast : ∀ x, phase.Past x → later.Past x) : Untouched fresh later ring where
  rest := h.rest
  cachedBack hnot := h.cachedBack fun hcached => hnot (hpast _ hcached)
  back hnot := h.back fun hback => hnot (hpast _ hback)
  loaded := h.loaded

theorem producerStep_untouched {phase : Phase} {s t : Spsc.State}
    (hfresh : fresh.front = fresh.producerCachedFront) (h : Untouched fresh phase s)
    (hlets : phase.Lets s.producer) (hstep : producerStep s = some t) : Untouched fresh phase t := by
  obtain ⟨hrest, hcached, hback, hloaded⟩ := h
  unfold producerStep at hstep
  cases hp : s.producer with
  | idle | block p => simp only [hp, reduceCtorEq] at hstep
  | newBlockLoadBack | newBlockPause | newBlockIndex | pushLoad p =>
    simp only [hp] at hstep
    cases hstep
    exact ⟨hrest, hcached, hback, fun front heq => by cases heq⟩
  | newBlockLoadFront back =>
    simp only [hp] at hstep
    split at hstep <;> cases hstep <;> exact ⟨hrest, hcached, hback, fun front heq => by cases heq⟩
  | newBlockReloadFront =>
    simp only [hp] at hstep
    cases hstep
    refine ⟨hrest, hcached, hback, fun front heq => ?_⟩
    cases heq
    exact (congrArg SpscQueue.front hrest).trans hfresh
  | newBlockStoreFront front =>
    simp only [hp] at hstep
    cases hstep
    refine ⟨?_, hcached, hback, fun front heq => by cases heq⟩
    rw [hloaded front hp]
    exact congrArg (fun q => { q with producerCachedFront := fresh.producerCachedFront }) hrest
  | pushStoreCached p back =>
    simp only [hp] at hstep
    rw [hp] at hlets
    cases hstep
    exact ⟨congrArg (fun q => { q with producerCachedBack := back + 1 }) hrest,
      fun hnot => absurd hlets hnot, hback, fun front heq => by cases heq⟩
  | pushStoreBack p back =>
    simp only [hp] at hstep
    rw [hp] at hlets
    cases hstep
    exact ⟨congrArg (fun q => { q with back := back }) hrest, hcached,
      fun hnot => absurd hlets hnot, fun front heq => by cases heq⟩

theorem faultMove_untouched {phase : Phase} {s t : FromGuest.State Q}
    (hfresh : fresh.front = fresh.producerCachedFront) (h : Untouched fresh phase s.ring)
    (hlets : phase.Lets s.ring.producer) (hmove : FromGuest.FaultMove N s t) :
    Untouched fresh phase t.ring := by
  cases hmove with
  | inside ring hring | handed buf p ring hf hring | pushed buf p ring hf hphase hring =>
    exact producerStep_untouched hfresh h hlets hring
  | drained | returned | notified => exact h
  | dequeued buf txActive hf hdeq | filled buf p hf hp =>
    exact ⟨h.rest, h.cachedBack, h.back, fun front heq => by cases heq⟩

/-- The guest's steps do not touch the queue. -/
theorem guest_ring {s t : FromGuest.State Q} {a : FromGuest.Act}
    (ha : a = .fault ∨ (∃ success, a = .handled success) ∨ ∃ frame, a = .guestFrame frame)
    (hstep : FromGuest.step hdrs N s a = some t) : t.ring = s.ring := by
  rcases ha with rfl | ⟨success, rfl⟩ | ⟨frame, rfl⟩ <;> simp only [FromGuest.step] at hstep <;>
    split at hstep <;> cases hstep <;> rfl

/-- The invariant: that of the two domains, and until the second initialisation is
over, a header on which it changes nothing. -/
structure Inv (fresh : SpscQueue) (contents : Q → List NetBuffDesc) (offsets : List Nat)
    (s : State Q) : Prop where
  sys : FromGuest.Inv 0 contents offsets s.sys
  untouched : s.phase ≠ .after → Untouched fresh s.phase s.sys.ring

theorem step_inv {s t : State Q} {a : Act} (hN : N.Fifo contents capacity)
    (hcap : offsets.length ≤ capacity) (hfresh : fresh.front = fresh.producerCachedFront)
    (h : Inv fresh contents offsets s) (hok : PushesAfter s a)
    (hstep : step hdrs N fresh s a = some t) : Inv fresh contents offsets t := by
  obtain ⟨hsys, huntouched⟩ := h
  cases a with
  | fromGuest a =>
    simp only [step] at hstep
    split at hstep
    · next hready =>
      rw [Option.map_eq_some_iff] at hstep
      obtain ⟨sys, hstep, rfl⟩ := hstep
      have hfits : FromGuest.FramesFit s.sys a := by
        cases a with
        | guestFrame frame => exact hok
        | _ => trivial
      refine ⟨FromGuest.step_inv hN hcap hsys hfits hstep, fun hphase => ?_⟩
      have hring := huntouched hphase
      cases a with
      | vmm =>
        exact faultMove_untouched hfresh hring hok (FromGuest.faultStep_move hsys.fault hstep)
      | fault => exact guest_ring (.inl rfl) hstep ▸ hring
      | handled success => exact guest_ring (.inr (.inl ⟨success, rfl⟩)) hstep ▸ hring
      | guestFrame frame => exact guest_ring (.inr (.inr ⟨frame, rfl⟩)) hstep ▸ hring
      | empty | call node call | read => exact absurd hready hphase
    · cases hstep
  | transportInit =>
    simp only [step] at hstep
    split at hstep
    · next hphase =>
      cases hstep
      have hring := huntouched (by rw [hphase]; exact nofun)
      rw [hphase] at hring
      exact ⟨hsys, fun _ => hring.later fun x hpast => absurd hpast id⟩
    · cases hstep
  | store =>
    simp only [step] at hstep
    split at hstep
    · next x rest hphase =>
      cases hstep
      have hring := huntouched (by rw [hphase]; exact nofun)
      rw [hphase] at hring
      rw [store_stutters hring]
      exact ⟨hsys, fun _ => hring.later fun y hpast hmem => hpast (List.mem_cons_of_mem _ hmem)⟩
    · cases hstep
      exact ⟨hsys, fun hphase => absurd rfl hphase⟩
    · cases hstep

/-! ## A small system to run -/

/-- The start of the small system: two blocks, two free buffers. -/
def smallStart : State (List NetBuffDesc) :=
  .start FromGuest.twoFrames (fun _ => 0) (fun _ => 0) [⟨0, 0⟩, ⟨2048, 0⟩] [] false

/-- The second initialisation, alone. -/
def runReinit : List Act := .transportInit :: List.replicate 11 .store

/-- One fault with this frame, and `n` steps of the drain loop. -/
def runForward (frame : List Byte) (n : Nat) : List Act :=
  (FromGuest.runFault [frame] ++ List.replicate n FromGuest.Act.vmm).map .fromGuest

/-- ping_pong calls a read and takes `n` steps in it. -/
def runRead (n : Nat) : List Act :=
  (FromGuest.Act.call (fun _ => 0) ⟨0, 512⟩ :: List.replicate n FromGuest.Act.read).map .fromGuest

/-! ## What the second initialisation keeps -/

/-- The counters count the pushes and the pops, no more blocks are in the ring
than fit, and the blocks come out as they went in, all of them by the time the
ring is empty. -/
structure Kept (ring : Spsc.State) : Prop where
  front : ring.q.front = Counter.after 0 ring.popped
  back : ring.q.back = Counter.after 0 ring.pushed.length
  ordered : ring.popped ≤ ring.pushed.length
  bounded : ring.pushed.length ≤ ring.popped + 2 ^ ring.q.log2Capacity
  delivered : ring.taken <+: ring.pushed.map Prod.snd
  complete : ring.Empty → ring.taken.length = ring.pushed.length

theorem kept_of_inv {ring : Spsc.State} (h : Spsc.Inv 0 ring) : Kept ring where
  front := h.front
  back := h.back
  ordered := h.popped_le
  bounded := h.pushed_le
  delivered := by
    rw [h.taken]
    exact List.take_prefix _ _
  complete hempty := by
    have hall := h.empty_iff.mp hempty
    rw [h.taken, List.length_take, List.length_map]
    omega

/-- **The second initialisation keeps the queue** in every state, before, during
and after it, of a run whose stores of `spsc_push` come after those of
`spsc_init` to the same fields. -/
theorem reinit_keeps (hN : N.Fifo contents capacity) {q₀ : SpscQueue} {b e : Nat} (he : e < 2 ^ 64)
    (hinit : spscInit q₀ b e 11 = (true, fresh)) (mem txData : Mem) {txFree txActive : Q}
    (hfree : ((contents txFree).map NetBuffDesc.ioOrOffset).Perm offsets)
    (hcap : offsets.length ≤ capacity) (hactive : contents txActive = []) (pending : Bool)
    {s : State Q}
    (hrun : (machine hdrs N fresh).Run PushesAfter
      (State.start fresh mem txData txFree txActive pending) s) : Kept s.sys.ring := by
  obtain ⟨hsound, _, _, hsize⟩ := spscInit_sound (by decide) he hinit
  have hzero := spscInit_startAt hinit
  have hfresh : fresh.front = fresh.producerCachedFront := by
    rw [hzero]
    rfl
  have hstart : Inv fresh contents offsets (State.start fresh mem txData txFree txActive pending) := by
    refine ⟨?_, fun _ => ⟨rfl, fun _ => rfl, fun _ => rfl, fun front heq => by cases heq⟩⟩
    have hsys := FromGuest.start_inv (c := 0) hsound hsize mem txData hfree hactive pending
    rwa [← hzero] at hsys
  have hinv := hrun.invariant (Inv fresh contents offsets) hstart
    fun s a t h hok hstep => step_inv hN hcap hfresh h hok hstep
  exact kept_of_inv hinv.sys.ring

/-- A push each of whose stores comes right behind that of `spsc_init` to the same field:
the frame is read. -/
theorem reinit_keeps_late :
    ∃ s, (machine pingPongHdrs (listRing 2) FromGuest.twoFrames).Run PushesAfter smallStart s ∧
      s.phase = .after ∧ s.sys.ring.popped = 1 ∧ Kept s.sys.ring := by
  obtain ⟨s, hs, hafter, hpopped⟩ :=
    ((machine pingPongHdrs (listRing 2) FromGuest.twoFrames).restrict PushesAfter).exists_reach
      (P := fun s => s.phase = .after ∧ s.sys.ring.popped = 1) (s := smallStart)
      (runForward (FromGuest.toNode [5]) 6 ++ .transportInit :: List.replicate 6 .store ++
        [.fromGuest .vmm, .store, .store, .fromGuest .vmm] ++ List.replicate 3 .store ++
          List.replicate 2 (.fromGuest .vmm) ++ runRead 15)
      (by decide +kernel)
  have hrun := Machine.run_of_restrict hs
  have hkept := reinit_keeps (listRing_fifo 2) (by decide)
    FromGuest.twoFrames_init _ _ (.refl _) (by decide) rfl _ hrun
  exact ⟨s, hrun, hafter, hpopped, hkept⟩

/-! ## What it does to a queue in use -/

/-- The second initialisation on its own, whatever the header holds. -/
theorem exec_reinit {s : State Q} (hphase : s.phase = .before) :
    (machine hdrs N fresh).exec s (.transportInit :: List.replicate 11 .store) = some
      ⟨{ s.sys with ring := { s.sys.ring with q := fresh } }, .after⟩ := by
  simp only [List.replicate, Machine.exec, machine, step, hphase, initStores, InitStore.apply]

/-- A block that was in the ring is then in it no more. -/
theorem reinit_drops {s t : State Q} (hfresh : fresh.back = fresh.front) (hphase : s.phase = .before)
    (hfull : s.sys.ring.taken.length < s.sys.ring.pushed.length)
    (hexec : (machine hdrs N fresh).exec s (.transportInit :: List.replicate 11 .store) = some t) :
    ¬ Kept t.sys.ring := by
  rw [exec_reinit hphase] at hexec
  cases hexec
  intro hkept
  have hall := hkept.complete hfresh
  exact absurd hall (Nat.ne_of_lt hfull)

/-- A frame is pushed, the queue is initialised again, and a second frame is
pushed: the first read returns the second frame. And with a push that overlaps
the stores, two reads and one more push leave `front` ahead of `back`. -/
theorem reinit_breaks :
    (∃ s, (machine pingPongHdrs (listRing 2) FromGuest.twoFrames).Reach smallStart s ∧
      s.phase = .after ∧ s.sys.sent = [FromGuest.toNode [5], FromGuest.toNode [6]] ∧
        s.sys.ring.pushed.length = 2 ∧
          s.sys.results.map (fun r => (r.ret, r.after 0)) = [(1, 6)]) ∧
    ∃ s, (machine pingPongHdrs (listRing 2) FromGuest.twoFrames).Reach smallStart s ∧
      s.phase = .after ∧ s.sys.ring.q.front = 2 ∧ s.sys.ring.q.back = 1 := by
  constructor
  · exact Machine.exists_reach (runForward (FromGuest.toNode [5]) 10 ++ runReinit ++
      [.fromGuest .vmm] ++ runForward (FromGuest.toNode [6]) 10 ++ runRead 15) (by decide +kernel)
  · exact Machine.exists_reach (runForward FromGuest.toOther 11 ++ runForward FromGuest.toOther 7 ++
      runReinit ++ List.replicate 4 (.fromGuest .vmm) ++ runRead 19 ++
        runForward FromGuest.toOther 8) (by decide +kernel)

end MicroRosDemos.Sel4.Reinit
