import MicroRosDemos.Sel4.FromGuestInv

/-!
# ping_pong's handler

`notified(CHAN_PINGPONG)` looks at the queue once and then spins the executor
once. Of `rclc_executor_spin_some` it is known only that it performs at least
one transport read. Nothing looks at the queue again before the handler
returns, so all depends on how many packets one notification can stand for.
With room for one block only, a packet that the handler leaves behind was
pushed after a read popped its predecessor, and its notification comes after
the one the handler took (`drains_of_one`). With room for two, the VMM can push both
before the handler starts (`burst_left`).
-/

namespace MicroRosDemos.Sel4.Handler

open MicroRosDemos.Lib MicroRosDemos.Net MicroRosDemos.Spsc

/-- Where ping_pong is in `notified`: outside, in `spsc_empty`, or in
`rclc_executor_spin_some` with this many reads behind it. -/
inductive HandlerPc
  | outside
  | check
  | spin (reads : Nat)
deriving DecidableEq

/-- The two domains, ping_pong being driven by its handler. -/
structure State (Q : Type) where
  sys : FromGuest.State Q
  handler : HandlerPc

/-- What happens next: the VMM's part, the start of the handler, a step of
`spsc_empty`, a call of the transport's read or a step inside it, or the return
of `rclc_executor_spin_some` and with it of the handler. -/
inductive Act
  | fault
  | guestFrame (frame : List Byte)
  | handled (success : Bool)
  | vmm
  | wake
  | look
  | call (node : Mem) (call : FromGuest.ReadCall)
  | read
  | spinDone

variable {Q : Type} (hdrs : TxHdrs) (N : NetRing Q)

/-- The two domains, in every interleaving. -/
def step (s : State Q) : Act → Option (State Q)
  | .fault => (FromGuest.step hdrs N s.sys .fault).map fun sys => { s with sys }
  | .guestFrame frame =>
    (FromGuest.step hdrs N s.sys (.guestFrame frame)).map fun sys => { s with sys }
  | .handled success =>
    (FromGuest.step hdrs N s.sys (.handled success)).map fun sys => { s with sys }
  | .vmm => (FromGuest.step hdrs N s.sys .vmm).map fun sys => { s with sys }
  | .wake =>
    match s.handler, s.sys.pending with
    | .outside, true =>
      (FromGuest.step hdrs N { s.sys with pending := false } .empty).map fun sys =>
        { sys, handler := .check }
    | _, _ => none
  | .look =>
    match s.handler with
    | .check =>
      (FromGuest.step hdrs N s.sys .read).map fun sys =>
        { sys
          handler := match s.sys.ring.consumer with
            | .emptyDone true => .outside
            | .emptyDone false => .spin 0
            | _ => .check }
    | _ => none
  | .call node call =>
    match s.handler with
    | .spin _ => (FromGuest.step hdrs N s.sys (.call node call)).map fun sys => { s with sys }
    | _ => none
  | .read =>
    match s.handler with
    | .spin reads =>
      (FromGuest.step hdrs N s.sys .read).map fun sys =>
        { sys, handler := .spin (if sys.read = .idle then reads + 1 else reads) }
    | _ => none
  | .spinDone =>
    match s.handler, s.sys.read with
    | .spin (_ + 1), .idle => some { s with handler := .outside }
    | _, _ => none

/-- The machine of this direction, under ping_pong's handler. -/
def machine : Machine (State Q) Act := ⟨step hdrs N⟩

/-- Everything idle over an initialised queue. -/
def State.start (q : SpscQueue) (mem txData : Mem) (txFree txActive : Q) (pending : Bool) :
    State Q :=
  ⟨FromGuest.State.start q mem txData txFree txActive pending, .outside⟩

/-- The frames of the guest fit a buffer. -/
def FramesFit (_ : State Q) : Act → Prop
  | .guestFrame frame => frame.length ≤ 2048
  | _ => True

/-! ## What a push leaves behind -/

variable {hdrs N} {c : Word} {contents : Q → List NetBuffDesc} {capacity : Nat}
  {offsets : List Nat}

/-- The VMM is between a push and the notification that follows it. -/
def Pushed : FromGuest.FaultPc → Prop
  | .enqueueFree _ | .notify => True
  | _ => False

/-- What a step of the VMM does to what ping_pong has seen: it announces a push,
or leaves the queue and the notification as they were. -/
def Announces (s t : FromGuest.State Q) : Prop :=
  t.read = s.read ∧ (t.pending = true ∨ Pushed t.fault ∨
    (t.pending = s.pending ∧ ¬ Pushed s.fault ∧ (s.ring.Seen → t.ring.Seen) ∧
      (s.ring.Empty → t.ring.Empty)))

theorem faultMove_announces {s t : FromGuest.State Q} (hat : s.fault.At s.ring.producer.phase)
    (hmove : FromGuest.FaultMove N s t) : Announces s t := by
  cases hmove with
  | inside ring hring hphase hpushed =>
    -- the producer is inside an operation, so no push has just been made
    have hbusy : ¬ Pushed s.fault := by
      intro hp
      have hidle : s.ring.producer = .idle := by
        cases hf : s.fault <;> rw [hf] at hp hat <;>
          first | exact ProducerPc.phase_idle.mp hat | exact hp.elim
      rw [producerStep, hidle] at hring
      cases hring
    exact ⟨rfl, .inr (.inr ⟨rfl, hbusy, producerStep_seen hring hpushed,
      (producerStep_empty hring hpushed).mpr⟩)⟩
  | drained hf | dequeued buf txActive hf hdeq | filled buf p hf hp =>
    exact ⟨rfl, .inr (.inr ⟨rfl, by rw [hf]; exact id, id, id⟩)⟩
  | handed buf p ring hf hring hp hpushed =>
    exact ⟨rfl, .inr (.inr ⟨rfl, by rw [hf]; exact id, producerStep_seen hring hpushed,
      (producerStep_empty hring hpushed).mpr⟩)⟩
  | pushed buf p ring hf hphase hring hp hpushed => exact ⟨rfl, .inr (.inl trivial)⟩
  | returned buf hf => exact ⟨rfl, .inr (.inl trivial)⟩
  | notified hf => exact ⟨rfl, .inl rfl⟩

theorem fault_announces {s t : FromGuest.State Q} {a : FromGuest.Act}
    (ha : a = .fault ∨ (∃ success, a = .handled success) ∨ ∃ frame, a = .guestFrame frame)
    (hstep : FromGuest.step hdrs N s a = some t) : Announces s t := by
  rcases ha with rfl | ⟨success, rfl⟩ | ⟨frame, rfl⟩ <;> simp only [FromGuest.step] at hstep <;>
    split at hstep <;> cases hstep
  · next heq => exact ⟨rfl, .inr (.inr ⟨rfl, by rw [heq]; exact id, id, id⟩)⟩
  · next heq => exact ⟨rfl, .inr (.inr ⟨rfl, by rw [heq]; exact id, id, id⟩)⟩
  · next heq _ => exact ⟨rfl, .inr (.inr ⟨rfl, by rw [heq]; exact id, id, id⟩)⟩

/-! ## Room for one block -/

/-- With room for one block, the pop of a block leaves the queue empty. -/
theorem released_empty {s t : Spsc.State} (hinv : Spsc.Inv c s) (hone : s.q.log2Capacity = 0)
    (hstep : consumerStep s = some t) (hpopped : t.popped = s.popped + 1) : t.Empty := by
  have ht := consumerStep_inv hinv hstep
  obtain ⟨_, _, hpushed, _, _⟩ := consumerStep_frame hstep
  have hle := hinv.pushed_le
  have hlo := ht.popped_le
  rw [hone] at hle
  refine ht.empty_iff.mpr ?_
  rw [hpushed] at hlo ⊢
  omega

theorem readMove_empty {s t : FromGuest.State Q} (hinv : Spsc.Inv c s.ring)
    (hone : s.ring.q.log2Capacity = 0) (hread : s.read ≠ .empty)
    (hmove : FromGuest.ReadMove hdrs s t) :
    (s.ring.Empty → t.ring.Empty) ∧ (t.read = .idle → s.read ≠ .idle → t.ring.Empty) := by
  cases hmove with
  | inside ring hring hphase hpopped =>
    exact ⟨(consumerStep_empty hring hpopped).mpr, fun hidle hbusy => absurd hidle hbusy⟩
  | looked empty hr => exact absurd hr hread
  | handed call p ring hr hring hp hpopped =>
    exact ⟨(consumerStep_empty hring hpopped).mpr, nofun⟩
  | skipped call ring hr hring hp hpopped =>
    have hempty : ring.Empty := released_empty hinv hone hring hpopped
    exact ⟨fun _ => hempty, nofun⟩
  | finished call ret ring hr hring hp hpopped =>
    have hempty := released_empty hinv hone hring hpopped
    exact ⟨fun _ => hempty, fun _ _ => hempty⟩
  | accepted | refused | assertFailed | payload | dropped | kept | copied => exact ⟨id, nofun⟩

/-! ## The handler leaves nothing behind -/

/-- What the handler's place says of the queue, if no push has been announced
since the handler started. -/
def Settled (ring : Spsc.State) : HandlerPc → Prop
  | .outside | .spin (_ + 1) => ring.Empty
  | .check => ring.Seen
  | .spin 0 => True

/-- The place of ping_pong in its reads at each place of the handler. -/
def HandlerPc.At : HandlerPc → FromGuest.ReadPc → Prop
  | .outside, read => read = .idle
  | .check, read => read = .empty
  | .spin _, read => read ≠ .empty

/-- What the handler has not seen of the queue is announced. -/
structure Drains (s : State Q) : Prop where
  place : s.handler.At s.sys.read
  seen : s.sys.pending = true ∨ Pushed s.sys.fault ∨ Settled s.sys.ring s.handler

theorem Drains.announces {s : State Q} {t : FromGuest.State Q} (h : Drains s)
    (hstep : Announces s.sys t) : Drains { s with sys := t } := by
  obtain ⟨hplace, hseen⟩ := h
  obtain ⟨hread, hannounced⟩ := hstep
  refine ⟨by rw [hread]; exact hplace, ?_⟩
  rcases hannounced with hpending | hpushed | ⟨hpending, hbusy, hs, hempty⟩
  · exact .inl hpending
  · exact .inr (.inl hpushed)
  · rcases hseen with hp | hp | hsettled
    · exact .inl (hpending.trans hp)
    · exact absurd hp hbusy
    · refine .inr (.inr ?_)
      cases hh : s.handler with
      | outside =>
        rw [hh] at hsettled
        exact hempty hsettled
      | check =>
        rw [hh] at hsettled
        exact hs hsettled
      | spin reads =>
        rw [hh] at hsettled
        cases reads with
        | zero => trivial
        | succ reads => exact hempty hsettled

/-- The steps of ping_pong leave the VMM's part alone. -/
theorem readMove_vmm {s t : FromGuest.State Q} (hmove : FromGuest.ReadMove hdrs s t) :
    t.pending = s.pending ∧ t.fault = s.fault := by
  cases hmove <;> exact ⟨rfl, rfl⟩

/-- Looking at the queue: the answer "empty" is still true, or a push is announced. -/
theorem look_drains {s : State Q} {t : FromGuest.State Q} (hinv : Spsc.Inv c s.sys.ring)
    (h : Drains s) (hcheck : s.handler = .check)
    (hstep : FromGuest.readStep hdrs s.sys = some t) :
    Drains ⟨t, match s.sys.ring.consumer with
      | .emptyDone true => .outside
      | .emptyDone false => .spin 0
      | _ => .check⟩ := by
  obtain ⟨hplace, hseen⟩ := h
  rw [hcheck] at hplace hseen
  have hread : s.sys.read = .empty := hplace
  unfold FromGuest.readStep at hstep
  simp only [hread] at hstep
  cases hc : s.sys.ring.consumer with
  | emptyDone empty =>
    simp only [hc] at hstep
    cases hstep
    cases empty with
    | true =>
      simp only [Settled, Spsc.State.Seen, hc] at hseen
      exact ⟨rfl, hseen⟩
    | false => exact ⟨nofun, hseen.imp_right (Or.imp_right fun _ => trivial)⟩
  | _ =>
    simp only [hc, Option.map_eq_some_iff] at hstep
    obtain ⟨ring, hring, rfl⟩ := hstep
    exact ⟨rfl, hseen.imp_right (Or.imp_right fun hs => consumerStep_seen hinv hs hring)⟩

/-- A read is called: the queue stays as it is. -/
theorem call_drains {s : State Q} {t : FromGuest.State Q} {node : Mem} {call : FromGuest.ReadCall}
    {reads : Nat} (h : Drains s) (hspin : s.handler = .spin reads)
    (hstep : FromGuest.step hdrs N s.sys (.call node call) = some t) : Drains { s with sys := t } := by
  have hseen := h.seen
  simp only [FromGuest.step] at hstep
  split at hstep
  · cases hstep
    rw [hspin] at hseen
    have hplace : HandlerPc.At (.spin reads) (.front call) := by
      intro hempty
      cases hempty
    refine ⟨hspin ▸ hplace, hseen.imp_right (Or.imp_right fun hs => ?_)⟩
    rw [hspin]
    cases reads with
    | zero => trivial
    | succ reads => exact hs
  · cases hstep

/-- A step of a read: when it comes back it has emptied a queue of one block. -/
theorem read_drains {s : State Q} {t : FromGuest.State Q} {reads : Nat}
    (hinv : FromGuest.Inv c contents offsets s.sys) (hone : s.sys.ring.q.log2Capacity = 0)
    (h : Drains s) (hspin : s.handler = .spin reads)
    (hstep : FromGuest.step hdrs N s.sys .read = some t) :
    Drains ⟨t, .spin (if t.read = .idle then reads + 1 else reads)⟩ := by
  obtain ⟨hplace, hseen⟩ := h
  rw [hspin] at hplace hseen
  have hread : s.sys.read ≠ .empty := hplace
  have hbusy : s.sys.read ≠ .idle := by
    intro hidle
    simp only [FromGuest.step, FromGuest.readStep, hidle, reduceCtorEq] at hstep
  have hmove := FromGuest.readStep_move hinv.read hstep
  obtain ⟨hpending, hfault⟩ := readMove_vmm hmove
  obtain ⟨hkeep, hdone⟩ := readMove_empty hinv.ring hone hread hmove
  have hnext : t.read ≠ .empty := by
    intro hempty
    cases hmove with
    | inside => exact hread hempty
    | _ => cases hempty
  refine ⟨hnext, ?_⟩
  rw [hpending, hfault]
  refine hseen.imp_right (Or.imp_right fun hs => ?_)
  by_cases hidle : t.read = .idle
  · rw [if_pos hidle]
    exact hdone hidle hbusy
  · rw [if_neg hidle]
    cases reads with
    | zero => trivial
    | succ reads => exact hkeep hs

theorem step_drains {s t : State Q} {a : Act} (hinv : FromGuest.Inv c contents offsets s.sys)
    (hone : s.sys.ring.q.log2Capacity = 0) (h : Drains s) (hstep : step hdrs N s a = some t) :
    Drains t := by
  have hplace := h.place
  have hseen := h.seen
  cases a with
  | fault =>
    simp only [step, Option.map_eq_some_iff] at hstep
    obtain ⟨sys, hsys, rfl⟩ := hstep
    exact h.announces (fault_announces (.inl rfl) hsys)
  | handled success =>
    simp only [step, Option.map_eq_some_iff] at hstep
    obtain ⟨sys, hsys, rfl⟩ := hstep
    exact h.announces (fault_announces (.inr (.inl ⟨success, rfl⟩)) hsys)
  | guestFrame frame =>
    simp only [step, Option.map_eq_some_iff] at hstep
    obtain ⟨sys, hsys, rfl⟩ := hstep
    exact h.announces (fault_announces (.inr (.inr ⟨frame, rfl⟩)) hsys)
  | vmm =>
    simp only [step, Option.map_eq_some_iff] at hstep
    obtain ⟨sys, hsys, rfl⟩ := hstep
    exact h.announces (faultMove_announces hinv.fault (FromGuest.faultStep_move hinv.fault hsys))
  | wake =>
    simp only [step] at hstep
    split at hstep
    · next hh _ =>
      rw [hh] at hplace
      have hidle : s.sys.read = .idle := hplace
      simp only [FromGuest.step, hidle, Option.map_some] at hstep
      cases hstep
      exact ⟨rfl, .inr (.inr trivial)⟩
    · cases hstep
  | look =>
    simp only [step] at hstep
    split at hstep
    · next hh =>
      rw [Option.map_eq_some_iff] at hstep
      obtain ⟨sys, hsys, rfl⟩ := hstep
      exact look_drains hinv.ring h hh hsys
    · cases hstep
  | call node call =>
    simp only [step] at hstep
    split at hstep
    · next reads hh =>
      rw [Option.map_eq_some_iff] at hstep
      obtain ⟨sys, hsys, rfl⟩ := hstep
      exact call_drains h hh hsys
    · cases hstep
  | read =>
    simp only [step] at hstep
    split at hstep
    · next reads hh =>
      rw [Option.map_eq_some_iff] at hstep
      obtain ⟨sys, hsys, rfl⟩ := hstep
      exact read_drains hinv hone h hh hsys
    · cases hstep
  | spinDone =>
    simp only [step] at hstep
    split at hstep
    · next reads hh hidle =>
      cases hstep
      rw [hh] at hseen
      exact ⟨hidle, hseen⟩
    · cases hstep

theorem step_sys {s t : State Q} {a : Act} (hN : N.Fifo contents capacity)
    (hcap : offsets.length ≤ capacity) (h : FromGuest.Inv c contents offsets s.sys)
    (hok : FramesFit s a) (hstep : step hdrs N s a = some t) :
    FromGuest.Inv c contents offsets t.sys ∧ Spsc.machine.Reach s.sys.ring t.sys.ring := by
  have hkeep : ∀ {a' sys}, FromGuest.step hdrs N s.sys a' = some sys →
      FromGuest.FramesFit s.sys a' →
        FromGuest.Inv c contents offsets sys ∧ Spsc.machine.Reach s.sys.ring sys.ring :=
    fun hsys hok => ⟨FromGuest.step_inv hN hcap h hok hsys, FromGuest.step_ring h.toAround hsys⟩
  cases a with
  | fault | handled success | vmm | guestFrame frame =>
    simp only [step, Option.map_eq_some_iff] at hstep
    obtain ⟨sys, hsys, rfl⟩ := hstep
    exact hkeep hsys hok
  | wake =>
    simp only [step] at hstep
    split at hstep
    · rw [Option.map_eq_some_iff] at hstep
      obtain ⟨sys, hsys, rfl⟩ := hstep
      have hquiet : FromGuest.Inv c contents offsets { s.sys with pending := false } :=
        ⟨⟨h.blockSize, h.fault, h.read, h.buffers, h.fits⟩, h.ring⟩
      have hreach := FromGuest.step_ring hquiet.toAround hsys
      refine ⟨FromGuest.step_inv hN hcap hquiet ?_ hsys, hreach⟩
      trivial
    · cases hstep
  | look | call node call | read =>
    simp only [step] at hstep
    split at hstep
    · rw [Option.map_eq_some_iff] at hstep
      obtain ⟨sys, hsys, rfl⟩ := hstep
      exact hkeep hsys trivial
    · cases hstep
  | spinDone =>
    simp only [step] at hstep
    split at hstep
    · cases hstep
      exact ⟨h, .refl⟩
    · cases hstep

/-- Outside its handler, with no notification pending and none under way, there
is nothing to read. -/
def NothingLeft (s : State Q) : Prop :=
  s.handler = .outside → s.sys.pending = false → ¬ Pushed s.sys.fault →
    s.sys.ring.q.front = s.sys.ring.q.back ∧ s.sys.ring.pushed.length = s.sys.ring.popped

/-- With room for one block, the handler leaves nothing behind. -/
theorem drains_of_one (hN : N.Fifo contents capacity) {q₀ q : SpscQueue} {b e : Nat}
    (he : e < 2 ^ 64) (hinit : spscInit q₀ b e 11 = (true, q)) (hone : q.log2Capacity = 0)
    (mem txData : Mem) {txFree txActive : Q}
    (hfree : ((contents txFree).map NetBuffDesc.ioOrOffset).Perm offsets)
    (hcap : offsets.length ≤ capacity) (hactive : contents txActive = []) (pending : Bool)
    {s : State Q}
    (hrun : (machine hdrs N).Run FramesFit (State.start q mem txData txFree txActive pending) s) :
    NothingLeft s := by
  obtain ⟨hsound, _, _, hsize⟩ := spscInit_sound (by decide) he hinit
  rw [spscInit_startAt hinit] at hrun
  have hall := hrun.invariant
    (fun s => FromGuest.Inv 0 contents offsets s.sys ∧ s.sys.ring.q.log2Capacity = 0 ∧ Drains s)
    ⟨FromGuest.start_inv hsound hsize _ _ hfree hactive _, hone, rfl, .inr (.inr rfl)⟩ ?_
  · obtain ⟨hinv, _, hdrains⟩ := hall
    intro hidle hquiet hpush
    rcases hdrains.seen with hpending | hpushed | hempty
    · rw [hquiet] at hpending
      cases hpending
    · exact absurd hpushed hpush
    · rw [hidle] at hempty
      have hback : s.sys.ring.Empty := hempty
      exact ⟨hback.symm, hinv.ring.empty_iff.mp hback⟩
  · rintro s a t ⟨hinv, hone, hdrains⟩ hok hstep
    obtain ⟨hinv', hreach⟩ := step_sys hN hcap hinv hok hstep
    have hgeometry : t.sys.ring.q.log2Capacity = s.sys.ring.q.log2Capacity :=
      congrArg (·.2.2.2) (reach_geometry hreach)
    exact ⟨hinv', hgeometry.trans hone, step_drains hinv hone hdrains hstep⟩

/-! ## Room for two blocks -/

/-- A fault brings two frames, into the two free buffers. -/
theorem exec_fault {s : State (List NetBuffDesc)} {f g : List Byte} {d e : NetBuffDesc}
    (hf : s.sys.fault = .idle) (hfree : s.sys.txFree = [d, e]) (hactive : s.sys.txActive = []) :
    (machine hdrs (listRing 2)).exec s [.fault, .guestFrame f, .guestFrame g, .handled true] =
      some { s with sys := { s.sys with
        fault := .drain, txFree := []
        txActive := [{ d with len := f.length }, { e with len := g.length }]
        txData := (s.sys.txData.write d.ioOrOffset f).write e.ioOrOffset g
        sent := s.sys.sent ++ [f] ++ [g] } } := by
  simp only [Machine.exec, machine, step, FromGuest.step, hf, hfree, hactive, listRing,
    Option.map_some, if_true, List.length_nil, List.length_cons, List.nil_append, List.cons_append,
    Nat.zero_add, Nat.reduceLT]

/-- The drain loop moves one frame into the queue when there is room. -/
theorem exec_drain {s : State Q} {buf : NetBuffDesc} {rest : Q} (hf : s.sys.fault = .drain)
    (hdeq : N.dequeue s.sys.txActive = some (buf, rest)) {bs : List Byte}
    (hbs : buf.bytes s.sys.txData = bs) {p : Nat}
    (hp : s.sys.ring.q.blockAt s.sys.ring.q.producerCachedBack = p)
    (hroom : s.sys.ring.q.producerCachedBack - s.sys.ring.q.producerCachedFront ≠
      s.sys.ring.q.capacity) :
    (machine hdrs N).exec s (List.replicate 10 .vmm) = some { s with
      sys := { s.sys with
        ring := { s.sys.ring with
          q := { s.sys.ring.q with
            back := s.sys.ring.q.producerCachedBack + 1
            producerCachedBack := s.sys.ring.q.producerCachedBack + 1 }
          mem := s.sys.ring.mem.write p bs
          producer := .idle
          pushed := s.sys.ring.pushed ++ [(p, (s.sys.ring.mem.write p bs).read p s.sys.ring.size)] }
        txActive := rest, txFree := N.enqueue s.sys.txFree buf, pending := true
        fault := .drain } } := by
  subst hp hbs
  simp only [List.replicate, Machine.exec, machine, step, FromGuest.step, FromGuest.faultStep, hf,
    hdeq, producerStep, Option.map_some, if_neg hroom, NetBuffDesc.bytes]

/-- The handler starts, and finds a packet. -/
theorem exec_look {s : State Q} (hh : s.handler = .outside) (hpending : s.sys.pending = true)
    (hr : s.sys.read = .idle) (hne : s.sys.ring.q.back ≠ s.sys.ring.q.consumerCachedFront) :
    (machine hdrs N).exec s (.wake :: List.replicate 5 .look) = some
      { sys := { s.sys with
          ring := { s.sys.ring with
            q := { s.sys.ring.q with consumerCachedBack := s.sys.ring.q.back }, consumer := .idle }
          pending := false, read := .idle }
        handler := .spin 0 } := by
  simp only [List.replicate, Machine.exec, machine, step, FromGuest.step, FromGuest.readStep, hh,
    hpending, hr, consumerStep, Option.map_some, hne, decide_false]

/-- One read with no room in its buffer drops an addressed packet, and the
handler returns. -/
theorem exec_read {s : State Q} (node : Mem) (hh : s.handler = .spin 0) (hr : s.sys.read = .idle)
    (hne : s.sys.ring.q.consumerCachedBack ≠ s.sys.ring.q.consumerCachedFront) {p : Nat}
    (hp : s.sys.ring.q.blockAt s.sys.ring.q.consumerCachedFront = p)
    (hme : isAddressedToMe hdrs s.sys.ring.mem p = true)
    (hlen : 0 < getPayloadLen s.sys.ring.mem p) :
    (machine hdrs N).exec s (.call node ⟨0, 0⟩ :: List.replicate 9 .read ++ [.spinDone]) = some
      { sys := { s.sys with
          ring := { s.sys.ring with
            q := { s.sys.ring.q with
              consumerCachedFront := s.sys.ring.q.consumerCachedFront + 1
              front := s.sys.ring.q.consumerCachedFront + 1 }
            consumer := .idle
            taken := s.sys.ring.taken ++ [s.sys.ring.mem.read p s.sys.ring.size]
            popped := s.sys.ring.popped + 1 }
          node, nodeAtCall := node, read := .idle
          results := s.sys.results ++ [⟨⟨0, 0⟩, 0, node, node⟩] }
        handler := .outside } := by
  subst hp
  have hudp := isUdp_of_addressed hme
  simp only [List.replicate, List.cons_append, List.nil_append, Machine.exec, machine, step,
    FromGuest.step, FromGuest.readStep, hh, hr, consumerStep, Option.map_some, if_neg hne, hme, hudp,
    hlen, if_true, reduceCtorEq, if_false, Nat.zero_add]

/-- A queue with room for two blocks is not full with none in it, nor with one. -/
theorem capacity_ne {q : SpscQueue} (hq : q.Sound) (htwo : q.log2Capacity ≠ 0) :
    (0 : Word) - 0 ≠ q.capacity ∧ (0 + 1 : Word) - 0 ≠ q.capacity := by
  have hlt := hq.capacity_lt
  have hle : 2 ≤ 2 ^ q.log2Capacity := Nat.le_self_pow htwo 2
  rw [hq.capacity_eq]
  constructor
  · intro heq
    have hnat := congrArg BitVec.toNat heq
    rw [BitVec.toNat_ofNat, Nat.mod_eq_of_lt hlt] at hnat
    have hzero : ((0 : Word) - 0).toNat = 0 := rfl
    omega
  · intro heq
    have hnat := congrArg BitVec.toNat heq
    rw [BitVec.toNat_ofNat, Nat.mod_eq_of_lt hlt] at hnat
    have hone : ((0 + 1 : Word) - 0).toNat = 1 := rfl
    omega

/-- With room for two blocks, both can be pushed before the handler starts, and
it leaves one of them behind. -/
theorem burst_left {q₀ q : SpscQueue} {b e : Nat} (he : e < 2 ^ 64)
    (hinit : spscInit q₀ b e 11 = (true, q)) (htwo : q.log2Capacity ≠ 0) (mem txData : Mem) :
    ∃ s, (machine pingPongHdrs (listRing 2)).Run FramesFit
      (State.start q mem txData [⟨0, 0⟩, ⟨2048, 0⟩] [] false) s ∧ ¬ NothingLeft s := by
  obtain ⟨hq, _, _, hsize⟩ := spscInit_sound (by decide) he hinit
  obtain ⟨hfirst, hsecond⟩ := capacity_ne hq htwo
  rw [spscInit_startAt hinit]
  generalize hframe : FromGuest.toNode [5] = frame
  have hlen : frame.length = 43 := by
    subst hframe
    rfl
  have hulen : uhUlen frame = 9 := by
    subst hframe
    decide +kernel
  generalize hp₀ : q.blockAt 0 = p₀
  generalize hp₁ : q.blockAt (0 + 1) = p₁
  -- the second frame leaves the first block alone
  have hapart : p₀ + 2048 ≤ p₁ ∨ p₁ + 2048 ≤ p₀ := by
    have hblocks := hq.blockAt_disjoint 0 (m := 0) (n := 1) (by omega)
      (by have := Nat.le_self_pow htwo 2; omega)
    rwa [hsize, Counter.after_zero, hp₀, show Counter.after (0 : Word) 1 = 0 + 1 from rfl,
      hp₁] at hblocks
  have hview : ((mem.write p₀ frame).write p₁ frame).read p₀ frame.length = frame := by
    rw [Mem.read_write_disjoint _ _ _ _ (by omega), Mem.read_write_self]
  have hme : isAddressedToMe pingPongHdrs ((mem.write p₀ frame).write p₁ frame) p₀ = true := by
    rw [isAddressedToMe_of_read hview (by omega), ← hframe]
    decide +kernel
  have hpay : 0 < getPayloadLen ((mem.write p₀ frame).write p₁ frame) p₀ := by
    have hnat := getPayloadLen_of_read hview (by omega) (by omega)
    rw [BitVec.lt_def, hnat, hulen]
    decide
  -- the frames wait in their buffers
  have hbytes₀ : NetBuffDesc.bytes ((txData.write 0 frame).write 2048 frame) ⟨0, frame.length⟩ =
      frame := by
    show ((txData.write 0 frame).write 2048 frame).read 0 frame.length = frame
    rw [Mem.read_write_disjoint _ _ _ _ (by omega), Mem.read_write_self]
  have hbytes₁ : NetBuffDesc.bytes ((txData.write 0 frame).write 2048 frame) ⟨2048, frame.length⟩ =
      frame := by
    rw [NetBuffDesc.bytes, Mem.read_write_self]
  have h₀ : (machine pingPongHdrs (listRing 2)).Run FramesFit
      (State.start (q.startAt 0) mem txData [⟨0, 0⟩, ⟨2048, 0⟩] [] false) _ :=
    Machine.run_of_exec [.fault, .guestFrame frame, .guestFrame frame, .handled true]
      (by simp [FramesFit, hlen]) (exec_fault rfl rfl rfl)
  have hvmm : ∀ s : State (List NetBuffDesc), ∀ a ∈ List.replicate 10 Act.vmm, FramesFit s a := by
    simp [FramesFit]
  have h₁ := h₀.trans (Machine.run_of_exec _ hvmm (exec_drain rfl rfl hbytes₀ hp₀ hfirst))
  have h₂ := h₁.trans (Machine.run_of_exec _ hvmm (exec_drain rfl rfl hbytes₁ hp₁ hsecond))
  have h₃ := h₂.trans (Machine.run_of_exec _ (by simp [FramesFit])
    (exec_look rfl rfl rfl (by show (0 + 1 + 1 : Word) ≠ 0; decide)))
  have h₄ := h₃.trans (Machine.run_of_exec _ (by simp [FramesFit])
    (exec_read (fun _ => 0) rfl rfl (by show (0 + 1 + 1 : Word) ≠ 0; decide) hp₀ hme hpay))
  refine ⟨_, h₄, fun hleft => ?_⟩
  have hempty : (0 + 1 : Word) = 0 + 1 + 1 := (hleft rfl rfl id).1
  exact absurd hempty (by decide)

/-- A burst of two, drained, and a handler that reads one packet. -/
def runBurst : List Act :=
  [Act.fault, .guestFrame (FromGuest.toNode [5]), .guestFrame (FromGuest.toNode [6]),
    .handled true] ++ List.replicate 20 Act.vmm ++ [Act.wake] ++ List.replicate 5 Act.look ++
      [Act.call (fun _ => 0) ⟨0, 512⟩] ++ List.replicate 10 Act.read ++ [Act.spinDone]

/-- A burst of two: the handler has returned, nothing is announced, and the
second packet is still in the queue. -/
theorem handler_leaves_packet :
    ∃ s, (machine pingPongHdrs (listRing 2)).Reach
        (State.start FromGuest.twoFrames (fun _ => 0) (fun _ => 0) [⟨0, 0⟩, ⟨2048, 0⟩] [] false) s ∧
      s.handler = .outside ∧ s.sys.pending = false ∧ s.sys.fault = .drain ∧
        s.sys.ring.q.front = 1 ∧ s.sys.ring.q.back = 2 :=
  Machine.exists_reach runBurst (by decide +kernel)

/-- The handler leaves nothing behind over this queue, whatever arrives and in
whatever order the domains take their steps. -/
def AlwaysDrained (q : SpscQueue) : Prop :=
  ∀ (Q : Type) (hdrs : TxHdrs) (N : NetRing Q) (contents : Q → List NetBuffDesc) (capacity : Nat)
    (offsets : List Nat) (mem txData : Mem) (txFree txActive : Q) (pending : Bool),
    N.Fifo contents capacity → ((contents txFree).map NetBuffDesc.ioOrOffset).Perm offsets →
    offsets.length ≤ capacity → contents txActive = [] →
    ∀ s, (machine hdrs N).Run FramesFit (State.start q mem txData txFree txActive pending) s →
      NothingLeft s

/-- It does so just when the queue has room for one block. -/
theorem handler_drains_iff {q₀ q : SpscQueue} {b e : Nat} (he : e < 2 ^ 64)
    (hinit : spscInit q₀ b e 11 = (true, q)) : AlwaysDrained q ↔ q.log2Capacity = 0 := by
  constructor
  · intro hall
    by_contra htwo
    obtain ⟨s, hrun, hleft⟩ := burst_left he hinit htwo (fun _ => 0) (fun _ => 0)
    exact hleft (hall _ pingPongHdrs (listRing 2) id 2 [0, 2048] _ _ _ _ false (listRing_fifo 2)
      (.refl _) (by decide) rfl s hrun)
  · intro hone Q hdrs N contents capacity offsets mem txData txFree txActive pending hN hfree hcap
      hactive s hrun
    exact drains_of_one hN he hinit hone mem txData hfree hcap hactive pending hrun

/-- The region the system description maps is cut to 511 blocks, which gives
room for one. -/
theorem handler_drains_shipped :
    AlwaysDrained (spscInit FromGuest.twoFrames sizeofSpscQueue 0x100000 11).2 := by
  have hinit : spscInit FromGuest.twoFrames sizeofSpscQueue 0x100000 11 =
      (true, (spscInit FromGuest.twoFrames sizeofSpscQueue 0x100000 11).2) := by
    decide +kernel
  exact (handler_drains_iff (by decide) hinit).mpr (by decide +kernel)

end MicroRosDemos.Sel4.Handler
