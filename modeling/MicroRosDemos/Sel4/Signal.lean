import MicroRosDemos.Spsc.Phase
import MicroRosDemos.Spsc.WeakSafe

/-!
# The notification, where stores are seen late

`custom_transport_seL4_write` pushes a block and notifies; `notified` in the VMM takes the
notification, and serves the queue until `spsc_empty` answers true. This module has the two
with all left out but the queue and the notification, over the memory of `Spsc.Weak`, in
which `spsc_empty` may look at an old value of `back`.

The queue's own orders are not enough here: a handler that is woken and sees `back` as it
was before the push goes back to sleep, and nobody wakes it again. What helps is the
notification itself. Of seL4, which is not under `src/`, it is taken that what a domain
did before it notifies lies behind whatever the notified domain does after it has taken the
notification (`carries`). Then no wake-up is lost (`signal_wakes`).
-/

namespace MicroRosDemos.Sel4.Signal

open MicroRosDemos.Lib MicroRosDemos.Spsc

/-- The queue, and on ping_pong's side whether a push is not yet announced; the bit that
`microkit_notify` sets, and what the notifications so far carry; whether `notified` runs. The
history is how many blocks had been pushed at the last notification. -/
structure State where
  queue : Weak.State
  unannounced : Bool
  pending : Bool
  signal : Views.View Weak.Atomic Weak.Side
  awake : Bool
  told : Nat

/-- What happens next: a step of either side of the queue, the notification after a push, the
handler taking it, and the handler after `spsc_empty` has answered. -/
inductive Act
  | queue (a : Weak.Act)
  | notify
  | wake
  | serve
  | sleep

/-- A step of the queue, as far as the code around it lets it happen: `write` notifies before
it is called again, and `notified` looks with `spsc_empty` when it has taken the notification
(`wake`) and after each `spsc_pop`. -/
def queueStep (s : State) (a : Weak.Act) : Option State :=
  match a.act with
  | .newBlock =>
    if s.unannounced then none else (Weak.step s.queue a).map fun queue => { s with queue }
  | .producer =>
    (Weak.step s.queue a).map fun queue =>
      match s.queue.base.producer with
      | .pushStoreBack _ _ => { s with queue, unannounced := true }
      | _ => { s with queue }
  | .empty => if s.awake then (Weak.step s.queue a).map fun queue => { s with queue } else none
  | .emptyRet | .front => none
  | _ => (Weak.step s.queue a).map fun queue => { s with queue }

/-- The two domains, in every interleaving. `carries` says whether a notification brings
along what its sender knows. -/
def step (carries : Bool) (s : State) : Act → Option State
  | .queue a => queueStep s a
  | .notify =>
    if s.unannounced then
      let sent := if carries then (s.queue.shared.known .producer).now else (fun _ => 0, fun _ => 0)
      some { s with
        unannounced := false, pending := true, signal := s.signal ⊔ sent
        told := s.queue.base.pushed.length }
    else none
  | .wake =>
    match s.awake, s.pending with
    | false, true =>
      some { s with
        queue :=
          { base := { s.queue.base with consumer := .emptyLoad }
            shared := s.queue.shared.receive .consumer s.signal }
        awake := true, pending := false }
    | _, _ => none
  | .serve =>
    match s.queue.base.consumer with
    | .emptyDone false =>
      some { s with queue := { s.queue with base := { s.queue.base with consumer := .frontLoadBack } } }
    | _ => none
  | .sleep =>
    match s.queue.base.consumer with
    | .emptyDone true =>
      some { s with
        queue := { s.queue with base := { s.queue.base with consumer := .idle } }, awake := false }
    | _ => none

/-- The machine of the two domains. -/
def machine (carries : Bool) : Machine State Act := ⟨step carries⟩

/-- Nothing pushed, nobody notified. -/
def State.start (q : SpscQueue) (mem : Mem) : State where
  queue := .start q mem
  unannounced := false
  pending := false
  signal := (fun _ => 0, fun _ => 0)
  awake := false
  told := 0

/-! ## What each side leaves alone -/

/-- A step of the producer, as the consumer sees it. -/
structure ProducerSide (w w' : Weak.State) : Prop where
  consumer : w'.base.consumer = w.base.consumer
  popped : w'.base.popped = w.base.popped
  cachedFront : w'.base.q.consumerCachedFront = w.base.q.consumerCachedFront
  cachedBack : w'.base.q.consumerCachedBack = w.base.q.consumerCachedBack
  known : w'.shared.known .consumer = w.shared.known .consumer
  pushed : (∀ p back, w.base.producer ≠ .pushStoreBack p back) → w'.base.pushed = w.base.pushed

/-- A step of the consumer, as the producer sees it. -/
structure ConsumerSide (w w' : Weak.State) : Prop where
  producer : w'.base.producer = w.base.producer
  pushed : w'.base.pushed = w.base.pushed
  known : w'.shared.known .producer = w.shared.known .producer

variable {w w' : Weak.State} {i : Nat}

/-- Whatever the producer does to its own knowledge, its step of the queue is its own. -/
theorem ProducerSide.of_step {base : Spsc.State} {shared : Weak.Shared}
    (h : Spsc.producerStep w.base = some base)
    (hknown : shared.known .consumer = w.shared.known .consumer) : ProducerSide w ⟨base, shared⟩ := by
  cases Spsc.producerStep_move h with
  | within _ _ _ _ => exact ⟨rfl, rfl, rfl, rfl, hknown, fun _ => rfl⟩
  | handed _ => exact ⟨rfl, rfl, rfl, rfl, hknown, fun _ => rfl⟩
  | published p back hp => exact ⟨rfl, rfl, rfl, rfl, hknown, fun hnot => absurd hp (hnot p back)⟩

theorem ConsumerSide.of_step {base : Spsc.State} {shared : Weak.Shared}
    (h : Spsc.consumerStep w.base = some base)
    (hknown : shared.known .producer = w.shared.known .producer) : ConsumerSide w ⟨base, shared⟩ := by
  cases Spsc.consumerStep_move h <;> exact ⟨rfl, rfl, hknown⟩

theorem producerStep_side (h : Weak.producerStep w i = some w') : ProducerSide w w' := by
  have hne : Weak.Side.consumer ≠ .producer := by decide
  unfold Weak.producerStep at h
  split at h
  · simp only [Option.map_eq_some_iff, Prod.exists] at h
    obtain ⟨front, shared, hload, rfl⟩ := h
    exact ⟨rfl, rfl, rfl, rfl, Views.Memory.load_known_ne hload hne, fun _ => rfl⟩
  · obtain ⟨base, hbase, rfl⟩ := Option.map_eq_some_iff.mp h
    exact .of_step hbase (Views.Memory.acquireFence_known_ne hne)
  · obtain ⟨base, hbase, rfl⟩ := Option.map_eq_some_iff.mp h
    exact .of_step hbase (Views.Memory.releaseStore_known_ne hne)
  · obtain ⟨base, hbase, rfl⟩ := Option.map_eq_some_iff.mp h
    exact .of_step hbase rfl

theorem consumerStep_side (h : Weak.consumerStep w i = some w') : ConsumerSide w w' := by
  have hne : Weak.Side.producer ≠ .consumer := by decide
  unfold Weak.consumerStep at h
  split at h
  · simp only [Option.map_eq_some_iff, Prod.exists] at h
    obtain ⟨back, shared, hload, rfl⟩ := h
    exact ⟨rfl, rfl, Views.Memory.load_known_ne hload hne⟩
  · simp only [Option.map_eq_some_iff, Prod.exists] at h
    obtain ⟨back, shared, hload, rfl⟩ := h
    exact ⟨rfl, rfl, Views.Memory.load_known_ne hload hne⟩
  · obtain ⟨base, hbase, rfl⟩ := Option.map_eq_some_iff.mp h
    exact .of_step hbase (Views.Memory.acquireFence_known_ne hne)
  · obtain ⟨base, hbase, rfl⟩ := Option.map_eq_some_iff.mp h
    exact .of_step hbase (Views.Memory.releaseStore_known_ne hne)
  · obtain ⟨base, hbase, rfl⟩ := Option.map_eq_some_iff.mp h
    exact .of_step hbase rfl

/-! ## What is told, and what is seen -/

/-- The handler will be woken, and know then of every block that was announced. -/
def Told (s : State) : Prop := s.pending = true ∧ s.told ≤ s.signal.1 .back

/-- From its load on, inside `spsc_empty`, the consumer goes by a value of `back` from after
the last announced push, or will be woken again. -/
def Loaded (c : Word) (s : State) : Prop :=
  match s.queue.base.consumer with
  | .emptyStore _ | .emptyTestBack | .emptyTestFront _ | .emptyDone _ =>
    Told s ∨ ∃ seen, s.told ≤ seen ∧ s.queue.base.popped ≤ seen ∧
      seen ≤ s.queue.base.pushed.length ∧ Weak.backOf s.queue.base = Counter.after c seen
  | _ => True

/-- The invariant: the queue's own; what the producer and the notifications know of `back`;
and what the handler knows or will be told. -/
structure Wake (c : Word) (s : State) : Prop where
  queue : Weak.Inv c s.queue
  signal : s.queue.shared.Within s.signal
  own : s.queue.base.pushed.length ≤ (s.queue.shared.known .producer).now.1 .back
  told : s.told + (if s.unannounced then 1 else 0) = s.queue.base.pushed.length
  between : s.unannounced = true → s.queue.base.producer = .idle
  known : s.told ≤ (s.queue.shared.known .consumer).now.1 .back ∨ Told s
  loaded : Loaded c s
  asleep : s.awake = false →
    s.queue.base.consumer = .idle ∧ (s.told ≤ s.queue.base.popped ∨ Told s)
  ready : s.queue.base.FrontReady

variable {c : Word} {s t : State}

theorem frontReady_congr {s t : Spsc.State} (hconsumer : t.consumer = s.consumer)
    (hfront : t.q.consumerCachedFront = s.q.consumerCachedFront)
    (hback : t.q.consumerCachedBack = s.q.consumerCachedBack) (h : s.FrontReady) : t.FrontReady := by
  unfold Spsc.State.FrontReady at h ⊢
  rw [hconsumer, hfront, hback]
  exact h

theorem Loaded.of_told (h : Told s) : Loaded c s := by
  cases hc : s.queue.base.consumer with
  | emptyStore back | emptyTestBack | emptyTestFront back | emptyDone empty =>
    simp only [Loaded, hc]
    exact .inl h
  | _ => simp only [Loaded, hc]

theorem Loaded.mono (h : Loaded c s) (hconsumer : t.queue.base.consumer = s.queue.base.consumer)
    (htold : t.told = s.told) (hcarried : Told s → Told t)
    (hpopped : t.queue.base.popped = s.queue.base.popped)
    (hpushed : s.queue.base.pushed.length ≤ t.queue.base.pushed.length)
    (hback : Weak.backOf t.queue.base = Weak.backOf s.queue.base) : Loaded c t := by
  cases hc : s.queue.base.consumer with
  | emptyStore back | emptyTestBack | emptyTestFront back | emptyDone empty =>
    simp only [Loaded, hc] at h
    simp only [Loaded, hconsumer, hc, htold, hpopped, hback]
    rcases h with htold | ⟨seen, hlo, hpop, hhi, heq⟩
    · exact .inl (hcarried htold)
    · exact .inr ⟨seen, hlo, hpop, hhi.trans hpushed, heq⟩
  | _ => simp only [Loaded, hconsumer, hc]

namespace Wake

/-- A step of the producer, and what it makes of the announcement. -/
theorem producer (h : Wake c s) (hqueue : Weak.Inv c w') (hext : s.queue.shared.Extends w'.shared)
    (hside : ProducerSide s.queue w') {unannounced : Bool}
    (hpushed : s.queue.base.pushed.length ≤ w'.base.pushed.length)
    (hown : w'.base.pushed.length ≤ (w'.shared.known .producer).now.1 .back)
    (htold : s.told + (if unannounced then 1 else 0) = w'.base.pushed.length)
    (hbetween : unannounced = true → w'.base.producer = .idle) :
    Wake c { s with queue := w', unannounced } where
  queue := hqueue
  signal := h.signal.extends hext
  own := hown
  told := htold
  between := hbetween
  known := by
    show s.told ≤ (w'.shared.known .consumer).now.1 .back ∨ Told s
    rw [hside.known]
    exact h.known
  loaded := by
    have hback : Weak.backOf w'.base = Weak.backOf s.queue.base := by
      unfold Weak.backOf
      rw [hside.consumer, hside.cachedBack]
    exact h.loaded.mono hside.consumer rfl id hside.popped hpushed hback
  asleep hawake := by
    show w'.base.consumer = .idle ∧ (s.told ≤ w'.base.popped ∨ Told s)
    rw [hside.consumer, hside.popped]
    exact h.asleep hawake
  ready := frontReady_congr hside.consumer hside.cachedFront hside.cachedBack h.ready

/-- A step of the consumer, inside the handler. -/
theorem consumer (h : Wake c s) (hqueue : Weak.Inv c w') (hext : s.queue.shared.Extends w'.shared)
    (hside : ConsumerSide s.queue w') (hawake : s.awake = true)
    (hloaded : Loaded c { s with queue := w' }) (hready : w'.base.FrontReady) :
    Wake c { s with queue := w' } where
  queue := hqueue
  signal := h.signal.extends hext
  own := by
    show w'.base.pushed.length ≤ (w'.shared.known .producer).now.1 .back
    rw [hside.pushed, hside.known]
    exact h.own
  told := by
    show _ = w'.base.pushed.length
    rw [hside.pushed]
    exact h.told
  between hun := by
    show w'.base.producer = .idle
    rw [hside.producer]
    exact h.between hun
  known := h.known.imp_left fun hle => hle.trans ((hext.now .consumer).1 .back)
  loaded := hloaded
  asleep hasleep := absurd hasleep (by simp [hawake])
  ready := hready

/-- What the consumer loads inside `spsc_empty`. -/
theorem load (h : Wake c s) {order : Views.LoadOrder} {back : Word} {m : Weak.Shared}
    (hc : s.queue.base.consumer = .emptyLoad)
    (hload : s.queue.shared.load .consumer .back order i = some (back, m)) :
    Told s ∨ ∃ seen, s.told ≤ seen ∧ s.queue.base.popped ≤ seen ∧
      seen ≤ s.queue.base.pushed.length ∧ back = Counter.after c seen := by
  obtain ⟨seen, hpopped, _, hfollows, _⟩ := h.queue.cached_back (by simp [Weak.backOf, hc])
  obtain ⟨st, hst, hvalue, hle, _⟩ := Views.Memory.load_some hload
  have hnewest : i ≤ s.queue.base.pushed.length := by
    have hin := (List.getElem?_eq_some_iff.mp hst).1
    rw [h.queue.backs.length] at hin
    exact Nat.le_of_lt_succ hin
  rcases h.known with hknown | htold
  · refine .inr ⟨i, hknown.trans hle, hpopped.trans (hfollows.coherent.trans hle), hnewest, ?_⟩
    rw [← hvalue]
    exact h.queue.backs.value i st hst
  · exact .inl htold

theorem consumerStep_loaded (h : Wake c s) (hstep : Weak.consumerStep s.queue i = some w') :
    Loaded c { s with queue := w' } := by
  have hloaded := h.loaded
  unfold Weak.consumerStep at hstep
  cases hc : s.queue.base.consumer with
  | emptyLoad =>
    simp only [hc, Option.map_eq_some_iff, Prod.exists] at hstep
    obtain ⟨back, shared, hload, rfl⟩ := hstep
    exact h.load hc hload
  | emptyStore back | emptyTestBack | emptyTestFront back =>
    simp only [hc, Spsc.consumerStep, Option.map_some, Option.some.injEq] at hstep
    subst hstep
    simp only [Loaded, hc, Weak.backOf] at hloaded
    exact hloaded
  | frontLoadFront back =>
    simp only [hc, Spsc.consumerStep] at hstep
    split at hstep <;> cases hstep <;> trivial
  | frontReloadBack =>
    simp only [hc, Option.map_eq_some_iff, Prod.exists] at hstep
    obtain ⟨back, shared, _, rfl⟩ := hstep
    trivial
  | _ =>
    simp only [hc, Spsc.consumerStep, Option.map_some, Option.map_none, reduceCtorEq, Option.some.injEq] at hstep
    try subst hstep
    try trivial

theorem consumerStep_ready (h : Wake c s) (hstep : Weak.consumerStep s.queue i = some w') :
    w'.base.FrontReady := by
  have hready := h.ready
  unfold Weak.consumerStep at hstep
  split at hstep
  · simp only [Option.map_eq_some_iff, Prod.exists] at hstep
    obtain ⟨back, shared, _, rfl⟩ := hstep
    trivial
  · next hc =>
    simp only [Spsc.State.FrontReady, hc] at hready
  · obtain ⟨base, hbase, rfl⟩ := Option.map_eq_some_iff.mp hstep
    exact consumerStep_frontReady h.queue.base hready hbase
  · obtain ⟨base, hbase, rfl⟩ := Option.map_eq_some_iff.mp hstep
    exact consumerStep_frontReady h.queue.base hready hbase
  · obtain ⟨base, hbase, rfl⟩ := Option.map_eq_some_iff.mp hstep
    exact consumerStep_frontReady h.queue.base hready hbase

/-- Only a handler that runs takes steps. -/
theorem awake_of (h : Wake c s) (hc : s.queue.base.consumer ≠ .idle) : s.awake = true := by
  cases hawake : s.awake with
  | true => rfl
  | false => exact absurd (h.asleep hawake).1 hc

/-- Inside an operation the producer has announced all that it pushed. -/
theorem announced (h : Wake c s) (hp : s.queue.base.producer ≠ .idle) : s.unannounced = false := by
  cases hun : s.unannounced with
  | false => rfl
  | true => exact absurd (h.between hun) hp

/-- A step of the producer that is not the store of `back`. -/
theorem producer_quiet (h : Wake c s) {a : Weak.Act} (hstep : Weak.step s.queue a = some w')
    (hside : ProducerSide s.queue w') (hun : s.unannounced = false)
    (hnot : ∀ p back, s.queue.base.producer ≠ .pushStoreBack p back) :
    Wake c { s with queue := w' } := by
  have hmove := Weak.step_move hstep
  have hpushed := hside.pushed hnot
  refine h.producer (h.queue.move hmove) hmove.extends hside (by rw [hpushed]) ?_ ?_ ?_
  · rw [hpushed]
    exact h.own.trans ((hmove.extends.now .producer).1 .back)
  · rw [hpushed]
    exact h.told
  · intro htrue
    rw [hun] at htrue
    cases htrue

/-- The store of `back`: the push is not yet announced. -/
theorem publish (h : Wake c s) {p : Nat} {back : Word}
    (hp : s.queue.base.producer = .pushStoreBack p back)
    (hstep : Weak.producerStep s.queue i = some w') :
    Wake c { s with queue := w', unannounced := true } := by
  have hside := producerStep_side hstep
  have hmove := Weak.producerStep_move hstep
  have hun := h.announced (by simp [hp])
  have htold := h.told
  simp only [Weak.producerStep, Spsc.producerStep, hp, Option.map_some, Option.some.injEq] at hstep
  subst hstep
  have hlength : (s.queue.base.pushed ++
      [(p, s.queue.base.mem.read p s.queue.base.size)]).length = s.queue.base.pushed.length + 1 :=
    List.length_append
  refine h.producer (h.queue.move hmove) hmove.extends hside ?_ ?_ ?_ fun _ => rfl
  · rw [hlength]
    exact Nat.le_succ _
  · rw [hlength, ← h.queue.backs.length]
    exact Views.Memory.le_releaseStore_now
  · rw [hlength, ← htold, hun]
    rfl

theorem queueStep (h : Wake c s) {a : Weak.Act} (hstep : queueStep s a = some t) : Wake c t := by
  obtain ⟨act, i⟩ := a
  cases act with
  | newBlock =>
    simp only [Signal.queueStep] at hstep
    split at hstep
    · cases hstep
    · next hun =>
      obtain ⟨w', hw, rfl⟩ := Option.map_eq_some_iff.mp hstep
      have hw' := hw
      simp only [Weak.step, Spsc.step] at hw'
      split at hw'
      · next hp =>
        cases hw'
        refine h.producer_quiet hw ⟨rfl, rfl, rfl, rfl, rfl, fun _ => rfl⟩ (by simpa using hun) ?_
        simp [hp]
      · cases hw'
  | producer =>
    obtain ⟨w', hw, rfl⟩ := Option.map_eq_some_iff.mp hstep
    have hside := producerStep_side hw
    split
    · next p back hp => exact h.publish hp hw
    · next hnot =>
      refine h.producer_quiet hw hside (h.announced fun hp => ?_) hnot
      simp [Weak.step, Weak.producerStep, Spsc.producerStep, hp] at hw
  | fill bs =>
    obtain ⟨w', hw, rfl⟩ := Option.map_eq_some_iff.mp hstep
    have hw' := hw
    simp only [Weak.step] at hw'
    split at hw'
    · next p hp =>
      obtain ⟨base, hbase, rfl⟩ := Option.map_eq_some_iff.mp hw'
      simp only [Spsc.step, hp] at hbase
      split at hbase
      · cases hbase
        have hknown : (s.queue.shared.access .producer true p bs.length).known .consumer =
            s.queue.shared.known .consumer := Views.Memory.access_known_ne (by decide)
        refine h.producer_quiet hw ⟨rfl, rfl, rfl, rfl, hknown, fun _ => rfl⟩ (h.announced ?_) ?_
        · simp [hp]
        · simp [hp]
      · cases hbase
    · cases hw'
  | push =>
    obtain ⟨w', hw, rfl⟩ := Option.map_eq_some_iff.mp hstep
    have hw' := hw
    simp only [Weak.step, Spsc.step] at hw'
    split at hw'
    · next p hp =>
      cases hw'
      refine h.producer_quiet hw ⟨rfl, rfl, rfl, rfl, rfl, fun _ => rfl⟩ (h.announced ?_) ?_
      · simp [hp]
      · simp [hp]
    · cases hw'
  | empty =>
    simp only [Signal.queueStep] at hstep
    split at hstep
    · next hawake =>
      obtain ⟨w', hw, rfl⟩ := Option.map_eq_some_iff.mp hstep
      have hmove := Weak.step_move hw
      have hqueue := h.queue.move hmove
      have hext := hmove.extends
      simp only [Weak.step, Spsc.step] at hw
      split at hw
      · cases hw
        exact h.consumer hqueue hext ⟨rfl, rfl, rfl⟩ hawake trivial trivial
      · cases hw
    · cases hstep
  | emptyRet => cases hstep
  | front => cases hstep
  | consumer =>
    obtain ⟨w', hw, rfl⟩ := Option.map_eq_some_iff.mp hstep
    have hmove := Weak.step_move hw
    refine h.consumer (h.queue.move hmove) hmove.extends (consumerStep_side hw) (h.awake_of ?_)
      (h.consumerStep_loaded hw) (h.consumerStep_ready hw)
    intro hc
    simp [Weak.step, Weak.consumerStep, Spsc.consumerStep, hc] at hw
  | read =>
    obtain ⟨w', hw, rfl⟩ := Option.map_eq_some_iff.mp hstep
    have hmove := Weak.step_move hw
    have hqueue := h.queue.move hmove
    have hext := hmove.extends
    simp only [Weak.step] at hw
    split at hw
    · next p hc =>
      simp only [Spsc.step, hc, Option.map_some, Option.some.injEq] at hw
      subst hw
      refine h.consumer hqueue hext ⟨rfl, rfl, Views.Memory.access_known_ne (by decide)⟩
        (h.awake_of ?_) trivial trivial
      simp [hc]
    · cases hw
  | pop =>
    obtain ⟨w', hw, rfl⟩ := Option.map_eq_some_iff.mp hstep
    have hmove := Weak.step_move hw
    have hqueue := h.queue.move hmove
    have hext := hmove.extends
    simp only [Weak.step, Spsc.step] at hw
    split at hw
    · next p content hc =>
      cases hw
      refine h.consumer hqueue hext ⟨rfl, rfl, rfl⟩ (h.awake_of ?_) trivial trivial
      simp [hc]
    · cases hw

/-- The notification tells of all that was pushed. -/
theorem notify (h : Wake c s) :
    Wake c { s with
      unannounced := false, pending := true
      signal := s.signal ⊔ (s.queue.shared.known .producer).now
      told := s.queue.base.pushed.length } := by
  have htold : Told { s with
      unannounced := false, pending := true
      signal := s.signal ⊔ (s.queue.shared.known .producer).now
      told := s.queue.base.pushed.length } := ⟨rfl, h.own.trans (le_max_right _ _)⟩
  exact ⟨h.queue, h.signal.sup (h.queue.wf.now .producer), h.own, rfl, fun hun => (by cases hun),
    .inr htold, .of_told htold, fun hawake => ⟨(h.asleep hawake).1, .inr htold⟩, h.ready⟩

/-- The handler takes the notification, and all that it carries. -/
theorem wake (h : Wake c s) (hawake : s.awake = false) :
    Wake c { s with
      queue :=
        { base := { s.queue.base with consumer := .emptyLoad }
          shared := s.queue.shared.receive .consumer s.signal }
      awake := true, pending := false } := by
  obtain ⟨hidle, _⟩ := h.asleep hawake
  have hstep : Weak.step s.queue ⟨.empty, 0⟩ =
      some ⟨{ s.queue.base with consumer := .emptyLoad }, s.queue.shared⟩ := by
    simp only [Weak.step, Spsc.step, hidle, Option.map_some]
  have hqueue := (h.queue.move (Weak.step_move hstep)).receive (t := .consumer) h.signal
  have hknown : s.told ≤ ((s.queue.shared.receive .consumer s.signal).known .consumer).now.1 .back := by
    rw [Views.Memory.receive_now]
    rcases h.known with hle | ⟨_, hle⟩
    · exact hle.trans (le_max_left _ _)
    · exact hle.trans (le_max_right _ _)
  refine ⟨hqueue, h.signal.extends Views.Memory.receive_extends, ?_, h.told, h.between, .inl hknown,
    trivial, fun hfalse => (by cases hfalse), trivial⟩
  show _ ≤ ((s.queue.shared.receive .consumer s.signal).known .producer).now.1 .back
  rw [Views.Memory.receive_known_ne (by decide)]
  exact h.own

/-- `spsc_empty` has answered false: `spsc_front_block` is called. -/
theorem serve (h : Wake c s) (hc : s.queue.base.consumer = .emptyDone false) :
    Wake c { s with
      queue := { s.queue with base := { s.queue.base with consumer := .frontLoadBack } } } := by
  have hret : Weak.step s.queue ⟨.emptyRet, 0⟩ =
      some { s.queue with base := { s.queue.base with consumer := .idle } } := by
    simp only [Weak.step, Spsc.step, hc, Option.map_some]
  have hfront : Weak.step { s.queue with base := { s.queue.base with consumer := .idle } } ⟨.front, 0⟩ =
      some { s.queue with base := { s.queue.base with consumer := .frontLoadBack } } := by
    simp only [Weak.step, Spsc.step, Option.map_some]
  have hqueue := (h.queue.move (Weak.step_move hret)).move (Weak.step_move hfront)
  have hready := h.ready
  simp only [Spsc.State.FrontReady, hc] at hready
  exact h.consumer hqueue (.refl _) ⟨rfl, rfl, rfl⟩ (h.awake_of (by simp [hc])) trivial hready

/-- `spsc_empty` has answered true: everything announced is popped, or there is one more
notification. -/
theorem sleep (h : Wake c s) (hc : s.queue.base.consumer = .emptyDone true) :
    Wake c { s with
      queue := { s.queue with base := { s.queue.base with consumer := .idle } }, awake := false } := by
  have hret : Weak.step s.queue ⟨.emptyRet, 0⟩ =
      some { s.queue with base := { s.queue.base with consumer := .idle } } := by
    simp only [Weak.step, Spsc.step, hc, Option.map_some]
  have hpopped : s.told ≤ s.queue.base.popped ∨ Told s := by
    have hloaded := h.loaded
    simp only [Loaded, hc] at hloaded
    rcases hloaded with htold | ⟨seen, htold, hlo, hhi, heq⟩
    · exact .inr htold
    · obtain ⟨cached, hlo', hhi', hfollows, hat⟩ := h.queue.cached_back (by simp [Weak.backOf, hc])
      rw [hc] at hat
      have hfull := h.queue.base.pushed_le
      have hcap := h.queue.base.sound.capacity_lt
      have hsame : seen = cached := by
        refine Counter.eq_of_after_eq c ?_ ?_ (heq.symm.trans hfollows.value)
        · omega
        · omega
      have hempty : cached = s.queue.base.popped := hat.2.mp rfl
      exact .inl (htold.trans_eq (hsame.trans hempty))
  exact ⟨h.queue.move (Weak.step_move hret), h.signal, h.own, h.told, h.between, h.known, trivial,
    fun _ => ⟨rfl, hpopped⟩, trivial⟩

theorem step (h : Wake c s) {a : Act} (hstep : Signal.step true s a = some t) : Wake c t := by
  cases a with
  | queue a => exact h.queueStep hstep
  | notify =>
    simp only [Signal.step] at hstep
    split at hstep
    · cases hstep
      exact h.notify
    · cases hstep
  | wake =>
    simp only [Signal.step] at hstep
    split at hstep
    · next hawake _ =>
      cases hstep
      exact h.wake hawake
    · cases hstep
  | serve =>
    simp only [Signal.step] at hstep
    split at hstep
    · next hc =>
      cases hstep
      exact h.serve hc
    · cases hstep
  | sleep =>
    simp only [Signal.step] at hstep
    split at hstep
    · next hc =>
      cases hstep
      exact h.sleep hc
    · cases hstep

end Wake

theorem start_wake {q : SpscQueue} (hq : q.Sound) (c : Word) (mem : Mem) :
    Wake c (.start (q.startAt c) mem) where
  queue := Weak.start_inv hq c mem
  signal _ := Nat.one_pos
  own := Nat.le_refl _
  told := rfl
  between hun := by cases hun
  known := .inl (Nat.zero_le _)
  loaded := trivial
  asleep _ := ⟨rfl, .inl (Nat.zero_le _)⟩
  ready := trivial

/-- **No lost wake-up, where stores are seen late.** For every region that `spsc_init`
accepts, every common starting value of the counters, every interleaving and every old store
that a load returns: when a notification brings along what its sender knows, then outside the
handler, with no notification pending and no push unannounced, all that was pushed is popped;
`spsc_front_block` does not enter its wait loop; and no two accesses to a block race. -/
theorem signal_wakes {q₀ q : SpscQueue} {b e k : Nat} (hk : k < 64) (he : e < 2 ^ 64)
    (hinit : spscInit q₀ b e k = (true, q)) (c : Word) (mem : Mem) {s : State}
    (hrun : (machine true).Reach (.start (q.startAt c) mem) s) :
    (s.awake = false → s.pending = false → s.unannounced = false →
      s.queue.base.popped = s.queue.base.pushed.length) ∧
    ¬ s.queue.base.consumer.Waits ∧ s.queue.shared.raced = false := by
  obtain ⟨hsound, _⟩ := spscInit_sound hk he hinit
  have h := hrun.invariant (Wake c) (start_wake hsound c mem) fun _ _ _ h _ hstep => h.step hstep
  refine ⟨fun hawake hpending hun => ?_, h.ready.not_waits, h.queue.raced⟩
  have htold := h.told
  rw [hun] at htold
  have hle := h.queue.base.popped_le
  rcases (h.asleep hawake).2 with hpopped | ⟨htrue, _⟩
  · simp only [Bool.false_eq_true, if_false, Nat.add_zero] at htold
    omega
  · rw [hpending] at htrue
    cases htrue

/-- The handler's call of `spsc_empty`, in which the load returns the store `i` of `back`. -/
def testEmpty (i : Nat) : List Act :=
  .queue ⟨.consumer, i⟩ :: List.replicate 3 (.queue ⟨.consumer, 0⟩)

/-- One block is pushed and announced, and the handler woken. -/
def announceOne : List Act :=
  [.queue ⟨.newBlock, 0⟩] ++ List.replicate 3 (.queue ⟨.producer, 0⟩) ++
  [.queue ⟨.fill [7], 0⟩, .queue ⟨.push, 0⟩] ++ List.replicate 3 (.queue ⟨.producer, 0⟩) ++
  [.notify, .wake]

/-- The block is served, and the handler finds no other. -/
def serveOne : List Act :=
  testEmpty 1 ++ [.serve] ++ List.replicate 3 (.queue ⟨.consumer, 0⟩) ++
  [.queue ⟨.read, 0⟩, .queue ⟨.pop, 0⟩] ++ List.replicate 3 (.queue ⟨.consumer, 0⟩) ++
  [.queue ⟨.empty, 0⟩] ++ testEmpty 1 ++ [.sleep]

/-- After the one block the handler sleeps, and the block is popped. -/
theorem signal_wakes_one :
    ∃ s, (machine true).Reach (.start (Weak.twoBytes.startAt (2 ^ 64 - 1)) fun _ => 0) s ∧
      s.queue.base.pushed.length = 1 ∧ s.queue.base.popped = s.queue.base.pushed.length ∧
      s.queue.shared.raced = false := by
  have hinit : spscInit Weak.twoBytes 64 66 0 = (true, Weak.twoBytes) := by decide +kernel
  obtain ⟨s, hrun, hpushed, hawake, hpending, hun⟩ := (machine true).exists_reach
    (P := fun s => s.queue.base.pushed.length = 1 ∧ s.awake = false ∧ s.pending = false ∧
      s.unannounced = false)
    (s := .start (Weak.twoBytes.startAt (2 ^ 64 - 1)) fun _ => 0) (announceOne ++ serveOne)
    (by decide +kernel)
  obtain ⟨hpopped, _, hraced⟩ := signal_wakes (by decide) (by decide) hinit _ _ hrun
  exact ⟨s, hrun, hpushed, hpopped hawake hpending hun, hraced⟩

/-- Where a notification carries nothing, the handler may see `back` as it was, and sleep on
the block: the memory orders of the queue alone do not wake it. -/
example : ∃ s, (machine false).Reach (.start (Weak.twoBytes.startAt (2 ^ 64 - 1)) fun _ => 0) s ∧
    (s.awake = false ∧ s.pending = false ∧ s.unannounced = false) ∧
    s.queue.base.popped < s.queue.base.pushed.length :=
  (machine false).exists_reach (announceOne ++ testEmpty 0 ++ [.sleep]) (by decide +kernel)

/-- Where it carries what its sender knows, that store is not returned. -/
example : ((machine true).exec (.start (Weak.twoBytes.startAt (2 ^ 64 - 1)) fun _ => 0)
    (announceOne ++ testEmpty 0)).isNone = true := by decide +kernel

end MicroRosDemos.Sel4.Signal
