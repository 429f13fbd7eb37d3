import MicroRosDemos.Lib.Channel
import MicroRosDemos.Spsc.Invariant

/-!
# The queue is a lossless first-in first-out channel

`machine_projects` is the refinement: forgetting the counters, the blocks and
the places, the queue's machine is the abstract channel of `Lib.Channel` whose
bound is the capacity. The store of `back` is the abstract send and the read of
the front block the abstract receive; every other load and store is silent.
-/

namespace MicroRosDemos.Spsc

open MicroRosDemos.Lib

/-! ## The geometry never changes -/

/-- The fields that `spsc_init` fixes. -/
def SpscQueue.geometry (q : SpscQueue) : Nat × Nat × Nat × Nat :=
  (q.beginPtr, q.endPtr, q.log2BlockSize, q.log2Capacity)

theorem producerStep_geometry {s t : State} (h : producerStep s = some t) :
    t.q.geometry = s.q.geometry := by
  unfold producerStep at h
  split at h <;> try split at h
  all_goals cases h
  all_goals rfl

theorem consumerStep_geometry {s t : State} (h : consumerStep s = some t) :
    t.q.geometry = s.q.geometry := by
  unfold consumerStep at h
  split at h <;> try split at h
  all_goals cases h
  all_goals rfl

theorem step_geometry {s t : State} {a : Act} (h : step s a = some t) :
    t.q.geometry = s.q.geometry := by
  cases a with
  | producer => exact producerStep_geometry h
  | consumer => exact consumerStep_geometry h
  | _ =>
    simp only [step] at h
    split at h <;> try split at h
    all_goals cases h
    all_goals rfl

theorem reach_geometry {s t : State} (h : machine.Reach s t) : t.q.geometry = s.q.geometry :=
  h.invariant (fun t => t.q.geometry = s.q.geometry) rfl
    fun _ _ _ heq _ hstep => (step_geometry hstep).trans heq

/-! ## The abstract channel inside -/

/-- The contents pushed, and those read. -/
def State.channel (s : State) : Channel (List Byte) := ⟨s.pushed.map Prod.snd, s.taken⟩

/-- The messages read are as many as the blocks popped, and the one in hand. -/
theorem Inv.taken_length {c : Word} {s : State} (h : Inv c s) :
    s.taken.length = s.popped + s.consumer.ahead := by
  obtain ⟨cached, _, hlo, hhi, hat⟩ := h.consumer
  rw [h.taken, List.length_take, List.length_map, Nat.min_eq_left]
  cases hc : s.consumer <;> rw [hc] at hat <;>
    simp only [ConsumerAt, ConsumerPc.ahead] at hat ⊢ <;> omega

/-- A step of the producer is silent, or sends what its block holds. -/
theorem producerStep_channel {c : Word} {s t : State} (h : Inv c s)
    (hstep : producerStep s = some t) :
    t.channel = s.channel ∨
      ∃ a, (Channel.machine (2 ^ s.q.log2Capacity)).step s.channel a = some t.channel := by
  cases hp : s.producer with
  | pushStoreBack p back =>
    obtain ⟨_, hroom⟩ := h.holds_eq (p := p) (by rw [hp]; rfl)
    have hlen := h.taken_length
    simp only [producerStep, hp, Option.some.injEq] at hstep
    subst hstep
    refine .inr ⟨.send (s.mem.read p s.size), ?_⟩
    simp only [Channel.machine, Channel.step, State.channel, List.length_map]
    rw [if_pos (by omega)]
    simp
  | newBlockLoadFront back =>
    simp only [producerStep, hp] at hstep
    split at hstep <;> cases hstep <;> exact .inl rfl
  | _ =>
    simp only [producerStep, hp, reduceCtorEq, Option.some.injEq] at hstep
    try subst hstep
    try exact .inl rfl

/-- A step of the consumer inside an operation is silent. -/
theorem consumerStep_channel {s t : State} (hstep : consumerStep s = some t) :
    t.channel = s.channel := by
  unfold consumerStep at hstep
  split at hstep <;> try split at hstep
  all_goals cases hstep
  all_goals rfl

/-- **The refinement.** Under its invariant, each step of the queue is silent for
the abstract channel or one of its two actions. -/
theorem step_channel {c : Word} {s t : State} {a : Act} (h : Inv c s)
    (hstep : step s a = some t) :
    t.channel = s.channel ∨
      ∃ a, (Channel.machine (2 ^ s.q.log2Capacity)).step s.channel a = some t.channel := by
  cases a with
  | producer => exact producerStep_channel h hstep
  | consumer => exact .inl (consumerStep_channel hstep)
  | read =>
    simp only [step] at hstep
    split at hstep
    · next p hp =>
      cases hstep
      have hlen := h.taken_length
      rw [hp] at hlen
      refine .inr ⟨.receive (s.mem.read p s.size), ?_⟩
      have hnext : (s.pushed.map Prod.snd)[s.taken.length]? = some (s.mem.read p s.size) := by
        rw [hlen, List.getElem?_map]
        show Option.map Prod.snd s.pushed[s.popped]? = _
        rw [h.front_block hp]
        rfl
      simp only [Channel.machine, Channel.step, State.channel]
      rw [if_pos hnext]
    · cases hstep
  | _ =>
    simp only [step] at hstep
    split at hstep <;> try split at hstep
    all_goals cases hstep
    all_goals exact .inl rfl

/-- The queue's machine projects to the channel bounded by its capacity. -/
theorem machine_projects (c : Word) (q : SpscQueue) :
    Machine.Projects machine (fun _ _ => True) (Channel.machine (2 ^ q.log2Capacity))
      State.channel fun s => Inv c s ∧ s.q.geometry = q.geometry := by
  intro s a t hs _ hstep
  have hcap : s.q.log2Capacity = q.log2Capacity := congrArg (·.2.2.2) hs.2
  rcases step_channel hs.1 hstep with heq | ⟨b, hb⟩
  · exact heq ▸ .refl
  · rw [hcap] at hb
    exact .single trivial hb

/-- The contents read are the first of the contents pushed, and no more than the
capacity is under way, in every state of every interleaving. -/
theorem reach_ordered {q : SpscQueue} (hq : q.Sound) (c : Word) (mem : Mem) {s : State}
    (hrun : machine.Reach (State.start (q.startAt c) mem) s) :
    s.channel.Ordered (2 ^ q.log2Capacity) := by
  have hproj := hrun.project (machine_projects c q) ⟨start_inv hq c mem, rfl⟩
    fun _ _ _ h _ hstep => ⟨step_inv h.1 hstep, (step_geometry hstep).trans h.2⟩
  exact Channel.reach_ordered (Channel.empty_ordered _) hproj

/-- **Lossless first-in first-out.** For every region that `spsc_init` accepts,
every common starting value of the counters and every interleaving: what the
consumer has read is a first part of what the producer has pushed, and the
block the producer holds shares no byte with one pushed and not popped. -/
theorem spsc_fifo {q₀ q : SpscQueue} {b e k : Nat} (hk : k < 64) (he : e < 2 ^ 64)
    (hinit : spscInit q₀ b e k = (true, q)) (c : Word) (mem : Mem) {s : State}
    (hrun : machine.Reach (State.start (q.startAt c) mem) s) :
    s.taken <+: s.pushed.map Prod.snd ∧
      ∀ p, s.producer.holds = some p → ∀ i r bs, s.popped ≤ i → s.pushed[i]? = some (r, bs) →
        r + 2 ^ k ≤ p ∨ p + 2 ^ k ≤ r := by
  obtain ⟨hsound, _, _, hsize⟩ := spscInit_sound hk he hinit
  have hinv := reach_inv (start_inv hsound c mem) hrun
  have hk' : s.q.log2BlockSize = k :=
    (congrArg (·.2.2.1) (reach_geometry hrun)).trans hsize
  refine ⟨(reach_ordered hsound c mem hrun).received_le_sent, fun p hp i r bs hi hget => ?_⟩
  exact hk' ▸ hinv.holds_disjoint hp hi hget

/-- Push two blocks, look, and pop them. -/
private def roundTrip (x y : Byte) : List Act :=
  let push (x : Byte) : List Act :=
    [.newBlock, .producer, .producer, .producer, .fill [x], .push, .producer, .producer, .producer]
  let look : List Act := [.empty, .consumer, .consumer, .consumer, .consumer, .emptyRet]
  let pop : List Act :=
    [.front, .consumer, .consumer, .consumer, .read, .pop, .consumer, .consumer, .consumer]
  push x ++ push y ++ look ++ pop ++ pop

/-- A header over the two blocks at 64, before `spsc_init`. -/
private def twoBlocks : SpscQueue := ⟨0, 0, 0, 0, 0, 0, 64, 66, 0, 1⟩

/-- A region of two one-byte blocks, counters one short of wrapping: both
blocks go round, and are read in order across the wrap. -/
theorem spsc_fifo_wraps :
    ∃ s, machine.Reach (State.start (twoBlocks.startAt (2 ^ 64 - 1)) fun _ => 0) s ∧
      s.taken = [[7], [8]] ∧ s.q.back = 1 ∧ s.taken <+: s.pushed.map Prod.snd := by
  have hinit : spscInit twoBlocks 64 66 0 = (true, twoBlocks) := by decide +kernel
  obtain ⟨s, hrun, htaken, hback⟩ := machine.exists_reach
    (P := fun s => s.taken = [[7], [8]] ∧ s.q.back = 1)
    (s := State.start (twoBlocks.startAt (2 ^ 64 - 1)) fun _ => 0) (roundTrip 7 8)
    (by decide +kernel)
  exact ⟨s, hrun, htaken, hback, (spsc_fifo (by decide) (by decide) hinit _ _ hrun).1⟩

end MicroRosDemos.Spsc
