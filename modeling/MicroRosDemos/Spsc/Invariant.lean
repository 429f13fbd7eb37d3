import MicroRosDemos.Spsc.Machine

/-!
# The queue's invariant

The six counters stand for two natural numbers, how many blocks were pushed and
how many were popped, and each side's cached copies lag behind them. What is
true of a side depends on its place in the code: `ProducerOk` and `ConsumerOk`
say it place by place. Each of the two only speaks of that side's own fields,
and of the other side's progress as a bound, so a step of one side never
disturbs the other's part (`ProducerOk.mono`, `ConsumerOk.mono`).

The slots do the rest. Pushed and not yet popped counters differ by less than
the capacity from the counter being filled, so their blocks are disjoint from
the block being filled, and their contents stay as they were pushed.
-/

namespace MicroRosDemos.Spsc

open MicroRosDemos.Lib

/-- What the producer's place says, `pushed` blocks in and `popped` out, when its
cached `front` stands for `cached`. -/
def ProducerAt (c : Word) (q : SpscQueue) (pushed popped cached : Nat) : ProducerPc → Prop
  | .idle | .newBlockLoadBack | .newBlockPause | .newBlockReloadFront =>
    q.producerCachedBack = Counter.after c pushed
  | .newBlockLoadFront back =>
    q.producerCachedBack = Counter.after c pushed ∧ back = Counter.after c pushed
  | .newBlockStoreFront front =>
    q.producerCachedBack = Counter.after c pushed ∧
      ∃ seen, cached ≤ seen ∧ seen ≤ popped ∧ front = Counter.after c seen
  | .newBlockIndex =>
    q.producerCachedBack = Counter.after c pushed ∧ pushed < cached + 2 ^ q.log2Capacity
  | .block p | .pushLoad p =>
    q.producerCachedBack = Counter.after c pushed ∧ pushed < cached + 2 ^ q.log2Capacity ∧
      p = q.blockAt (Counter.after c pushed)
  | .pushStoreCached p back =>
    pushed < cached + 2 ^ q.log2Capacity ∧ p = q.blockAt (Counter.after c pushed) ∧
      back = Counter.after c pushed
  | .pushStoreBack p back =>
    q.producerCachedBack = Counter.after c (pushed + 1) ∧
      pushed < cached + 2 ^ q.log2Capacity ∧ p = q.blockAt (Counter.after c pushed) ∧
      back = Counter.after c (pushed + 1)

/-- The producer's part: its cached `front` stands for a number of pops not
above the true one, and leaves no more than the capacity in the ring. -/
def ProducerOk (c : Word) (q : SpscQueue) (pushed popped : Nat) (pc : ProducerPc) : Prop :=
  ∃ cached, q.producerCachedFront = Counter.after c cached ∧ cached ≤ popped ∧
    pushed ≤ cached + 2 ^ q.log2Capacity ∧ ProducerAt c q pushed popped cached pc

/-- What the consumer's place says, when its cached `back` stands for `cached`. -/
def ConsumerAt (c : Word) (q : SpscQueue) (pushed : List (Nat × List Byte)) (popped cached : Nat) :
    ConsumerPc → Prop
  | .idle | .emptyLoad | .emptyTestBack | .frontLoadBack | .frontPause | .frontReloadBack =>
    q.consumerCachedFront = Counter.after c popped
  | .emptyDone empty =>
    q.consumerCachedFront = Counter.after c popped ∧ (empty = true ↔ cached = popped)
  | .emptyStore back | .frontStoreBack back =>
    q.consumerCachedFront = Counter.after c popped ∧
      ∃ seen, cached ≤ seen ∧ seen ≤ pushed.length ∧ back = Counter.after c seen
  | .emptyTestFront back | .frontLoadFront back =>
    q.consumerCachedFront = Counter.after c popped ∧ back = Counter.after c cached
  | .frontIndex => q.consumerCachedFront = Counter.after c popped ∧ popped < cached
  | .block p =>
    q.consumerCachedFront = Counter.after c popped ∧ popped < cached ∧
      p = q.blockAt (Counter.after c popped)
  | .holding p content =>
    q.consumerCachedFront = Counter.after c popped ∧ popped < cached ∧
      p = q.blockAt (Counter.after c popped) ∧ pushed[popped]? = some (p, content)
  | .popLoad => q.consumerCachedFront = Counter.after c popped ∧ popped < cached
  | .popStoreCached front => popped < cached ∧ front = Counter.after c popped
  | .popStoreFront front =>
    q.consumerCachedFront = Counter.after c (popped + 1) ∧ popped < cached ∧
      front = Counter.after c (popped + 1)

/-- The consumer's part: its cached `back` stands for a number of pushes not
above the true one, and not below its own pops. -/
def ConsumerOk (c : Word) (q : SpscQueue) (pushed : List (Nat × List Byte)) (popped : Nat)
    (pc : ConsumerPc) : Prop :=
  ∃ cached, q.consumerCachedBack = Counter.after c cached ∧ popped ≤ cached ∧
    cached ≤ pushed.length ∧ ConsumerAt c q pushed popped cached pc

/-- The block the producer was handed and has not yet published. -/
def ProducerPc.holds : ProducerPc → Option Nat
  | .block p | .pushLoad p | .pushStoreCached p _ | .pushStoreBack p _ => some p
  | _ => none

/-- Blocks read beyond those popped: one from the read of a block to its pop. -/
def ConsumerPc.ahead : ConsumerPc → Nat
  | .holding _ _ | .popLoad | .popStoreCached _ | .popStoreFront _ => 1
  | _ => 0

/-- The invariant of the queue whose counters started at `c`. -/
structure Inv (c : Word) (s : State) : Prop where
  sound : s.q.Sound
  front : s.q.front = Counter.after c s.popped
  back : s.q.back = Counter.after c s.pushed.length
  producer : ProducerOk c s.q s.pushed.length s.popped s.producer
  consumer : ConsumerOk c s.q s.pushed s.popped s.consumer
  blocks : ∀ i p bs, s.pushed[i]? = some (p, bs) →
    p = s.q.blockAt (Counter.after c i) ∧ (s.popped ≤ i → s.mem.read p s.size = bs)
  taken : s.taken = (s.pushed.map Prod.snd).take (s.popped + s.consumer.ahead)

/-! ## Each side's part survives the other side's steps -/

theorem ProducerOk.mono {c : Word} {q : SpscQueue} {pushed popped popped' : Nat} {pc : ProducerPc}
    (h : ProducerOk c q pushed popped pc) (hle : popped ≤ popped') :
    ProducerOk c q pushed popped' pc := by
  obtain ⟨cached, hfront, hcached, hroom, hat⟩ := h
  refine ⟨cached, hfront, hcached.trans hle, hroom, ?_⟩
  cases pc with
  | newBlockStoreFront front =>
    obtain ⟨hback, seen, hlo, hhi, heq⟩ := hat
    exact ⟨hback, seen, hlo, hhi.trans hle, heq⟩
  | _ => exact hat

theorem ConsumerOk.mono {c : Word} {q : SpscQueue} {pushed : List (Nat × List Byte)} {popped : Nat}
    {pc : ConsumerPc} (h : ConsumerOk c q pushed popped pc) (entry : Nat × List Byte) :
    ConsumerOk c q (pushed ++ [entry]) popped pc := by
  obtain ⟨cached, hback, hpopped, hcached, hat⟩ := h
  have hlen : pushed.length ≤ (pushed ++ [entry]).length := by simp
  refine ⟨cached, hback, hpopped, hcached.trans hlen, ?_⟩
  cases pc with
  | emptyStore back | frontStoreBack back =>
    obtain ⟨hfront, seen, hlo, hhi, heq⟩ := hat
    exact ⟨hfront, seen, hlo, hhi.trans hlen, heq⟩
  | holding p content =>
    obtain ⟨hfront, hlt, hp, hget⟩ := hat
    refine ⟨hfront, hlt, hp, ?_⟩
    rw [List.getElem?_append_left (by omega)]
    exact hget
  | _ => exact hat

/-! ## What the invariant says at a place -/

namespace Inv

variable {c : Word} {s : State}

theorem popped_le (h : Inv c s) : s.popped ≤ s.pushed.length := by
  obtain ⟨cached, _, hlo, hhi, _⟩ := h.consumer
  exact hlo.trans hhi

/-- No more than the capacity is in the ring. -/
theorem pushed_le (h : Inv c s) : s.pushed.length ≤ s.popped + 2 ^ s.q.log2Capacity := by
  obtain ⟨cached, _, hle, hroom, _⟩ := h.producer
  omega

/-- The block the producer holds is the next one, and there is room for it. -/
theorem holds_eq (h : Inv c s) {p : Nat} (hp : s.producer.holds = some p) :
    p = s.q.blockAt (Counter.after c s.pushed.length) ∧
      s.pushed.length < s.popped + 2 ^ s.q.log2Capacity := by
  obtain ⟨cached, _, hle, _, hat⟩ := h.producer
  cases hpc : s.producer with
  | block r | pushLoad r =>
    rw [hpc] at hp hat
    cases hp
    exact ⟨hat.2.2, by have := hat.2.1; omega⟩
  | pushStoreCached r back =>
    rw [hpc] at hp hat
    cases hp
    exact ⟨hat.2.1, by have := hat.1; omega⟩
  | pushStoreBack r back =>
    rw [hpc] at hp hat
    cases hp
    exact ⟨hat.2.2.1, by have := hat.2.1; omega⟩
  | _ =>
    rw [hpc] at hp
    cases hp

/-- The block the producer holds shares no byte with a block pushed and not popped. -/
theorem holds_disjoint (h : Inv c s) {p : Nat} (hp : s.producer.holds = some p) {i r : Nat}
    {bs : List Byte} (hi : s.popped ≤ i) (hget : s.pushed[i]? = some (r, bs)) :
    r + s.size ≤ p ∨ p + s.size ≤ r := by
  obtain ⟨heq, hroom⟩ := h.holds_eq hp
  obtain ⟨hr, _⟩ := h.blocks i r bs hget
  have hlt : i < s.pushed.length := (List.getElem?_eq_some_iff.mp hget).1
  rw [heq, hr]
  exact h.sound.blockAt_disjoint c hlt (by omega)

/-- The block handed to the consumer is the oldest one in the ring, with the
contents that were pushed. -/
theorem front_block (h : Inv c s) {p : Nat} (hp : s.consumer = .block p) :
    s.pushed[s.popped]? = some (p, s.mem.read p s.size) := by
  obtain ⟨cached, _, _, hhi, hat⟩ := h.consumer
  rw [hp] at hat
  obtain ⟨_, hlt, heq⟩ := hat
  have hin : s.popped < s.pushed.length := by omega
  rcases hentry : s.pushed[s.popped] with ⟨r, bs⟩
  have hget : s.pushed[s.popped]? = some (r, bs) := by
    rw [List.getElem?_eq_getElem hin, hentry]
  obtain ⟨hr, hbs⟩ := h.blocks _ _ _ hget
  have hrp : r = p := hr.trans heq.symm
  rw [hget, ← hrp, hbs (Nat.le_refl _)]

/-- The block the consumer has read and not yet popped still holds what it read. -/
theorem holding_block (h : Inv c s) {p : Nat} {content : List Byte}
    (hp : s.consumer = .holding p content) :
    s.pushed[s.popped]? = some (p, s.mem.read p s.size) := by
  obtain ⟨cached, _, _, _, hat⟩ := h.consumer
  rw [hp] at hat
  obtain ⟨_, _, _, hget⟩ := hat
  obtain ⟨_, hcontent⟩ := h.blocks _ _ _ hget
  rw [hget, hcontent (Nat.le_refl _)]

end Inv

/-! ## The producer's steps -/

/-- A step that only moves the producer and its two private copies. -/
theorem Inv.producer_private {c : Word} {s : State} (h : Inv c s) {x y : Word} {pc : ProducerPc}
    (hok : ProducerOk c { s.q with producerCachedFront := x, producerCachedBack := y }
      s.pushed.length s.popped pc) :
    Inv c { s with
      q := { s.q with producerCachedFront := x, producerCachedBack := y }, producer := pc } where
  sound := ⟨h.sound.1, h.sound.2, h.sound.3, h.sound.4⟩
  front := h.front
  back := h.back
  producer := hok
  consumer := h.consumer
  blocks := h.blocks
  taken := h.taken

/-- Filling the block leaves the blocks in the ring alone. -/
theorem Inv.fill {c : Word} {s : State} (h : Inv c s) {p : Nat} (hp : s.producer.holds = some p)
    {bs : List Byte} (hlen : bs.length ≤ s.size) :
    Inv c { s with mem := s.mem.write p bs } where
  sound := h.sound
  front := h.front
  back := h.back
  producer := h.producer
  consumer := h.consumer
  blocks := by
    intro i r cs hget
    obtain ⟨hr, hcs⟩ := h.blocks i r cs hget
    refine ⟨hr, fun hi => ?_⟩
    have hdisj := h.holds_disjoint hp hi hget
    rw [← hcs hi]
    exact Mem.read_write_disjoint _ _ _ _ (by dsimp only [State.size] at *; omega)
  taken := h.taken

/-- The store of `back` publishes the block. -/
theorem Inv.publish {c : Word} {s : State} (h : Inv c s) {p : Nat} {back : Word}
    (hp : s.producer = .pushStoreBack p back) :
    Inv c { s with
      q := { s.q with back := back }, producer := .idle
      pushed := s.pushed ++ [(p, s.mem.read p s.size)] } := by
  obtain ⟨cached, hfront, hle, hroom, hat⟩ := h.producer
  rw [hp] at hat
  obtain ⟨hcb, hlt, hblock, hback⟩ := hat
  have hlen : (s.pushed ++ [(p, s.mem.read p s.size)]).length = s.pushed.length + 1 := by simp
  refine ⟨⟨h.sound.1, h.sound.2, h.sound.3, h.sound.4⟩, h.front, ?_, ?_, h.consumer.mono _, ?_, ?_⟩
  · rw [hlen]
    exact hback
  · rw [hlen]
    exact ⟨cached, hfront, hle, Nat.succ_le_of_lt hlt, hcb⟩
  · intro i r bs hget
    rcases getElem?_grown hget with hold | ⟨hlast, hnew⟩
    · exact h.blocks i r bs hold
    · cases hnew
      exact ⟨hlast ▸ hblock, fun _ => rfl⟩
  · have htaken := h.taken
    obtain ⟨seen, _, hlo, hhi, hcons⟩ := h.consumer
    have hahead : s.popped + s.consumer.ahead ≤ s.pushed.length := by
      cases hc : s.consumer <;> rw [hc] at hcons <;>
        simp only [ConsumerAt, ConsumerPc.ahead] at hcons ⊢ <;> omega
    rw [List.map_append, List.take_append_of_le_length (by simpa using hahead)]
    exact htaken

theorem producerStep_inv {c : Word} {s t : State} (h : Inv c s) (hstep : producerStep s = some t) :
    Inv c t := by
  obtain ⟨cached, hfront, hle, hroom, hat⟩ := h.producer
  unfold producerStep at hstep
  cases hp : s.producer with
  | idle | block p => simp only [hp, reduceCtorEq] at hstep
  | newBlockLoadBack =>
    simp only [hp] at hstep hat
    cases hstep
    exact h.producer_private ⟨cached, hfront, hle, hroom, hat, hat⟩
  | newBlockLoadFront back =>
    simp only [hp] at hstep hat
    obtain ⟨hcb, hreg⟩ := hat
    split at hstep
    · cases hstep
      exact h.producer_private ⟨cached, hfront, hle, hroom, hcb⟩
    · next hne =>
      cases hstep
      refine h.producer_private ⟨cached, hfront, hle, hroom, hcb, ?_⟩
      have hpop := h.popped_le
      have hcap := h.sound.capacity_lt
      rw [hreg, hfront, h.sound.capacity_eq,
        Counter.after_sub_eq_iff c (hle.trans hpop) (by omega) hcap] at hne
      show s.pushed.length < cached + 2 ^ s.q.log2Capacity
      omega
  | newBlockPause =>
    simp only [hp] at hstep hat
    cases hstep
    exact h.producer_private ⟨cached, hfront, hle, hroom, hat⟩
  | newBlockReloadFront =>
    simp only [hp] at hstep hat
    cases hstep
    exact h.producer_private ⟨cached, hfront, hle, hroom, hat, s.popped, hle, Nat.le_refl _, h.front⟩
  | newBlockStoreFront front =>
    simp only [hp] at hstep hat
    obtain ⟨hcb, seen, hlo, hhi, heq⟩ := hat
    cases hstep
    refine h.producer_private ⟨seen, heq, hhi, ?_, hcb⟩
    show s.pushed.length ≤ seen + 2 ^ s.q.log2Capacity
    omega
  | newBlockIndex =>
    simp only [hp] at hstep hat
    obtain ⟨hcb, hlt⟩ := hat
    cases hstep
    exact h.producer_private ⟨cached, hfront, hle, hroom, hcb, hlt, by rw [hcb]; rfl⟩
  | pushLoad p =>
    simp only [hp] at hstep hat
    obtain ⟨hcb, hlt, hblock⟩ := hat
    cases hstep
    exact h.producer_private ⟨cached, hfront, hle, hroom, hlt, hblock, hcb⟩
  | pushStoreCached p back =>
    simp only [hp] at hstep hat
    obtain ⟨hlt, hblock, hreg⟩ := hat
    cases hstep
    have hnext : back + 1 = Counter.after c (s.pushed.length + 1) := by
      rw [hreg, Counter.after_succ]
    exact h.producer_private ⟨cached, hfront, hle, hroom, hnext, hlt, hblock, hnext⟩
  | pushStoreBack p back =>
    simp only [hp] at hstep
    cases hstep
    exact h.publish hp

/-! ## The consumer's steps -/

/-- A step that only moves the consumer and its two private copies. -/
theorem Inv.consumer_private {c : Word} {s : State} (h : Inv c s) {x y : Word} {pc : ConsumerPc}
    (hok : ConsumerOk c { s.q with consumerCachedFront := x, consumerCachedBack := y }
      s.pushed s.popped pc)
    (hahead : pc.ahead = s.consumer.ahead) :
    Inv c { s with
      q := { s.q with consumerCachedFront := x, consumerCachedBack := y }, consumer := pc } where
  sound := ⟨h.sound.1, h.sound.2, h.sound.3, h.sound.4⟩
  front := h.front
  back := h.back
  producer := h.producer
  consumer := hok
  blocks := h.blocks
  taken := by
    show s.taken = _
    rw [h.taken, hahead]

/-- Reading the front block takes the oldest block in the ring. -/
theorem Inv.read {c : Word} {s : State} (h : Inv c s) {p : Nat} (hp : s.consumer = .block p) :
    Inv c { s with
      consumer := .holding p (s.mem.read p s.size)
      taken := s.taken ++ [s.mem.read p s.size] } := by
  have hget := h.front_block hp
  obtain ⟨cached, hback, hlo, hhi, hat⟩ := h.consumer
  rw [hp] at hat
  obtain ⟨hcf, hlt, hblock⟩ := hat
  refine ⟨h.sound, h.front, h.back, h.producer, ?_, h.blocks, ?_⟩
  · exact ⟨cached, hback, hlo, hhi, hcf, hlt, hblock, hget⟩
  · show s.taken ++ [s.mem.read p s.size] = (s.pushed.map Prod.snd).take (s.popped + 1)
    have hsnd : (s.pushed.map Prod.snd)[s.popped]? = some (s.mem.read p s.size) := by
      rw [List.getElem?_map, hget]
      rfl
    rw [List.take_add_one, hsnd, h.taken, hp]
    rfl

/-- The store of `front` releases the block. -/
theorem Inv.release {c : Word} {s : State} (h : Inv c s) {front : Word}
    (hp : s.consumer = .popStoreFront front) :
    Inv c { s with
      q := { s.q with front := front }, consumer := .idle, popped := s.popped + 1 } := by
  obtain ⟨cached, hback, hlo, hhi, hat⟩ := h.consumer
  rw [hp] at hat
  obtain ⟨hcf, hlt, hfront⟩ := hat
  refine ⟨⟨h.sound.1, h.sound.2, h.sound.3, h.sound.4⟩, hfront, h.back,
    h.producer.mono (Nat.le_succ _), ⟨cached, hback, hlt, hhi, hcf⟩, ?_, ?_⟩
  · intro i r bs hget
    obtain ⟨hr, hbs⟩ := h.blocks i r bs hget
    exact ⟨hr, fun hi => hbs (Nat.le_of_succ_le hi)⟩
  · have htaken := h.taken
    rw [hp] at htaken
    exact htaken

theorem consumerStep_inv {c : Word} {s t : State} (h : Inv c s) (hstep : consumerStep s = some t) :
    Inv c t := by
  obtain ⟨cached, hback, hlo, hhi, hat⟩ := h.consumer
  have hlt64 : cached - s.popped < 2 ^ 64 := by
    have := h.pushed_le
    have := h.sound.capacity_lt
    omega
  unfold consumerStep at hstep
  cases hp : s.consumer with
  | idle | emptyDone e | block p | holding p content => simp only [hp, reduceCtorEq] at hstep
  | emptyLoad =>
    simp only [hp] at hstep hat
    cases hstep
    exact h.consumer_private
      ⟨cached, hback, hlo, hhi, hat, s.pushed.length, hhi, Nat.le_refl _, h.back⟩ (by rw [hp]; rfl)
  | emptyStore back =>
    simp only [hp] at hstep hat
    obtain ⟨hcf, seen, hseen, hle, heq⟩ := hat
    cases hstep
    exact h.consumer_private ⟨seen, heq, hlo.trans hseen, hle, hcf⟩ (by rw [hp]; rfl)
  | emptyTestBack =>
    simp only [hp] at hstep hat
    cases hstep
    exact h.consumer_private ⟨cached, hback, hlo, hhi, hat, hback⟩ (by rw [hp]; rfl)
  | emptyTestFront back =>
    simp only [hp] at hstep hat
    obtain ⟨hcf, hreg⟩ := hat
    cases hstep
    refine h.consumer_private ⟨cached, hback, hlo, hhi, hcf, ?_⟩ (by rw [hp]; rfl)
    rw [hreg, hcf, decide_eq_true_iff, Counter.after_inj c hlo hlt64]
  | frontLoadBack =>
    simp only [hp] at hstep hat
    cases hstep
    exact h.consumer_private ⟨cached, hback, hlo, hhi, hat, hback⟩ (by rw [hp]; rfl)
  | frontLoadFront back =>
    simp only [hp] at hstep hat
    obtain ⟨hcf, hreg⟩ := hat
    split at hstep
    · cases hstep
      exact h.consumer_private ⟨cached, hback, hlo, hhi, hcf⟩ (by rw [hp]; rfl)
    · next hne =>
      cases hstep
      rw [hreg, hcf, Counter.after_inj c hlo hlt64] at hne
      exact h.consumer_private ⟨cached, hback, hlo, hhi, hcf, by omega⟩ (by rw [hp]; rfl)
  | frontPause =>
    simp only [hp] at hstep hat
    cases hstep
    exact h.consumer_private ⟨cached, hback, hlo, hhi, hat⟩ (by rw [hp]; rfl)
  | frontReloadBack =>
    simp only [hp] at hstep hat
    cases hstep
    exact h.consumer_private
      ⟨cached, hback, hlo, hhi, hat, s.pushed.length, hhi, Nat.le_refl _, h.back⟩ (by rw [hp]; rfl)
  | frontStoreBack back =>
    simp only [hp] at hstep hat
    obtain ⟨hcf, seen, hseen, hle, heq⟩ := hat
    cases hstep
    exact h.consumer_private ⟨seen, heq, hlo.trans hseen, hle, hcf⟩ (by rw [hp]; rfl)
  | frontIndex =>
    simp only [hp] at hstep hat
    obtain ⟨hcf, hlt⟩ := hat
    cases hstep
    exact h.consumer_private ⟨cached, hback, hlo, hhi, hcf, hlt, by rw [hcf]; rfl⟩ (by rw [hp]; rfl)
  | popLoad =>
    simp only [hp] at hstep hat
    obtain ⟨hcf, hlt⟩ := hat
    cases hstep
    exact h.consumer_private ⟨cached, hback, hlo, hhi, hlt, hcf⟩ (by rw [hp]; rfl)
  | popStoreCached front =>
    simp only [hp] at hstep hat
    obtain ⟨hlt, hreg⟩ := hat
    cases hstep
    have hnext : front + 1 = Counter.after c (s.popped + 1) := by rw [hreg, Counter.after_succ]
    exact h.consumer_private ⟨cached, hback, hlo, hhi, hnext, hlt, hnext⟩ (by rw [hp]; rfl)
  | popStoreFront front =>
    simp only [hp] at hstep
    cases hstep
    exact h.release hp

/-! ## Every run -/

/-- Each action of the machine keeps the invariant. -/
theorem step_inv {c : Word} {s t : State} {a : Act} (h : Inv c s) (hstep : step s a = some t) :
    Inv c t := by
  cases a with
  | producer => exact producerStep_inv h hstep
  | consumer => exact consumerStep_inv h hstep
  | newBlock =>
    obtain ⟨cached, hfront, hle, hroom, hat⟩ := h.producer
    simp only [step] at hstep
    split at hstep
    · next hp =>
      cases hstep
      rw [hp] at hat
      exact h.producer_private ⟨cached, hfront, hle, hroom, hat⟩
    · cases hstep
  | fill bs =>
    simp only [step] at hstep
    split at hstep
    · next p hp =>
      split at hstep
      · next hlen =>
        cases hstep
        exact h.fill (by rw [hp]; rfl) hlen
      · cases hstep
    · cases hstep
  | push =>
    obtain ⟨cached, hfront, hle, hroom, hat⟩ := h.producer
    simp only [step] at hstep
    split at hstep
    · next p hp =>
      cases hstep
      rw [hp] at hat
      exact h.producer_private ⟨cached, hfront, hle, hroom, hat⟩
    · cases hstep
  | empty | front =>
    obtain ⟨cached, hback, hlo, hhi, hat⟩ := h.consumer
    simp only [step] at hstep
    split at hstep
    · next hp =>
      cases hstep
      rw [hp] at hat
      exact h.consumer_private ⟨cached, hback, hlo, hhi, hat⟩ (by rw [hp]; rfl)
    · cases hstep
  | emptyRet =>
    obtain ⟨cached, hback, hlo, hhi, hat⟩ := h.consumer
    simp only [step] at hstep
    split at hstep
    · next hp =>
      cases hstep
      rw [hp] at hat
      exact h.consumer_private ⟨cached, hback, hlo, hhi, hat.1⟩ (by rw [hp]; rfl)
    · cases hstep
  | read =>
    simp only [step] at hstep
    split at hstep
    · next p hp =>
      cases hstep
      exact h.read hp
    · cases hstep
  | pop =>
    obtain ⟨cached, hback, hlo, hhi, hat⟩ := h.consumer
    simp only [step] at hstep
    split at hstep
    · next p content hp =>
      cases hstep
      rw [hp] at hat
      exact h.consumer_private ⟨cached, hback, hlo, hhi, hat.1, hat.2.1⟩ (by rw [hp]; rfl)
    · cases hstep

/-- An empty queue, with all six counters at `c`, satisfies the invariant. -/
theorem start_inv {q : SpscQueue} (h : q.Sound) (c : Word) (mem : Mem) :
    Inv c (State.start (q.startAt c) mem) where
  sound := SpscQueue.startAt_sound h c
  front := (Counter.after_zero c).symm
  back := (Counter.after_zero c).symm
  producer := ⟨0, (Counter.after_zero c).symm, Nat.le_refl _, Nat.zero_le _,
    (Counter.after_zero c).symm⟩
  consumer := ⟨0, (Counter.after_zero c).symm, Nat.le_refl _, Nat.le_refl _,
    (Counter.after_zero c).symm⟩
  blocks := by
    intro i p bs hget
    simp [State.start] at hget
  taken := rfl

/-- Every interleaving of the two sides keeps the invariant. -/
theorem reach_inv {c : Word} {s t : State} (h : Inv c s) (hrun : machine.Reach s t) : Inv c t :=
  hrun.invariant _ h fun _ _ _ h _ hstep => step_inv h hstep

end MicroRosDemos.Spsc
