import MicroRosDemos.Spsc.Invariant

/-!
# The operation a side is inside

A domain that uses the queue calls its operations one after the other, so what
it has to know of a side's place is the operation the place belongs to.
`ProducerMove` and `ConsumerMove` say everything one step inside an operation
can do in those terms: it stays inside, or the operation hands over its pointer,
or it publishes or releases a block.

The second half follows the consumer's view of `back`: when `spsc_empty` has
looked (`Seen`), and why `spsc_front_block` does not wait after it returned
false (`FrontReady`).
-/

namespace MicroRosDemos.Spsc

open MicroRosDemos.Lib

/-- The operation the producer is inside, or the block it holds between two. -/
inductive ProducerPhase
  | idle
  | newBlock
  | block (p : Nat)
  | push (p : Nat)
deriving DecidableEq

/-- The operation the consumer is inside, or the block it holds between two. -/
inductive ConsumerPhase
  | idle
  | empty
  | front
  | block (p : Nat)
  | holding (p : Nat) (content : List Byte)
  | pop
deriving DecidableEq

def ProducerPc.phase : ProducerPc → ProducerPhase
  | .idle => .idle
  | .newBlockLoadBack | .newBlockLoadFront _ | .newBlockPause | .newBlockReloadFront
  | .newBlockStoreFront _ | .newBlockIndex => .newBlock
  | .block p => .block p
  | .pushLoad p | .pushStoreCached p _ | .pushStoreBack p _ => .push p

def ConsumerPc.phase : ConsumerPc → ConsumerPhase
  | .idle => .idle
  | .emptyLoad | .emptyStore _ | .emptyTestBack | .emptyTestFront _ | .emptyDone _ => .empty
  | .frontLoadBack | .frontLoadFront _ | .frontPause | .frontReloadBack | .frontStoreBack _
  | .frontIndex => .front
  | .block p => .block p
  | .holding p content => .holding p content
  | .popLoad | .popStoreCached _ | .popStoreFront _ => .pop

/-! ## What one step can do -/

/-- The steps of the producer inside an operation: a step within it, the end of
`spsc_new_block`, the store of `back`. -/
inductive ProducerMove (s : State) : State → Prop
  | within (x y : Word) (pc : ProducerPc) (hphase : pc.phase = s.producer.phase) :
    ProducerMove s { s with
      q := { s.q with producerCachedFront := x, producerCachedBack := y }, producer := pc }
  | handed (hpc : s.producer = .newBlockIndex) :
    ProducerMove s { s with producer := .block (s.q.blockAt s.q.producerCachedBack) }
  | published (p : Nat) (back : Word) (hpc : s.producer = .pushStoreBack p back) :
    ProducerMove s { s with
      q := { s.q with back := back }, producer := .idle
      pushed := s.pushed ++ [(p, s.mem.read p s.size)] }

/-- The steps of the consumer inside an operation: a step within it, the end of
`spsc_front_block`, the store of `front`. -/
inductive ConsumerMove (s : State) : State → Prop
  | within (x y : Word) (pc : ConsumerPc) (hphase : pc.phase = s.consumer.phase) :
    ConsumerMove s { s with
      q := { s.q with consumerCachedFront := x, consumerCachedBack := y }, consumer := pc }
  | handed (hpc : s.consumer = .frontIndex) :
    ConsumerMove s { s with consumer := .block (s.q.blockAt s.q.consumerCachedFront) }
  | released (front : Word) (hpc : s.consumer = .popStoreFront front) :
    ConsumerMove s { s with
      q := { s.q with front := front }, consumer := .idle, popped := s.popped + 1 }

theorem producerStep_move {s t : State} (h : producerStep s = some t) : ProducerMove s t := by
  unfold producerStep at h
  cases hp : s.producer with
  | idle | block p => simp only [hp, reduceCtorEq] at h
  | newBlockIndex =>
    simp only [hp] at h
    cases h
    exact .handed hp
  | pushStoreBack p back =>
    simp only [hp] at h
    cases h
    exact .published p back hp
  | newBlockLoadFront back =>
    simp only [hp] at h
    split at h <;> cases h <;> exact .within _ _ _ (by rw [hp]; rfl)
  | _ =>
    simp only [hp] at h
    cases h
    exact .within _ _ _ (by rw [hp]; rfl)

theorem consumerStep_move {s t : State} (h : consumerStep s = some t) : ConsumerMove s t := by
  unfold consumerStep at h
  cases hp : s.consumer with
  | idle | emptyDone e | block p | holding p content => simp only [hp, reduceCtorEq] at h
  | frontIndex =>
    simp only [hp] at h
    cases h
    exact .handed hp
  | popStoreFront front =>
    simp only [hp] at h
    cases h
    exact .released front hp
  | frontLoadFront back =>
    simp only [hp] at h
    split at h <;> cases h <;> exact .within _ _ _ (by rw [hp]; rfl)
  | _ =>
    simp only [hp] at h
    cases h
    exact .within _ _ _ (by rw [hp]; rfl)

/-- The producer's steps leave the block memory and the consumer's part alone. -/
theorem producerStep_frame {s t : State} (h : producerStep s = some t) :
    t.mem = s.mem ∧ t.consumer = s.consumer ∧ t.taken = s.taken ∧ t.popped = s.popped ∧
      t.size = s.size := by
  cases producerStep_move h <;> exact ⟨rfl, rfl, rfl, rfl, rfl⟩

/-- The consumer's steps leave the block memory and the producer's part alone. -/
theorem consumerStep_frame {s t : State} (h : consumerStep s = some t) :
    t.mem = s.mem ∧ t.producer = s.producer ∧ t.pushed = s.pushed ∧ t.taken = s.taken ∧
      t.size = s.size := by
  cases consumerStep_move h <;> exact ⟨rfl, rfl, rfl, rfl, rfl⟩

/-- How one step moves the producer's phase: it stays, `spsc_new_block` returns,
or `spsc_push` returns with its block published. -/
theorem producerStep_phase {s t : State} (h : producerStep s = some t) :
    (t.producer.phase = s.producer.phase ∧ t.pushed = s.pushed) ∨
      (s.producer.phase = .newBlock ∧ (∃ p, t.producer = .block p) ∧ t.pushed = s.pushed) ∨
        (∃ p, s.producer.phase = .push p ∧ t.producer = .idle ∧
          t.pushed = s.pushed ++ [(p, s.mem.read p s.size)]) := by
  cases producerStep_move h with
  | within x y pc hphase => exact .inl ⟨hphase, rfl⟩
  | handed hpc => exact .inr (.inl ⟨by rw [hpc]; rfl, ⟨_, rfl⟩, rfl⟩)
  | published p back hpc => exact .inr (.inr ⟨p, by rw [hpc]; rfl, rfl, rfl⟩)

/-- How one step moves the consumer's phase: it stays, `spsc_front_block`
returns, or `spsc_pop` returns with the block released. -/
theorem consumerStep_phase {s t : State} (h : consumerStep s = some t) :
    (t.consumer.phase = s.consumer.phase ∧ t.popped = s.popped) ∨
      (s.consumer.phase = .front ∧ (∃ p, t.consumer = .block p) ∧ t.popped = s.popped) ∨
        (s.consumer.phase = .pop ∧ t.consumer = .idle ∧ t.popped = s.popped + 1) := by
  cases consumerStep_move h with
  | within x y pc hphase => exact .inl ⟨hphase, rfl⟩
  | handed hpc => exact .inr (.inl ⟨by rw [hpc]; rfl, ⟨_, rfl⟩, rfl⟩)
  | released front hpc => exact .inr (.inr ⟨by rw [hpc]; rfl, rfl, rfl⟩)

/-- Inside `spsc_new_block` the producer stays there, or is handed a block. -/
theorem producerStep_newBlock {s t : State} (hat : s.producer.phase = .newBlock)
    (h : producerStep s = some t) :
    (t.producer.phase = s.producer.phase ∧ t.pushed = s.pushed ∧ ∀ p, t.producer ≠ .block p) ∨
      ∃ p, t.producer = .block p ∧ t.pushed = s.pushed := by
  rcases producerStep_phase h with ⟨hphase, hpushed⟩ | ⟨_, ⟨p, hp⟩, hpushed⟩ | ⟨p, hpush, _⟩
  · refine .inl ⟨hphase, hpushed, fun p hp => ?_⟩
    rw [hp, hat] at hphase
    cases hphase
  · exact .inr ⟨p, hp, hpushed⟩
  · cases hat.symm.trans hpush

/-- Inside `spsc_push` the producer stays there, or has published its block. -/
theorem producerStep_push {s t : State} {p : Nat} (hat : s.producer.phase = .push p)
    (h : producerStep s = some t) :
    (t.producer.phase = s.producer.phase ∧ t.pushed = s.pushed ∧ t.producer ≠ .idle) ∨
      (t.producer = .idle ∧ t.pushed = s.pushed ++ [(p, s.mem.read p s.size)]) := by
  rcases producerStep_phase h with ⟨hphase, hpushed⟩ | ⟨hnew, _⟩ | ⟨p', hpush, hidle, hpushed⟩
  · refine .inl ⟨hphase, hpushed, fun hidle => ?_⟩
    rw [hidle, hat] at hphase
    cases hphase
  · cases hat.symm.trans hnew
  · cases hat.symm.trans hpush
    exact .inr ⟨hidle, hpushed⟩

/-- Inside `spsc_empty` the consumer's steps stay there. -/
theorem consumerStep_inEmpty {s t : State} (hat : s.consumer.phase = .empty)
    (h : consumerStep s = some t) :
    t.consumer.phase = s.consumer.phase ∧ t.popped = s.popped := by
  rcases consumerStep_phase h with hstay | ⟨hfront, _⟩ | ⟨hpop, _⟩
  · exact hstay
  · cases hat.symm.trans hfront
  · cases hat.symm.trans hpop

/-- Inside `spsc_front_block` the consumer stays there, or is handed a block. -/
theorem consumerStep_front {s t : State} (hat : s.consumer.phase = .front)
    (h : consumerStep s = some t) :
    (t.consumer.phase = s.consumer.phase ∧ t.popped = s.popped ∧ ∀ p, t.consumer ≠ .block p) ∨
      ∃ p, t.consumer = .block p ∧ t.popped = s.popped := by
  rcases consumerStep_phase h with ⟨hphase, hpopped⟩ | ⟨_, ⟨p, hp⟩, hpopped⟩ | ⟨hpop, _⟩
  · refine .inl ⟨hphase, hpopped, fun p hp => ?_⟩
    rw [hp, hat] at hphase
    cases hphase
  · exact .inr ⟨p, hp, hpopped⟩
  · cases hat.symm.trans hpop

/-- Inside `spsc_pop` the consumer stays there, or has released its block. -/
theorem consumerStep_pop {s t : State} (hat : s.consumer.phase = .pop)
    (h : consumerStep s = some t) :
    (t.consumer.phase = s.consumer.phase ∧ t.popped = s.popped ∧ t.consumer ≠ .idle) ∨
      (t.consumer = .idle ∧ t.popped = s.popped + 1) := by
  rcases consumerStep_phase h with ⟨hphase, hpopped⟩ | ⟨hfront, _⟩ | ⟨_, hidle, hpopped⟩
  · refine .inl ⟨hphase, hpopped, fun hidle => ?_⟩
    rw [hidle, hat] at hphase
    cases hphase
  · cases hat.symm.trans hfront
  · exact .inr ⟨hidle, hpopped⟩

/-! ## Phases are places -/

theorem ProducerPc.phase_idle {pc : ProducerPc} : pc.phase = .idle ↔ pc = .idle := by
  cases pc <;> simp [phase]

theorem ProducerPc.phase_block {pc : ProducerPc} {p : Nat} : pc.phase = .block p ↔ pc = .block p := by
  cases pc <;> simp [phase]

theorem ConsumerPc.phase_idle {pc : ConsumerPc} : pc.phase = .idle ↔ pc = .idle := by
  cases pc <;> simp [phase]

theorem ConsumerPc.phase_holding {pc : ConsumerPc} {p : Nat} {content : List Byte} :
    pc.phase = .holding p content ↔ pc = .holding p content := by
  cases pc <;> simp [phase]

theorem ConsumerPc.phase_block {pc : ConsumerPc} {p : Nat} :
    pc.phase = .block p ↔ pc = .block p := by
  cases pc <;> simp [phase]

/-- A producer that was handed its block has left the queue's operations. -/
theorem producerStep_block {s : State} {p : Nat} (h : s.producer.phase = .block p) :
    producerStep s = none := by
  rw [producerStep, ProducerPc.phase_block.mp h]

theorem producerStep_idle {s : State} (h : s.producer.phase = .idle) : producerStep s = none := by
  rw [producerStep, ProducerPc.phase_idle.mp h]

/-- A consumer that was handed its block has left the queue's operations. -/
theorem consumerStep_block {s : State} {p : Nat} (h : s.consumer.phase = .block p) :
    consumerStep s = none := by
  rw [consumerStep, ConsumerPc.phase_block.mp h]

theorem consumerStep_holding {s : State} {p : Nat} {content : List Byte}
    (h : s.consumer.phase = .holding p content) : consumerStep s = none := by
  rw [consumerStep, ConsumerPc.phase_holding.mp h]

theorem consumerStep_idle {s : State} (h : s.consumer.phase = .idle) : consumerStep s = none := by
  rw [consumerStep, ConsumerPc.phase_idle.mp h]

/-! ## The blocks filled -/

/-- The contents of the blocks filled so far: those pushed, and the one being pushed. -/
def State.filled (s : State) : List (List Byte) :=
  s.pushed.map Prod.snd ++
    match s.producer.phase with
    | .push p => [s.mem.read p s.size]
    | _ => []

theorem filled_congr {s t : State} (hpushed : t.pushed = s.pushed)
    (hphase : t.producer.phase = s.producer.phase) (hmem : t.mem = s.mem) (hsize : t.size = s.size) :
    t.filled = s.filled := by
  unfold State.filled
  rw [hpushed, hphase, hmem, hsize]

theorem filled_of_not_push {s : State} (h : ∀ p, s.producer.phase ≠ .push p) :
    s.filled = s.pushed.map Prod.snd := by
  unfold State.filled
  split
  · next p hp => exact absurd hp (h p)
  · exact List.append_nil _

theorem filled_of_idle {s : State} (h : s.producer.phase = .idle) :
    s.filled = s.pushed.map Prod.snd :=
  filled_of_not_push fun p hp => by cases h.symm.trans hp

theorem filled_of_newBlock {s : State} (h : s.producer.phase = .newBlock) :
    s.filled = s.pushed.map Prod.snd :=
  filled_of_not_push fun p hp => by cases h.symm.trans hp

theorem filled_of_block {s : State} {p : Nat} (h : s.producer = .block p) :
    s.filled = s.pushed.map Prod.snd :=
  filled_of_not_push fun p' hp => by
    rw [h] at hp
    cases hp

/-- The store of `back` turns the block being pushed into one pushed. -/
theorem filled_of_published {s t : State} {p : Nat} (hphase : s.producer.phase = .push p)
    (hidle : t.producer = .idle) (hpushed : t.pushed = s.pushed ++ [(p, s.mem.read p s.size)]) :
    t.filled = s.filled := by
  rw [filled_of_idle (ProducerPc.phase_idle.mpr hidle), hpushed, List.map_append]
  simp only [State.filled, hphase, List.map_cons, List.map_nil]

/-- What was pushed is the first part of what was filled. -/
theorem pushed_prefix_filled (s : State) : s.pushed.map Prod.snd <+: s.filled :=
  List.prefix_append _ _

/-! ## The wait for a free block -/

/-- The ring holds as many blocks as fit. -/
abbrev State.Full (s : State) : Prop := s.q.back - s.q.front = s.q.capacity

theorem Inv.full_iff {c : Word} {s : State} (h : Inv c s) :
    s.Full ↔ s.pushed.length = s.popped + 2 ^ s.q.log2Capacity := by
  have hle := h.popped_le
  have hroom := h.pushed_le
  have hlt := h.sound.capacity_lt
  rw [State.Full, h.back, h.front, h.sound.capacity_eq, Counter.after_sub_eq_iff c hle (by omega) hlt]
  omega

/-- The steps before the store of `back` leave the ring as full as it was. -/
theorem producerStep_full {s t : State} (h : producerStep s = some t)
    (hpushed : t.pushed = s.pushed) : t.Full ↔ s.Full := by
  cases producerStep_move h with
  | within x y pc hphase => exact Iff.rfl
  | handed hpc => exact Iff.rfl
  | published p back hpc => exact absurd hpushed (by simp)

/-- The producer is in the wait loop of `spsc_new_block`, and will find the ring
full again as long as nothing is popped. -/
def State.Stuck (s : State) : Prop :=
  s.q.producerCachedBack - s.q.producerCachedFront = s.q.capacity ∧
    s.q.producerCachedBack - s.q.front = s.q.capacity ∧
      match s.producer with
      | .newBlockLoadBack | .newBlockPause | .newBlockReloadFront => True
      | .newBlockLoadFront back => back = s.q.producerCachedBack
      | .newBlockStoreFront front => front = s.q.front
      | _ => False

theorem State.Stuck.phase {s : State} (h : s.Stuck) : s.producer.phase = .newBlock := by
  obtain ⟨_, _, hpc⟩ := h
  cases hp : s.producer <;> rw [hp] at hpc <;> first | rfl | exact hpc.elim

/-- One turn of the loop, step by step. -/
theorem producerStep_stuck {s t : State} (h : s.Stuck) (hstep : producerStep s = some t) :
    t.Stuck := by
  obtain ⟨hcached, hfront, hpc⟩ := h
  unfold producerStep at hstep
  cases hp : s.producer with
  | newBlockLoadBack | newBlockPause | newBlockReloadFront =>
    simp only [hp] at hstep
    cases hstep
    exact ⟨hcached, hfront, by trivial⟩
  | newBlockLoadFront back =>
    simp only [hp] at hstep hpc
    rw [hpc, if_pos hcached] at hstep
    cases hstep
    exact ⟨hcached, hfront, trivial⟩
  | newBlockStoreFront front =>
    simp only [hp] at hstep hpc
    cases hstep
    exact ⟨hpc ▸ hfront, hfront, trivial⟩
  | _ => simp only [hp] at hpc

/-! ## What the consumer has seen -/

/-- The ring holds no block. -/
abbrev State.Empty (s : State) : Prop := s.q.back = s.q.front

theorem Inv.empty_iff {c : Word} {s : State} (h : Inv c s) :
    s.Empty ↔ s.pushed.length = s.popped := by
  have hle := h.pushed_le
  have hlt := h.sound.capacity_lt
  rw [State.Empty, h.front, h.back]
  exact Counter.after_inj c h.popped_le (by omega)

/-- Inside `spsc_empty`, from its load of `back` on: no block was published
since that load, and an answer "empty" is still true. -/
def State.Seen (s : State) : Prop :=
  match s.consumer with
  | .emptyStore back | .emptyTestFront back => back = s.q.back
  | .emptyTestBack => s.q.consumerCachedBack = s.q.back
  | .emptyDone true => s.Empty
  | _ => True

/-- The body of the wait loop of `spsc_front_block`. -/
def ConsumerPc.Waits : ConsumerPc → Prop
  | .frontPause | .frontReloadBack | .frontStoreBack _ => True
  | _ => False

/-- From the answer "not empty" to the pointer, `spsc_front_block` is outside
its loop body and will not enter it. -/
def State.FrontReady (s : State) : Prop :=
  match s.consumer with
  | .emptyDone false | .frontLoadBack => s.q.consumerCachedBack ≠ s.q.consumerCachedFront
  | .frontLoadFront back => back ≠ s.q.consumerCachedFront
  | .frontPause | .frontReloadBack | .frontStoreBack _ => False
  | _ => True

/-- The producer's steps before the store of `back` change nothing the consumer sees. -/
theorem producerStep_seen {s t : State} (h : producerStep s = some t)
    (hpushed : t.pushed = s.pushed) (hseen : s.Seen) : t.Seen := by
  cases producerStep_move h with
  | within x y pc hphase => exact hseen
  | handed hpc => exact hseen
  | published p back hpc => exact absurd hpushed (by simp)

/-- Steps that publish or release nothing leave the ring as empty as it was. -/
theorem producerStep_empty {s t : State} (h : producerStep s = some t)
    (hpushed : t.pushed = s.pushed) : t.Empty ↔ s.Empty := by
  cases producerStep_move h with
  | within x y pc hphase => exact Iff.rfl
  | handed hpc => exact Iff.rfl
  | published p back hpc => exact absurd hpushed (by simp)

theorem consumerStep_empty {s t : State} (h : consumerStep s = some t)
    (hpopped : t.popped = s.popped) : t.Empty ↔ s.Empty := by
  cases consumerStep_move h with
  | within x y pc hphase => exact Iff.rfl
  | handed hpc => exact Iff.rfl
  | released front hpc => exact absurd hpopped (Nat.succ_ne_self _)

theorem State.FrontReady.not_waits {s : State} (h : s.FrontReady) : ¬ s.consumer.Waits := by
  unfold State.FrontReady at h
  intro hwaits
  cases hp : s.consumer with
  | frontPause | frontReloadBack | frontStoreBack back => simp only [hp] at h
  | _ =>
    rw [hp] at hwaits
    exact hwaits

theorem producerStep_frontReady {s t : State} (h : producerStep s = some t)
    (hready : s.FrontReady) : t.FrontReady := by
  cases producerStep_move h <;> exact hready

/-- The consumer's own steps keep its view of `back` up to date. -/
theorem consumerStep_seen {c : Word} {s t : State} (hinv : Inv c s) (hseen : s.Seen)
    (hstep : consumerStep s = some t) : t.Seen := by
  obtain ⟨cached, hback, _, _, hat⟩ := hinv.consumer
  unfold consumerStep at hstep
  unfold State.Seen at hseen ⊢
  cases hp : s.consumer with
  | emptyStore back =>
    simp only [hp] at hstep hseen
    cases hstep
    exact hseen
  | emptyTestBack =>
    simp only [hp] at hstep hseen
    cases hstep
    exact hseen
  | emptyTestFront back =>
    simp only [hp] at hstep hseen hat
    cases hstep
    by_cases heq : back = s.q.consumerCachedFront
    · simp only [heq, decide_true]
      rw [State.Empty, ← hseen, heq, hat.1, hinv.front]
    · simp only [heq, decide_false]
  | frontLoadFront back =>
    simp only [hp] at hstep
    split at hstep <;> cases hstep <;> trivial
  | _ =>
    simp only [hp, reduceCtorEq] at hstep
    try cases hstep
    try trivial

/-- The consumer's own steps inside `spsc_empty` and `spsc_front_block` keep it
out of the wait loop. -/
theorem consumerStep_frontReady {c : Word} {s t : State} (hinv : Inv c s) (hready : s.FrontReady)
    (hstep : consumerStep s = some t) : t.FrontReady := by
  obtain ⟨cached, hback, _, _, hat⟩ := hinv.consumer
  unfold consumerStep at hstep
  unfold State.FrontReady at hready ⊢
  cases hp : s.consumer with
  | emptyTestFront back =>
    simp only [hp] at hstep hat
    cases hstep
    by_cases heq : back = s.q.consumerCachedFront
    · simp only [heq, decide_true]
    · simp only [heq, decide_false]
      rw [hback, ← hat.2]
      exact heq
  | frontLoadBack =>
    simp only [hp] at hstep hready
    cases hstep
    exact hready
  | frontLoadFront back =>
    simp only [hp] at hstep hready
    rw [if_neg hready] at hstep
    cases hstep
    trivial
  | frontPause | frontReloadBack | frontStoreBack back =>
    simp only [hp] at hready
  | _ =>
    simp only [hp, reduceCtorEq] at hstep
    try cases hstep
    try trivial

end MicroRosDemos.Spsc
