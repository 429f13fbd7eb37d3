import MicroRosDemos.Spsc.Phase

/-!
# How long an operation takes

`spsc_pop` is three steps. `spsc_front_block` is three when it knows of a block,
and eight when it has to look at `back` once. On a ring that stays empty it has
no end, so the bound is for a ring that holds a block (`consumerStep_turns`).

The producer's side is its mirror, `spsc_new_block` and `spsc_push` on a ring that
is not full (`producerStep_producerTurns`). There the other side helps: what the consumer
pops makes room, and never takes it.
-/

namespace MicroRosDemos.Spsc

open MicroRosDemos.Lib

/-- Steps that are left of `spsc_front_block` on a ring that holds a block, or of
`spsc_pop`. -/
def State.turns (s : State) : Nat :=
  match s.consumer with
  | .frontLoadBack => if s.q.consumerCachedBack = s.q.consumerCachedFront then 8 else 3
  | .frontLoadFront back => if back = s.q.consumerCachedFront then 7 else 2
  | .frontPause => 6
  | .frontReloadBack => 5
  | .frontStoreBack _ => 4
  | .frontIndex => 1
  | .popLoad => 3
  | .popStoreCached _ => 2
  | .popStoreFront _ => 1
  | _ => 0

/-- The consumer is inside `spsc_front_block` or `spsc_pop`. -/
abbrev ConsumerPc.Turning (pc : ConsumerPc) : Prop := pc.phase = .front ∨ pc.phase = .pop

theorem State.turns_le (s : State) : s.turns ≤ 8 := by
  unfold State.turns
  cases s.consumer with
  | frontLoadBack | frontLoadFront back =>
    dsimp only
    split <;> decide
  | _ => simp only [Nat.reduceLeDiff, Nat.zero_le]

theorem State.turns_pos {s : State} (h : s.consumer.Turning) : 0 < s.turns := by
  unfold State.turns
  cases hp : s.consumer with
  | frontLoadBack | frontLoadFront back =>
    dsimp only
    split <;> decide
  | idle | emptyLoad | emptyStore | emptyTestBack | emptyTestFront | emptyDone | block | holding =>
    rw [hp] at h
    rcases h with h | h <;> cases h
  | _ => exact Nat.succ_pos _

/-- Nothing was published since the wait loop of `spsc_front_block` last loaded `back`. -/
def State.Fresh (s : State) : Prop :=
  match s.consumer with
  | .frontStoreBack back => back = s.q.back
  | _ => True

theorem consumerStep_enabled {s : State} (h : s.consumer.Turning) : ∃ t, consumerStep s = some t := by
  unfold consumerStep
  cases hp : s.consumer with
  | frontLoadFront back => by_cases hempty : back = s.q.consumerCachedFront <;> simp [hempty]
  | idle | emptyLoad | emptyStore | emptyTestBack | emptyTestFront | emptyDone | block | holding =>
    rw [hp] at h
    rcases h with h | h <;> cases h
  | _ => exact ⟨_, rfl⟩

theorem consumerStep_fresh {s t : State} (hstep : consumerStep s = some t) : t.Fresh := by
  unfold consumerStep at hstep
  cases hp : s.consumer with
  | frontReloadBack =>
    simp only [hp] at hstep
    cases hstep
    rfl
  | idle | emptyDone e | block p | holding p content => simp only [hp, reduceCtorEq] at hstep
  | frontLoadFront back =>
    simp only [hp] at hstep
    split at hstep <;> cases hstep <;> trivial
  | _ =>
    simp only [hp] at hstep
    cases hstep
    trivial

/-- Every step inside brings the operation nearer to its end, on a ring that holds a block. -/
theorem consumerStep_turns {s t : State} (hfresh : s.Fresh) (hin : s.consumer.Turning)
    (hblock : s.consumer.phase = .front → s.q.back ≠ s.q.consumerCachedFront)
    (hstep : consumerStep s = some t)
    (hphase : t.consumer.phase = s.consumer.phase) : t.turns < s.turns := by
  unfold consumerStep at hstep
  unfold State.Fresh at hfresh
  unfold State.turns
  cases hp : s.consumer with
  | frontLoadBack =>
    simp only [hp] at hstep
    cases hstep
    dsimp only
    split <;> omega
  | frontLoadFront back =>
    simp only [hp] at hstep
    split at hstep
    · next heq =>
      cases hstep
      simp only [heq, if_true]
      omega
    · next hne =>
      cases hstep
      simp only [hne, if_false]
      omega
  | frontStoreBack back =>
    simp only [hp] at hstep hfresh
    cases hstep
    rw [hfresh]
    simp only [if_neg (hblock (by rw [hp]; rfl))]
    omega
  | frontPause | frontReloadBack | popLoad | popStoreCached =>
    simp only [hp] at hstep
    cases hstep
    dsimp only
    omega
  | frontIndex | popStoreFront =>
    simp only [hp] at hstep
    cases hstep
    rw [hp] at hphase
    cases hphase
  | idle | emptyLoad | emptyStore | emptyTestBack | emptyTestFront | emptyDone | block | holding =>
    rw [hp] at hin
    rcases hin with h | h <;> cases h

/-- The producer's steps before the store of `back` change none of this. -/
theorem producerStep_turns {s t : State} (h : producerStep s = some t)
    (hpushed : t.pushed = s.pushed) : t.turns = s.turns ∧ (s.Fresh → t.Fresh) := by
  cases producerStep_move h with
  | within x y pc hphase => exact ⟨rfl, id⟩
  | handed hpc => exact ⟨rfl, id⟩
  | published p back hpc => exact absurd hpushed (by simp)

/-- The store that publishes a block is next. -/
def ProducerPc.publishes : ProducerPc → Bool
  | .pushStoreBack _ _ => true
  | _ => false

theorem producerStep_pushed {s t : State} (h : producerStep s = some t)
    (hnot : s.producer.publishes = false) : t.pushed = s.pushed := by
  cases producerStep_move h with
  | within | handed => rfl
  | published p back hpc =>
    rw [hpc] at hnot
    cases hnot

/-! ## The producer -/

/-- Steps that are left of `spsc_new_block` on a ring that is not full, at most, or of
`spsc_push`. The nine are for a `front` that was loaded while the ring was full. -/
def State.producerTurns (s : State) : Nat :=
  match s.producer with
  | .newBlockLoadBack =>
    if s.q.producerCachedBack - s.q.producerCachedFront = s.q.capacity then 8 else 3
  | .newBlockLoadFront back => if back - s.q.producerCachedFront = s.q.capacity then 7 else 2
  | .newBlockPause => 6
  | .newBlockReloadFront => 5
  | .newBlockStoreFront front =>
    if s.q.producerCachedBack - front = s.q.capacity then 9 else 4
  | .newBlockIndex => 1
  | .pushLoad _ => 3
  | .pushStoreCached _ _ => 2
  | .pushStoreBack _ _ => 1
  | _ => 0

/-- The producer is inside `spsc_new_block` or `spsc_push`. -/
abbrev ProducerPc.Turning (pc : ProducerPc) : Prop := pc.phase = .newBlock ∨ ∃ p, pc.phase = .push p

theorem State.producerTurns_le (s : State) : s.producerTurns ≤ 9 := by
  unfold State.producerTurns
  cases s.producer with
  | newBlockLoadBack | newBlockLoadFront back | newBlockStoreFront front =>
    dsimp only
    split <;> decide
  | _ => simp only [Nat.reduceLeDiff, Nat.zero_le]

theorem producerStep_enabled {s : State} (h : s.producer.Turning) : ∃ t, producerStep s = some t := by
  unfold producerStep
  cases hp : s.producer with
  | newBlockLoadFront back =>
    by_cases hfull : back - s.q.producerCachedFront = s.q.capacity <;> simp [hfull]
  | idle | block p =>
    rw [hp] at h
    rcases h with h | ⟨_, h⟩ <;> cases h
  | _ => exact ⟨_, rfl⟩

/-- In `spsc_new_block` the private copy of `back` is `back` itself. -/
theorem Inv.producerCachedBack_eq {c : Word} {s : State} (h : Inv c s)
    (hphase : s.producer.phase = .newBlock) : s.q.producerCachedBack = s.q.back := by
  obtain ⟨cached, _, _, _, hat⟩ := h.producer
  rw [h.back]
  cases hp : s.producer with
  | newBlockLoadBack | newBlockPause | newBlockReloadFront =>
    rw [hp] at hat
    exact hat
  | newBlockLoadFront | newBlockStoreFront | newBlockIndex =>
    rw [hp] at hat
    exact hat.1
  | _ =>
    rw [hp] at hphase
    cases hphase

/-- Every step brings the operation nearer to its end, on a ring that is not full. -/
theorem producerStep_producerTurns {c : Word} {s t : State} (h : Inv c s)
    (hroom : s.producer.phase = .newBlock → ¬ s.Full) (hstep : producerStep s = some t) :
    t.producerTurns < s.producerTurns := by
  unfold producerStep at hstep
  unfold State.producerTurns
  cases hp : s.producer with
  | newBlockLoadBack =>
    simp only [hp] at hstep
    cases hstep
    dsimp only
    split <;> omega
  | newBlockLoadFront back =>
    simp only [hp] at hstep
    split at hstep
    · next hfull =>
      cases hstep
      simp only [hfull, if_true]
      omega
    · next hfree =>
      cases hstep
      simp only [hfree, if_false]
      omega
  | newBlockReloadFront =>
    have hphase : s.producer.phase = .newBlock := by
      rw [hp]
      rfl
    simp only [hp] at hstep
    cases hstep
    dsimp only
    rw [if_neg (by rw [h.producerCachedBack_eq hphase]; exact hroom hphase)]
    omega
  | newBlockStoreFront front =>
    simp only [hp] at hstep
    cases hstep
    show (if s.q.producerCachedBack - front = s.q.capacity then 8 else 3) < _
    by_cases hfull : s.q.producerCachedBack - front = s.q.capacity
    · simp only [hfull, if_true]
      omega
    · simp only [hfull, if_false]
      omega
  | newBlockPause | newBlockIndex | pushLoad | pushStoreCached | pushStoreBack =>
    simp only [hp] at hstep
    cases hstep
    dsimp only
    omega
  | idle | block p => simp only [hp, reduceCtorEq] at hstep

/-- The consumer's steps change none of this. -/
theorem consumerStep_producerTurns {s t : State} (h : consumerStep s = some t) :
    t.producerTurns = s.producerTurns := by
  cases consumerStep_move h <;> rfl

/-- They can only make room. -/
theorem consumerStep_full {c : Word} {s t : State} (h : Inv c s) (hfree : ¬ s.Full)
    (hstep : consumerStep s = some t) : ¬ t.Full := by
  have hinv := consumerStep_inv h hstep
  rw [h.full_iff] at hfree
  rw [hinv.full_iff]
  have hle := h.pushed_le
  cases consumerStep_move hstep with
  | within x y pc hphase => exact hfree
  | handed hpc => exact hfree
  | released front hpc =>
    dsimp only
    omega

end MicroRosDemos.Spsc
