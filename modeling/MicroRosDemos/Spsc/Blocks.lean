import MicroRosDemos.Spsc.Fifo

/-!
# Where the blocks are

A pointer that `spsc_new_block` or `spsc_front_block` returns is a counter, masked and
scaled. It is the beginning of one of the blocks that the region was cut into, whatever
the counters are and wherever they wrap, so no block reaches past the region or into
the header in front of it, and counters that can be in the ring together have different
blocks (`spsc_blocks_inside`).
-/

namespace MicroRosDemos.Spsc

open MicroRosDemos.Lib

variable {q q₀ : SpscQueue} {b e k : Nat} {s t : State}

/-- Between its return and the end of the operation that ends its use, a block is in the
hands of the producer or of the consumer. -/
def Handed (s : State) (p : Nat) : Prop :=
  s.producer.holds = some p ∨ s.consumer = .block p ∨ ∃ content, s.consumer = .holding p content

/-- A block of `2 ^ log2BlockSize` bytes of the ring, in a region from `b` to `e`. -/
structure IsBlock (q : SpscQueue) (b e p : Nat) : Prop where
  index : ∃ i, i < 2 ^ q.log2Capacity ∧ p = b + i * 2 ^ q.log2BlockSize
  inside : p + 2 ^ q.log2BlockSize ≤ e

/-- Nothing in front of the region is in a block. -/
theorem IsBlock.begin_le {p : Nat} (h : IsBlock q b e p) : b ≤ p := by
  obtain ⟨i, _, hp⟩ := h.index
  omega

/-- Every value of a counter is the start of some other one's count. -/
theorem after_sub_toNat (x y : Word) : Counter.after x (y - x).toNat = y := by
  unfold Counter.after
  rw [BitVec.ofNat_toNat, BitVec.setWidth_eq, BitVec.add_comm, BitVec.sub_add_cancel]

namespace SpscQueue

theorem blockAt_of_geometry {r : SpscQueue} (h : r.geometry = q.geometry) (counter : Word) :
    r.blockAt counter = q.blockAt counter := by
  have hbegin : r.beginPtr = q.beginPtr := congrArg (·.1) h
  have hsize : r.log2BlockSize = q.log2BlockSize := congrArg (·.2.2.1) h
  have hcapacity : r.log2Capacity = q.log2Capacity := congrArg (·.2.2.2) h
  unfold blockAt capacity blockSize
  rw [hbegin, hsize, hcapacity]

/-- Any counter selects one of the blocks. -/
theorem Sound.blockAt_isBlock (h : q.Sound) (counter : Word) :
    IsBlock q q.beginPtr q.endPtr (q.blockAt counter) := by
  have hat := h.blockAt_after counter 0
  have hin := (h.blockAt_inside counter 0).2
  rw [Counter.after_zero] at hat hin
  exact ⟨⟨_, Nat.mod_lt _ (Nat.two_pow_pos _), hat⟩, hin⟩

/-- Different counters that are closer than the capacity select disjoint blocks. -/
theorem Sound.blocks_disjoint (h : q.Sound) {x y : Word} (hne : x ≠ y) (hnear : y - x < q.capacity) :
    q.blockAt x + 2 ^ q.log2BlockSize ≤ q.blockAt y ∨ q.blockAt y + 2 ^ q.log2BlockSize ≤ q.blockAt x := by
  have hcap : q.capacity.toNat = 2 ^ q.log2Capacity := one_shiftLeft_toNat h.log2Capacity_lt
  have hlt : (y - x).toNat < 2 ^ q.log2Capacity := hcap ▸ hnear
  have hpos : 0 < (y - x).toNat := by
    rcases Nat.eq_zero_or_pos (y - x).toNat with hzero | hpos
    · refine absurd ?_ hne
      have := after_sub_toNat x y
      rwa [hzero, Counter.after_zero] at this
    · exact hpos
  have hdisjoint := h.blockAt_disjoint x hpos (by omega)
  rwa [Counter.after_zero, after_sub_toNat] at hdisjoint

end SpscQueue

/-- What is in somebody's hands is a block that a counter selects. -/
theorem Inv.handed_eq {c : Word} (h : Inv c s) {p : Nat} (hp : Handed s p) :
    ∃ counter, p = s.q.blockAt counter := by
  rcases hp with hp | hp | ⟨content, hp⟩
  · exact ⟨_, (h.holds_eq hp).1⟩
  · exact ⟨_, (h.blocks _ _ _ (h.front_block hp)).1⟩
  · exact ⟨_, (h.blocks _ _ _ (h.holding_block hp)).1⟩

/-- `spsc_init` that fails has stored nothing. -/
theorem spscInit_false (h : spscInit q₀ b e k = (false, q)) : q = q₀ := by
  unfold spscInit at h
  dsimp only at h
  split at h
  · exact (congrArg Prod.snd h).symm
  · cases h

/-- **Blocks stay inside the region.** For every region and every header: when `spsc_init`
fails, it leaves the header alone; and when it succeeds, every block that is handed out, in
every interleaving and from every common value of the counters, is the `i`-th block of the
region for an `i` below the capacity, and lies in the region whole; and any two counters that
differ, but by less than the capacity, select disjoint blocks. -/
theorem spsc_blocks_inside {q₀ : SpscQueue} {b e k : Nat} (hk : k < 64) (he : e < 2 ^ 64) :
    (∀ q, spscInit q₀ b e k = (false, q) → q = q₀) ∧
    ∀ q, spscInit q₀ b e k = (true, q) → q.log2BlockSize = k ∧
      (∀ c mem s, machine.Reach (State.start (q.startAt c) mem) s → ∀ p, Handed s p → IsBlock q b e p) ∧
      ∀ x y : Word, x ≠ y → y - x < q.capacity →
        q.blockAt x + 2 ^ k ≤ q.blockAt y ∨ q.blockAt y + 2 ^ k ≤ q.blockAt x := by
  refine ⟨fun q hinit => spscInit_false hinit, fun q hinit => ?_⟩
  obtain ⟨hsound, hbegin, hend, hsize⟩ := spscInit_sound hk he hinit
  refine ⟨hsize, fun c mem s hrun p hp => ?_, fun x y hne hnear => ?_⟩
  · have hinv := reach_inv (start_inv hsound c mem) hrun
    obtain ⟨counter, rfl⟩ := hinv.handed_eq hp
    have hgeometry : s.q.geometry = q.geometry := reach_geometry hrun
    have hblock := SpscQueue.blockAt_of_geometry hgeometry counter
    have hin := hsound.blockAt_isBlock counter
    rw [hblock]
    rw [hbegin] at hin
    exact ⟨hin.index, hin.inside.trans hend⟩
  · rw [← hsize]
    exact hsound.blocks_disjoint hne hnear

/-- The producer takes two blocks and pushes the first of them. -/
private def takeTwo : List Act :=
  let take : List Act := [.newBlock, .producer, .producer, .producer]
  take ++ [.push, .producer, .producer, .producer] ++ take

/-- A header over six blocks of 8 bytes at 64: the largest power of two that divides six
makes the capacity 2. -/
private def sixBlocks : SpscQueue := ⟨0, 0, 0, 0, 0, 0, 64, 112, 3, 1⟩

/-- The counters wrap between two blocks: the second is the first of the region. -/
theorem spsc_blocks_inside_wraps :
    ∃ s, machine.Reach (State.start (sixBlocks.startAt (2 ^ 64 - 1)) fun _ => 0) s ∧
      s.pushed.map Prod.fst = [72] ∧ s.producer = .block 64 ∧ IsBlock sixBlocks 64 115 64 := by
  have hinit : spscInit ⟨9, 9, 9, 9, 9, 9, 9, 9, 9, 9⟩ 64 115 3 = (true, sixBlocks) := by decide +kernel
  obtain ⟨s, hrun, hpushed, hproducer⟩ := machine.exists_reach
    (P := fun s => s.pushed.map Prod.fst = [72] ∧ s.producer = .block 64)
    (s := State.start (sixBlocks.startAt (2 ^ 64 - 1)) fun _ => 0) takeTwo (by decide +kernel)
  have hall := (spsc_blocks_inside (by decide) (by decide)).2 sixBlocks hinit
  exact ⟨s, hrun, hpushed, hproducer, hall.2.1 _ _ s hrun 64 (.inl (by rw [hproducer]; rfl))⟩

end MicroRosDemos.Spsc
