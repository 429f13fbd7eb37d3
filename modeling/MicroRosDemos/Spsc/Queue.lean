import MicroRosDemos.Lib.Counter

/-!
# The shared queue: `spsc_queue_t` and its operations' arithmetic

`util/spsc_queue.h` keeps a single-producer single-consumer ring in memory that
two protection domains share. The header holds six free-running 64-bit
counters, four of them private copies, and the geometry of the ring: where the
blocks begin, how large one is, how many there are. This module has the header,
`spsc_init`, and the pure parts of the other operations; the loads and stores
of the operations, one by one, are in `Spsc.Machine`.
-/

namespace MicroRosDemos.Spsc

open MicroRosDemos.Lib

/-- `uint64_t`. -/
abbrev Word := BitVec 64

/-- `spsc_queue_t`. The two pointers are addresses, the two logarithms the
`uint8_t` fields behind them. -/
structure SpscQueue where
  front : Word
  back : Word
  consumerCachedFront : Word
  consumerCachedBack : Word
  producerCachedFront : Word
  producerCachedBack : Word
  beginPtr : Nat
  endPtr : Nat
  log2BlockSize : Nat
  log2Capacity : Nat
deriving DecidableEq, Repr

/-- `sizeof(spsc_queue_t)`: five cache lines of 64 bytes. -/
def sizeofSpscQueue : Nat := 320

/-- Trailing zero bits of `n`, looking at no more than `fuel` bits. -/
def ctzUpTo : Nat → Nat → Nat
  | 0, _ => 0
  | fuel + 1, n => if n % 2 = 0 then ctzUpTo fuel (n / 2) + 1 else 0

/-- `__builtin_ctzll`. -/
def ctzll (n : Nat) : Nat := ctzUpTo 64 n

/-- `spsc_init`: what it returns, and the header it leaves behind. The region
is cut to whole blocks first, and the capacity is the largest power of two that
divides their number. -/
def spscInit (q : SpscQueue) (beginPtr endPtr log2BlockSize : Nat) : Bool × SpscQueue :=
  let blockSize := 2 ^ log2BlockSize
  let endPtr := beginPtr + (endPtr - beginPtr) / blockSize * blockSize
  if beginPtr = endPtr then (false, q)
  else
    (true,
      { beginPtr, endPtr
        front := 0, consumerCachedFront := 0, producerCachedFront := 0
        back := 0, consumerCachedBack := 0, producerCachedBack := 0
        log2BlockSize
        log2Capacity := ctzll ((endPtr - beginPtr) / blockSize) })

namespace SpscQueue

/-- `1ull << q->log2Capacity`. -/
def capacity (q : SpscQueue) : Word := 1#64 <<< q.log2Capacity

/-- `1ull << q->log2BlockSize`. -/
def blockSize (q : SpscQueue) : Word := 1#64 <<< q.log2BlockSize

/-- The pointer `spsc_new_block` and `spsc_front_block` compute from a counter. -/
def blockAt (q : SpscQueue) (counter : Word) : Nat :=
  q.beginPtr + ((counter &&& (q.capacity - 1)) * q.blockSize).toNat

/-- The header with all six counters at `c`: an empty queue. -/
def startAt (q : SpscQueue) (c : Word) : SpscQueue :=
  { q with
    front := c, consumerCachedFront := c, producerCachedFront := c
    back := c, consumerCachedBack := c, producerCachedBack := c }

/-- The geometry is usable: the shifts are defined and the blocks that the mask
selects lie inside the region. -/
structure Sound (q : SpscQueue) : Prop where
  log2BlockSize_lt : q.log2BlockSize < 64
  log2Capacity_lt : q.log2Capacity < 64
  fits : q.beginPtr + 2 ^ q.log2Capacity * 2 ^ q.log2BlockSize ≤ q.endPtr
  addressable : q.endPtr < 2 ^ 64

end SpscQueue

/-! ## The capacity divides the number of blocks -/

theorem two_pow_ctzUpTo_dvd : ∀ fuel n, 2 ^ ctzUpTo fuel n ∣ n
  | 0, _ => by simp [ctzUpTo]
  | fuel + 1, n => by
    unfold ctzUpTo
    split
    · next heven =>
      obtain ⟨k, hk⟩ := two_pow_ctzUpTo_dvd fuel (n / 2)
      refine ⟨k, ?_⟩
      rw [Nat.pow_succ, Nat.mul_right_comm, ← hk]
      omega
    · simp

theorem two_pow_ctzll_dvd (n : Nat) : 2 ^ ctzll n ∣ n := two_pow_ctzUpTo_dvd 64 n

theorem ctzll_lt {n : Nat} (hpos : 0 < n) (hlt : n < 2 ^ 64) : ctzll n < 64 := by
  have hle := Nat.le_of_dvd hpos (two_pow_ctzll_dvd n)
  exact (Nat.pow_lt_pow_iff_right (by omega)).mp (Nat.lt_of_le_of_lt hle hlt)

/-- The six counters that a successful `spsc_init` leaves are all zero. -/
theorem spscInit_startAt {q q' : SpscQueue} {b e k : Nat}
    (h : spscInit q b e k = (true, q')) : q' = q'.startAt 0 := by
  unfold spscInit at h
  dsimp only at h
  split at h
  · simp at h
  · simp only [Prod.mk.injEq, true_and] at h
    subst h
    rfl

/-- A successful `spsc_init` leaves a usable geometry inside the region it was given. -/
theorem spscInit_sound {q q' : SpscQueue} {b e k : Nat} (hk : k < 64) (he : e < 2 ^ 64)
    (h : spscInit q b e k = (true, q')) :
    q'.Sound ∧ q'.beginPtr = b ∧ q'.endPtr ≤ e ∧ q'.log2BlockSize = k := by
  unfold spscInit at h
  dsimp only at h
  split at h
  · simp at h
  next hne =>
    simp only [Prod.mk.injEq, true_and] at h
    subst h
    have hsize : 0 < 2 ^ k := Nat.two_pow_pos k
    have hcut : (e - b) / 2 ^ k * 2 ^ k ≤ e - b := Nat.div_mul_le_self _ _
    have hblocks : 0 < (e - b) / 2 ^ k := by
      rcases Nat.eq_zero_or_pos ((e - b) / 2 ^ k) with hz | hpos
      · simp [hz] at hne
      · exact hpos
    have hspan : 0 < e - b := by
      rcases Nat.eq_zero_or_pos (e - b) with hz | hpos
      · simp [hz] at hblocks
      · exact hpos
    have hcount : (b + (e - b) / 2 ^ k * 2 ^ k - b) / 2 ^ k = (e - b) / 2 ^ k := by
      rw [Nat.add_sub_cancel_left, Nat.mul_div_cancel _ hsize]
    simp only [hcount]
    have hlt : (e - b) / 2 ^ k < 2 ^ 64 :=
      Nat.lt_of_le_of_lt (Nat.div_le_self _ _) (by omega)
    refine ⟨⟨hk, ctzll_lt hblocks hlt, ?_, ?_⟩, trivial, ?_, trivial⟩
    · have := Nat.le_of_dvd hblocks (two_pow_ctzll_dvd ((e - b) / 2 ^ k))
      exact Nat.add_le_add_left (Nat.mul_le_mul_right _ this) _
    · show b + (e - b) / 2 ^ k * 2 ^ k < 2 ^ 64
      omega
    · show b + (e - b) / 2 ^ k * 2 ^ k ≤ e
      omega

/-! ## Where the blocks are -/

namespace SpscQueue

variable {q : SpscQueue}

theorem startAt_sound (h : q.Sound) (c : Word) : (q.startAt c).Sound :=
  ⟨h.1, h.2, h.3, h.4⟩

theorem one_shiftLeft_toNat {k : Nat} (h : k < 64) : (1#64 <<< k).toNat = 2 ^ k := by
  have hlt : 2 ^ k < 2 ^ 64 := Nat.pow_lt_pow_right (by omega) h
  rw [BitVec.toNat_shiftLeft, Nat.shiftLeft_eq]
  show 1 * 2 ^ k % 2 ^ 64 = 2 ^ k
  rw [Nat.one_mul, Nat.mod_eq_of_lt hlt]

theorem Sound.capacity_eq (h : q.Sound) : q.capacity = BitVec.ofNat 64 (2 ^ q.log2Capacity) := by
  apply BitVec.eq_of_toNat_eq
  have hlt : 2 ^ q.log2Capacity < 2 ^ 64 := Nat.pow_lt_pow_right (by omega) h.log2Capacity_lt
  rw [capacity, one_shiftLeft_toNat h.log2Capacity_lt, BitVec.toNat_ofNat, Nat.mod_eq_of_lt hlt]

theorem Sound.capacity_lt (h : q.Sound) : 2 ^ q.log2Capacity < 2 ^ 64 :=
  Nat.pow_lt_pow_right (by omega) h.log2Capacity_lt

theorem Sound.mask_toNat (h : q.Sound) : (q.capacity - 1).toNat = 2 ^ q.log2Capacity - 1 := by
  have hpos := Nat.two_pow_pos q.log2Capacity
  have hlt := h.capacity_lt
  rw [h.capacity_eq, BitVec.toNat_sub, BitVec.toNat_ofNat, Nat.mod_eq_of_lt hlt]
  show (2 ^ 64 - 1 + 2 ^ q.log2Capacity) % 2 ^ 64 = _
  omega

/-- The block of the `n`-th counter value after `c`. -/
theorem Sound.blockAt_after (h : q.Sound) (c : Word) (n : Nat) :
    q.blockAt (Counter.after c n) =
      q.beginPtr + (c.toNat + n) % 2 ^ q.log2Capacity * 2 ^ q.log2BlockSize := by
  have hfits := h.fits
  have haddr := h.addressable
  have hmod : (c.toNat + n) % 2 ^ q.log2Capacity < 2 ^ q.log2Capacity :=
    Nat.mod_lt _ (Nat.two_pow_pos _)
  have hmul : (c.toNat + n) % 2 ^ q.log2Capacity * 2 ^ q.log2BlockSize ≤
      2 ^ q.log2Capacity * 2 ^ q.log2BlockSize := Nat.mul_le_mul_right _ hmod.le
  unfold blockAt
  rw [BitVec.toNat_mul, Counter.after_and_mask c n h.log2Capacity_lt.le h.mask_toNat, blockSize,
    one_shiftLeft_toNat h.log2BlockSize_lt, Nat.mod_eq_of_lt (by omega)]

/-- Every block lies inside the region. -/
theorem Sound.blockAt_inside (h : q.Sound) (c : Word) (n : Nat) :
    q.beginPtr ≤ q.blockAt (Counter.after c n) ∧
      q.blockAt (Counter.after c n) + 2 ^ q.log2BlockSize ≤ q.endPtr := by
  have hfits := h.fits
  have hmod : (c.toNat + n) % 2 ^ q.log2Capacity < 2 ^ q.log2Capacity :=
    Nat.mod_lt _ (Nat.two_pow_pos _)
  have hmul : ((c.toNat + n) % 2 ^ q.log2Capacity + 1) * 2 ^ q.log2BlockSize ≤
      2 ^ q.log2Capacity * 2 ^ q.log2BlockSize := Nat.mul_le_mul_right _ hmod
  rw [h.blockAt_after, Nat.add_mul, Nat.one_mul] at *
  omega

/-- Counters that differ by less than the capacity have disjoint blocks. -/
theorem Sound.blockAt_disjoint (h : q.Sound) (c : Word) {m n : Nat} (hlt : m < n)
    (hnear : n - m < 2 ^ q.log2Capacity) :
    q.blockAt (Counter.after c m) + 2 ^ q.log2BlockSize ≤ q.blockAt (Counter.after c n) ∨
      q.blockAt (Counter.after c n) + 2 ^ q.log2BlockSize ≤ q.blockAt (Counter.after c m) := by
  rw [h.blockAt_after, h.blockAt_after]
  have hne : (c.toNat + m) % 2 ^ q.log2Capacity ≠ (c.toNat + n) % 2 ^ q.log2Capacity :=
    fun heq => Nat.ne_of_lt hlt (Counter.eq_of_residue_eq hlt.le hnear heq)
  generalize (c.toNat + m) % 2 ^ q.log2Capacity = i at hne ⊢
  generalize (c.toNat + n) % 2 ^ q.log2Capacity = j at hne ⊢
  rcases Nat.lt_or_gt_of_ne hne with hij | hij
  · have := Nat.mul_le_mul_right (2 ^ q.log2BlockSize) (Nat.succ_le_of_lt hij)
    rw [Nat.succ_mul] at this
    omega
  · have := Nat.mul_le_mul_right (2 ^ q.log2BlockSize) (Nat.succ_le_of_lt hij)
    rw [Nat.succ_mul] at this
    omega

end SpscQueue

end MicroRosDemos.Spsc
