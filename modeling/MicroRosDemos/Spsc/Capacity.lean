import Mathlib.Data.Nat.Prime.Basic
import MicroRosDemos.Spsc.Fifo
import MicroRosDemos.Spsc.Phase

/-!
# How much of its region the queue uses

`spsc_init` takes the number of trailing zeros of the number `n` of whole blocks
for the logarithm of the capacity. So the capacity is the largest power of two
that divides `n`, and not the largest that does not exceed it, unless `n` is a
power of two (`spscInit_capacity_iff`). The producer notices: alone on a fresh
queue it fills the capacity and waits (`alone_waits`).
-/

namespace MicroRosDemos.Spsc

open MicroRosDemos.Lib

/-! ## The trailing zeros of the number of blocks -/

/-- What is left after the trailing zeros is odd. -/
theorem ctzUpTo_odd : ∀ fuel n, 0 < n → n < 2 ^ fuel → n / 2 ^ ctzUpTo fuel n % 2 = 1
  | 0, n, hpos, hlt => by omega
  | fuel + 1, n, hpos, hlt => by
    unfold ctzUpTo
    split
    · next heven =>
      rw [Nat.pow_succ, Nat.mul_comm, ← Nat.div_div_eq_div_mul]
      exact ctzUpTo_odd fuel (n / 2) (by omega) (by omega)
    · next hodd =>
      simp only [Nat.pow_zero, Nat.div_one]
      omega

/-- The largest power of two dividing `n` is more than half of `n` just when it is `n`. -/
theorem lt_two_pow_ctzll_iff {n : Nat} (hpos : 0 < n) (hlt : n < 2 ^ 64) :
    n < 2 * 2 ^ ctzll n ↔ n.isPowerOfTwo := by
  have hsize := Nat.two_pow_pos (ctzll n)
  obtain ⟨odd, hodd⟩ := two_pow_ctzll_dvd n
  have hrest : odd % 2 = 1 := by
    rw [← Nat.div_eq_of_eq_mul_right hsize hodd]
    exact ctzUpTo_odd 64 n hpos hlt
  constructor
  · intro hhalf
    have hone : odd = 1 := by
      have : 2 ^ ctzll n * odd < 2 ^ ctzll n * 2 := by omega
      have := Nat.lt_of_mul_lt_mul_left this
      omega
    exact ⟨ctzll n, by rw [hone, Nat.mul_one] at hodd; exact hodd⟩
  · rintro ⟨j, hj⟩
    have hdvd : odd ∣ 2 ^ j := ⟨2 ^ ctzll n, by rw [← hj, Nat.mul_comm]; exact hodd⟩
    obtain ⟨i, _, hi⟩ := (Nat.dvd_prime_pow Nat.prime_two).mp hdvd
    have hone : odd = 1 := by
      cases i with
      | zero => exact hi
      | succ i =>
        rw [Nat.pow_succ] at hi
        omega
    rw [hone, Nat.mul_one] at hodd
    omega

/-! ## The producer alone -/

/-- The wait loop of `spsc_new_block` has been entered. -/
def ProducerPc.Waits : ProducerPc → Prop
  | .newBlockPause | .newBlockReloadFront | .newBlockStoreFront _ => True
  | _ => False

/-- The actions of the producer. -/
def ProducerOnly (_ : State) : Act → Prop
  | .newBlock | .producer | .fill _ | .push => True
  | .empty | .emptyRet | .front | .consumer | .read | .pop => False

/-- Without a pop, the loop test of `spsc_new_block` finds the ring full when as
many blocks were pushed as the capacity. -/
theorem alone_full_iff {c : Word} {s : State} (h : Inv c s) (hpopped : s.popped = 0) :
    Counter.after c s.pushed.length - s.q.producerCachedFront = s.q.capacity ↔
      s.pushed.length = 2 ^ s.q.log2Capacity := by
  obtain ⟨cached, hfront, hle, hroom, _⟩ := h.producer
  have hlt := h.sound.capacity_lt
  have hzero : cached = 0 := by omega
  rw [hfront, hzero, h.sound.capacity_eq,
    Counter.after_sub_eq_iff c (Nat.zero_le _) (by omega) hlt, Nat.sub_zero]

/-- The producer alone on the queue: nothing was popped, and it waits only on a
full ring. -/
structure Alone (c : Word) (s : State) : Prop where
  inv : Inv c s
  popped : s.popped = 0
  waits : s.producer.Waits → s.pushed.length = 2 ^ s.q.log2Capacity

theorem producerStep_waits {c : Word} {s t : State} (h : Alone c s)
    (hstep : producerStep s = some t) (hw : t.producer.Waits) :
    t.pushed.length = 2 ^ t.q.log2Capacity := by
  unfold producerStep at hstep
  cases hp : s.producer with
  | idle | block p => simp only [hp, reduceCtorEq] at hstep
  | newBlockLoadFront back =>
    obtain ⟨_, _, _, _, hat⟩ := h.inv.producer
    simp only [hp, ProducerAt] at hstep hat
    split at hstep
    · next hfull =>
      cases hstep
      rw [hat.2] at hfull
      exact (alone_full_iff h.inv h.popped).mp hfull
    · cases hstep
      exact hw.elim
  | newBlockPause | newBlockReloadFront =>
    simp only [hp] at hstep
    cases hstep
    exact h.waits (by rw [hp]; trivial)
  | _ =>
    simp only [hp] at hstep
    cases hstep
    exact hw.elim

theorem step_alone {c : Word} {s t : State} {a : Act} (h : Alone c s) (honly : ProducerOnly s a)
    (hstep : step s a = some t) : Alone c t := by
  have hinv := step_inv h.inv hstep
  cases a with
  | producer =>
    exact ⟨hinv, (producerStep_frame hstep).2.2.2.1.trans h.popped, producerStep_waits h hstep⟩
  | newBlock | push =>
    simp only [step] at hstep
    split at hstep
    · cases hstep
      exact ⟨hinv, h.popped, False.elim⟩
    · cases hstep
  | fill bs =>
    simp only [step] at hstep
    split at hstep
    · split at hstep
      · cases hstep
        exact ⟨hinv, h.popped, h.waits⟩
      · cases hstep
    · cases hstep
  | _ => exact honly.elim

/-- One pair of `spsc_new_block` and `spsc_push`, while there is room. -/
theorem alone_pair {c : Word} {s : State} (h : Alone c s) (hidle : s.producer = .idle)
    (hroom : s.pushed.length < 2 ^ s.q.log2Capacity) :
    ∃ t, machine.Run ProducerOnly s t ∧ t.producer = .idle ∧
      t.pushed.length = s.pushed.length + 1 ∧ t.q.log2Capacity = s.q.log2Capacity := by
  obtain ⟨_, _, _, _, hat⟩ := h.inv.producer
  simp only [hidle, ProducerAt] at hat
  have hfree : s.q.producerCachedBack - s.q.producerCachedFront ≠ s.q.capacity := by
    rw [hat]
    exact fun hfull => Nat.ne_of_lt hroom ((alone_full_iff h.inv h.popped).mp hfull)
  have hexec : ∃ t, machine.exec s [.newBlock, .producer, .producer, .producer, .push, .producer,
      .producer, .producer] = some t ∧ t.producer = .idle ∧
        t.pushed.length = s.pushed.length + 1 ∧ t.q.log2Capacity = s.q.log2Capacity := by
    simp only [Machine.exec, machine, step, producerStep, hidle, if_neg hfree, Option.some.injEq,
      exists_eq_left', List.length_append, List.length_singleton, and_self]
  obtain ⟨t, hexec, hall⟩ := hexec
  refine ⟨t, Machine.run_of_exec _ (fun s => ?_) hexec, hall⟩
  simp only [List.forall_mem_cons, ProducerOnly, List.not_mem_nil, false_imp_iff, forall_true_iff,
    and_self]

theorem start_alone {q : SpscQueue} (hq : q.Sound) (c : Word) (mem : Mem) :
    Alone c (State.start (q.startAt c) mem) :=
  ⟨start_inv hq c mem, rfl, False.elim⟩

theorem run_alone {c : Word} {s t : State} (h : Alone c s) (hrun : machine.Run ProducerOnly s t) :
    Alone c t :=
  hrun.invariant _ h fun _ _ _ h honly hstep => step_alone h honly hstep

/-- The capacity is reached pair by pair. -/
theorem alone_pairs {c : Word} {s : State} (h : Alone c s) (hidle : s.producer = .idle)
    (hnone : s.pushed = []) {m : Nat} (hm : m ≤ 2 ^ s.q.log2Capacity) :
    ∃ t, machine.Run ProducerOnly s t ∧ t.producer = .idle ∧ t.pushed.length = m ∧
      t.q.log2Capacity = s.q.log2Capacity := by
  induction m with
  | zero => exact ⟨s, .refl, hidle, by rw [hnone]; rfl, rfl⟩
  | succ m ih =>
    obtain ⟨t, hrun, hidle, hlen, hsize⟩ := ih (Nat.le_of_succ_le hm)
    obtain ⟨u, hpair, hidle, hlen', hsize'⟩ := alone_pair (run_alone h hrun) hidle (by
      rw [hlen, hsize]
      exact hm)
    exact ⟨u, hrun.trans hpair, hidle, hlen'.trans (by rw [hlen]), hsize'.trans hsize⟩

/-- Alone on a fresh queue, the producer comes to wait, and when it waits it has
pushed as many blocks as the capacity. -/
theorem alone_waits {q : SpscQueue} (hq : q.Sound) (c : Word) (mem : Mem) :
    (∃ s, machine.Run ProducerOnly (State.start (q.startAt c) mem) s ∧ s.producer.Waits) ∧
    ∀ s, machine.Run ProducerOnly (State.start (q.startAt c) mem) s → s.producer.Waits →
      s.pushed.length = 2 ^ q.log2Capacity := by
  have hstart := start_alone hq c mem
  constructor
  · obtain ⟨s, hrun, hidle, hlen, hsize⟩ := alone_pairs hstart rfl rfl (Nat.le_refl _)
    have h := run_alone hstart hrun
    obtain ⟨_, _, _, _, hat⟩ := h.inv.producer
    simp only [hidle, ProducerAt] at hat
    have hfull : s.q.producerCachedBack - s.q.producerCachedFront = s.q.capacity := by
      rw [hat]
      exact (alone_full_iff h.inv h.popped).mpr (by rw [hlen, hsize])
    have hexec : machine.exec s [.newBlock, .producer, .producer] =
        some { s with producer := .newBlockPause } := by
      simp only [Machine.exec, machine, step, producerStep, hidle, if_pos hfull]
    refine ⟨_, hrun.trans (Machine.run_of_exec _ (fun s => ?_) hexec), trivial⟩
    simp only [List.forall_mem_cons, ProducerOnly, List.not_mem_nil, false_imp_iff,
      forall_true_iff, and_self]
  · intro s hrun hwaits
    have hgeometry := congrArg (·.2.2.2) (reach_geometry hrun.reach)
    exact ((run_alone hstart hrun).waits hwaits).trans (congrArg (2 ^ ·) hgeometry)

/-! ## The region and the capacity -/

/-- The largest power of two that does not exceed `n`. -/
def LargestPow (capacity n : Nat) : Prop := capacity ≤ n ∧ ∀ i, 2 ^ i ≤ n → 2 ^ i ≤ capacity

/-- The producer alone completes more than half of `n` pairs of `spsc_new_block`
and `spsc_push`, and no more than `n`, before it waits. -/
def FillsHalf (s₀ : State) (n : Nat) : Prop :=
  (∃ s, machine.Run ProducerOnly s₀ s ∧ s.producer.Waits) ∧
  ∀ s, machine.Run ProducerOnly s₀ s → s.producer.Waits →
    n < 2 * s.pushed.length ∧ s.pushed.length ≤ n

theorem largestPow_two_pow_iff {j n : Nat} (hle : 2 ^ j ≤ n) :
    LargestPow (2 ^ j) n ↔ n < 2 * 2 ^ j := by
  constructor
  · rintro ⟨_, hlargest⟩
    by_contra hbig
    have hnext := hlargest (j + 1) (by rw [Nat.pow_succ]; omega)
    have hpos := Nat.two_pow_pos j
    rw [Nat.pow_succ] at hnext
    omega
  · refine fun hhalf => ⟨hle, fun i hi => ?_⟩
    have hlt : 2 ^ i < 2 ^ (j + 1) := by
      rw [Nat.pow_succ]
      omega
    exact Nat.pow_le_pow_right (by omega) (Nat.le_of_lt_succ ((Nat.pow_lt_pow_iff_right (by omega)).mp hlt))

/-- What a successful `spsc_init` makes of the region. -/
theorem spscInit_blocks (q₀ : SpscQueue) {b e k : Nat} (hn : 1 ≤ (e - b) / 2 ^ k) :
    ∃ q, spscInit q₀ b e k = (true, q) ∧ q.log2Capacity = ctzll ((e - b) / 2 ^ k) := by
  have hsize := Nat.two_pow_pos k
  have hcut : 0 < (e - b) / 2 ^ k * 2 ^ k := Nat.mul_pos hn hsize
  unfold spscInit
  rw [if_neg (by omega)]
  refine ⟨_, rfl, ?_⟩
  rw [Nat.add_sub_cancel_left, Nat.mul_div_cancel _ hsize]

/-- **The capacity is what the region holds, rounded down to a power of two, just
when the region holds a power of two of blocks**; and just then the producer
completes more than half as many pairs as there are blocks before it waits. -/
theorem spscInit_capacity_iff (q₀ : SpscQueue) {b e k n : Nat} (hk : k < 64) (he : e < 2 ^ 64)
    (hblocks : n = (e - b) / 2 ^ k) (hn : 1 ≤ n) (mem : Mem) :
    ∃ q, spscInit q₀ b e k = (true, q) ∧
      (LargestPow (2 ^ q.log2Capacity) n ↔ n.isPowerOfTwo) ∧
      (FillsHalf (State.start q mem) n ↔ n.isPowerOfTwo) := by
  obtain ⟨q, hinit, hcap⟩ := spscInit_blocks q₀ (hblocks ▸ hn)
  rw [← hblocks] at hcap
  obtain ⟨hsound, _⟩ := spscInit_sound hk he hinit
  have hlt : n < 2 ^ 64 := by
    have := Nat.div_le_self (e - b) (2 ^ k)
    omega
  have hle : 2 ^ q.log2Capacity ≤ n := by
    rw [hcap]
    exact Nat.le_of_dvd hn (two_pow_ctzll_dvd n)
  have hhalf : n < 2 * 2 ^ q.log2Capacity ↔ n.isPowerOfTwo := by
    rw [hcap]
    exact lt_two_pow_ctzll_iff hn hlt
  refine ⟨q, hinit, (largestPow_two_pow_iff hle).trans hhalf, ?_⟩
  obtain ⟨hwaits, hall⟩ := alone_waits hsound 0 mem
  rw [← spscInit_startAt hinit] at hwaits hall
  rw [← hhalf]
  constructor
  · rintro ⟨_, hfills⟩
    obtain ⟨s, hrun, hw⟩ := hwaits
    rw [← hall s hrun hw]
    exact (hfills s hrun hw).1
  · refine fun hlt => ⟨hwaits, fun s hrun hw => ?_⟩
    rw [hall s hrun hw]
    exact ⟨hlt, hle⟩

/-- A header before `spsc_init`. -/
def blank : SpscQueue := ⟨0, 0, 0, 0, 0, 0, 0, 0, 0, 0⟩

/-- Four blocks are all used. -/
theorem spscInit_capacity_four :
    ∃ q, spscInit blank 0 8192 11 = (true, q) ∧ LargestPow (2 ^ q.log2Capacity) 4 ∧
      FillsHalf (State.start q fun _ => 0) 4 := by
  obtain ⟨q, hinit, hlargest, hfills⟩ := spscInit_capacity_iff blank (b := 0) (e := 8192) (k := 11)
    (n := 4) (by decide) (by decide) (by decide) (by decide) fun _ => 0
  exact ⟨q, hinit, hlargest.mpr ⟨2, rfl⟩, hfills.mpr ⟨2, rfl⟩⟩

/-- The regions that the two domains share hold 511 blocks of 2048 bytes behind the
header. The queue has room for one, and the producer waits after one push. -/
theorem spscInit_capacity_shipped :
    (0x100000 - sizeofSpscQueue) / 2 ^ 11 = 511 ∧
    ∃ q, spscInit blank sizeofSpscQueue 0x100000 11 = (true, q) ∧ ¬ LargestPow (2 ^ q.log2Capacity) 511 ∧
      ∃ s, machine.Run ProducerOnly (State.start q fun _ => 0) s ∧ s.producer.Waits ∧
        s.pushed.length = 1 := by
  have hinit : spscInit blank sizeofSpscQueue 0x100000 11 =
      (true, { blank with beginPtr := 320, endPtr := 0xFF940, log2BlockSize := 11 }) := by
    decide +kernel
  refine ⟨by decide, _, hinit, fun h => absurd (h.2 8 (by decide)) (by decide), ?_⟩
  obtain ⟨hsound, _⟩ := spscInit_sound (by decide) (by decide) hinit
  obtain ⟨⟨s, hrun, hwaits⟩, hall⟩ := alone_waits hsound 0 fun _ => 0
  exact ⟨s, hrun, hwaits, hall s hrun hwaits⟩

end MicroRosDemos.Spsc
