import MicroRosDemos.Spsc.Blocks
import MicroRosDemos.Spsc.Weak

/-!
# The memory orders are enough

What makes the queue safe when loads may return old stores. Each side goes by one store of
the other's counter (`Follows`). A store is older than the newest, so it only makes a side
wait longer; and once the fence is passed, the side knows all that the other knew when it
made the store. The accesses to a block are known to every later store of the counter that
gives the block away (`Touches`). Two accesses to one block by the two sides always have
such a store between them, by which the later side goes: they do not race.

So nothing races, whatever store each load returns, and what the sides see of each other
is still a bounded first-in first-out channel (`weak_fifo`). The machine of
`Spsc.Machine`, in which every load returns the newest store, is one way in which this one
can run (`reach_of_newest`).
-/

namespace MicroRosDemos.Spsc.Weak

open MicroRosDemos.Lib Views

/-- The stores of a counter that started at `c` and was raised `n` times. -/
structure Counts (c : Word) (stores : List (Store Atomic Side Word)) (n : Nat) : Prop where
  length : stores.length = n + 1
  value : ∀ i st, stores[i]? = some st → st.value = Counter.after c i

/-- The side `t` goes by the store `seen` of the counter `l`: `value` is the store's value, and
what the store knows is known to `t`, or will be after the next fence; while `t` `owns` a
block, the fence is behind it. -/
structure Follows (c : Word) (m : Shared) (t : Side) (l : Atomic) (value : Word) (owns : Prop)
    (seen : Nat) : Prop where
  value : value = Counter.after c seen
  coherent : seen ≤ (m.known t).now.1 l
  stored : seen < (m.stores l).length
  pending : ∀ st, (m.stores l)[seen]? = some st → st.view ≤ (m.known t).now ⊔ (m.known t).pending
  owned : owns → ∀ st, (m.stores l)[seen]? = some st → st.view ≤ (m.known t).now

/-- An access to the block of the counter's `j`-th value, known to each later store of `l`. -/
structure Touches (c : Word) (q : SpscQueue) (m : Shared) (l : Atomic) (j : Nat)
    (a : Access Side) : Prop where
  start : a.start = q.blockAt (Counter.after c j)
  length : a.length ≤ 2 ^ q.log2BlockSize
  known : ∀ i st, j < i → (m.stores l)[i]? = some st → st.view.Knows a

/-- The invariant of the queue over its memory. -/
structure Inv (c : Word) (w : State) : Prop where
  base : Spsc.Inv c w.base
  wf : w.shared.Wf
  fronts : Counts c (w.shared.stores .front) w.base.popped
  backs : Counts c (w.shared.stores .back) w.base.pushed.length
  producer : ∃ seen, w.base.pushed.length ≤ seen + 2 ^ w.base.q.log2Capacity ∧
    Follows c w.shared .producer .front (frontOf w.base) (∃ p, w.base.producer = .block p) seen
  consumer : ∃ seen, w.base.popped ≤ seen ∧
    Follows c w.shared .consumer .back (backOf w.base) (∃ p, w.base.consumer = .block p) seen
  fills : ∀ a ∈ w.shared.accesses, a.thread = .producer →
    ∃ j < w.base.popped + 2 ^ w.base.q.log2Capacity, Touches c w.base.q w.shared .back j a
  reads : ∀ a ∈ w.shared.accesses, a.thread = .consumer →
    ∃ j < w.base.pushed.length, Touches c w.base.q w.shared .front j a
  raced : w.shared.raced = false

variable {c : Word} {q : SpscQueue} {m m' : Shared} {t : Side} {l : Atomic} {value : Word}
  {owns owns' : Prop} {seen : Nat}

/-! ## What a side goes by -/

/-- More knowledge, and new stores behind the others, change nothing. -/
theorem Follows.mono (h : Follows c m t l value owns seen) (hext : m.Extends m')
    (howns : owns' → owns) : Follows c m' t l value owns' seen where
  value := h.value
  coherent := h.coherent.trans ((hext.now t).1 l)
  stored := Nat.lt_of_lt_of_le h.stored (hext.stores l).length_le
  pending st hst := by
    rw [hext.getElem? h.stored] at hst
    exact (h.pending st hst).trans (sup_le_sup (hext.now t) (hext.pending t))
  owned hown st hst := by
    rw [hext.getElem? h.stored] at hst
    exact (h.owned (howns hown) st hst).trans (hext.now t)

/-- Behind the fence, what the store knows is known. -/
theorem Follows.fence (h : Follows c m t l value owns seen) :
    Follows c (m.acquireFence t) t l value owns' seen where
  value := h.value
  coherent := h.coherent.trans ((Memory.acquireFence_extends.now t).1 l)
  stored := h.stored
  pending st hst := by
    rw [Memory.acquireFence_now]
    exact (h.pending st hst).trans le_sup_left
  owned _ st hst := by
    rw [Memory.acquireFence_now]
    exact h.pending st hst

/-- From a load on, a side goes by the store that was loaded. -/
theorem Follows.of_load {order : LoadOrder} {i : Nat}
    (hload : m.load t l order i = some (value, m'))
    (hvalue : ∀ st, (m.stores l)[i]? = some st → st.value = Counter.after c i)
    (howns : ¬ owns) : Follows c m' t l value owns i := by
  obtain ⟨st, hst, hval, _, rfl⟩ := Memory.load_some hload
  have hnow := Known.le_loaded_now (m.known t) l i order st.view
  have hview := Known.view_le_loaded (m.known t) l i order st.view
  refine ⟨hval ▸ hvalue st hst, ?_, (List.getElem?_eq_some_iff.mp hst).1, ?_, fun h => absurd h howns⟩
  · have honly := (le_sup_right.trans hnow).1 l
    simpa [View.only] using honly
  · intro st' hst'
    rw [hst] at hst'
    cases hst'
    simpa using hview

/-- The counter is raised once more. -/
theorem Counts.store {n : Nat} (h : Counts c (m.stores l) n) (hvalue : value = Counter.after c (n + 1)) :
    Counts c ((m.releaseStore t l value).stores l) (n + 1) := by
  rw [Memory.releaseStore_stores]
  refine ⟨by simp [h.length], fun i st hst => ?_⟩
  rcases getElem?_grown hst with hold | ⟨hlast, rfl⟩
  · exact h.value i st hold
  · rw [hlast, h.length]
    exact hvalue

/-! ## What is known of an access -/

theorem Touches.mono {j : Nat} {a : Access Side} (h : Touches c q m l j a)
    (hstores : ∀ (i : Nat) (st : Store Atomic Side Word), (m'.stores l)[i]? = some st →
      (m.stores l)[i]? = some st ∨ st.view.Knows a) :
    Touches c q m' l j a where
  start := h.start
  length := h.length
  known i st hi hst := (hstores i st hst).elim (h.known i st hi) id

/-- What the storing side has done lies behind its store. -/
theorem Touches.store {j : Nat} {a : Access Side} (h : Touches c q m l j a) (hwf : m.Wf)
    (ha : a ∈ m.accesses) (hthread : a.thread = t) :
    Touches c q (m.releaseStore t l value) l j a := by
  refine h.mono fun i st hst => ?_
  rw [Memory.releaseStore_stores] at hst
  rcases getElem?_grown hst with hold | ⟨_, rfl⟩
  · exact .inl hold
  · exact .inr (hthread ▸ hwf.releaseStore.own a ha)

/-- A store elsewhere says nothing of it. -/
theorem Touches.store_ne {j : Nat} {a : Access Side} {k : Atomic} (h : Touches c q m l j a)
    (hne : l ≠ k) : Touches c q (m.releaseStore t k value) l j a :=
  h.mono fun i st hst => .inl (by rwa [Memory.releaseStore_stores_ne hne] at hst)

theorem Touches.of_geometry {q' : SpscQueue} {j : Nat} {a : Access Side}
    (h : Touches c q m l j a) (hq : q'.geometry = q.geometry) : Touches c q' m l j a where
  start := h.start.trans (SpscQueue.blockAt_of_geometry hq _).symm
  length := (congrArg (·.2.2.1) hq : q'.log2BlockSize = q.log2BlockSize) ▸ h.length
  known := h.known

/-! ## What the invariant says of a side -/

namespace Inv

variable {w : State}

/-- The store that the producer goes by is the one that its private copy came from. -/
theorem cached_front (h : Inv c w) (hfront : frontOf w.base = w.base.q.producerCachedFront) :
    ∃ seen, seen ≤ w.base.popped ∧ w.base.pushed.length ≤ seen + 2 ^ w.base.q.log2Capacity ∧
      Follows c w.shared .producer .front (frontOf w.base) (∃ p, w.base.producer = .block p) seen ∧
      ProducerAt c w.base.q w.base.pushed.length w.base.popped seen w.base.producer := by
  obtain ⟨seen, hroom, hfollows⟩ := h.producer
  obtain ⟨cached, hcached, hle, hroom', hat⟩ := h.base.producer
  have hpopped : seen ≤ w.base.popped := by
    have := hfollows.stored
    have := h.fronts.length
    omega
  have hle' := h.base.popped_le
  have hcap := h.base.sound.capacity_lt
  have heq : cached = seen := by
    refine Counter.eq_of_after_eq c ?_ ?_ ?_
    · omega
    · omega
    · rw [← hcached, ← hfront]
      exact hfollows.value
  exact ⟨seen, hpopped, hroom, hfollows, heq ▸ hat⟩

/-- The store that the consumer goes by is the one that its private copy came from. -/
theorem cached_back (h : Inv c w) (hback : backOf w.base = w.base.q.consumerCachedBack) :
    ∃ seen, w.base.popped ≤ seen ∧ seen ≤ w.base.pushed.length ∧
      Follows c w.shared .consumer .back (backOf w.base) (∃ p, w.base.consumer = .block p) seen ∧
      ConsumerAt c w.base.q w.base.pushed w.base.popped seen w.base.consumer := by
  obtain ⟨seen, hpopped, hfollows⟩ := h.consumer
  obtain ⟨cached, hcached, hlo, hhi, hat⟩ := h.base.consumer
  have hpushed : seen ≤ w.base.pushed.length := by
    have := hfollows.stored
    have := h.backs.length
    omega
  have hle := h.base.pushed_le
  have hcap := h.base.sound.capacity_lt
  have heq : cached = seen := by
    refine Counter.eq_of_after_eq c ?_ ?_ ?_
    · omega
    · omega
    · rw [← hcached, ← hback]
      exact hfollows.value
  exact ⟨seen, hpopped, hpushed, hfollows, heq ▸ hat⟩

/-- Two accesses to blocks of counter values that are closer than the capacity do not meet. -/
theorem not_overlap (h : Inv c w) {i j : Nat} (hlt : i < j)
    (hnear : j - i < 2 ^ w.base.q.log2Capacity) {length length' : Nat}
    (hlen : length ≤ w.base.size) (hlen' : length' ≤ w.base.size) :
    ¬ Overlap (w.base.q.blockAt (Counter.after c i)) length
        (w.base.q.blockAt (Counter.after c j)) length' ∧
      ¬ Overlap (w.base.q.blockAt (Counter.after c j)) length
        (w.base.q.blockAt (Counter.after c i)) length' := by
  have hdisjoint := h.base.sound.blockAt_disjoint c hlt hnear
  unfold Overlap State.size at *
  constructor <;> omega

/-- What overlaps the block that is being filled is known to the producer. -/
theorem fill_knows (h : Inv c w) {p : Nat} (hp : w.base.producer = .block p) {length : Nat}
    (hlen : length ≤ w.base.size) {a : Access Side} (ha : a ∈ w.shared.accesses)
    (hoverlap : Overlap a.start a.length p length) : (w.shared.known .producer).now.Knows a := by
  cases hthread : a.thread with
  | producer => exact hthread ▸ h.wf.own a ha
  | consumer =>
    obtain ⟨seen, _, _, hfollows, hat⟩ := h.cached_front (by simp [frontOf, hp])
    rw [hp] at hat
    obtain ⟨_, hroom, hblock⟩ := hat
    obtain ⟨j, hj, htouches⟩ := h.reads a ha hthread
    -- the value of the counter before the read is at least one capacity behind
    have hfar : j < seen := by
      rcases Nat.lt_or_ge (w.base.pushed.length - j) (2 ^ w.base.q.log2Capacity) with hnear | hfar
      · rw [htouches.start, hblock] at hoverlap
        exact absurd hoverlap (h.not_overlap hj hnear htouches.length hlen).1
      · omega
    have hst := List.getElem?_eq_getElem hfollows.stored
    exact (htouches.known _ _ hfar hst).mono (hfollows.owned ⟨p, hp⟩ _ hst)

/-- What was written in the block that is being read is known to the consumer. -/
theorem read_knows (h : Inv c w) {p : Nat} (hc : w.base.consumer = .block p) {a : Access Side}
    (ha : a ∈ w.shared.accesses) (hoverlap : Overlap a.start a.length p w.base.size) :
    (w.shared.known .consumer).now.Knows a := by
  cases hthread : a.thread with
  | consumer => exact hthread ▸ h.wf.own a ha
  | producer =>
    obtain ⟨seen, _, _, hfollows, hat⟩ := h.cached_back (by simp [backOf, hc])
    rw [hc] at hat
    obtain ⟨_, hfilled, hblock⟩ := hat
    obtain ⟨j, hj, htouches⟩ := h.fills a ha hthread
    -- the block is not yet given away again
    have hbefore : j < seen := by
      rcases Nat.lt_or_ge j seen with hlt | hge
      · exact hlt
      · rw [htouches.start, hblock] at hoverlap
        exact absurd hoverlap
          (h.not_overlap (Nat.lt_of_lt_of_le hfilled hge) (by omega) htouches.length le_rfl).2
    have hst := List.getElem?_eq_getElem hfollows.stored
    exact (htouches.known _ _ hbefore hst).mono (hfollows.owned ⟨p, hc⟩ _ hst)

/-! ## The steps -/

/-- A step that makes no store and no access, and leaves the histories as they are. -/
theorem learn (h : Inv c w) {s : Spsc.State} (hbase : Spsc.Inv c s) (hwf : m.Wf)
    (hstores : m.stores = w.shared.stores) (haccesses : m.accesses = w.shared.accesses)
    (hraced : m.raced = w.shared.raced) (hpushed : s.pushed = w.base.pushed)
    (hpopped : s.popped = w.base.popped) (hgeometry : s.q.geometry = w.base.q.geometry)
    (hproducer : ∃ seen, w.base.pushed.length ≤ seen + 2 ^ w.base.q.log2Capacity ∧
      Follows c m .producer .front (frontOf s) (∃ p, s.producer = .block p) seen)
    (hconsumer : ∃ seen, w.base.popped ≤ seen ∧
      Follows c m .consumer .back (backOf s) (∃ p, s.consumer = .block p) seen) :
    Inv c ⟨s, m⟩ := by
  have hcapacity : s.q.log2Capacity = w.base.q.log2Capacity := congrArg (·.2.2.2) hgeometry
  refine ⟨hbase, hwf, ?_, ?_, ?_, ?_, ?_, ?_, hraced.trans h.raced⟩
  · rw [hstores, hpopped]
    exact h.fronts
  · rw [hstores, hpushed]
    exact h.backs
  · rw [hpushed, hcapacity]
    exact hproducer
  · rw [hpopped]
    exact hconsumer
  · intro a ha hthread
    obtain ⟨j, hj, htouches⟩ := h.fills a (haccesses ▸ ha) hthread
    rw [hpopped, hcapacity]
    exact ⟨j, hj, (htouches.of_geometry hgeometry).mono fun i st hst => .inl (hstores ▸ hst)⟩
  · intro a ha hthread
    obtain ⟨j, hj, htouches⟩ := h.reads a (haccesses ▸ ha) hthread
    rw [hpushed]
    exact ⟨j, hj, (htouches.of_geometry hgeometry).mono fun i st hst => .inl (hstores ▸ hst)⟩

theorem quiet (h : Inv c w) {a : Spsc.Act} {t : Spsc.State} (hstep : Spsc.step w.base a = some t)
    (hquiet : Quiet w.base t) : Inv c ⟨t, w.shared⟩ := by
  have hext := Memory.Extends.refl w.shared
  obtain ⟨seen, hroom, hfront⟩ := h.producer
  obtain ⟨seen', hpopped, hback⟩ := h.consumer
  refine h.learn (step_inv h.base hstep) h.wf rfl rfl rfl hquiet.pushed hquiet.popped
    (step_geometry hstep) ⟨seen, hroom, ?_⟩ ⟨seen', hpopped, ?_⟩
  · exact hquiet.front ▸ hfront.mono hext fun ⟨p, hp⟩ => ⟨p, hquiet.producer p hp⟩
  · exact hquiet.back ▸ hback.mono hext fun ⟨p, hp⟩ => ⟨p, hquiet.consumer hp⟩

/-- A side is told something by other means than the queue's. -/
theorem receive (h : Inv c w) {v : View Atomic Side} (hv : w.shared.Within v) :
    Inv c { w with shared := w.shared.receive t v } := by
  obtain ⟨seen, hroom, hfront⟩ := h.producer
  obtain ⟨seen', hpopped, hback⟩ := h.consumer
  exact h.learn h.base (h.wf.receive hv) rfl rfl rfl rfl rfl rfl
    ⟨seen, hroom, hfront.mono Memory.receive_extends id⟩
    ⟨seen', hpopped, hback.mono Memory.receive_extends id⟩

/-- The producer loads a store of `front`, which is not older than the one it went by. -/
theorem loadFront (h : Inv c w) {i : Nat} {front : Word}
    (hp : w.base.producer = .newBlockReloadFront)
    (hload : w.shared.load .producer .front .relaxed i = some (front, m)) :
    Inv c ⟨{ w.base with producer := .newBlockStoreFront front }, m⟩ := by
  obtain ⟨seen, hpopped, hroom, hfollows, hat⟩ := h.cached_front (by simp [frontOf, hp])
  obtain ⟨seen', hpopped', hback⟩ := h.consumer
  have hext := Memory.load_extends hload
  have hnew : Follows c m .producer .front front False i :=
    .of_load hload (fun st hst => h.fronts.value i st hst) id
  obtain ⟨st, hst, hvalue, hle, rfl⟩ := Memory.load_some hload
  have hold : seen ≤ i := hfollows.coherent.trans hle
  have hnewest : i ≤ w.base.popped := by
    have := (List.getElem?_eq_some_iff.mp hst).1
    have := h.fronts.length
    omega
  have hcached : w.base.q.producerCachedFront = Counter.after c seen := by
    have hfront := hfollows.value
    simpa only [frontOf, hp] using hfront
  rw [hp] at hat
  refine h.learn ?_ (h.wf.load hload) rfl rfl rfl rfl rfl rfl ⟨i, by omega, ?_⟩
    ⟨seen', hpopped', hback.mono hext id⟩
  · exact h.base.producer_private
      ⟨seen, hcached, hpopped, hroom, hat, i, hold, hnewest, hnew.value⟩
  · exact ⟨hnew.value, hnew.coherent, hnew.stored, hnew.pending, by rintro ⟨_, hblock⟩; cases hblock⟩

/-- The consumer loads a store of `back`, which is not older than the one it went by. -/
theorem loadBack (h : Inv c w) {i : Nat} {order : LoadOrder} {back : Word} {pc : ConsumerPc}
    (hc : w.base.consumer = .emptyLoad ∧ pc = .emptyStore back ∨
      w.base.consumer = .frontReloadBack ∧ pc = .frontStoreBack back)
    (hload : w.shared.load .consumer .back order i = some (back, m)) :
    Inv c ⟨{ w.base with consumer := pc }, m⟩ := by
  have hof : backOf w.base = w.base.q.consumerCachedBack := by
    rcases hc with ⟨hc, _⟩ | ⟨hc, _⟩ <;> simp only [backOf, hc]
  obtain ⟨seen, hpopped, hpushed, hfollows, hat⟩ := h.cached_back hof
  obtain ⟨seen', hroom, hfront⟩ := h.producer
  have hext := Memory.load_extends hload
  have hnew : Follows c m .consumer .back back False i :=
    .of_load hload (fun st hst => h.backs.value i st hst) id
  obtain ⟨st, hst, hvalue, hle, rfl⟩ := Memory.load_some hload
  have hold : seen ≤ i := hfollows.coherent.trans hle
  have hnewest : i ≤ w.base.pushed.length := by
    have := (List.getElem?_eq_some_iff.mp hst).1
    have := h.backs.length
    omega
  have hcached : w.base.q.consumerCachedBack = Counter.after c seen := by
    rw [← hof]
    exact hfollows.value
  have hbase : Spsc.Inv c { w.base with consumer := pc } := by
    rcases hc with ⟨hc, rfl⟩ | ⟨hc, rfl⟩
    · rw [hc] at hat
      exact h.base.consumer_private
        ⟨seen, hcached, hpopped, hpushed, hat, i, hold, hnewest, hnew.value⟩ (by rw [hc]; rfl)
    · rw [hc] at hat
      exact h.base.consumer_private
        ⟨seen, hcached, hpopped, hpushed, hat, i, hold, hnewest, hnew.value⟩ (by rw [hc]; rfl)
  refine h.learn hbase (h.wf.load hload) rfl rfl rfl rfl rfl rfl
    ⟨seen', hroom, hfront.mono hext id⟩ ⟨i, by omega, ?_⟩
  rcases hc with ⟨_, rfl⟩ | ⟨_, rfl⟩
  · exact ⟨hnew.value, hnew.coherent, hnew.stored, hnew.pending, by rintro ⟨_, hblock⟩; cases hblock⟩
  · exact ⟨hnew.value, hnew.coherent, hnew.stored, hnew.pending, by rintro ⟨_, hblock⟩; cases hblock⟩

/-- The producer leaves the loop of `spsc_new_block`. -/
theorem newBlock (h : Inv c w) (hp : w.base.producer = .newBlockIndex) :
    Inv c
      ⟨{ w.base with producer := .block (w.base.q.blockAt w.base.q.producerCachedBack) },
        w.shared.acquireFence .producer⟩ := by
  obtain ⟨seen, hroom, hfront⟩ := h.producer
  obtain ⟨seen', hpopped, hback⟩ := h.consumer
  have hvalue : frontOf w.base = w.base.q.producerCachedFront := by simp only [frontOf, hp]
  refine h.learn ?_ h.wf.acquireFence rfl rfl rfl rfl rfl rfl ⟨seen, hroom, ?_⟩
    ⟨seen', hpopped, hback.mono Memory.acquireFence_extends id⟩
  · exact step_inv h.base (a := .producer) (by simp [Spsc.step, Spsc.producerStep, hp])
  · exact (hvalue ▸ hfront).fence

/-- The consumer leaves the loop of `spsc_front_block`. -/
theorem frontBlock (h : Inv c w) (hc : w.base.consumer = .frontIndex) :
    Inv c
      ⟨{ w.base with consumer := .block (w.base.q.blockAt w.base.q.consumerCachedFront) },
        w.shared.acquireFence .consumer⟩ := by
  obtain ⟨seen, hroom, hfront⟩ := h.producer
  obtain ⟨seen', hpopped, hback⟩ := h.consumer
  have hvalue : backOf w.base = w.base.q.consumerCachedBack := by simp only [backOf, hc]
  refine h.learn ?_ h.wf.acquireFence rfl rfl rfl rfl rfl rfl
    ⟨seen, hroom, hfront.mono Memory.acquireFence_extends id⟩ ⟨seen', hpopped, ?_⟩
  · exact step_inv h.base (a := .consumer) (by simp [Spsc.step, Spsc.consumerStep, hc])
  · exact (hvalue ▸ hback).fence

/-- The producer gives its block away. -/
theorem push (h : Inv c w) {p : Nat} {back : Word} (hp : w.base.producer = .pushStoreBack p back) :
    Inv c
      ⟨{ w.base with
          q := { w.base.q with back := back }, producer := .idle
          pushed := w.base.pushed ++ [(p, w.base.mem.read p w.base.size)] },
        w.shared.releaseStore .producer .back back⟩ := by
  obtain ⟨seen, _, _, hfront, hat⟩ := h.cached_front (by simp [frontOf, hp])
  obtain ⟨seen', hpopped, hback⟩ := h.consumer
  have hvalue : frontOf w.base = w.base.q.producerCachedFront := by simp only [frontOf, hp]
  rw [hp] at hat
  obtain ⟨_, hroom, _, hnew⟩ := hat
  have hext : w.shared.Extends (w.shared.releaseStore .producer .back back) :=
    Memory.releaseStore_extends
  have hlength : (w.base.pushed ++ [(p, w.base.mem.read p w.base.size)]).length =
      w.base.pushed.length + 1 := List.length_append
  refine ⟨?_, h.wf.releaseStore, h.fronts, ?_, ⟨seen, ?_, ?_⟩, ⟨seen', hpopped, ?_⟩, ?_, ?_, h.raced⟩
  · exact step_inv h.base (a := .producer) (by simp [Spsc.step, Spsc.producerStep, hp])
  · rw [hlength]
    exact h.backs.store hnew
  · rw [hlength]
    exact hroom
  · rw [hvalue] at hfront
    refine hfront.mono hext ?_
    rintro ⟨_, hblock⟩
    cases hblock
  · exact hback.mono hext id
  · intro a ha hthread
    obtain ⟨j, hj, htouches⟩ := h.fills a ha hthread
    exact ⟨j, hj, (htouches.store h.wf ha hthread).of_geometry rfl⟩
  · intro a ha hthread
    obtain ⟨j, hj, htouches⟩ := h.reads a ha hthread
    rw [hlength]
    exact ⟨j, Nat.lt_add_right _ hj, (htouches.store_ne (by decide)).of_geometry rfl⟩

/-- The consumer gives its block back. -/
theorem pop (h : Inv c w) {front : Word} (hc : w.base.consumer = .popStoreFront front) :
    Inv c
      ⟨{ w.base with
          q := { w.base.q with front := front }, consumer := .idle
          popped := w.base.popped + 1 },
        w.shared.releaseStore .consumer .front front⟩ := by
  obtain ⟨seen, hroom, hfront⟩ := h.producer
  obtain ⟨seen', _, _, hback, hat⟩ := h.cached_back (by simp [backOf, hc])
  have hvalue : backOf w.base = w.base.q.consumerCachedBack := by simp only [backOf, hc]
  rw [hc] at hat
  obtain ⟨_, hfilled, hnew⟩ := hat
  have hext : w.shared.Extends (w.shared.releaseStore .consumer .front front) :=
    Memory.releaseStore_extends
  refine ⟨?_, h.wf.releaseStore, h.fronts.store hnew, h.backs, ⟨seen, hroom, hfront.mono hext id⟩,
    ⟨seen', hfilled, ?_⟩, ?_, ?_, h.raced⟩
  · exact step_inv h.base (a := .consumer) (by simp [Spsc.step, Spsc.consumerStep, hc])
  · rw [hvalue] at hback
    refine hback.mono hext ?_
    rintro ⟨_, hblock⟩
    cases hblock
  · intro a ha hthread
    obtain ⟨j, hj, htouches⟩ := h.fills a ha hthread
    refine ⟨j, hj.trans_le ?_, (htouches.store_ne (by decide)).of_geometry rfl⟩
    exact Nat.add_le_add_right (Nat.le_succ _) _
  · intro a ha hthread
    obtain ⟨j, hj, htouches⟩ := h.reads a ha hthread
    exact ⟨j, hj, (htouches.store h.wf ha hthread).of_geometry rfl⟩

/-- The producer writes to its block. -/
theorem fill (h : Inv c w) {p : Nat} {bs : List Byte} (hp : w.base.producer = .block p)
    (hlen : bs.length ≤ w.base.size) :
    Inv c
      ⟨{ w.base with mem := w.base.mem.write p bs },
        w.shared.access .producer true p bs.length⟩ := by
  obtain ⟨seen, hroom, hfront⟩ := h.producer
  obtain ⟨seen', hpopped, hback⟩ := h.consumer
  have hext : w.shared.Extends (w.shared.access .producer true p bs.length) := Memory.access_extends
  refine ⟨?_, h.wf.access, h.fronts, h.backs, ⟨seen, hroom, hfront.mono hext id⟩,
    ⟨seen', hpopped, hback.mono hext id⟩, ?_, ?_, ?_⟩
  · exact step_inv h.base (a := .fill bs) (by simp [Spsc.step, hp, hlen])
  · intro a ha hthread
    rcases List.mem_append.mp ha with hold | hnew
    · obtain ⟨j, hj, htouches⟩ := h.fills a hold hthread
      exact ⟨j, hj, htouches.mono fun _ _ hst => .inl hst⟩
    · cases List.mem_singleton.mp hnew
      obtain ⟨hblock, hfree⟩ := h.base.holds_eq (p := p) (by rw [hp]; rfl)
      refine ⟨_, hfree, hblock, hlen, fun i st hi hst => ?_⟩
      have hin : i < (w.shared.stores .back).length := (List.getElem?_eq_some_iff.mp hst).1
      rw [h.backs.length] at hin
      exact absurd hi (Nat.not_lt_of_le (Nat.le_of_lt_succ hin))
  · intro a ha hthread
    rcases List.mem_append.mp ha with hold | hnew
    · obtain ⟨j, hj, htouches⟩ := h.reads a hold hthread
      exact ⟨j, hj, htouches.mono fun _ _ hst => .inl hst⟩
    · cases List.mem_singleton.mp hnew
      cases hthread
  · exact Memory.access_not_raced h.raced fun a ha _ => h.fill_knows hp hlen ha

/-- The consumer reads its block. -/
theorem read (h : Inv c w) {p : Nat} (hc : w.base.consumer = .block p) :
    Inv c
      ⟨{ w.base with
          consumer := .holding p (w.base.mem.read p w.base.size)
          taken := w.base.taken ++ [w.base.mem.read p w.base.size] },
        w.shared.access .consumer false p w.base.size⟩ := by
  obtain ⟨seen, hroom, hfront⟩ := h.producer
  obtain ⟨seen', hpopped, hpushed, hback, hat⟩ := h.cached_back (by simp [backOf, hc])
  have hvalue : backOf w.base = w.base.q.consumerCachedBack := by simp only [backOf, hc]
  rw [hc] at hat
  obtain ⟨_, hfilled, hblock⟩ := hat
  have hext : w.shared.Extends (w.shared.access .consumer false p w.base.size) :=
    Memory.access_extends
  refine ⟨?_, h.wf.access, h.fronts, h.backs, ⟨seen, hroom, hfront.mono hext id⟩,
    ⟨seen', hpopped, ?_⟩, ?_, ?_, ?_⟩
  · exact step_inv h.base (a := .read) (by simp [Spsc.step, hc])
  · rw [hvalue] at hback
    refine hback.mono hext ?_
    rintro ⟨_, hblock⟩
    cases hblock
  · intro a ha hthread
    rcases List.mem_append.mp ha with hold | hnew
    · obtain ⟨j, hj, htouches⟩ := h.fills a hold hthread
      exact ⟨j, hj, htouches.mono fun _ _ hst => .inl hst⟩
    · cases List.mem_singleton.mp hnew
      cases hthread
  · intro a ha hthread
    rcases List.mem_append.mp ha with hold | hnew
    · obtain ⟨j, hj, htouches⟩ := h.reads a hold hthread
      exact ⟨j, hj, htouches.mono fun _ _ hst => .inl hst⟩
    · cases List.mem_singleton.mp hnew
      refine ⟨_, hfilled.trans_le hpushed, hblock, le_rfl, fun i st hi hst => ?_⟩
      have hin : i < (w.shared.stores .front).length := (List.getElem?_eq_some_iff.mp hst).1
      rw [h.fronts.length] at hin
      exact absurd hi (Nat.not_lt_of_le (Nat.le_of_lt_succ hin))
  · exact Memory.access_not_raced h.raced fun a ha _ => h.read_knows hc ha

theorem move {w' : State} (h : Inv c w) (hmove : Move w w') : Inv c w' := by
  cases hmove with
  | quiet hstep hquiet => exact h.quiet hstep hquiet
  | loadFront hp hload => exact h.loadFront hp hload
  | loadBack hc hload => exact h.loadBack hc hload
  | newBlock hp => exact h.newBlock hp
  | frontBlock hc => exact h.frontBlock hc
  | push hp => exact h.push hp
  | pop hc => exact h.pop hc
  | fill hp hlen => exact h.fill hp hlen
  | read hc => exact h.read hc

end Inv

/-- An initialised queue, whatever its counters are. -/
theorem start_inv (hq : q.Sound) (c : Word) (mem : Mem) : Inv c (.start (q.startAt c) mem) := by
  have hcounts : ∀ l, Counts c ((State.start (q.startAt c) mem).shared.stores l) 0 := by
    intro l
    refine ⟨rfl, fun i st hst => ?_⟩
    cases i with
    | zero =>
      cases hst
      rw [Counter.after_zero]
      cases l <;> rfl
    | succ i => cases hst
  have hview : ∀ (t : Side) l (st : Store Atomic Side Word),
      ((State.start (q.startAt c) mem).shared.stores l)[0]? = some st →
      st.view ≤ ((State.start (q.startAt c) mem).shared.known t).now := by
    intro t l st hst
    cases hst
    exact le_rfl
  have hvalue := (Counter.after_zero c).symm
  refine ⟨Spsc.start_inv hq c mem, Memory.start_wf _, hcounts _, hcounts _, ⟨0, Nat.zero_le _, ?_⟩,
    ⟨0, le_rfl, ?_⟩, fun a ha => (by cases ha), fun a ha => (by cases ha), rfl⟩
  · exact ⟨hvalue, Nat.zero_le _, Nat.one_pos, fun st hst => (hview _ _ st hst).trans le_sup_left,
      fun _ => hview _ _⟩
  · exact ⟨hvalue, Nat.zero_le _, Nat.one_pos, fun st hst => (hview _ _ st hst).trans le_sup_left,
      fun _ => hview _ _⟩

theorem reach_inv {w w' : State} (h : Inv c w) (hrun : machine.Reach w w') : Inv c w' :=
  hrun.invariant _ h fun _ _ _ h _ hstep => h.move (step_move hstep)

/-! ## The channel inside -/

/-- A step is one of `Spsc.Machine`, or a load. -/
theorem Move.base {w w' : State} (h : Move w w') :
    (∃ a, Spsc.step w.base a = some w'.base) ∨
      w'.base.channel = w.base.channel ∧ w'.base.q = w.base.q := by
  cases h with
  | quiet hstep _ => exact .inl ⟨_, hstep⟩
  | loadFront _ _ => exact .inr ⟨rfl, rfl⟩
  | loadBack _ _ => exact .inr ⟨rfl, rfl⟩
  | newBlock hp => exact .inl ⟨.producer, by simp [Spsc.step, Spsc.producerStep, hp]⟩
  | frontBlock hc => exact .inl ⟨.consumer, by simp [Spsc.step, Spsc.consumerStep, hc]⟩
  | push hp => exact .inl ⟨.producer, by simp [Spsc.step, Spsc.producerStep, hp]⟩
  | pop hc => exact .inl ⟨.consumer, by simp [Spsc.step, Spsc.consumerStep, hc]⟩
  | @fill p bs hp hlen => exact .inl ⟨.fill bs, by simp [Spsc.step, hp, hlen]⟩
  | read hc => exact .inl ⟨.read, by simp [Spsc.step, hc]⟩

/-- A step takes no knowledge away. -/
theorem Move.extends {w w' : State} (h : Move w w') : w.shared.Extends w'.shared := by
  cases h with
  | quiet _ _ => exact Memory.Extends.refl _
  | loadFront _ hload => exact Memory.load_extends hload
  | loadBack _ hload => exact Memory.load_extends hload
  | newBlock _ => exact Memory.acquireFence_extends
  | frontBlock _ => exact Memory.acquireFence_extends
  | push _ => exact Memory.releaseStore_extends
  | pop _ => exact Memory.releaseStore_extends
  | fill _ _ => exact Memory.access_extends
  | read _ => exact Memory.access_extends

/-- Over this memory too, the queue projects to the channel bounded by its capacity. -/
theorem machine_projects (c : Word) (q : SpscQueue) :
    Machine.Projects machine (fun _ _ => True) (Channel.machine (2 ^ q.log2Capacity))
      (fun w => w.base.channel) fun w => Inv c w ∧ w.base.q.geometry = q.geometry := by
  intro w a w' hw _ hstep
  show (Channel.machine (2 ^ q.log2Capacity)).Reach w.base.channel w'.base.channel
  rcases (step_move hstep).base with ⟨b, hbase⟩ | ⟨hchannel, _⟩
  · have hcapacity : w.base.q.log2Capacity = q.log2Capacity := congrArg (·.2.2.2) hw.2
    rcases step_channel hw.1.base hbase with heq | ⟨d, hd⟩
    · rw [heq]
      exact .refl
    · rw [hcapacity] at hd
      exact .single trivial hd
  · rw [hchannel]
    exact .refl

theorem step_geometry {w w' : State} {a : Act} (h : step w a = some w') :
    w'.base.q.geometry = w.base.q.geometry := by
  rcases (step_move h).base with ⟨b, hbase⟩ | ⟨_, hq⟩
  · exact Spsc.step_geometry hbase
  · rw [hq]

/-- **The memory orders are enough.** For every region that `spsc_init` accepts, every common
starting value of the counters, every interleaving and every old store that a load of `front`
or `back` returns: no two accesses to a block race, the queue is a run of the channel bounded
by its capacity, and what the consumer has read is a first part of what was pushed. -/
theorem weak_fifo {q₀ q : SpscQueue} {b e k : Nat} (hk : k < 64) (he : e < 2 ^ 64)
    (hinit : spscInit q₀ b e k = (true, q)) (c : Word) (mem : Mem) {w : State}
    (hrun : machine.Reach (.start (q.startAt c) mem) w) :
    w.shared.raced = false ∧
      (Channel.machine (2 ^ q.log2Capacity)).Reach .empty w.base.channel ∧
      w.base.taken <+: w.base.pushed.map Prod.snd := by
  obtain ⟨hsound, _⟩ := spscInit_sound hk he hinit
  have hstart := start_inv hsound c mem
  have hproject := hrun.project (machine_projects c q) ⟨hstart, rfl⟩
    fun _ _ _ h _ hstep => ⟨h.1.move (step_move hstep), (step_geometry hstep).trans h.2⟩
  have hordered := Channel.reach_ordered (Channel.empty_ordered (2 ^ q.log2Capacity)) hproject
  exact ⟨(reach_inv hstart hrun).raced, hproject, hordered.received_le_sent⟩

/-- Two blocks are pushed. The consumer sees the first of them alone, and waits for the second
as if it were not there. The producer waits for a third while both are popped: the stores that
it loads are the one from before the first pop and the one from before the second. -/
def oldStores : List Act :=
  let newest : List Spsc.Act → List Act := List.map (⟨·, 0⟩)
  let push (x : Byte) : List Spsc.Act :=
    [.newBlock, .producer, .producer, .producer, .fill [x], .push, .producer, .producer, .producer]
  let take : List Spsc.Act := [.consumer, .consumer, .consumer, .read, .pop, .consumer, .consumer, .consumer]
  newest (push 7 ++ push 8 ++ [.empty]) ++ [⟨.consumer, 1⟩] ++
  newest ([.consumer, .consumer, .consumer, .emptyRet, .front] ++ take) ++
  newest [.front, .consumer, .consumer, .consumer] ++ [⟨.consumer, 2⟩] ++ newest (.consumer :: take) ++
  newest [.newBlock, .producer, .producer, .producer] ++ [⟨.producer, 0⟩] ++
  newest [.producer, .producer, .producer, .producer] ++ [⟨.producer, 1⟩] ++
  newest [.producer, .producer, .producer, .producer, .fill [9]]

/-- A header over the two blocks at 64, before `spsc_init`. -/
def twoBytes : SpscQueue := ⟨0, 0, 0, 0, 0, 0, 64, 66, 0, 1⟩

/-- Old stores make both sides wait; the third block is filled where the first one was read. -/
theorem weak_fifo_old :
    ∃ w, machine.Reach (.start (twoBytes.startAt (2 ^ 64 - 1)) fun _ => 0) w ∧
      w.base.taken = [[7], [8]] ∧ w.base.producer = .block 65 ∧ w.shared.raced = false := by
  have hinit : spscInit twoBytes 64 66 0 = (true, twoBytes) := by decide +kernel
  obtain ⟨w, hrun, htaken, hproducer⟩ := machine.exists_reach
    (P := fun w => w.base.taken = [[7], [8]] ∧ w.base.producer = .block 65)
    (s := .start (twoBytes.startAt (2 ^ 64 - 1)) fun _ => 0) oldStores (by decide +kernel)
  exact ⟨w, hrun, htaken, hproducer, (weak_fifo (by decide) (by decide) hinit _ _ hrun).1⟩

/-! ## Every load of the newest store -/

/-- A load may return the newest store. -/
theorem exists_load_newest {n : Nat} (hwf : m.Wf) (hcounts : Counts c (m.stores l) n)
    (order : LoadOrder) : ∃ m', m.load t l order n = some (Counter.after c n, m') := by
  have hlast : n < (m.stores l).length := by
    rw [hcounts.length]
    exact Nat.lt_succ_self n
  have hst := List.getElem?_eq_getElem hlast
  obtain ⟨m', hload⟩ := Memory.exists_load (t := t) order hst <| by
    have hnow := hwf.now t l
    rw [hcounts.length] at hnow
    exact Nat.le_of_lt_succ hnow
  exact ⟨m', hcounts.value _ _ hst ▸ hload⟩

theorem exists_producerStep {w : State} (h : Inv c w) {s : Spsc.State}
    (hstep : Spsc.producerStep w.base = some s) :
    ∃ i shared, producerStep w i = some ⟨s, shared⟩ := by
  cases hp : w.base.producer with
  | newBlockReloadFront =>
    obtain ⟨shared, hload⟩ := exists_load_newest (t := .producer) h.wf h.fronts .relaxed
    refine ⟨w.base.popped, shared, ?_⟩
    simp only [Spsc.producerStep, hp, Option.some.injEq] at hstep
    simp only [producerStep, hp, hload, Option.map_some, ← hstep, h.base.front]
  | newBlockIndex =>
    refine ⟨0, w.shared.acquireFence .producer, ?_⟩
    simp only [producerStep, hp, hstep, Option.map_some]
  | pushStoreBack p back =>
    refine ⟨0, w.shared.releaseStore .producer .back back, ?_⟩
    simp only [producerStep, hp, hstep, Option.map_some]
  | _ =>
    refine ⟨0, w.shared, ?_⟩
    simp only [producerStep, hp, hstep, Option.map_some]

theorem exists_consumerStep {w : State} (h : Inv c w) {s : Spsc.State}
    (hstep : Spsc.consumerStep w.base = some s) :
    ∃ i shared, consumerStep w i = some ⟨s, shared⟩ := by
  cases hc : w.base.consumer with
  | emptyLoad =>
    obtain ⟨shared, hload⟩ := exists_load_newest (t := .consumer) h.wf h.backs .acquire
    refine ⟨w.base.pushed.length, shared, ?_⟩
    simp only [Spsc.consumerStep, hc, Option.some.injEq] at hstep
    simp only [consumerStep, hc, hload, Option.map_some, ← hstep, h.base.back]
  | frontReloadBack =>
    obtain ⟨shared, hload⟩ := exists_load_newest (t := .consumer) h.wf h.backs .relaxed
    refine ⟨w.base.pushed.length, shared, ?_⟩
    simp only [Spsc.consumerStep, hc, Option.some.injEq] at hstep
    simp only [consumerStep, hc, hload, Option.map_some, ← hstep, h.base.back]
  | frontIndex =>
    refine ⟨0, w.shared.acquireFence .consumer, ?_⟩
    simp only [consumerStep, hc, hstep, Option.map_some]
  | popStoreFront front =>
    refine ⟨0, w.shared.releaseStore .consumer .front front, ?_⟩
    simp only [consumerStep, hc, hstep, Option.map_some]
  | _ =>
    refine ⟨0, w.shared, ?_⟩
    simp only [consumerStep, hc, hstep, Option.map_some]

/-- A step of `Spsc.Machine` is a step over this memory. -/
theorem exists_step {w : State} (h : Inv c w) {a : Spsc.Act} {s : Spsc.State}
    (hstep : Spsc.step w.base a = some s) : ∃ i shared, step w ⟨a, i⟩ = some ⟨s, shared⟩ := by
  cases a with
  | producer => exact exists_producerStep h hstep
  | consumer => exact exists_consumerStep h hstep
  | fill bs =>
    cases hp : w.base.producer with
    | block p =>
      refine ⟨0, w.shared.access .producer true p bs.length, ?_⟩
      simp only [step, hp, hstep, Option.map_some]
    | _ => simp only [Spsc.step, hp, reduceCtorEq] at hstep
  | read =>
    cases hc : w.base.consumer with
    | block p =>
      refine ⟨0, w.shared.access .consumer false p w.base.size, ?_⟩
      simp only [step, hc, hstep, Option.map_some]
    | _ => simp only [Spsc.step, hc, reduceCtorEq] at hstep
  | _ =>
    refine ⟨0, w.shared, ?_⟩
    simp only [step, hstep, Option.map_some]

/-- Whatever the queue of `Spsc.Machine` can reach, it can reach over this memory: its loads are
loads of the newest store. -/
theorem reach_of_newest (hq : q.Sound) {mem : Mem} {s : Spsc.State}
    (hrun : Spsc.machine.Reach (.start (q.startAt c) mem) s) :
    ∃ w, machine.Reach (.start (q.startAt c) mem) w ∧ w.base = s := by
  have hstart := start_inv hq c mem
  obtain ⟨w, hreach, hbase, _⟩ := hrun.simulate (n := machine) (R := fun s w => w.base = s ∧ Inv c w)
    (fun s a s' w ⟨hbase, hw⟩ _ hstep => by
      obtain ⟨i, shared, hnext⟩ := exists_step hw (hbase ▸ hstep)
      exact ⟨_, .single trivial hnext, rfl, hw.move (step_move hnext)⟩)
    ⟨rfl, hstart⟩
  exact ⟨w, hreach, hbase⟩

end MicroRosDemos.Spsc.Weak
