import MicroRosDemos.Spsc.WeakSafe

/-!
# What the memory orders do not change

The queue over the memory of `Spsc.Weak` and the queue of `Spsc.Machine`, where a load
returns the newest store, push, read and pop the same: a history that one of them can have,
the other can have too (`weak_agrees`).

One direction takes the newest store at every load. In the other, a side of
`Spsc.Machine` follows by whole calls: it stays outside a call until the other has passed
the loop and the fence, when the true counter has room too, or a block in it, and a single
look at it is enough. What `spsc_empty` answers is not part of a history.
-/

namespace MicroRosDemos.Spsc.Weak

open MicroRosDemos.Lib Views

variable {c : Word} {s : Spsc.State}

/-! ## Whole calls of `Spsc.Machine` -/

/-- The producer passes the test of `spsc_new_block`. -/
theorem pass_newBlock (hpc : s.producer = .newBlockLoadBack)
    (hroom : s.q.producerCachedBack - s.q.producerCachedFront ≠ s.q.capacity) :
    Spsc.machine.Reach s
      { s with producer := .block (s.q.blockAt s.q.producerCachedBack) } :=
  Machine.reach_of_exec [.producer, .producer, .producer] <| by
    simp [Machine.exec, Spsc.machine, Spsc.step, Spsc.producerStep, hpc, hroom]

/-- The producer looks at `front` once. -/
theorem look_newBlock (hpc : s.producer = .newBlockLoadBack)
    (hfull : s.q.producerCachedBack - s.q.producerCachedFront = s.q.capacity) :
    Spsc.machine.Reach s
      { s with
        q := { s.q with producerCachedFront := s.q.front }, producer := .newBlockLoadBack } :=
  Machine.reach_of_exec [.producer, .producer, .producer, .producer, .producer] <| by
    simp [Machine.exec, Spsc.machine, Spsc.step, Spsc.producerStep, hpc, hfull]

/-- `spsc_new_block`, when there is room. -/
theorem call_newBlock (h : Spsc.Inv c s) (hidle : s.producer = .idle)
    (hroom : s.pushed.length < s.popped + 2 ^ s.q.log2Capacity) :
    ∃ t, Spsc.machine.Reach s t ∧ historyOf t = historyOf s ∧ t.consumer = s.consumer ∧
      t.producer = .block (s.q.blockAt (Counter.after c s.pushed.length)) := by
  have hback : s.q.producerCachedBack = Counter.after c s.pushed.length := by
    obtain ⟨_, _, _, _, hat⟩ := h.producer
    rw [hidle] at hat
    exact hat
  have hcall : Spsc.machine.Reach s { s with producer := .newBlockLoadBack } :=
    Machine.reach_of_exec [.newBlock] (by simp [Machine.exec, Spsc.machine, Spsc.step, hidle])
  by_cases hfull : s.q.producerCachedBack - s.q.producerCachedFront = s.q.capacity
  · refine ⟨_, (hcall.trans (look_newBlock rfl hfull)).trans (pass_newBlock rfl ?_), rfl, rfl, ?_⟩
    · show s.q.producerCachedBack - s.q.front ≠ s.q.capacity
      have hcap := h.sound.capacity_lt
      have hle := h.popped_le
      rw [hback, h.front, h.sound.capacity_eq, ne_eq,
        Counter.after_sub_eq_iff c hle (by omega) hcap]
      omega
    · show ProducerPc.block (s.q.blockAt s.q.producerCachedBack) = _
      rw [hback]
  · refine ⟨_, hcall.trans (pass_newBlock rfl hfull), rfl, rfl, ?_⟩
    show ProducerPc.block (s.q.blockAt s.q.producerCachedBack) = _
    rw [hback]

/-- `spsc_push`. -/
theorem call_push {p : Nat} (hpc : s.producer = .block p) :
    ∃ t, Spsc.machine.Reach s t ∧ t.producer = .idle ∧ t.consumer = s.consumer ∧
      historyOf t = { historyOf s with pushed := s.pushed ++ [(p, s.mem.read p s.size)] } := by
  have hrun : Spsc.machine.Reach s
      { s with
        q := { s.q with
          producerCachedBack := s.q.producerCachedBack + 1, back := s.q.producerCachedBack + 1 }
        producer := .idle, pushed := s.pushed ++ [(p, s.mem.read p s.size)] } :=
    Machine.reach_of_exec [.push, .producer, .producer, .producer] <| by
      simp [Machine.exec, Spsc.machine, Spsc.step, Spsc.producerStep, hpc, State.size]
  exact ⟨_, hrun, rfl, rfl, rfl⟩

/-- The consumer passes the test of `spsc_front_block`. -/
theorem pass_frontBlock (hpc : s.consumer = .frontLoadBack)
    (hfilled : s.q.consumerCachedBack ≠ s.q.consumerCachedFront) :
    Spsc.machine.Reach s
      { s with consumer := .block (s.q.blockAt s.q.consumerCachedFront) } :=
  Machine.reach_of_exec [.consumer, .consumer, .consumer] <| by
    simp [Machine.exec, Spsc.machine, Spsc.step, Spsc.consumerStep, hpc, hfilled]

/-- The consumer looks at `back` once. -/
theorem look_frontBlock (hpc : s.consumer = .frontLoadBack)
    (hempty : s.q.consumerCachedBack = s.q.consumerCachedFront) :
    Spsc.machine.Reach s
      { s with
        q := { s.q with consumerCachedBack := s.q.back }, consumer := .frontLoadBack } :=
  Machine.reach_of_exec [.consumer, .consumer, .consumer, .consumer, .consumer] <| by
    simp [Machine.exec, Spsc.machine, Spsc.step, Spsc.consumerStep, hpc, hempty]

/-- `spsc_front_block`, when there is a block. -/
theorem call_frontBlock (h : Spsc.Inv c s) (hidle : s.consumer = .idle)
    (hfilled : s.popped < s.pushed.length) :
    ∃ t, Spsc.machine.Reach s t ∧ historyOf t = historyOf s ∧ t.producer = s.producer ∧
      t.consumer = .block (s.q.blockAt (Counter.after c s.popped)) := by
  have hfront : s.q.consumerCachedFront = Counter.after c s.popped := by
    obtain ⟨_, _, _, _, hat⟩ := h.consumer
    rw [hidle] at hat
    exact hat
  have hcall : Spsc.machine.Reach s { s with consumer := .frontLoadBack } :=
    Machine.reach_of_exec [.front] (by simp [Machine.exec, Spsc.machine, Spsc.step, hidle])
  by_cases hempty : s.q.consumerCachedBack = s.q.consumerCachedFront
  · refine ⟨_, (hcall.trans (look_frontBlock rfl hempty)).trans (pass_frontBlock rfl ?_), rfl, rfl, ?_⟩
    · show s.q.back ≠ s.q.consumerCachedFront
      have hcap := h.sound.capacity_lt
      have hle := h.pushed_le
      rw [hfront, h.back, ne_eq, Counter.after_inj c hfilled.le (by omega)]
      omega
    · show ConsumerPc.block (s.q.blockAt s.q.consumerCachedFront) = _
      rw [hfront]
  · refine ⟨_, hcall.trans (pass_frontBlock rfl hempty), rfl, rfl, ?_⟩
    show ConsumerPc.block (s.q.blockAt s.q.consumerCachedFront) = _
    rw [hfront]

/-- `spsc_pop`. -/
theorem call_pop {p : Nat} {content : List Byte} (hpc : s.consumer = .holding p content) :
    ∃ t, Spsc.machine.Reach s t ∧ t.producer = s.producer ∧ t.consumer = .idle ∧
      historyOf t = { historyOf s with popped := s.popped + 1 } := by
  have hrun : Spsc.machine.Reach s
      { s with
        q := { s.q with
          consumerCachedFront := s.q.consumerCachedFront + 1, front := s.q.consumerCachedFront + 1 }
        consumer := .idle, popped := s.popped + 1 } :=
    Machine.reach_of_exec [.pop, .consumer, .consumer, .consumer] <| by
      simp [Machine.exec, Spsc.machine, Spsc.step, Spsc.consumerStep, hpc]
  exact ⟨_, hrun, rfl, rfl, rfl⟩

/-! ## Following by whole calls -/

/-- Where the producer of `Spsc.Machine` waits for the other. -/
def ProducerAgree (weak pc : ProducerPc) : Prop :=
  match weak.holds with
  | some p => pc = .block p
  | none => pc = .idle

/-- Where the consumer of `Spsc.Machine` waits for the other. -/
def ConsumerAgree (weak pc : ConsumerPc) : Prop :=
  match stageOf weak with
  | .out => pc = .idle
  | .block p => pc = .block p
  | .done => ∃ p content, pc = .holding p content

/-- `s` has the history of `w`, and its sides are outside a call. -/
structure Agree (c : Word) (w : State) (s : Spsc.State) : Prop where
  base : Spsc.Inv c s
  geometry : s.q.geometry = w.base.q.geometry
  history : historyOf s = historyOf w.base
  producer : ProducerAgree w.base.producer s.producer
  consumer : ConsumerAgree w.base.consumer s.consumer

namespace Agree

variable {w w' : State}

theorem pushed (h : Agree c w s) : s.pushed = w.base.pushed := congrArg History.pushed h.history

theorem taken (h : Agree c w s) : s.taken = w.base.taken := congrArg History.taken h.history

theorem mem (h : Agree c w s) : s.mem = w.base.mem := congrArg History.mem h.history

theorem popped (h : Agree c w s) : s.popped = w.base.popped := congrArg History.popped h.history

theorem log2Capacity (h : Agree c w s) : s.q.log2Capacity = w.base.q.log2Capacity :=
  congrArg (·.2.2.2) h.geometry

theorem size (h : Agree c w s) : s.size = w.base.size := by
  have hsize : s.q.log2BlockSize = w.base.q.log2BlockSize := congrArg (·.2.2.1) h.geometry
  exact congrArg (2 ^ ·) hsize

/-- A step by which neither side gets a block or is done with one. -/
theorem stay (h : Agree c w s) (hgeometry : w'.base.q.geometry = w.base.q.geometry)
    (hhistory : historyOf w'.base = historyOf w.base)
    (hholds : w'.base.producer.holds = w.base.producer.holds)
    (hstage : stageOf w'.base.consumer = stageOf w.base.consumer) : Agree c w' s where
  base := h.base
  geometry := h.geometry.trans hgeometry.symm
  history := h.history.trans hhistory.symm
  producer := by
    unfold ProducerAgree
    rw [hholds]
    exact h.producer
  consumer := by
    unfold ConsumerAgree
    rw [hstage]
    exact h.consumer

/-- A run that brings `s` to where `w'` is. -/
theorem follow (h : Agree c w s) {t : Spsc.State} (hrun : Spsc.machine.Reach s t)
    (hgeometry : w'.base.q.geometry = w.base.q.geometry)
    (hhistory : historyOf t = historyOf w'.base)
    (hproducer : ProducerAgree w'.base.producer t.producer)
    (hconsumer : ConsumerAgree w'.base.consumer t.consumer) :
    ∃ t, Spsc.machine.Reach s t ∧ Agree c w' t :=
  ⟨t, hrun, Spsc.reach_inv h.base hrun,
    ((reach_geometry hrun).trans h.geometry).trans hgeometry.symm, hhistory, hproducer, hconsumer⟩

theorem newBlock (hw : Inv c w) (h : Agree c w s) (hp : w.base.producer = .newBlockIndex) {m : Shared} :
    ∃ t, Spsc.machine.Reach s t ∧ Agree c
      ⟨{ w.base with producer := .block (w.base.q.blockAt w.base.q.producerCachedBack) }, m⟩ t := by
  have hidle : s.producer = .idle := by
    have hproducer := h.producer
    simpa only [ProducerAgree, hp, ProducerPc.holds] using hproducer
  obtain ⟨cached, _, hle, _, hat⟩ := hw.base.producer
  rw [hp] at hat
  obtain ⟨hback, hroom⟩ := hat
  obtain ⟨t, hrun, hhistory, hconsumer, hblock⟩ := call_newBlock h.base hidle <| by
    rw [h.pushed, h.popped, h.log2Capacity]
    omega
  refine h.follow hrun rfl (hhistory.trans h.history) ?_ (hconsumer ▸ h.consumer)
  show t.producer = .block (w.base.q.blockAt w.base.q.producerCachedBack)
  rw [hblock, hback, h.pushed, SpscQueue.blockAt_of_geometry h.geometry]

theorem frontBlock (hw : Inv c w) (h : Agree c w s) (hc : w.base.consumer = .frontIndex) {m : Shared} :
    ∃ t, Spsc.machine.Reach s t ∧ Agree c
      ⟨{ w.base with consumer := .block (w.base.q.blockAt w.base.q.consumerCachedFront) }, m⟩ t := by
  have hidle : s.consumer = .idle := by
    have hconsumer := h.consumer
    simpa only [ConsumerAgree, hc, stageOf] using hconsumer
  obtain ⟨cached, _, _, hle, hat⟩ := hw.base.consumer
  rw [hc] at hat
  obtain ⟨hfront, hfilled⟩ := hat
  obtain ⟨t, hrun, hhistory, hproducer, hblock⟩ := call_frontBlock h.base hidle <| by
    rw [h.pushed, h.popped]
    omega
  refine h.follow hrun rfl (hhistory.trans h.history) (hproducer ▸ h.producer) ?_
  show t.consumer = .block (w.base.q.blockAt w.base.q.consumerCachedFront)
  rw [hblock, hfront, h.popped, SpscQueue.blockAt_of_geometry h.geometry]

theorem push (h : Agree c w s) {p : Nat} {back : Word}
    (hp : w.base.producer = .pushStoreBack p back) {m : Shared} :
    ∃ t, Spsc.machine.Reach s t ∧ Agree c
      ⟨{ w.base with
          q := { w.base.q with back := back }, producer := .idle
          pushed := w.base.pushed ++ [(p, w.base.mem.read p w.base.size)] }, m⟩ t := by
  have hblock : s.producer = .block p := by
    have hproducer := h.producer
    simpa only [ProducerAgree, hp, ProducerPc.holds] using hproducer
  obtain ⟨t, hrun, hidle, hconsumer, hhistory⟩ := call_push hblock
  refine h.follow hrun rfl ?_ hidle (hconsumer ▸ h.consumer)
  rw [hhistory, h.pushed, h.mem, h.size, h.history]
  rfl

theorem pop (h : Agree c w s) {front : Word} (hc : w.base.consumer = .popStoreFront front)
    {m : Shared} :
    ∃ t, Spsc.machine.Reach s t ∧ Agree c
      ⟨{ w.base with
          q := { w.base.q with front := front }, consumer := .idle
          popped := w.base.popped + 1 }, m⟩ t := by
  have hdone : ∃ p content, s.consumer = .holding p content := by
    have hconsumer := h.consumer
    simpa only [ConsumerAgree, hc, stageOf] using hconsumer
  obtain ⟨p, content, hholding⟩ := hdone
  obtain ⟨t, hrun, hproducer, hidle, hhistory⟩ := call_pop hholding
  refine h.follow hrun rfl ?_ (hproducer ▸ h.producer) hidle
  rw [hhistory, h.popped, h.history]
  rfl

theorem fill (h : Agree c w s) {p : Nat} {bs : List Byte} (hp : w.base.producer = .block p)
    (hlen : bs.length ≤ w.base.size) {m : Shared} :
    ∃ t, Spsc.machine.Reach s t ∧ Agree c ⟨{ w.base with mem := w.base.mem.write p bs }, m⟩ t := by
  have hblock : s.producer = .block p := by
    have hproducer := h.producer
    simpa only [ProducerAgree, hp, ProducerPc.holds] using hproducer
  have hrun : Spsc.machine.Reach s { s with mem := s.mem.write p bs } := by
    refine .single (a := .fill bs) trivial ?_
    simp [Spsc.machine, Spsc.step, hblock, h.size, hlen]
  refine h.follow hrun rfl ?_ h.producer h.consumer
  show { historyOf s with mem := s.mem.write p bs } = _
  rw [h.mem, h.history]
  rfl

theorem read (h : Agree c w s) {p : Nat} (hc : w.base.consumer = .block p) {m : Shared} :
    ∃ t, Spsc.machine.Reach s t ∧ Agree c
      ⟨{ w.base with
          consumer := .holding p (w.base.mem.read p w.base.size)
          taken := w.base.taken ++ [w.base.mem.read p w.base.size] }, m⟩ t := by
  have hblock : s.consumer = .block p := by
    have hconsumer := h.consumer
    simpa only [ConsumerAgree, hc, stageOf] using hconsumer
  have hrun : Spsc.machine.Reach s
      { s with
        consumer := .holding p (s.mem.read p s.size)
        taken := s.taken ++ [s.mem.read p s.size] } := by
    refine .single (a := .read) trivial ?_
    simp [Spsc.machine, Spsc.step, hblock]
  refine h.follow hrun rfl ?_ h.producer ⟨_, _, rfl⟩
  show { historyOf s with taken := s.taken ++ [s.mem.read p s.size] } = _
  rw [h.mem, h.size, h.taken, h.history]
  rfl

/-- Each step over the memory is answered by a run of `Spsc.Machine`. -/
theorem answer (hw : Inv c w) (h : Agree c w s) (hmove : Move w w') :
    ∃ t, Spsc.machine.Reach s t ∧ Agree c w' t := by
  cases hmove with
  | quiet hstep hquiet =>
    exact ⟨s, .refl, h.stay (Spsc.step_geometry hstep) hquiet.history hquiet.holds hquiet.stage⟩
  | loadFront hp _ => exact ⟨s, .refl, h.stay rfl rfl (by simp [hp, ProducerPc.holds]) rfl⟩
  | loadBack hc _ =>
    refine ⟨s, .refl, h.stay rfl rfl rfl ?_⟩
    rcases hc with ⟨hc, rfl⟩ | ⟨hc, rfl⟩ <;> simp [hc, stageOf]
  | newBlock hp => exact h.newBlock hw hp
  | frontBlock hc => exact h.frontBlock hw hc
  | push hp => exact h.push hp
  | pop hc => exact h.pop hc
  | fill hp hlen => exact h.fill hp hlen
  | read hc => exact h.read hc

end Agree

/-- **The histories are the same.** For every region that `spsc_init` accepts and every common
starting value of the counters, the queue can have a history over the memory of `Spsc.Weak`
exactly when it can have it where every load returns the newest store. -/
theorem weak_agrees {q₀ q : SpscQueue} {b e k : Nat} (hk : k < 64) (he : e < 2 ^ 64)
    (hinit : spscInit q₀ b e k = (true, q)) (c : Word) (mem : Mem) (history : History) :
    (∃ w, machine.Reach (.start (q.startAt c) mem) w ∧ historyOf w.base = history) ↔
      ∃ s, Spsc.machine.Reach (.start (q.startAt c) mem) s ∧ historyOf s = history := by
  obtain ⟨hsound, _⟩ := spscInit_sound hk he hinit
  have hstart := start_inv hsound c mem
  constructor
  · rintro ⟨w, hrun, hhistory⟩
    obtain ⟨s, hreach, _, hagree⟩ := hrun.simulate (R := fun w s => Inv c w ∧ Agree c w s)
      (fun w a w' s ⟨hw, hagree⟩ _ hstep => by
        obtain ⟨t, hreach, hnext⟩ := hagree.answer hw (step_move hstep)
        exact ⟨t, hreach, hw.move (step_move hstep), hnext⟩)
      ⟨hstart, ⟨Spsc.start_inv hsound c mem, rfl, rfl, rfl, rfl⟩⟩
    exact ⟨s, hreach, hagree.history.trans hhistory⟩
  · rintro ⟨s, hrun, hhistory⟩
    obtain ⟨w, hreach, rfl⟩ := reach_of_newest hsound hrun
    exact ⟨w, hreach, hhistory⟩

/-- What two sides did that were shown old stores can be done where there are none. -/
theorem weak_agrees_old :
    ∃ s, Spsc.machine.Reach (.start (twoBytes.startAt (2 ^ 64 - 1)) fun _ => 0) s ∧
      s.taken = [[7], [8]] ∧ s.mem 65 = 9 := by
  have hinit : spscInit twoBytes 64 66 0 = (true, twoBytes) := by decide +kernel
  obtain ⟨w, hrun, htaken, hmem⟩ := machine.exists_reach
    (P := fun w => w.base.taken = [[7], [8]] ∧ w.base.mem 65 = 9)
    (s := .start (twoBytes.startAt (2 ^ 64 - 1)) fun _ => 0) oldStores (by decide +kernel)
  obtain ⟨s, hreach, hhistory⟩ :=
    (weak_agrees (by decide) (by decide) hinit _ _ (historyOf w.base)).mp ⟨w, hrun, rfl⟩
  refine ⟨s, hreach, ?_, ?_⟩
  · exact (congrArg History.taken hhistory).trans htaken
  · exact (congrArg (·.mem 65) hhistory).trans hmem

end MicroRosDemos.Spsc.Weak
