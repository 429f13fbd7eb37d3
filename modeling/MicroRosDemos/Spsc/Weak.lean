import MicroRosDemos.Lib.Views
import MicroRosDemos.Spsc.Fifo

/-!
# The queue in memory that is not sequentially consistent

`util/spsc_queue.h` names a memory order for every access to the two counters that both
sides use. The stores of `spsc_push` and `spsc_pop` release. The loads inside the loops of
`spsc_new_block` and `spsc_front_block` are relaxed, with one acquire fence behind each
loop, and the load of `spsc_empty` acquires. Between them the blocks are filled and read
by plain accesses.

This module runs the steps of `Spsc.Machine` over such a memory: a load of `front` or
`back` returns any store that its side may still see, which is named by the action, and
what each side knows is kept beside the state. In the header, `front` and `back` are the
newest stores, and no step of this machine looks at them.

Every relaxed load of the queue is followed by a fence before its side stores anything, so
no load can be carried past a later store.
-/

namespace MicroRosDemos.Spsc.Weak

open MicroRosDemos.Lib

/-- The two users of the queue. -/
inductive Side
  | producer
  | consumer
deriving DecidableEq, Repr

/-- The two counters that both sides use. -/
inductive Atomic
  | front
  | back
deriving DecidableEq, Repr

/-- What the two sides share, seen through the memory orders. -/
abbrev Shared := Views.Memory Atomic Side Word

/-- The state of the queue, and who knows what of it. -/
structure State where
  base : Spsc.State
  shared : Shared

/-- Both sides idle over an initialised header, with nothing else known. -/
def State.start (q : SpscQueue) (mem : Mem) : State where
  base := Spsc.State.start q mem
  shared := .start fun
    | .front => q.front
    | .back => q.back

/-- The next step of the producer. A load returns the store `i`. -/
def producerStep (w : State) (i : Nat) : Option State :=
  match w.base.producer with
  | .newBlockReloadFront =>
    (w.shared.load .producer .front .relaxed i).map fun (front, shared) =>
      { base := { w.base with producer := .newBlockStoreFront front }, shared }
  -- `__atomic_thread_fence(__ATOMIC_ACQUIRE)`, and the pointer
  | .newBlockIndex =>
    (Spsc.producerStep w.base).map fun base =>
      { base, shared := w.shared.acquireFence .producer }
  | .pushStoreBack _ back =>
    (Spsc.producerStep w.base).map fun base =>
      { base, shared := w.shared.releaseStore .producer .back back }
  | _ => (Spsc.producerStep w.base).map fun base => { w with base }

/-- The next step of the consumer. A load returns the store `i`. -/
def consumerStep (w : State) (i : Nat) : Option State :=
  match w.base.consumer with
  | .emptyLoad =>
    (w.shared.load .consumer .back .acquire i).map fun (back, shared) =>
      { base := { w.base with consumer := .emptyStore back }, shared }
  | .frontReloadBack =>
    (w.shared.load .consumer .back .relaxed i).map fun (back, shared) =>
      { base := { w.base with consumer := .frontStoreBack back }, shared }
  -- `__atomic_thread_fence(__ATOMIC_ACQUIRE)`, and the pointer
  | .frontIndex =>
    (Spsc.consumerStep w.base).map fun base =>
      { base, shared := w.shared.acquireFence .consumer }
  | .popStoreFront front =>
    (Spsc.consumerStep w.base).map fun base =>
      { base, shared := w.shared.releaseStore .consumer .front front }
  | _ => (Spsc.consumerStep w.base).map fun base => { w with base }

/-- An action of the queue, and the store that it loads if it is a load. -/
structure Act where
  act : Spsc.Act
  seen : Nat

/-- Every interleaving of one producer and one consumer, and every store that each of their
loads may return. Blocks are filled and read by plain accesses. -/
def step (w : State) (a : Act) : Option State :=
  match a.act with
  | .producer => producerStep w a.seen
  | .consumer => consumerStep w a.seen
  | .fill bs =>
    match w.base.producer with
    | .block p =>
      (Spsc.step w.base (.fill bs)).map fun base =>
        { base, shared := w.shared.access .producer true p bs.length }
    | _ => none
  | .read =>
    match w.base.consumer with
    | .block p =>
      (Spsc.step w.base .read).map fun base =>
        { base, shared := w.shared.access .consumer false p w.base.size }
    | _ => none
  | act => (Spsc.step w.base act).map fun base => { w with base }

/-- The queue over its memory. -/
def machine : Machine State Act := ⟨step⟩

/-! ## What a step can do -/

/-- The value of `front` that the producer goes by, in its register until it is stored. -/
def frontOf (s : Spsc.State) : Word :=
  match s.producer with
  | .newBlockStoreFront front => front
  | _ => s.q.producerCachedFront

/-- The value of `back` that the consumer goes by, in its register until it is stored. -/
def backOf (s : Spsc.State) : Word :=
  match s.consumer with
  | .emptyStore back | .frontStoreBack back => back
  | _ => s.q.consumerCachedBack

/-- What was pushed, read and popped, and the memory. -/
structure History where
  pushed : List (Nat × List Byte)
  taken : List (List Byte)
  popped : Nat
  mem : Mem

def historyOf (s : Spsc.State) : History := ⟨s.pushed, s.taken, s.popped, s.mem⟩

/-- How far the consumer is with a block: it has none, it has one to read, or it has read it. -/
inductive Stage
  | out
  | block (p : Nat)
  | done
deriving DecidableEq

def stageOf : ConsumerPc → Stage
  | .block p => .block p
  | .holding _ _ | .popLoad | .popStoreCached _ | .popStoreFront _ => .done
  | _ => .out

theorem stageOf_block {pc : ConsumerPc} {p : Nat} : stageOf pc = .block p ↔ pc = .block p := by
  cases pc <;> simp [stageOf]

/-- A step that touches nothing the other side looks at, and hands out no block. -/
structure Quiet (s t : Spsc.State) : Prop where
  history : historyOf t = historyOf s
  front : frontOf t = frontOf s
  back : backOf t = backOf s
  producer : ∀ p, t.producer = .block p → s.producer = .block p
  holds : t.producer.holds = s.producer.holds
  stage : stageOf t.consumer = stageOf s.consumer

theorem Quiet.pushed {s t : Spsc.State} (h : Quiet s t) : t.pushed = s.pushed :=
  congrArg History.pushed h.history

theorem Quiet.popped {s t : Spsc.State} (h : Quiet s t) : t.popped = s.popped :=
  congrArg History.popped h.history

theorem Quiet.consumer {s t : Spsc.State} (h : Quiet s t) {p : Nat} (hp : t.consumer = .block p) :
    s.consumer = .block p :=
  stageOf_block.mp (h.stage ▸ stageOf_block.mpr hp)

/-- One step of the queue over its memory. -/
inductive Move (w : State) : State → Prop
  | quiet {a : Spsc.Act} {t : Spsc.State} :
    Spsc.step w.base a = some t → Quiet w.base t → Move w ⟨t, w.shared⟩
  | loadFront {i : Nat} {front : Word} {shared : Shared} :
    w.base.producer = .newBlockReloadFront →
    w.shared.load .producer .front .relaxed i = some (front, shared) →
    Move w ⟨{ w.base with producer := .newBlockStoreFront front }, shared⟩
  | loadBack {i : Nat} {order : Views.LoadOrder} {back : Word} {shared : Shared} {pc : ConsumerPc} :
    w.base.consumer = .emptyLoad ∧ pc = .emptyStore back ∨
      w.base.consumer = .frontReloadBack ∧ pc = .frontStoreBack back →
    w.shared.load .consumer .back order i = some (back, shared) →
    Move w ⟨{ w.base with consumer := pc }, shared⟩
  | newBlock : w.base.producer = .newBlockIndex →
    Move w
      ⟨{ w.base with producer := .block (w.base.q.blockAt w.base.q.producerCachedBack) },
        w.shared.acquireFence .producer⟩
  | frontBlock : w.base.consumer = .frontIndex →
    Move w
      ⟨{ w.base with consumer := .block (w.base.q.blockAt w.base.q.consumerCachedFront) },
        w.shared.acquireFence .consumer⟩
  | push {p : Nat} {back : Word} : w.base.producer = .pushStoreBack p back →
    Move w
      ⟨{ w.base with
          q := { w.base.q with back := back }, producer := .idle
          pushed := w.base.pushed ++ [(p, w.base.mem.read p w.base.size)] },
        w.shared.releaseStore .producer .back back⟩
  | pop {front : Word} : w.base.consumer = .popStoreFront front →
    Move w
      ⟨{ w.base with
          q := { w.base.q with front := front }, consumer := .idle
          popped := w.base.popped + 1 },
        w.shared.releaseStore .consumer .front front⟩
  | fill {p : Nat} {bs : List Byte} : w.base.producer = .block p → bs.length ≤ w.base.size →
    Move w
      ⟨{ w.base with mem := w.base.mem.write p bs }, w.shared.access .producer true p bs.length⟩
  | read {p : Nat} : w.base.consumer = .block p →
    Move w
      ⟨{ w.base with
          consumer := .holding p (w.base.mem.read p w.base.size)
          taken := w.base.taken ++ [w.base.mem.read p w.base.size] },
        w.shared.access .consumer false p w.base.size⟩

variable {w w' : State} {i : Nat}

theorem producerStep_move (h : producerStep w i = some w') : Move w w' := by
  unfold producerStep at h
  cases hp : w.base.producer with
  | newBlockReloadFront =>
    simp only [hp, Option.map_eq_some_iff, Prod.exists] at h
    obtain ⟨front, shared, hload, rfl⟩ := h
    exact .loadFront hp hload
  | newBlockIndex =>
    simp only [hp, Spsc.producerStep, Option.map_some, Option.some.injEq] at h
    exact h ▸ .newBlock hp
  | pushStoreBack p back =>
    simp only [hp, Spsc.producerStep, Option.map_some, Option.some.injEq] at h
    exact h ▸ .push hp
  | newBlockLoadFront back =>
    simp only [hp, Option.map_eq_some_iff] at h
    obtain ⟨base, hstep, rfl⟩ := h
    refine .quiet (a := .producer) hstep ?_
    simp only [Spsc.producerStep, hp] at hstep
    split at hstep <;> cases hstep <;> constructor <;> simp [frontOf, backOf, historyOf, ProducerPc.holds, hp]
  | _ =>
    simp only [hp, Option.map_eq_some_iff] at h
    obtain ⟨base, hstep, rfl⟩ := h
    refine .quiet (a := .producer) hstep ?_
    simp only [Spsc.producerStep, hp, Option.some.injEq, reduceCtorEq] at hstep
    try subst hstep
    try constructor <;> simp [frontOf, backOf, historyOf, ProducerPc.holds, hp]

theorem consumerStep_move (h : consumerStep w i = some w') : Move w w' := by
  unfold consumerStep at h
  cases hc : w.base.consumer with
  | emptyLoad =>
    simp only [hc, Option.map_eq_some_iff, Prod.exists] at h
    obtain ⟨back, shared, hload, rfl⟩ := h
    exact .loadBack (.inl ⟨hc, rfl⟩) hload
  | frontReloadBack =>
    simp only [hc, Option.map_eq_some_iff, Prod.exists] at h
    obtain ⟨back, shared, hload, rfl⟩ := h
    exact .loadBack (.inr ⟨hc, rfl⟩) hload
  | frontIndex =>
    simp only [hc, Spsc.consumerStep, Option.map_some, Option.some.injEq] at h
    exact h ▸ .frontBlock hc
  | popStoreFront front =>
    simp only [hc, Spsc.consumerStep, Option.map_some, Option.some.injEq] at h
    exact h ▸ .pop hc
  | frontLoadFront back =>
    simp only [hc, Option.map_eq_some_iff] at h
    obtain ⟨base, hstep, rfl⟩ := h
    refine .quiet (a := .consumer) hstep ?_
    simp only [Spsc.consumerStep, hc] at hstep
    split at hstep <;> cases hstep <;> constructor <;> simp [frontOf, backOf, historyOf, stageOf, hc]
  | _ =>
    simp only [hc, Option.map_eq_some_iff] at h
    obtain ⟨base, hstep, rfl⟩ := h
    refine .quiet (a := .consumer) hstep ?_
    simp only [Spsc.consumerStep, hc, Option.some.injEq, reduceCtorEq] at hstep
    try subst hstep
    try constructor <;> simp [frontOf, backOf, historyOf, stageOf, hc]

/-- Each step is one of these. -/
theorem step_move {a : Act} (h : step w a = some w') : Move w w' := by
  obtain ⟨act, i⟩ := a
  cases act with
  | producer => exact producerStep_move h
  | consumer => exact consumerStep_move h
  | fill bs =>
    simp only [step] at h
    split at h
    · next p hp =>
      simp only [Spsc.step, hp, Option.map_eq_some_iff] at h
      obtain ⟨base, hbase, rfl⟩ := h
      split at hbase
      · next hlen =>
        cases hbase
        rw [← hp]
        exact .fill hp hlen
      · cases hbase
    · cases h
  | read =>
    simp only [step] at h
    split at h
    · next p hp =>
      simp only [Spsc.step, hp, Option.map_some, Option.some.injEq] at h
      exact h ▸ .read hp
    · cases h
  | _ =>
    simp only [step, Option.map_eq_some_iff] at h
    obtain ⟨base, hbase, rfl⟩ := h
    refine .quiet hbase ?_
    simp only [Spsc.step] at hbase
    split at hbase <;> cases hbase
    constructor <;> simp_all [frontOf, backOf, historyOf, ProducerPc.holds, stageOf]

end MicroRosDemos.Spsc.Weak
