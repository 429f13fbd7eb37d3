import MicroRosDemos.Lib.Machine
import MicroRosDemos.Lib.Memory
import MicroRosDemos.Spsc.Queue

/-!
# The queue at work: one producer, one consumer, one load or store at a time

Each operation of `util/spsc_queue.h` is cut at its loads and stores of header
fields, and each side carries the place it has reached, with the values it
holds in registers. Loads of `begin`, `log2BlockSize` and `log2Capacity`, which
no operation stores to, are taken together with the step that uses them. Block
contents are read and written whole, in one step.

The producer repeats `spsc_new_block`, filling, `spsc_push`; the consumer
repeats `spsc_front_block`, reading, `spsc_pop`, and may ask `spsc_empty`
before. The three histories at the end of the state say what was pushed, with
the address of its block, what was read, and how many blocks were popped.
-/

namespace MicroRosDemos.Spsc

open MicroRosDemos.Lib

/-- Where the producer is. A register is an argument. -/
inductive ProducerPc
  | idle
  -- spsc_new_block: the two loads of the loop test, the loop body, the pointer
  | newBlockLoadBack
  | newBlockLoadFront (back : Word)
  | newBlockPause
  | newBlockReloadFront
  | newBlockStoreFront (front : Word)
  | newBlockIndex
  -- spsc_new_block returned this pointer, the block is being filled
  | block (p : Nat)
  -- spsc_push: `++q->producerCachedBack`, then the store of `back`
  | pushLoad (p : Nat)
  | pushStoreCached (p : Nat) (back : Word)
  | pushStoreBack (p : Nat) (back : Word)
deriving DecidableEq, Repr

/-- Where the consumer is. A register is an argument. -/
inductive ConsumerPc
  | idle
  -- spsc_empty: the load and store of the first line, the two loads of the second
  | emptyLoad
  | emptyStore (back : Word)
  | emptyTestBack
  | emptyTestFront (back : Word)
  | emptyDone (empty : Bool)
  -- spsc_front_block: the two loads of the loop test, the loop body, the pointer
  | frontLoadBack
  | frontLoadFront (back : Word)
  | frontPause
  | frontReloadBack
  | frontStoreBack (back : Word)
  | frontIndex
  -- spsc_front_block returned this pointer; then the contents read there
  | block (p : Nat)
  | holding (p : Nat) (content : List Byte)
  -- spsc_pop: `++q->consumerCachedFront`, then the store of `front`
  | popLoad
  | popStoreCached (front : Word)
  | popStoreFront (front : Word)
deriving DecidableEq, Repr

/-- The shared memory, the two places, and the histories. -/
structure State where
  q : SpscQueue
  mem : Mem
  producer : ProducerPc
  consumer : ConsumerPc
  pushed : List (Nat × List Byte)
  taken : List (List Byte)
  popped : Nat

/-- Both sides idle over an initialised header. -/
def State.start (q : SpscQueue) (mem : Mem) : State :=
  { q, mem, producer := .idle, consumer := .idle, pushed := [], taken := [], popped := 0 }

/-- Bytes of one block, as a number. -/
abbrev State.size (s : State) : Nat := 2 ^ s.q.log2BlockSize

/-- The next load or store of the producer's operation. -/
def producerStep (s : State) : Option State :=
  match s.producer with
  | .idle => none
  | .newBlockLoadBack =>
    some { s with producer := .newBlockLoadFront s.q.producerCachedBack }
  | .newBlockLoadFront back =>
    if back - s.q.producerCachedFront = s.q.capacity then
      some { s with producer := .newBlockPause }
    else some { s with producer := .newBlockIndex }
  | .newBlockPause => some { s with producer := .newBlockReloadFront }
  | .newBlockReloadFront => some { s with producer := .newBlockStoreFront s.q.front }
  | .newBlockStoreFront front =>
    some { s with
      q := { s.q with producerCachedFront := front }, producer := .newBlockLoadBack }
  | .newBlockIndex =>
    some { s with producer := .block (s.q.blockAt s.q.producerCachedBack) }
  | .block _ => none
  | .pushLoad p => some { s with producer := .pushStoreCached p s.q.producerCachedBack }
  | .pushStoreCached p back =>
    some { s with
      q := { s.q with producerCachedBack := back + 1 }, producer := .pushStoreBack p (back + 1) }
  | .pushStoreBack p back =>
    some { s with
      q := { s.q with back := back }, producer := .idle
      pushed := s.pushed ++ [(p, s.mem.read p s.size)] }

/-- The next load or store of the consumer's operation. -/
def consumerStep (s : State) : Option State :=
  match s.consumer with
  | .idle | .emptyDone _ | .block _ | .holding _ _ => none
  | .emptyLoad => some { s with consumer := .emptyStore s.q.back }
  | .emptyStore back =>
    some { s with q := { s.q with consumerCachedBack := back }, consumer := .emptyTestBack }
  | .emptyTestBack => some { s with consumer := .emptyTestFront s.q.consumerCachedBack }
  | .emptyTestFront back =>
    some { s with consumer := .emptyDone (back = s.q.consumerCachedFront) }
  | .frontLoadBack => some { s with consumer := .frontLoadFront s.q.consumerCachedBack }
  | .frontLoadFront back =>
    if back = s.q.consumerCachedFront then some { s with consumer := .frontPause }
    else some { s with consumer := .frontIndex }
  | .frontPause => some { s with consumer := .frontReloadBack }
  | .frontReloadBack => some { s with consumer := .frontStoreBack s.q.back }
  | .frontStoreBack back =>
    some { s with q := { s.q with consumerCachedBack := back }, consumer := .frontLoadBack }
  | .frontIndex =>
    some { s with consumer := .block (s.q.blockAt s.q.consumerCachedFront) }
  | .popLoad => some { s with consumer := .popStoreCached s.q.consumerCachedFront }
  | .popStoreCached front =>
    some { s with
      q := { s.q with consumerCachedFront := front + 1 }, consumer := .popStoreFront (front + 1) }
  | .popStoreFront front =>
    some { s with
      q := { s.q with front := front }, consumer := .idle, popped := s.popped + 1 }

/-- What either side does next: call an operation, go on inside one, touch the
block it was handed, or leave `spsc_empty`. -/
inductive Act
  | newBlock
  | producer
  | fill (bs : List Byte)
  | push
  | empty
  | emptyRet
  | front
  | consumer
  | read
  | pop

/-- The queue's machine: every interleaving of one producer and one consumer. -/
def step (s : State) : Act → Option State
  | .newBlock =>
    match s.producer with
    | .idle => some { s with producer := .newBlockLoadBack }
    | _ => none
  | .producer => producerStep s
  | .fill bs =>
    match s.producer with
    | .block p => if bs.length ≤ s.size then some { s with mem := s.mem.write p bs } else none
    | _ => none
  | .push =>
    match s.producer with
    | .block p => some { s with producer := .pushLoad p }
    | _ => none
  | .empty =>
    match s.consumer with
    | .idle => some { s with consumer := .emptyLoad }
    | _ => none
  | .emptyRet =>
    match s.consumer with
    | .emptyDone _ => some { s with consumer := .idle }
    | _ => none
  | .front =>
    match s.consumer with
    | .idle => some { s with consumer := .frontLoadBack }
    | _ => none
  | .consumer => consumerStep s
  | .read =>
    match s.consumer with
    | .block p =>
      some { s with
        consumer := .holding p (s.mem.read p s.size), taken := s.taken ++ [s.mem.read p s.size] }
    | _ => none
  | .pop =>
    match s.consumer with
    | .holding _ _ => some { s with consumer := .popLoad }
    | _ => none

/-- The machine of one queue. -/
def machine : Machine State Act := ⟨step⟩

end MicroRosDemos.Spsc
