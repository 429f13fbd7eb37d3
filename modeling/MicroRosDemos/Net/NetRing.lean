import MicroRosDemos.Lib.Memory

/-!
# The sDDF net rings

`net_queue_t` and its operations come from outside the repository, so they are
a parameter: a type of rings, with what enqueueing and dequeueing do to one.
`NetRing.Fifo` is what the callers rely on, the documented behaviour of a ring
of a given capacity: it holds descriptors in order, a dequeue takes the first
or fails when there is none, and an enqueue appends while there is room.
-/

namespace MicroRosDemos.Net

open MicroRosDemos.Lib

/-- `net_buff_desc_t`. -/
structure NetBuffDesc where
  ioOrOffset : Nat
  len : Nat
deriving DecidableEq, Repr

/-- The bytes a descriptor stands for, in the data region it points into. -/
def NetBuffDesc.bytes (data : Mem) (d : NetBuffDesc) : List Byte := data.read d.ioOrOffset d.len

/-- The ring operations. `none` is the return value `-1`, which leaves the
out-parameter alone. -/
structure NetRing (Q : Type) where
  enqueue : Q → NetBuffDesc → Q
  dequeue : Q → Option (NetBuffDesc × Q)

/-- A ring that is a queue of at most `capacity` descriptors. -/
structure NetRing.Fifo {Q : Type} (N : NetRing Q) (contents : Q → List NetBuffDesc)
    (capacity : Nat) : Prop where
  dequeue_nil : ∀ q, contents q = [] → N.dequeue q = none
  dequeue_cons : ∀ q d ds, contents q = d :: ds →
    ∃ q', N.dequeue q = some (d, q') ∧ contents q' = ds
  enqueue : ∀ q d, (contents q).length < capacity → contents (N.enqueue q d) = contents q ++ [d]

/-- Rings as bounded lists. -/
def listRing (capacity : Nat) : NetRing (List NetBuffDesc) where
  enqueue q d := if q.length < capacity then q ++ [d] else q
  dequeue q := match q with
    | [] => none
    | d :: ds => some (d, ds)

theorem listRing_fifo (capacity : Nat) : (listRing capacity).Fifo id capacity where
  dequeue_nil q h := by
    cases h
    rfl
  dequeue_cons q d ds h := by
    cases h
    exact ⟨ds, rfl, rfl⟩
  enqueue q d h := if_pos h

/-- A successful dequeue took the first descriptor. -/
theorem NetRing.Fifo.dequeue_some {Q : Type} {N : NetRing Q} {contents : Q → List NetBuffDesc}
    {capacity : Nat} (h : N.Fifo contents capacity) {q q' : Q} {d : NetBuffDesc}
    (heq : N.dequeue q = some (d, q')) : contents q = d :: contents q' := by
  cases hq : contents q with
  | nil =>
    rw [h.dequeue_nil q hq] at heq
    cases heq
  | cons c cs =>
    obtain ⟨r, hr, hrest⟩ := h.dequeue_cons q c cs hq
    rw [hr] at heq
    cases heq
    rw [hrest]

/-- A dequeue fails on an empty ring only. -/
theorem NetRing.Fifo.dequeue_eq_none {Q : Type} {N : NetRing Q} {contents : Q → List NetBuffDesc}
    {capacity : Nat} (h : N.Fifo contents capacity) {q : Q} :
    N.dequeue q = none ↔ contents q = [] := by
  refine ⟨fun hnone => ?_, h.dequeue_nil q⟩
  cases hq : contents q with
  | nil => rfl
  | cons d ds =>
    obtain ⟨_, hsome, _⟩ := h.dequeue_cons q d ds hq
    cases hnone.symm.trans hsome

end MicroRosDemos.Net
