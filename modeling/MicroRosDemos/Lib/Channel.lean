import MicroRosDemos.Lib.Machine

/-!
# A bounded first-in first-out channel

The abstract purpose of a ring buffer: one side sends, the other receives, at
most `bound` messages are under way, and what has been received is what was
sent, in order. The messages are of any type, and nothing is said of how they
are stored. An implementation that projects to this machine delivers without
loss, duplication or reordering (`received_le_sent`).
-/

namespace MicroRosDemos.Lib

/-- What was sent, and how much of it was received. -/
structure Channel (α : Type*) where
  sent : List α
  received : List α

namespace Channel

variable {α : Type*}

/-- A message is sent, or the next one is received. -/
inductive Act (α : Type*)
  | send (x : α)
  | receive (x : α)

/-- Nothing sent yet. -/
def empty : Channel α := ⟨[], []⟩

/-- A message is sent when fewer than `bound` are under way, and received when
it is the first of those. -/
def step [DecidableEq α] (bound : Nat) (c : Channel α) : Act α → Option (Channel α)
  | .send x =>
    if c.sent.length < c.received.length + bound then some { c with sent := c.sent ++ [x] }
    else none
  | .receive x =>
    if c.sent[c.received.length]? = some x then some { c with received := c.received ++ [x] }
    else none

/-- The channel as a machine. -/
def machine [DecidableEq α] (bound : Nat) : Machine (Channel α) (Act α) := ⟨step bound⟩

/-- The laws of a channel: the received messages are the first of the sent
ones, and no more than `bound` are under way. -/
structure Ordered (bound : Nat) (c : Channel α) : Prop where
  received_le_sent : c.received <+: c.sent
  bounded : c.sent.length ≤ c.received.length + bound

theorem empty_ordered (bound : Nat) : (empty : Channel α).Ordered bound :=
  ⟨List.prefix_rfl, Nat.zero_le _⟩

theorem step_ordered [DecidableEq α] {bound : Nat} {c d : Channel α} {a : Act α}
    (hc : c.Ordered bound) (h : step bound c a = some d) : d.Ordered bound := by
  obtain ⟨⟨rest, hrest⟩, hbound⟩ := hc
  cases a with
  | send x =>
    simp only [step] at h
    split at h
    · next hroom =>
      cases h
      exact ⟨⟨rest ++ [x], by simp only [← hrest, List.append_assoc]⟩, by simp; omega⟩
    · cases h
  | receive x =>
    simp only [step] at h
    split at h
    · next hnext =>
      cases h
      rw [← hrest, List.getElem?_append_right (Nat.le_refl _), Nat.sub_self] at hnext
      cases rest with
      | nil => cases hnext
      | cons y rest =>
        cases hnext
        exact ⟨⟨rest, by simp only [← hrest, List.append_assoc, List.singleton_append]⟩,
          by simp only [List.length_append]; omega⟩
    · cases h

/-- Every run from an ordered channel ends in one. -/
theorem reach_ordered [DecidableEq α] {bound : Nat} {c d : Channel α} (hc : c.Ordered bound)
    (h : (machine bound).Reach c d) : d.Ordered bound :=
  h.invariant _ hc fun _ _ _ hc _ hstep => step_ordered hc hstep

end Channel

end MicroRosDemos.Lib
