import Mathlib.Data.List.Basic

/-!
# Links that may lose

A link passes on what is put into it, in order and each message once, and may lose
some of them. `Carried` is what a link that takes its messages one at a time has done
with those it took; `Passed` is what may be seen at the far end of several links, where
some messages are still on their way. Both say what is left when nothing is lost.
-/

namespace MicroRosDemos.Lib

variable {α β : Type*} {lost : Nat} {inp mid out : List α} {x : α}

/-- A link has dealt with the messages `inp`, `out` came out of it, and `lost` did not. -/
structure Carried (lost : Nat) (inp out : List α) : Prop where
  sublist : out.Sublist inp
  lossless : lost = 0 → out = inp

/-- Of the messages `inp`, `out` have come through so far. -/
structure Passed (lost : Nat) (inp out : List α) : Prop where
  sublist : out.Sublist inp
  lossless : lost = 0 → out <+: inp

/-! ## One message at a time -/

theorem carried_nil : Carried lost ([] : List α) [] := ⟨.slnil, fun _ => rfl⟩

/-- The next message comes out. -/
theorem Carried.carry (h : Carried lost inp out) (x : α) : Carried lost (inp ++ [x]) (out ++ [x]) :=
  ⟨h.sublist.append (.refl _), fun hzero => by rw [h.lossless hzero]⟩

/-- The next message is lost. -/
theorem Carried.lose (h : Carried lost inp out) (x : α) : Carried (lost + 1) (inp ++ [x]) out :=
  ⟨h.sublist.trans (List.sublist_append_left _ _), fun hsucc => absurd hsucc (Nat.succ_ne_zero _)⟩

/-- A message is lost on another link. -/
theorem Carried.succ (h : Carried lost inp out) : Carried (lost + 1) inp out :=
  ⟨h.sublist, fun hsucc => absurd hsucc (Nat.succ_ne_zero _)⟩

/-! ## Links behind each other -/

/-- A link that has dealt with the first messages. -/
theorem Carried.passed (h : Carried lost mid out) (hmid : mid <+: inp) : Passed lost inp out :=
  ⟨h.sublist.trans hmid.sublist, fun hzero => h.lossless hzero ▸ hmid⟩

theorem passed_of_front (h : out <+: inp) : Passed lost inp out := ⟨h.sublist, fun _ => h⟩

theorem Passed.trans (h : Passed lost inp mid) (hout : Passed lost mid out) : Passed lost inp out :=
  ⟨hout.sublist.trans h.sublist, fun hzero => (hout.lossless hzero).trans (h.lossless hzero)⟩

/-- What is done to each message, or keeps it back, may be done before the link. -/
theorem Passed.filterMap (h : Passed lost inp out) (f : α → Option β) :
    Passed lost (inp.filterMap f) (out.filterMap f) :=
  ⟨h.sublist.filterMap f, fun hzero => (h.lossless hzero).filterMap f⟩

end MicroRosDemos.Lib
