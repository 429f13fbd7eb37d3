import Mathlib.Data.Nat.Fib.Basic
import MicroRosDemos.Rclc.Fibonacci

/-!
# The values of the Fibonacci action server

The elements that `fibonacci_worker` computes, publishes and returns. Its additions
are on 32 bits, and what it stores at `i` is always F(i) modulo 2^32 (`Kept`); up to
F(46) that is F(i) itself. `handle_goal` accepts orders up to 200, so the values are
right just when the order is at most 47 or nothing is ever computed
(`fibonacci_values`).
-/

namespace MicroRosDemos.Rclc.Fibonacci

open MicroRosDemos.Lib

/-- A worker with the feedback messages it has published. -/
structure Recorded where
  worker : State
  published : List (List (BitVec 32))

/-- What a step publishes: `rclc_action_publish_feedback` sends the elements of `feedback`. -/
def message (s : State) : Act → List (List (BitVec 32))
  | .work =>
    match s.pc with
    | .publish _ => (s.read s.feedback).toList
    | _ => []
  | .cancel | .sendResult _ => []

/-- The worker with the history of its messages. -/
def recorded (g : Goal) : Machine Recorded Act :=
  ⟨fun r a => (step g r.worker a).map fun t => ⟨t, r.published ++ message r.worker a⟩⟩

/-- A list is the beginning of the Fibonacci sequence, as exact integers. -/
def IsFib (l : List (BitVec 32)) : Prop :=
  ∀ i v, l[i]? = some v → v.toInt = (Nat.fib i : Int)

/-- What is wanted of the values: every element is exact as soon as it is stored,
every message and every succeeded result is a beginning of the sequence, a message is
one entry longer than the one before, and a succeeded result has `order` entries. -/
structure Values (g : Goal) (r : Recorded) : Prop where
  stored : ∀ i v, i < r.worker.feedback.size → r.worker.load i = some v → v.toInt = (Nat.fib i : Int)
  published : ∀ m ∈ r.published, IsFib m
  extended : ∀ k m m', r.published[k]? = some m → r.published[k + 1]? = some m' → ∃ v, m' = m ++ [v]
  succeeded : ∀ x ∈ r.worker.sends, x.state = .succeeded →
    IsFib x.result ∧ (x.result.length : Int) = g.order.toInt

/-! ## The sequence modulo 2^32 -/

/-- The first `k` Fibonacci numbers, each modulo 2^32. -/
def fibs (k : Nat) : List (BitVec 32) := (List.range k).map fun i => BitVec.ofNat 32 (Nat.fib i)

theorem fibs_length (k : Nat) : (fibs k).length = k := by
  unfold fibs
  rw [List.length_map, List.length_range]

theorem fibs_succ (k : Nat) : fibs (k + 1) = fibs k ++ [BitVec.ofNat 32 (Nat.fib k)] := by
  unfold fibs
  rw [List.range_succ, List.map_append, List.map_singleton]

theorem fibs_getElem? {k i : Nat} (h : i < k) : (fibs k)[i]? = some (BitVec.ofNat 32 (Nat.fib i)) := by
  unfold fibs
  rw [List.getElem?_map, List.getElem?_range h, Option.map_some]

/-- The worker's addition is the recurrence. -/
theorem fib_add (i : Nat) :
    BitVec.ofNat 32 (Nat.fib (i + 1)) + BitVec.ofNat 32 (Nat.fib i) =
      BitVec.ofNat 32 (Nat.fib (i + 2)) := by
  rw [← BitVec.ofNat_add, Nat.fib_add_two, Nat.add_comm]

/-- F(46) is the last that an `int32` holds. -/
theorem toInt_fib {i : Nat} (h : i < 47) : (BitVec.ofNat 32 (Nat.fib i)).toInt = (Nat.fib i : Int) := by
  have hmono : Nat.fib i ≤ Nat.fib 46 := Nat.fib_mono (by omega)
  have hlast : Nat.fib 46 = 1836311903 := by decide +kernel
  have hnat : (BitVec.ofNat 32 (Nat.fib i)).toNat = Nat.fib i := by
    rw [BitVec.toNat_ofNat, Nat.mod_eq_of_lt (by omega)]
  rw [BitVec.toInt_eq_toNat_of_lt (by omega), hnat]

theorem toInt_fib_overflow : (BitVec.ofNat 32 (Nat.fib 47)).toInt ≠ (Nat.fib 47 : Int) := by
  decide +kernel

theorem isFib_fibs {k : Nat} (h : k ≤ 47) : IsFib (fibs k) := by
  intro i v hv
  have hi : i < k := by
    have := (List.getElem?_eq_some_iff.mp hv).1
    rwa [fibs_length] at this
  rw [fibs_getElem? hi] at hv
  cases hv
  exact toInt_fib (by omega)

theorem not_isFib_fibs {k : Nat} (h : 47 < k) : ¬ IsFib (fibs k) :=
  fun hfib => toInt_fib_overflow (hfib 47 _ (fibs_getElem? h))

/-- The first `n` messages: three entries, then one more each time. -/
def messages (n : Nat) : List (List (BitVec 32)) := (List.range n).map fun k => fibs (k + 3)

theorem messages_length (n : Nat) : (messages n).length = n := by
  unfold messages
  rw [List.length_map, List.length_range]

theorem messages_succ (n : Nat) : messages (n + 1) = messages n ++ [fibs (n + 3)] := by
  unfold messages
  rw [List.range_succ, List.map_append, List.map_singleton]

theorem messages_extended {n k : Nat} {m m' : List (BitVec 32)} (hm : (messages n)[k]? = some m)
    (hm' : (messages n)[k + 1]? = some m') : ∃ v, m' = m ++ [v] := by
  have hk : k + 1 < n := by
    have := (List.getElem?_eq_some_iff.mp hm').1
    rwa [messages_length] at this
  unfold messages at hm hm'
  rw [List.getElem?_map, List.getElem?_range (by omega)] at hm hm'
  cases hm
  cases hm'
  exact ⟨_, fibs_succ (k + 3)⟩

theorem take_set_succ {α : Type*} {l : List α} {i : Nat} (h : i < l.length) (v : α) :
    (l.set i v).take (i + 1) = l.take i ++ [v] := by
  rw [List.take_succ_eq_append_getElem (by rwa [List.length_set]), List.getElem_set_self,
    List.take_set_of_le (Nat.le_refl i)]

/-! ## Every state of a worker -/

/-- The first `k` elements are what they should be, as far as there is memory. -/
def Stored (s : State) (k : Nat) : Prop :=
  ∀ elems, s.malloced = some s.feedback.data → s.block = some elems → elems.take k = fibs k

/-- What is known at each place, `n` messages having been published. -/
def Known (g : Goal) (limit : Nat) (s : State) (n : Nat) : Pc → Prop
  | .start => n = 0
  | .malloc => n = 0 ∧ 2 ≤ g.order.toInt
  | .first => n = 0 ∧ 2 ≤ g.order.toInt ∧ s.feedback.size = 0
  | .second => n = 0 ∧ 2 ≤ g.order.toInt ∧ s.feedback.size = 0 ∧ Stored s 1
  | .test i => 2 ≤ g.order.toInt ∧ s.feedback.size = i ∧ n + 2 = i ∧ i ≤ g.orderSize
  | .body i => 2 ≤ g.order.toInt ∧ s.feedback.size = i ∧ n + 2 = i ∧ i < g.orderSize
  | .publish i => 2 ≤ g.order.toInt ∧ s.feedback.size = i + 1 ∧ n + 2 = i ∧ i < g.orderSize
  | .check => 2 ≤ g.order.toInt ∧ s.feedback.size ≤ limit ∧
    (s.cancelled = false → s.feedback.size = g.orderSize)
  | .send .succeeded => 2 ≤ g.order.toInt ∧ s.response = s.feedback ∧ s.feedback.size = g.orderSize ∧
    g.orderSize ≤ limit
  | .send .canceled | .send .aborted | .free | .exited | .badAccess => True

/-- The invariant: up to `limit` elements have been computed, each modulo 2^32. -/
structure Kept (g : Goal) (limit : Nat) (r : Recorded) : Prop where
  stored : Stored r.worker r.worker.feedback.size
  memory : g.malloc = 0 → r.worker.malloced = none
  size : r.worker.malloced ≠ none → r.worker.feedback.size ≤ limit
  published : ∃ n, r.published = messages n ∧ n + 2 ≤ limit ∧ Known g limit r.worker n r.worker.pc
  succeeded : ∀ x ∈ r.worker.sends, x.state = .succeeded →
    2 ≤ g.order.toInt ∧ x.result = fibs g.orderSize ∧ g.orderSize ≤ limit

variable {g : Goal} {limit : Nat} {r : Recorded} {s t : State}

theorem start_kept (hlimit : 2 ≤ limit) : Kept g limit ⟨.start g, []⟩ where
  stored := fun _ hmalloced => (by cases hmalloced)
  memory := fun _ => rfl
  size := fun hmalloced => absurd rfl hmalloced
  published := ⟨0, rfl, hlimit, rfl⟩
  succeeded := fun _ hx => (by cases hx)

theorem malloced_of_load {i : Nat} {v : BitVec 32} (hload : s.load i = some v) : s.malloced ≠ none := by
  intro hnone
  unfold State.load at hload
  rw [hnone] at hload
  cases hload

/-- An element below the size, out of the worker's memory. -/
theorem Stored.load {k i : Nat} {v : BitVec 32} (h : Stored s k) (hi : i < k) (hload : s.load i = some v) :
    v = BitVec.ofNat 32 (Nat.fib i) := by
  unfold State.load at hload
  split at hload
  · next hmalloced =>
    obtain ⟨elems, hblock, hget⟩ := Option.bind_eq_some_iff.mp hload
    have htake : (elems.take k)[i]? = some v := by rw [List.getElem?_take_of_lt hi, hget]
    rw [h elems hmalloced hblock, fibs_getElem? hi] at htake
    exact (Option.some.inj htake).symm
  · cases hload

/-- The next element is stored behind the others. -/
theorem Stored.store {k : Nat} (h : Stored s k) (hstore : s.store k (BitVec.ofNat 32 (Nat.fib k)) = some t) :
    Stored t (k + 1) ∧ ∃ elems, t = { s with block := some elems } := by
  unfold State.store at hstore
  split at hstore
  · next hmalloced =>
    obtain ⟨elems, hblock, hsome⟩ := Option.bind_eq_some_iff.mp hstore
    split at hsome
    · next hk =>
      cases hsome
      refine ⟨fun elems' _ helems' => ?_, _, rfl⟩
      cases helems'
      rw [take_set_succ hk, h elems hmalloced hblock, fibs_succ]
    · cases hsome
  · cases hstore

/-- The elements that a message or a result is made of. -/
theorem Stored.read {result : List (BitVec 32)} (h : Stored s s.feedback.size)
    (hread : s.read s.feedback = some result) :
    result = fibs s.feedback.size ∧ (s.feedback.size ≠ 0 → s.malloced ≠ none) := by
  unfold State.read at hread
  split at hread
  · next hzero =>
    cases hread
    rw [hzero]
    exact ⟨rfl, fun hne => absurd rfl hne⟩
  · split at hread
    · next hmalloced =>
      obtain ⟨elems, hblock, hsome⟩ := Option.bind_eq_some_iff.mp hread
      split at hsome
      · cases hsome
        exact ⟨h elems hmalloced hblock, fun _ hnone => by rw [hmalloced] at hnone; cases hnone⟩
      · cases hsome
    · cases hread

section Step
variable (h : Kept g limit r)
include h

/-- A step that computes, publishes and sends nothing. -/
theorem Kept.next (hfeedback : t.feedback = r.worker.feedback) (hmalloced : t.malloced = r.worker.malloced)
    (hblock : ∀ elems, t.block = some elems → r.worker.block = some elems)
    (hsends : t.sends = r.worker.sends)
    (hknown : ∀ n, n + 2 ≤ limit → Known g limit r.worker n r.worker.pc → Known g limit t n t.pc) :
    Kept g limit ⟨t, r.published ++ []⟩ := by
  obtain ⟨n, hpublished, hn, hat⟩ := h.published
  refine ⟨fun elems hm hb => ?_, fun hnull => hmalloced.trans (h.memory hnull), fun hm => ?_,
    ⟨n, ?_, hn, hknown n hn hat⟩, fun x hx => ?_⟩
  · dsimp only at hm hb ⊢
    rw [hmalloced, hfeedback] at hm
    rw [hfeedback]
    exact h.stored elems hm (hblock elems hb)
  · dsimp only at hm ⊢
    rw [hmalloced] at hm
    rw [hfeedback]
    exact h.size hm
  · rw [List.append_nil, hpublished]
  · dsimp only at hx
    rw [hsends] at hx
    exact h.succeeded x hx

/-- A step that stores the element `k`, the sequence then having `size` elements. -/
theorem Kept.store {k size : Nat} {pc : Pc} {u : State} (hstored : Stored r.worker k)
    (hstore : r.worker.store k (BitVec.ofNat 32 (Nat.fib k)) = some u) (hsize : size ≤ k + 1)
    (hlimit : size ≤ limit)
    (hknown : ∀ n, n + 2 ≤ limit → Known g limit r.worker n r.worker.pc → Stored u (k + 1) →
      Known g limit { u with pc := pc, feedback := { u.feedback with size := size } } n pc) :
    Kept g limit ⟨{ u with pc := pc, feedback := { u.feedback with size := size } }, r.published ++ []⟩ := by
  obtain ⟨n, hpublished, hn, hat⟩ := h.published
  obtain ⟨hnext, elems, rfl⟩ := hstored.store hstore
  refine ⟨fun elems' hm hb => ?_, h.memory, fun _ => hlimit, ⟨n, ?_, hn, hknown n hn hat hnext⟩,
    h.succeeded⟩
  · have htake := congrArg (List.take size) (hnext elems' hm hb)
    rw [List.take_take, Nat.min_eq_left hsize] at htake
    rw [htake]
    unfold fibs
    rw [← List.map_take, List.take_range, Nat.min_eq_left hsize]
  · rw [List.append_nil, hpublished]

/-- The sequence is allocated, and its first two elements are stored. -/
theorem Kept.firstTwo (hpc : r.worker.pc = .first ∨ r.worker.pc = .second) (hwork : work g r.worker = some t) :
    Kept g limit ⟨t, r.published ++ []⟩ := by
  obtain ⟨n, _, hn, hat⟩ := h.published
  rcases hpc with hpc | hpc <;> rw [hpc] at hat <;> simp only [work, hpc] at hwork <;> split at hwork
  · next u hstore =>
    cases hwork
    obtain ⟨_, _, hsize⟩ := hat
    obtain ⟨_, elems, hu⟩ := (show Stored r.worker 0 from fun _ _ _ => rfl).store hstore
    have hkeep : ({ u with pc := .second } : State) =
        { u with pc := .second, feedback := { u.feedback with size := 0 } } := by
      rw [← hsize, hu]
    rw [hkeep]
    refine h.store (k := 0) (fun _ _ _ => rfl) hstore (Nat.zero_le _) (Nat.zero_le _) fun m _ hm hnext => ?_
    rw [hpc] at hm
    exact ⟨hm.1, hm.2.1, rfl, hnext⟩
  · cases hwork
    exact h.next rfl rfl (fun _ => id) rfl fun _ _ _ => trivial
  · next u hstore =>
    cases hwork
    obtain ⟨_, horder, _, hstored⟩ := hat
    have hsize := orderSize_eq (g := g) (by omega)
    refine h.store (k := 1) hstored hstore (Nat.le_refl 2) (by omega) fun m _ hm _ => ?_
    rw [hpc] at hm
    exact ⟨horder, rfl, by rw [hm.1], by omega⟩
  · cases hwork
    exact h.next rfl rfl (fun _ => id) rfl fun _ _ _ => trivial

/-- The next element is computed: the sum of the two before it. -/
theorem Kept.body {i : Nat} (hpc : r.worker.pc = .body i) (hi : r.worker.malloced ≠ none → i ≠ limit)
    (hwork : work g r.worker = some t) :
    Kept g limit ⟨t, r.published ++ []⟩ := by
  obtain ⟨n, _, hn, hat⟩ := h.published
  rw [hpc] at hat
  obtain ⟨horder, hsize, hni, hlt⟩ := hat
  have hstored := h.stored
  rw [hsize] at hstored
  simp only [work, hpc] at hwork
  split at hwork
  · next a b ha hb =>
    have hsum : a + b = BitVec.ofNat 32 (Nat.fib i) := by
      rw [hstored.load (by omega) ha, hstored.load (by omega) hb, ← hni]
      exact fib_add n
    rw [hsum] at hwork
    split at hwork
    · next u hstore =>
      cases hwork
      obtain ⟨_, elems, hu⟩ := hstored.store hstore
      have husize : u.feedback.size + 1 = i + 1 := by rw [hu, ← hsize]
      rw [husize]
      have hne := hi (malloced_of_load ha)
      refine h.store hstored hstore (Nat.le_refl _) (by omega) fun m _ hm _ => ?_
      rw [hpc] at hm
      exact ⟨horder, rfl, hm.2.2.1, hlt⟩
    · cases hwork
      exact h.next rfl rfl (fun _ => id) rfl fun _ _ _ => trivial
  · cases hwork
    exact h.next rfl rfl (fun _ => id) rfl fun _ _ _ => trivial

/-- What has been computed so far is published. -/
theorem Kept.publish {i : Nat} (hpc : r.worker.pc = .publish i) (hwork : work g r.worker = some t) :
    Kept g limit ⟨t, r.published ++ (r.worker.read r.worker.feedback).toList⟩ := by
  obtain ⟨n, hpublished, hn, hat⟩ := h.published
  rw [hpc] at hat
  obtain ⟨horder, hsize, hni, hlt⟩ := hat
  simp only [work, hpc] at hwork
  split at hwork
  · next m hread =>
    cases hwork
    obtain ⟨hm, hmalloced⟩ := h.stored.read hread
    have hle := h.size (hmalloced (by omega))
    refine ⟨h.stored, h.memory, h.size, ⟨n + 1, ?_, by omega, horder, by omega, by omega, hlt⟩, h.succeeded⟩
    rw [hread, hpublished, messages_succ, hm, hsize, ← hni]
    rfl
  · next hread =>
    cases hwork
    rw [hread]
    exact h.next rfl rfl (fun _ => id) rfl fun _ _ _ => trivial

/-- Every step of the worker keeps the invariant, unless it computes the element `limit`. -/
theorem work_kept (hok : r.worker.malloced ≠ none → r.worker.pc ≠ .body limit)
    (hwork : work g r.worker = some t) :
    Kept g limit ⟨t, r.published ++ message r.worker .work⟩ := by
  obtain ⟨n, hpublished, hn, hat⟩ := h.published
  cases hpc : r.worker.pc with
  | first =>
    simp only [message, hpc]
    exact h.firstTwo (.inl hpc) hwork
  | second =>
    simp only [message, hpc]
    exact h.firstTwo (.inr hpc) hwork
  | body i =>
    simp only [message, hpc]
    exact h.body hpc (fun hmalloced heq => hok hmalloced (by rw [hpc, heq])) hwork
  | publish i =>
    simp only [message, hpc]
    exact h.publish hpc hwork
  | start =>
    simp only [message, hpc]
    simp only [work, hpc] at hwork
    cases hwork
    refine h.next rfl rfl (fun _ => id) rfl fun m _ hm => ?_
    rw [hpc] at hm
    dsimp only
    split
    · trivial
    · exact ⟨hm, by omega⟩
  | malloc =>
    simp only [message, hpc]
    rw [hpc] at hat
    simp only [work, hpc] at hwork
    cases hwork
    refine ⟨fun _ _ _ => rfl, fun hnull => if_pos hnull, fun _ => Nat.zero_le _,
      ⟨n, ?_, hn, hat.1, hat.2, rfl⟩, h.succeeded⟩
    rw [List.append_nil, hpublished]
  | test i =>
    simp only [message, hpc]
    simp only [work, hpc] at hwork
    cases hwork
    refine h.next rfl rfl (fun _ => id) rfl fun m hm hknown => ?_
    rw [hpc] at hknown
    obtain ⟨horder, hsize, hmi, hle⟩ := hknown
    dsimp only
    split
    · next hgo => exact ⟨horder, hsize, hmi, hgo.1⟩
    · next hstop =>
      refine ⟨horder, by dsimp only; omega, fun hflag => ?_⟩
      have : ¬ i < g.orderSize := fun hlt => hstop ⟨hlt, hflag⟩
      dsimp only
      omega
  | check =>
    simp only [message, hpc]
    simp only [work, hpc] at hwork
    split at hwork <;> cases hwork
    · exact h.next rfl rfl (fun _ => id) rfl fun _ _ _ => trivial
    · next hflag =>
      refine h.next rfl rfl (fun _ => id) rfl fun m _ hknown => ?_
      rw [hpc] at hknown
      obtain ⟨horder, hle, hfull⟩ := hknown
      have hsize := hfull (Bool.eq_false_of_not_eq_true hflag)
      exact ⟨horder, rfl, hsize, hsize ▸ hle⟩
  | free =>
    simp only [message, hpc]
    simp only [work, hpc] at hwork
    cases hwork
    refine h.next rfl rfl (fun elems helems => ?_) rfl fun _ _ _ => trivial
    dsimp only at helems
    split at helems
    · cases helems
    · exact helems
  | send goalState | exited | badAccess =>
    simp only [work, hpc] at hwork
    cases hwork

/-- A result that is sent as succeeded is the whole sequence. -/
theorem sendResult_kept {ok : Bool} (hsend : sendResult r.worker ok = some t) :
    Kept g limit ⟨t, r.published ++ []⟩ := by
  obtain ⟨n, hpublished, hn, hat⟩ := h.published
  unfold sendResult at hsend
  split at hsend
  · next goalState hpc =>
    rw [hpc] at hat
    split at hsend <;> cases hsend
    · next result hread =>
      refine ⟨h.stored, h.memory, h.size, ⟨n, by rw [List.append_nil, hpublished], hn, ?_⟩,
        forall_mem_grown.mpr ⟨h.succeeded, fun hstate => ?_⟩⟩
      · cases ok
        · exact hat
        · trivial
      · cases hstate
        obtain ⟨horder, hresponse, hsize, hle⟩ := hat
        rw [hresponse] at hread
        exact ⟨horder, by rw [(h.stored.read hread).1, hsize], hle⟩
    · exact h.next rfl rfl (fun _ => id) rfl fun _ _ _ => trivial
  · cases hsend

/-- A cancellation at any place. -/
theorem cancel_kept : Kept g limit ⟨{ r.worker with cancelled := true }, r.published ++ []⟩ := by
  refine h.next rfl rfl (fun _ => id) rfl fun n _ hat => ?_
  dsimp only
  cases hpc : r.worker.pc with
  | check =>
    rw [hpc] at hat
    exact ⟨hat.1, hat.2.1, fun hflag => (by cases hflag)⟩
  | send goalState =>
    rw [hpc] at hat
    cases goalState <;> exact hat
  | _ =>
    rw [hpc] at hat
    exact hat

/-- An element `limit` is computed for larger orders only. -/
theorem Kept.body_lt {i : Nat} (hpc : r.worker.pc = .body i) : (i : Int) < g.order.toInt := by
  obtain ⟨n, _, _, hat⟩ := h.published
  rw [hpc] at hat
  have hsize := orderSize_eq (g := g) (by have := hat.1; omega)
  have := hat.2.2.2
  omega

/-- The values are right when no element past F(46) has been computed. -/
theorem values_of_kept (hlimit : limit ≤ 47) : Values g r where
  stored i v hi hload := by
    have := h.size (malloced_of_load hload)
    rw [h.stored.load hi hload]
    exact toInt_fib (by omega)
  published m hm := by
    obtain ⟨n, hpublished, hn, _⟩ := h.published
    rw [hpublished] at hm
    obtain ⟨k, hk, rfl⟩ := List.mem_map.mp hm
    have := List.mem_range.mp hk
    exact isFib_fibs (by omega)
  extended k m m' hm hm' := by
    obtain ⟨n, hpublished, _⟩ := h.published
    rw [hpublished] at hm hm'
    exact messages_extended hm hm'
  succeeded x hx hstate := by
    obtain ⟨horder, hresult, hle⟩ := h.succeeded x hx hstate
    rw [hresult, fibs_length]
    exact ⟨isFib_fibs (by omega), orderSize_eq (by omega)⟩

end Step

/-- The step that computes the element `limit`. -/
def Computes (limit : Nat) (s : State) (a : Act) : Prop := s.pc = .body limit ∧ a = .work

theorem recorded_kept {r' : Recorded} {a : Act} (h : Kept g limit r)
    (hok : r.worker.malloced ≠ none → ¬ Computes limit r.worker a)
    (hstep : (recorded g).step r a = some r') : Kept g limit r' := by
  obtain ⟨t, hworker, rfl⟩ := Option.map_eq_some_iff.mp hstep
  cases a with
  | cancel =>
    cases hworker
    exact cancel_kept h
  | work => exact work_kept h (fun hmalloced hpc => hok hmalloced ⟨hpc, rfl⟩) hworker
  | sendResult ok => exact sendResult_kept h hworker

/-- For orders up to `limit` the element `limit` is never computed. -/
theorem reach_kept (hlimit : 2 ≤ limit) (horder : g.order.toInt ≤ limit)
    (hreach : (recorded g).Reach ⟨.start g, []⟩ r) : Kept g limit r :=
  hreach.invariant (Kept g limit) (start_kept hlimit) fun _ _ _ h _ hstep =>
    recorded_kept h (fun _ hcomputes => by have := h.body_lt hcomputes.1; omega) hstep

/-! ## A worker that is not cancelled -/

/-- A store writes to the block, and to nothing else. -/
theorem store_eq {i : Nat} {v : BitVec 32} (hstore : s.store i v = some t) :
    ∃ elems, t = { s with block := some elems } := by
  unfold State.store at hstore
  split at hstore
  · obtain ⟨elems, _, hsome⟩ := Option.bind_eq_some_iff.mp hstore
    split at hsome <;> cases hsome
    exact ⟨_, rfl⟩
  · cases hstore

theorem work_cancelled (hwork : work g s = some t) : t.cancelled = s.cancelled := by
  unfold work at hwork
  split at hwork
  case h_3 | h_4 =>
    split at hwork <;> cases hwork
    · next hstore =>
      obtain ⟨elems, rfl⟩ := store_eq hstore
      rfl
    · rfl
  case h_6 =>
    split at hwork
    · split at hwork <;> cases hwork
      · next hstore =>
        obtain ⟨elems, rfl⟩ := store_eq hstore
        rfl
      · rfl
    · cases hwork
      rfl
  all_goals (try split at hwork) <;> cases hwork <;> rfl

theorem sendResult_cancelled {ok : Bool} (hsend : sendResult s ok = some t) : t.cancelled = s.cancelled := by
  unfold sendResult at hsend
  split at hsend
  · split at hsend <;> cases hsend <;> rfl
  · cases hsend

/-- With memory, a worker that nobody cancels comes to its end. -/
theorem runs_to_end (hown : OwnPointer g) (h : Inv g r.worker) (hflag : r.worker.cancelled = false) :
    ∃ r', (recorded g).Reach r r' ∧ Inv g r'.worker ∧ r'.worker.pc = .exited ∧
      r'.worker.cancelled = false := by
  generalize hn : rank g r.worker = n
  induction n using Nat.strong_induction_on generalizing r with
  | _ n ih =>
    rcases enabled h with hexited | ⟨u, hwork⟩ | hsend
    · exact ⟨r, .refl, h, hexited, hflag⟩
    · obtain ⟨hinv, hrank⟩ := work_inv h hown hwork
      have hstep : (recorded g).step r .work = some ⟨u, r.published ++ message r.worker .work⟩ :=
        Option.map_eq_some_iff.mpr ⟨u, hwork, rfl⟩
      obtain ⟨r', hreach, hend⟩ := ih (rank g u) (hn ▸ hrank) (r := ⟨u, _⟩) hinv
        ((work_cancelled hwork).trans hflag) rfl
      exact ⟨r', (Machine.Run.single trivial hstep).trans hreach, hend⟩
    · obtain ⟨u, hsend⟩ := hsend true
      obtain ⟨hinv, hrank⟩ := sendResult_inv h hsend
      have hstep : (recorded g).step r (.sendResult true) = some ⟨u, r.published ++ []⟩ :=
        Option.map_eq_some_iff.mpr ⟨u, hsend, rfl⟩
      obtain ⟨r', hreach, hend⟩ := ih (rank g u) (by rw [if_pos rfl] at hrank; omega) (r := ⟨u, _⟩) hinv
        ((sendResult_cancelled hsend).trans hflag) rfl
      exact ⟨r', (Machine.Run.single trivial hstep).trans hreach, hend⟩

/-- For an order from 48 on, the succeeded result has a wrong entry. -/
theorem bad_of_large (horder : 47 < g.order.toInt) (hsome : g.malloc ≠ 0) :
    ∃ r, (recorded g).Reach ⟨.start g, []⟩ r ∧ ¬ Values g r := by
  obtain ⟨r, hreach, hinv, hexited, hflag⟩ :=
    runs_to_end (r := ⟨.start g, []⟩) (.inl ⟨by omega, hsome⟩) start_inv rfl
  refine ⟨r, hreach, fun hvalues => ?_⟩
  have hsize := orderSize_eq (g := g) (by omega)
  have hkept : Kept g g.orderSize r := reach_kept (by omega) (by omega) hreach
  have honce := hinv.good.once
  rw [hexited] at honce
  obtain ⟨x, hx, _⟩ := List.countP_pos_iff.mp (Nat.lt_of_lt_of_eq Nat.one_pos honce.symm)
  obtain ⟨haborted, _, hcanceled⟩ := hinv.good.sent x hx
  have hstate : x.state = .succeeded := by
    cases hcase : x.state with
    | succeeded => rfl
    | aborted =>
      have := haborted.mp hcase
      omega
    | canceled =>
      have := (hcanceled hcase).1
      rw [hflag] at this
      cases this
  obtain ⟨_, hresult, _⟩ := hkept.succeeded x hx hstate
  have hfib := (hvalues.succeeded x hx hstate).1
  rw [hresult] at hfib
  exact not_isFib_fibs (by omega) hfib

/-- Without memory the element `limit` is never computed either. -/
theorem reach_kept_of_null (hlimit : 2 ≤ limit) (hnull : g.malloc = 0)
    (hreach : (recorded g).Reach ⟨.start g, []⟩ r) : Kept g limit r :=
  hreach.invariant (Kept g limit) (start_kept hlimit) fun _ _ _ h _ hstep =>
    recorded_kept h (fun hmalloced => absurd (h.memory hnull) hmalloced) hstep

/-- **The values are right up to order 47.** For every goal that is accepted, and
whenever it is cancelled: as long as the worker does not compute the element 47, what it
stores, publishes and returns is the beginning of the Fibonacci sequence. And all its
runs are like that if and only if the order is at most 47, or there is no memory for
the sequence. -/
theorem fibonacci_values (g : Goal) {s : State} (haccept : handleGoal g = some s) :
    (∀ r, (recorded g).Run (fun r a => ¬ Computes 47 r.worker a) ⟨s, []⟩ r → Values g r) ∧
      ((∀ r, (recorded g).Reach ⟨s, []⟩ r → Values g r) ↔ g.order.toInt ≤ 47 ∨ g.malloc = 0) := by
  cases handleGoal_eq haccept
  refine ⟨fun r hrun => ?_, fun hvalues => ?_, fun hcond r hreach => ?_⟩
  · have hkept := hrun.invariant (Kept g 47) (start_kept (by omega)) fun _ _ _ h hok hstep =>
      recorded_kept h (fun _ => hok) hstep
    exact values_of_kept hkept (Nat.le_refl 47)
  · by_contra hnot
    obtain ⟨hlarge, hsome⟩ := not_or.mp hnot
    obtain ⟨r, hreach, hbad⟩ := bad_of_large (by omega) hsome
    exact hbad (hvalues r hreach)
  · rcases hcond with hsmall | hnull
    · have hkept : Kept g 47 r := reach_kept (by omega) hsmall hreach
      exact values_of_kept hkept (Nat.le_refl 47)
    · exact values_of_kept (reach_kept_of_null (by omega) hnull hreach) (Nat.le_refl 47)

/-- A goal of order 47, with memory. -/
def goalLargest : Goal := ⟨47, ⟨0, 0, 0⟩, 4096, fun _ => 0⟩

theorem fibonacci_values_largest :
    ∃ s, handleGoal goalLargest = some s ∧
      (∀ r, (recorded goalLargest).Run (fun r a => ¬ Computes 47 r.worker a) ⟨s, []⟩ r →
        Values goalLargest r) ∧
      ((∀ r, (recorded goalLargest).Reach ⟨s, []⟩ r → Values goalLargest r) ↔
        goalLargest.order.toInt ≤ 47 ∨ goalLargest.malloc = 0) :=
  ⟨_, rfl, fibonacci_values goalLargest rfl⟩

/-- A goal of order 48, which is accepted, with memory. -/
def goalOverflow : Goal := ⟨48, ⟨0, 0, 0⟩, 4096, fun _ => 0⟩

/-- What a list has at 47, and its length. -/
def entry47 (l : List (BitVec 32)) : Nat × Option Int := (l.length, l[47]?.map BitVec.toInt)

/-- Its last feedback message and its result end with F(47) less 2^32. -/
theorem fibonacci_overflows :
    ∃ s r, handleGoal goalOverflow = some s ∧ (recorded goalOverflow).Reach ⟨s, []⟩ r ∧
      r.published.getLast?.map entry47 = some (48, some (-1323752223)) ∧
      r.worker.sends.map (fun x => (x.state, entry47 x.result)) =
        [(.succeeded, 48, some (-1323752223))] ∧
      ¬ Values goalOverflow r := by
  obtain ⟨r, hreach, hlast, hsends⟩ := (recorded goalOverflow).exists_reach
    (P := fun r => r.published.getLast?.map entry47 = some (48, some (-1323752223)) ∧
      r.worker.sends.map (fun x => (x.state, entry47 x.result)) =
        [(.succeeded, 48, some (-1323752223))])
    (s := ⟨.start goalOverflow, []⟩) (List.replicate 144 Act.work ++ [Act.sendResult true])
    (by decide +kernel)
  refine ⟨_, r, rfl, hreach, hlast, hsends, fun hvalues => ?_⟩
  cases hsent : r.worker.sends with
  | nil =>
    rw [hsent] at hsends
    cases hsends
  | cons x xs =>
    rw [hsent, List.map_cons] at hsends
    obtain ⟨hx, _⟩ := List.cons.inj hsends
    obtain ⟨hstate, hentry⟩ := Prod.mk.inj hx
    obtain ⟨v, hv, hneg⟩ := Option.map_eq_some_iff.mp (congrArg Prod.snd hentry)
    have hfib := (hvalues.succeeded x (by rw [hsent]; exact List.mem_cons_self) hstate).1 47 v hv
    rw [hneg] at hfib
    omega

end MicroRosDemos.Rclc.Fibonacci
