import Mathlib.Data.BitVec
import MicroRosDemos.Lib.Machine

/-!
# The Fibonacci action server

`fibonacci_worker` computes a goal's sequence into memory it allocates, unless the
order is below 2, and sends the result until that succeeds, while the goal may be
cancelled at any time. On all its ways it frees `feedback.feedback.sequence.data`:
on the way for small orders that pointer was never set. It comes to its end as it
should just when the pointer is its own (`worker_good_iff`).
-/

namespace MicroRosDemos.Rclc.Fibonacci

open MicroRosDemos.Lib

/-- A sequence of `int32`; `data` is an address, 0 being `NULL`. -/
structure Seq where
  data : Nat
  size : Nat
  capacity : Nat
deriving DecidableEq

/-- `rcl_action_goal_state_t`, as far as the worker uses it. -/
inductive GoalState
  | succeeded
  | canceled
  | aborted
deriving DecidableEq

/-- What a worker is given: the order of its goal, what its uninitialised feedback
holds, what `malloc` returns, and what is in the memory that it returns. -/
structure Goal where
  order : BitVec 32
  feedback : Seq
  malloc : Nat
  garbage : Nat → BitVec 32

/-- `(size_t) req->goal.order`. -/
def Goal.orderSize (g : Goal) : Nat := (g.order.signExtend 64).toNat

/-- Where the worker is. -/
inductive Pc
  | start
  | malloc
  | first
  | second
  | test (i : Nat)
  | body (i : Nat)
  | publish (i : Nat)
  | check
  | send (goalState : GoalState)
  | free
  | exited
  -- an access outside the allocated elements
  | badAccess
deriving DecidableEq

/-- A call of `rclc_action_send_result`: the state and the sequence it is given, and
whether it succeeds. -/
structure Sent where
  state : GoalState
  result : List (BitVec 32)
  ok : Bool

/-- The worker, its goal's cancel flag, what `malloc` gave it and what is there as
long as it is allocated. The histories are the calls that send the result, and the
pointers passed to `free`. -/
structure State where
  pc : Pc
  cancelled : Bool
  feedback : Seq
  response : Seq
  malloced : Option Nat
  block : Option (List (BitVec 32))
  sends : List Sent
  frees : List Nat

/-- `feedback.feedback.sequence.data[i]`, when that is allocated. -/
def State.load (s : State) (i : Nat) : Option (BitVec 32) :=
  if s.malloced = some s.feedback.data then s.block.bind (·[i]?) else none

/-- A store to `feedback.feedback.sequence.data[i]`, when that is allocated. -/
def State.store (s : State) (i : Nat) (v : BitVec 32) : Option State :=
  if s.malloced = some s.feedback.data then
    s.block.bind fun elems => if i < elems.length then some { s with block := some (elems.set i v) } else none
  else none

/-- The elements of a sequence, when they are allocated. -/
def State.read (s : State) (seq : Seq) : Option (List (BitVec 32)) :=
  if seq.size = 0 then some []
  else if s.malloced = some seq.data then
    s.block.bind fun elems => if seq.size ≤ elems.length then some (elems.take seq.size) else none
  else none

variable (g : Goal)

/-- The next step of the worker, up to the sending of the result and after it. -/
def work (s : State) : Option State :=
  match s.pc with
  | .start => some { s with pc := if g.order.toInt < 2 then .send .aborted else .malloc }
  | .malloc =>
    some { s with
      pc := .first, feedback := ⟨g.malloc, 0, g.orderSize⟩
      malloced := if g.malloc = 0 then none else some g.malloc
      block := if g.malloc = 0 then none else some ((List.range g.orderSize).map g.garbage) }
  | .first =>
    match s.store 0 0 with
    | some s => some { s with pc := .second }
    | none => some { s with pc := .badAccess }
  | .second =>
    match s.store 1 1 with
    | some s => some { s with pc := .test 2, feedback := { s.feedback with size := 2 } }
    | none => some { s with pc := .badAccess }
  | .test i => some { s with pc := if i < g.orderSize ∧ s.cancelled = false then .body i else .check }
  | .body i =>
    match s.load (i - 1), s.load (i - 2) with
    | some a, some b =>
      match s.store i (a + b) with
      | some s =>
        some { s with pc := .publish i, feedback := { s.feedback with size := s.feedback.size + 1 } }
      | none => some { s with pc := .badAccess }
    | _, _ => some { s with pc := .badAccess }
  | .publish i =>
    match s.read s.feedback with
    | some _ => some { s with pc := .test (i + 1) }
    | none => some { s with pc := .badAccess }
  | .check =>
    if s.cancelled then some { s with pc := .send .canceled }
    else some { s with pc := .send .succeeded, response := s.feedback }
  | .free =>
    some { s with
      pc := .exited, frees := s.frees ++ [s.feedback.data]
      block := if s.malloced = some s.feedback.data then none else s.block }
  | .send _ | .exited | .badAccess => none

/-- A turn of the loop that sends the result. -/
def sendResult (s : State) (ok : Bool) : Option State :=
  match s.pc with
  | .send goalState =>
    match s.read s.response with
    | some result =>
      some { s with
        pc := if ok then .free else .send goalState, sends := s.sends ++ [⟨goalState, result, ok⟩] }
    | none => some { s with pc := .badAccess }
  | _ => none

/-- What happens next: the goal is cancelled, or the worker takes a step. -/
inductive Act
  | cancel
  | work
  | sendResult (ok : Bool)

def step (s : State) : Act → Option State
  | .cancel => some { s with cancelled := true }
  | .work => work g s
  | .sendResult ok => sendResult s ok

/-- The worker, with a goal that may be cancelled at any time. -/
def machine : Machine State Act := ⟨step g⟩

/-- A worker that is created for the goal. -/
def State.start : State := ⟨.start, false, g.feedback, ⟨0, 0, 0⟩, none, none, [], []⟩

/-- `handle_goal`: a goal that is accepted gets a worker. -/
def handleGoal : Option State := if 200 < g.order.toInt then none else some (.start g)

/-! ## What a worker should do -/

/-- Results sent for good, and pointers freed, at each place. -/
def Pc.sent : Pc → Nat
  | .free | .exited => 1
  | _ => 0

def Pc.freed : Pc → Nat
  | .exited => 1
  | _ => 0

/-- What is wanted of every state of a worker: no access outside the allocated
elements; every result that is sent is that of its goal state, and one is sent for
good; and one pointer is freed, at the very end, `NULL` or what `malloc` gave this
goal. -/
structure Good (s : State) : Prop where
  access : s.pc ≠ .badAccess
  sent : ∀ x ∈ s.sends, (x.state = .aborted ↔ g.order.toInt < 2) ∧
    (x.state = .succeeded → (x.result.length : Int) = g.order.toInt) ∧
    (x.state = .canceled → s.cancelled = true ∧ x.result = [])
  once : s.sends.countP Sent.ok = s.pc.sent
  freed : s.frees.length = s.pc.freed
  own : ∀ p ∈ s.frees, p = 0 ∨ s.malloced = some p

/-- A step of the worker, other than a failed attempt to send the result. -/
def Act.advances : Act → Bool
  | .work | .sendResult true => true
  | .cancel | .sendResult false => false

/-- The worker comes to its end: there is a bound on its steps, failed attempts to
send aside, and until the end it can take one. -/
def Ends (s : State) : Prop :=
  ∃ bound, ∀ as t, (machine g).exec s as = some t → as.countP Act.advances ≤ bound ∧
    (t.pc = .exited ∨ (∃ u, work g t = some u) ∨ ∀ ok, ∃ u, sendResult t ok = some u)

/-- The worker's pointer is its own: `malloc` gives it one, or it never asks and the
uninitialised one happens to be `NULL`. -/
def OwnPointer : Prop :=
  (2 ≤ g.order.toInt ∧ g.malloc ≠ 0) ∨ (g.order.toInt < 2 ∧ g.feedback.data = 0)

/-! ## The allocated sequence -/

/-- The worker has its memory, and `data` points to it. -/
structure Filled (malloced : Option Nat) (data : Nat) (block : Option (List (BitVec 32))) : Prop where
  malloced : malloced = some g.malloc
  data : data = g.malloc
  block : ∃ elems, block = some elems ∧ elems.length = g.orderSize

/-- `feedback` is in the worker's memory. -/
abbrev State.Filled (s : State) : Prop := Fibonacci.Filled g s.malloced s.feedback.data s.block

variable {g} {s t : State}

theorem Filled.load (h : s.Filled g) {i : Nat} (hi : i < g.orderSize) : ∃ v, s.load i = some v := by
  obtain ⟨elems, hblock, hlen⟩ := h.block
  unfold State.load
  rw [if_pos (by rw [h.malloced, h.data]), hblock, Option.bind_some]
  exact ⟨elems[i], List.getElem?_eq_getElem (by omega)⟩

theorem Filled.store (h : s.Filled g) {i : Nat} (hi : i < g.orderSize) (v : BitVec 32) :
    ∃ elems, s.store i v = some { s with block := some elems } ∧ elems.length = g.orderSize := by
  obtain ⟨elems, hblock, hlen⟩ := h.block
  unfold State.store
  rw [if_pos (by rw [h.malloced, h.data]), hblock, Option.bind_some, if_pos (by omega)]
  exact ⟨_, rfl, by rw [List.length_set, hlen]⟩

theorem Filled.read (h : s.Filled g) {seq : Seq} (hdata : seq.data = g.malloc)
    (hsize : seq.size ≤ g.orderSize) : ∃ elems, s.read seq = some elems ∧ elems.length = seq.size := by
  obtain ⟨elems, hblock, hlen⟩ := h.block
  unfold State.read
  by_cases hzero : seq.size = 0
  · rw [if_pos hzero]
    exact ⟨[], rfl, hzero.symm⟩
  · rw [if_neg hzero, if_pos (by rw [h.malloced, hdata]), hblock, Option.bind_some, if_pos (by omega)]
    exact ⟨_, rfl, List.length_take_of_le (by omega)⟩

/-- An order from 0 on is the size that is allocated. -/
theorem orderSize_eq (h : 0 ≤ g.order.toInt) : (g.orderSize : Int) = g.order.toInt := by
  have hext : (g.order.signExtend 64).toInt = g.order.toInt := BitVec.toInt_signExtend_of_le (by omega)
  have hcond := BitVec.toInt_eq_toNat_cond (g.order.signExtend 64)
  have hlt := (g.order.signExtend 64).isLt
  unfold Goal.orderSize
  rw [hext] at hcond
  split at hcond <;> omega

/-! ## Every state of a worker -/

/-- What is known at each place, the worker's pointer being its own. -/
def At (g : Goal) (s : State) : Pc → Prop
  | .start => s.malloced = none ∧ s.feedback = g.feedback ∧ s.response.size = 0
  | .malloc => 2 ≤ g.order.toInt ∧ s.response.size = 0
  | .first | .second => 2 ≤ g.order.toInt ∧ s.response.size = 0 ∧ s.Filled g
  | .test i => 2 ≤ g.order.toInt ∧ s.response.size = 0 ∧ s.Filled g ∧ s.feedback.size = i ∧
    2 ≤ i ∧ i ≤ g.orderSize
  | .body i => 2 ≤ g.order.toInt ∧ s.response.size = 0 ∧ s.Filled g ∧ s.feedback.size = i ∧
    2 ≤ i ∧ i < g.orderSize
  | .publish i => 2 ≤ g.order.toInt ∧ s.response.size = 0 ∧ s.Filled g ∧ s.feedback.size = i + 1 ∧
    2 ≤ i ∧ i < g.orderSize
  | .check => 2 ≤ g.order.toInt ∧ s.response.size = 0 ∧ s.Filled g ∧
    (s.cancelled = false → s.feedback.size = g.orderSize)
  | .send .aborted => g.order.toInt < 2 ∧ s.feedback.data = 0 ∧ s.response.size = 0
  | .send .succeeded => 2 ≤ g.order.toInt ∧ s.Filled g ∧ s.response.data = g.malloc ∧
    s.response.size = g.orderSize
  | .send .canceled => 2 ≤ g.order.toInt ∧ s.Filled g ∧ s.cancelled = true ∧ s.response.size = 0
  | .free => s.feedback.data = 0 ∨ s.malloced = some s.feedback.data
  | .exited => True
  | .badAccess => False

/-- The steps that are left, failed attempts to send aside. -/
def rank (g : Goal) (s : State) : Nat :=
  match s.pc with
  | .start => 3 * g.orderSize + 12
  | .malloc => 3 * g.orderSize + 11
  | .first => 3 * g.orderSize + 10
  | .second => 3 * g.orderSize + 9
  | .test i => 3 * (g.orderSize - i) + 5
  | .body i => 3 * (g.orderSize - i) + 4
  | .publish i => 3 * (g.orderSize - i) + 3
  | .check => 4
  | .send _ => 3
  | .free => 2
  | .exited => 1
  | .badAccess => 0

/-- The invariant of a worker whose pointer is its own. -/
structure Inv (g : Goal) (s : State) : Prop where
  good : Good g s
  at_ : At g s s.pc

theorem Pc.freed_le_sent (pc : Pc) : pc.freed ≤ pc.sent := by
  cases pc <;> exact Nat.le_of_ble_eq_true rfl

/-- A step that sends and frees nothing. -/
theorem Inv.next (h : Inv g s) (hs : s.pc.sent = 0) (ht : t.pc.sent = 0) (hsends : t.sends = s.sends)
    (hfrees : t.frees = s.frees) (hcancelled : s.cancelled = true → t.cancelled = true)
    (hat : At g t t.pc) : Inv g t := by
  have hsfreed : s.pc.freed = 0 := Nat.eq_zero_of_le_zero (hs ▸ s.pc.freed_le_sent)
  have htfreed : t.pc.freed = 0 := Nat.eq_zero_of_le_zero (ht ▸ t.pc.freed_le_sent)
  refine ⟨⟨fun hbad => ?_, fun x hx => ?_, ?_, ?_, fun p hp => ?_⟩, hat⟩
  · rw [hbad] at hat
    exact hat
  · rw [hsends] at hx
    obtain ⟨haborted, hsucceeded, hcanceled⟩ := h.good.sent x hx
    exact ⟨haborted, hsucceeded, fun hc => (hcanceled hc).imp_left hcancelled⟩
  · rw [hsends, h.good.once, hs, ht]
  · rw [hfrees, h.good.freed, hsfreed, htfreed]
  · have hnone : s.frees = [] := List.eq_nil_of_length_eq_zero (h.good.freed.trans hsfreed)
    rw [hfrees, hnone] at hp
    cases hp

section Step
variable (h : Inv g s)
include h

/-- The order is looked at: below 2 the worker goes straight to sending. -/
theorem Inv.start (hown : OwnPointer g) (hpc : s.pc = .start) (hwork : work g s = some t) :
    Inv g t ∧ rank g t < rank g s := by
  have hat := h.at_
  rw [hpc] at hat
  obtain ⟨_, hfeedback, hresponse⟩ := hat
  simp only [work, hpc] at hwork
  cases hwork
  split
  · next hsmall =>
    have hnull : g.feedback.data = 0 := by
      rcases hown with ⟨hge, _⟩ | ⟨_, hnull⟩
      · omega
      · exact hnull
    refine ⟨h.next (by rw [hpc]; rfl) rfl rfl rfl id ⟨hsmall, by rw [hfeedback, hnull], hresponse⟩, ?_⟩
    simp only [rank, hpc]
    omega
  · next hlarge =>
    refine ⟨h.next (by rw [hpc]; rfl) rfl rfl rfl id ⟨by omega, hresponse⟩, ?_⟩
    simp only [rank, hpc]
    omega

theorem Inv.malloc (hown : OwnPointer g) (hpc : s.pc = .malloc) (hwork : work g s = some t) :
    Inv g t ∧ rank g t < rank g s := by
  have hat := h.at_
  rw [hpc] at hat
  obtain ⟨horder, hresponse⟩ := hat
  have hsome : g.malloc ≠ 0 := by
    rcases hown with ⟨_, hsome⟩ | ⟨hlt, _⟩
    · exact hsome
    · omega
  simp only [work, hpc] at hwork
  cases hwork
  refine ⟨h.next (by rw [hpc]; rfl) rfl rfl rfl id ⟨horder, hresponse, if_neg hsome, rfl, ?_⟩, ?_⟩
  · exact ⟨_, if_neg hsome, by rw [List.length_map, List.length_range]⟩
  · simp only [rank, hpc]
    omega

/-- The first two elements are stored. -/
theorem Inv.firstTwo (hpc : s.pc = .first ∨ s.pc = .second) (hwork : work g s = some t) :
    Inv g t ∧ rank g t < rank g s := by
  have hat := h.at_
  rcases hpc with hpc | hpc <;> rw [hpc] at hat <;> obtain ⟨horder, hresponse, hfilled⟩ := hat <;>
    have hsize := orderSize_eq (g := g) (by omega)
  · obtain ⟨elems, hstore, hlen⟩ := hfilled.store (i := 0) (by omega) 0
    simp only [work, hpc, hstore] at hwork
    cases hwork
    refine ⟨h.next (by rw [hpc]; rfl) rfl rfl rfl id
      ⟨horder, hresponse, hfilled.malloced, hfilled.data, elems, rfl, hlen⟩, ?_⟩
    simp only [rank, hpc]
    omega
  · obtain ⟨elems, hstore, hlen⟩ := hfilled.store (i := 1) (by omega) 1
    simp only [work, hpc, hstore] at hwork
    cases hwork
    refine ⟨h.next (by rw [hpc]; rfl) rfl rfl rfl id
      ⟨horder, hresponse, ⟨hfilled.malloced, hfilled.data, elems, rfl, hlen⟩, rfl, by omega, by omega⟩, ?_⟩
    simp only [rank, hpc]
    omega

/-- The loop is left when the sequence is full or the goal is cancelled. -/
theorem Inv.test {i : Nat} (hpc : s.pc = .test i) (hwork : work g s = some t) :
    Inv g t ∧ rank g t < rank g s := by
  have hat := h.at_
  rw [hpc] at hat
  obtain ⟨horder, hresponse, hfilled, hi, hlo, hhi⟩ := hat
  simp only [work, hpc] at hwork
  cases hwork
  split
  · next hgo =>
    refine ⟨h.next (by rw [hpc]; rfl) rfl rfl rfl id
      ⟨horder, hresponse, hfilled, hi, hlo, hgo.1⟩, ?_⟩
    simp only [rank, hpc]
    omega
  · next hstop =>
    refine ⟨h.next (by rw [hpc]; rfl) rfl rfl rfl id
      ⟨horder, hresponse, hfilled, fun hflag => ?_⟩, ?_⟩
    · have : ¬ i < g.orderSize := fun hlt => hstop ⟨hlt, hflag⟩
      show s.feedback.size = g.orderSize
      omega
    · simp only [rank, hpc]
      omega

/-- One turn of the loop: the next element, and the feedback. -/
theorem Inv.turn {i : Nat} (hpc : s.pc = .body i ∨ s.pc = .publish i) (hwork : work g s = some t) :
    Inv g t ∧ rank g t < rank g s := by
  have hat := h.at_
  rcases hpc with hpc | hpc <;> rw [hpc] at hat <;>
    obtain ⟨horder, hresponse, hfilled, hi, hlo, hhi⟩ := hat
  · obtain ⟨a, ha⟩ := hfilled.load (i := i - 1) (by omega)
    obtain ⟨b, hb⟩ := hfilled.load (i := i - 2) (by omega)
    obtain ⟨elems, hstore, hlen⟩ := hfilled.store hhi (a + b)
    simp only [work, hpc, ha, hb, hstore] at hwork
    cases hwork
    refine ⟨h.next (by rw [hpc]; rfl) rfl rfl rfl id ⟨horder, hresponse,
      ⟨hfilled.malloced, hfilled.data, elems, rfl, hlen⟩, congrArg Nat.succ hi, hlo, hhi⟩, ?_⟩
    simp only [rank, hpc]
    omega
  · have hsize : s.feedback.size ≤ g.orderSize := by omega
    obtain ⟨elems, hread, _⟩ := hfilled.read hfilled.data hsize
    simp only [work, hpc, hread] at hwork
    cases hwork
    refine ⟨h.next (by rw [hpc]; rfl) rfl rfl rfl id
      ⟨horder, hresponse, hfilled, hi, by omega, hhi⟩, ?_⟩
    simp only [rank, hpc]
    omega

/-- The flag is read again; when it is still clear, the loop was left with the sequence full. -/
theorem Inv.check (hpc : s.pc = .check) (hwork : work g s = some t) :
    Inv g t ∧ rank g t < rank g s := by
  have hat := h.at_
  rw [hpc] at hat
  obtain ⟨horder, hresponse, hfilled, hfull⟩ := hat
  simp only [work, hpc] at hwork
  split at hwork
  · next hflag =>
    cases hwork
    refine ⟨h.next (by rw [hpc]; rfl) rfl rfl rfl id
      ⟨horder, hfilled, hflag, hresponse⟩, ?_⟩
    simp only [rank, hpc]
    omega
  · next hflag =>
    cases hwork
    refine ⟨h.next (by rw [hpc]; rfl) rfl rfl rfl id ⟨horder, hfilled, hfilled.data,
      hfull (Bool.eq_false_of_not_eq_true hflag)⟩, ?_⟩
    simp only [rank, hpc]
    omega

theorem Inv.free (hpc : s.pc = .free) (hwork : work g s = some t) :
    Inv g t ∧ rank g t < rank g s := by
  have hat := h.at_
  have honce := h.good.once
  have hfreed := h.good.freed
  rw [hpc] at hat honce hfreed
  have hnone : s.frees = [] := List.eq_nil_of_length_eq_zero hfreed
  simp only [work, hpc] at hwork
  cases hwork
  refine ⟨⟨⟨?_, h.good.sent, honce, ?_, fun p hp => ?_⟩, trivial⟩, ?_⟩
  · intro hbad
    cases hbad
  · rw [hnone]
    rfl
  · rw [hnone] at hp
    cases List.mem_singleton.mp hp
    exact hat
  · simp only [rank, hpc]
    omega

/-- Every step of the worker keeps the invariant and brings it nearer to its end. -/
theorem work_inv (hown : OwnPointer g) (hwork : work g s = some t) :
    Inv g t ∧ rank g t < rank g s := by
  cases hpc : s.pc with
  | start => exact h.start hown hpc hwork
  | malloc => exact h.malloc hown hpc hwork
  | first => exact h.firstTwo (.inl hpc) hwork
  | second => exact h.firstTwo (.inr hpc) hwork
  | test i => exact h.test hpc hwork
  | body i => exact h.turn (.inl hpc) hwork
  | publish i => exact h.turn (.inr hpc) hwork
  | check => exact h.check hpc hwork
  | free => exact h.free hpc hwork
  | send goalState | exited | badAccess =>
    simp only [work, hpc] at hwork
    cases hwork

/-- What is read for a goal state, when the result is sent. -/
theorem Inv.result {goalState : GoalState} (hpc : s.pc = .send goalState) :
    ∃ result, s.read s.response = some result ∧ (goalState = .aborted ↔ g.order.toInt < 2) ∧
      (goalState = .succeeded → (result.length : Int) = g.order.toInt) ∧
      (goalState = .canceled → s.cancelled = true ∧ result = []) ∧
      (s.feedback.data = 0 ∨ s.malloced = some s.feedback.data) := by
  have hat := h.at_
  rw [hpc] at hat
  have hempty (hzero : s.response.size = 0) : s.read s.response = some [] := if_pos hzero
  cases goalState with
  | aborted =>
    obtain ⟨horder, hnull, hzero⟩ := hat
    exact ⟨[], hempty hzero, ⟨fun _ => horder, fun _ => rfl⟩, fun hno => (by cases hno),
      fun hno => (by cases hno), .inl hnull⟩
  | succeeded =>
    obtain ⟨horder, hfilled, hdata, hsize⟩ := hat
    obtain ⟨elems, hread, hlen⟩ := hfilled.read hdata (Nat.le_of_eq hsize)
    refine ⟨elems, hread, ⟨fun hno => (by cases hno), fun hlt => by omega⟩, fun _ => ?_,
      fun hno => (by cases hno), .inr ?_⟩
    · rw [hlen, hsize, orderSize_eq (by omega)]
    · rw [hfilled.malloced, hfilled.data]
  | canceled =>
    obtain ⟨horder, hfilled, hflag, hzero⟩ := hat
    refine ⟨[], hempty hzero, ⟨fun hno => (by cases hno), fun hlt => by omega⟩,
      fun hno => (by cases hno), fun _ => ⟨hflag, rfl⟩, .inr ?_⟩
    rw [hfilled.malloced, hfilled.data]

/-- A turn of the sending loop keeps the invariant, and leaves the loop when it succeeds. -/
theorem sendResult_inv {ok : Bool} (hsend : sendResult s ok = some t) :
    Inv g t ∧ rank g t + (if ok then 1 else 0) ≤ rank g s := by
  unfold sendResult at hsend
  split at hsend
  · next goalState hpc =>
    have hat := h.at_
    have honce := h.good.once
    have hfreed := h.good.freed
    obtain ⟨result, hread, haborted, hsucceeded, hcanceled, howned⟩ := h.result hpc
    rw [hpc] at hat honce hfreed
    rw [hread] at hsend
    cases hsend
    have hsent : ∀ x ∈ s.sends ++ [⟨goalState, result, ok⟩],
        (x.state = .aborted ↔ g.order.toInt < 2) ∧
        (x.state = .succeeded → (x.result.length : Int) = g.order.toInt) ∧
        (x.state = .canceled → s.cancelled = true ∧ x.result = []) :=
      forall_mem_grown.mpr ⟨h.good.sent, haborted, hsucceeded, hcanceled⟩
    have hcount : (s.sends ++ [(⟨goalState, result, ok⟩ : Sent)]).countP Sent.ok = if ok then 1 else 0 := by
      rw [List.countP_append, honce, List.countP_singleton]
      exact Nat.zero_add _
    refine ⟨⟨⟨?_, hsent, ?_, ?_, h.good.own⟩, ?_⟩, ?_⟩
    · cases ok <;> exact fun hbad => (by cases hbad)
    · rw [hcount]
      cases ok <;> rfl
    · rw [hfreed]
      cases ok <;> rfl
    · cases ok with
      | true => exact howned
      | false => cases goalState <;> exact hat
    · cases ok <;> simp only [rank, hpc] <;> exact Nat.le_refl 3
  · cases hsend

/-- A cancellation at any place. -/
theorem cancel_inv : Inv g { s with cancelled := true } := by
  have hat := h.at_
  refine ⟨⟨h.good.access, fun x hx => ?_, h.good.once, h.good.freed, h.good.own⟩, ?_⟩
  · obtain ⟨haborted, hsucceeded, hcanceled⟩ := h.good.sent x hx
    exact ⟨haborted, hsucceeded, fun hc => ⟨rfl, (hcanceled hc).2⟩⟩
  · dsimp only
    cases hpc : s.pc with
    | check =>
      rw [hpc] at hat
      obtain ⟨horder, hresponse, hfilled, _⟩ := hat
      exact ⟨horder, hresponse, hfilled, fun hflag => (by cases hflag)⟩
    | send goalState =>
      rw [hpc] at hat
      cases goalState with
      | aborted | succeeded => exact hat
      | canceled =>
        obtain ⟨horder, hfilled, _, hzero⟩ := hat
        exact ⟨horder, hfilled, rfl, hzero⟩
    | _ =>
      rw [hpc] at hat
      exact hat

/-- Until its end the worker can take a step. -/
theorem enabled : s.pc = .exited ∨ (∃ u, work g s = some u) ∨ ∀ ok, ∃ u, sendResult s ok = some u := by
  have hat := h.at_
  unfold work sendResult
  cases hpc : s.pc with
  | exited => exact .inl rfl
  | badAccess =>
    rw [hpc] at hat
    exact hat.elim
  | send goalState =>
    obtain ⟨result, hread, _⟩ := h.result hpc
    refine .inr (.inr fun ok => ?_)
    simp only [hread]
    exact ⟨_, rfl⟩
  | first | second | body i | publish i | check =>
    refine .inr (.inl ?_)
    dsimp only
    split <;> (try split) <;> exact ⟨_, rfl⟩
  | _ => exact .inr (.inl ⟨_, rfl⟩)

end Step

theorem step_inv {a : Act} (hown : OwnPointer g) (h : Inv g s) (hstep : step g s a = some t) :
    Inv g t ∧ rank g t + (if a.advances then 1 else 0) ≤ rank g s := by
  cases a with
  | cancel =>
    cases hstep
    exact ⟨cancel_inv h, Nat.le_refl _⟩
  | work => exact work_inv h hown hstep
  | sendResult ok =>
    obtain ⟨hinv, hrank⟩ := sendResult_inv h hstep
    cases ok <;> exact ⟨hinv, hrank⟩

/-- A worker's first state. -/
theorem handleGoal_eq (haccept : handleGoal g = some s) : s = .start g := by
  unfold handleGoal at haccept
  split at haccept
  · cases haccept
  · exact (Option.some.inj haccept).symm

theorem start_inv : Inv g (.start g) where
  good := ⟨fun hbad => (by cases hbad), fun x hx => (by cases hx), rfl, rfl, fun p hp => (by cases hp)⟩
  at_ := ⟨rfl, rfl, rfl⟩

theorem ends_of_own (hown : OwnPointer g) (h : Inv g s) : Ends g s := by
  refine ⟨rank g s, fun as t hexec => ?_⟩
  have hcount := Machine.countP_le_rank (m := machine g) Act.advances (rank g) (Inv g)
    (fun _ _ _ h hstep => (step_inv hown h hstep).1) (fun _ _ _ h hstep => (step_inv hown h hstep).2)
    h hexec
  have hend := (Machine.reach_of_exec as hexec).invariant (Inv g) h
    fun _ _ _ h _ hstep => (step_inv hown h hstep).1
  exact ⟨by omega, enabled hend⟩

/-- Without memory the worker stores to `NULL`. -/
theorem bad_of_null (horder : 2 ≤ g.order.toInt) (hnull : g.malloc = 0) :
    ∃ t, (machine g).Reach (.start g) t ∧ ¬ Good g t := by
  have hfirst : work g (.start g) = some { State.start g with pc := .malloc } := by
    unfold work State.start
    dsimp only
    rw [if_neg (by omega)]
  have hmalloc : work g { State.start g with pc := .malloc } =
      some { State.start g with pc := .first, feedback := ⟨0, 0, g.orderSize⟩ } := by
    unfold work State.start
    dsimp only
    rw [if_pos hnull, if_pos hnull, hnull]
  have hstore : work g { State.start g with pc := .first, feedback := ⟨0, 0, g.orderSize⟩ } =
      some { State.start g with pc := .badAccess, feedback := ⟨0, 0, g.orderSize⟩ } := rfl
  refine ⟨_, .step (.step (.step (a := .work) .refl trivial hfirst) (a := .work) trivial hmalloc)
    (a := .work) trivial hstore, fun hgood => hgood.access rfl⟩

/-- A worker for a small order frees what was in its uninitialised pointer. -/
theorem bad_of_junk (horder : g.order.toInt < 2) (hjunk : g.feedback.data ≠ 0) :
    ∃ t, (machine g).Reach (.start g) t ∧ ¬ Good g t := by
  have hfirst : work g (.start g) = some { State.start g with pc := .send .aborted } := by
    unfold work State.start
    dsimp only
    rw [if_pos horder]
  have hsend : sendResult { State.start g with pc := .send .aborted } true =
      some { State.start g with pc := .free, sends := [⟨.aborted, [], true⟩] } := rfl
  have hfree : work g { State.start g with pc := .free, sends := [⟨.aborted, [], true⟩] } =
      some { State.start g with
        pc := .exited, sends := [⟨.aborted, [], true⟩], frees := [g.feedback.data] } := rfl
  refine ⟨_, .step (.step (.step (a := .work) .refl trivial hfirst) (a := .sendResult true) trivial hsend)
    (a := .work) trivial hfree, fun hgood => ?_⟩
  rcases hgood.own g.feedback.data List.mem_cons_self with hzero | hnone
  · exact hjunk hzero
  · cases hnone

/-- **A worker does as it should just when its pointer is its own.** For every goal
that is accepted, whenever it is cancelled and however often sending the result
fails: the worker comes to its end, and every state on the way is as it should be, if
and only if the order is at least 2 and `malloc` gives memory, or the order is below
2 and the uninitialised pointer is `NULL`. -/
theorem worker_good_iff (g : Goal) {s : State} (haccept : handleGoal g = some s) :
    (Ends g s ∧ ∀ t, (machine g).Reach s t → Good g t) ↔ OwnPointer g := by
  cases handleGoal_eq haccept
  constructor
  · rintro ⟨_, hgood⟩
    by_contra hnot
    have hbad : ∃ t, (machine g).Reach (.start g) t ∧ ¬ Good g t := by
      rcases lt_or_ge g.order.toInt 2 with hlt | hge
      · exact bad_of_junk hlt fun hnull => hnot (.inr ⟨hlt, hnull⟩)
      · refine bad_of_null hge ?_
        by_contra hsome
        exact hnot (.inl ⟨hge, hsome⟩)
    obtain ⟨t, hreach, hbad⟩ := hbad
    exact hbad (hgood t hreach)
  · intro hown
    refine ⟨ends_of_own hown start_inv, fun t hreach => ?_⟩
    exact (hreach.invariant (Inv g) start_inv fun _ _ _ h _ hstep => (step_inv hown h hstep).1).good

/-- A goal of order 5, with memory, and with something in its pointer before. -/
def goalFive : Goal := ⟨5, ⟨0xDEAD, 7, 7⟩, 4096, fun _ => 0⟩

theorem worker_good_five :
    ∃ s, handleGoal goalFive = some s ∧ Ends goalFive s ∧
      ∀ t, (machine goalFive).Reach s t → Good goalFive t :=
  ⟨_, rfl, (worker_good_iff goalFive rfl).mpr (.inl ⟨by decide, by decide⟩)⟩

/-- A goal of order -1, which is accepted, with the same in its pointer. -/
def goalNegative : Goal := ⟨-1, ⟨0xDEAD, 7, 7⟩, 4096, fun _ => 0⟩

/-- It is aborted, and then the worker frees a pointer that nobody gave it. -/
theorem worker_frees_junk :
    ∃ s t, handleGoal goalNegative = some s ∧ (machine goalNegative).Reach s t ∧ t.pc = .exited ∧
      t.frees = [0xDEAD] ∧ t.malloced = none ∧ ¬ Good goalNegative t := by
  obtain ⟨t, hreach, hexited, hfrees, hmalloced⟩ :=
    (machine goalNegative).exists_reach
      (P := fun t => t.pc = .exited ∧ t.frees = [0xDEAD] ∧ t.malloced = none)
      (s := .start goalNegative) [.work, .sendResult true, .work] (by decide +kernel)
  refine ⟨_, t, rfl, hreach, hexited, hfrees, hmalloced, fun hgood => ?_⟩
  rcases hgood.own 0xDEAD (by rw [hfrees]; exact List.mem_singleton_self _) with hzero | hnone
  · exact absurd hzero (by decide)
  · rw [hmalloced] at hnone
    cases hnone

end MicroRosDemos.Rclc.Fibonacci
