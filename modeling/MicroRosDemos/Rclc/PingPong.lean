import Mathlib.Logic.Function.Basic
import MicroRosDemos.Lib.Machine
import MicroRosDemos.Lib.Text

/-!
# The ping_pong demo

Any number of processes run `ping_pong/main.c` and share the two topics. Each tick
of a process's timer prints the next number of `rand()` and the process's device id
into `outcoming_ping`, and a ping that is handed to the process is answered unless
it reads the same. The device id is the first number of `rand()`, which without
`srand` is the same in every process, so that only the numbers can tell a process's
own pings from those of the others, and only the latest of its own
(`ping_answered_iff`).
-/

namespace MicroRosDemos.Rclc.PingPong

open MicroRosDemos.Lib

/-- A `std_msgs__msg__Header` as a process keeps it: its stamp, the array of its
`frame_id` and the size in use. -/
structure Header where
  sec : BitVec 32
  nanosec : BitVec 32
  data : List Byte
  size : Nat

/-- A header as the middleware carries it. -/
structure Msg where
  sec : BitVec 32
  nanosec : BitVec 32
  frameId : List Byte
deriving DecidableEq

/-- The globals of a process, and how often it has called `rand()`. -/
structure Node where
  outcomingPing : Header
  deviceId : Int
  seqNo : Int
  pongCount : Nat
  calls : Nat

/-- What `rcl_publish` sends of a header: as many bytes of `frame_id` as are in use. -/
def Header.msg (h : Header) : Msg := ⟨h.sec, h.nanosec, h.data.take h.size⟩

/-- The array that a received `frame_id` is in, closed by a NUL. -/
def Msg.data (m : Msg) : List Byte := m.frameId ++ [0]

/-- `strcmp(..) == 0`. -/
def sameString (a b : List Byte) : Bool := cstring a == cstring b

/-- `sprintf` of a text to the start of an array. -/
def sprintf (data text : List Byte) : List Byte := Mem.overlay 0 (text ++ [0]) data

variable (rand : Nat → Int)

/-- `ping_timer_callback`, at a time of the clock: the process after it. What it
publishes is `outcomingPing`. -/
def pingTimerCallback (sec nanosec : BitVec 32) (n : Node) : Node :=
  let seqNo := rand n.calls
  let data := sprintf n.outcomingPing.data (pairText seqNo n.deviceId)
  { n with
    seqNo, calls := n.calls + 1, pongCount := 0
    outcomingPing := ⟨sec, nanosec, data, (cstring data).length⟩ }

/-- `ping_subscription_callback`: the pong it publishes, if any. -/
def pingSubscriptionCallback (n : Node) (msg : Msg) : Option Msg :=
  if sameString n.outcomingPing.data msg.data then none else some msg

/-- `pong_subscription_callback`. -/
def pongSubscriptionCallback (n : Node) (msg : Msg) : Node :=
  if sameString n.outcomingPing.data msg.data then { n with pongCount := n.pongCount + 1 } else n

/-- A process when its executor starts to spin: `outcoming_ping_buffer` is whatever
was on the stack, and `device_id` has taken the first number. -/
def Node.start (buffer : List Byte) : Node where
  outcomingPing := ⟨0, 0, buffer, 0⟩
  deviceId := rand 0
  seqNo := 0
  pongCount := 0
  calls := 1

/-! ## The processes together -/

/-- A ping on the topic, with the process that sent it and the number it took. -/
structure Ping (ι : Type) where
  sender : ι
  number : Int
  msg : Msg
deriving DecidableEq

/-- A ping that was handed to a process, and whether the process published a pong. -/
structure Handed (ι : Type) where
  receiver : ι
  ping : Ping ι
  ponged : Bool

/-- The processes and what was published on the topics; the history is the pings
handed over. -/
structure State (ι : Type) where
  node : ι → Node
  pings : List (Ping ι)
  pongs : List Msg
  handed : List (Handed ι)

/-- What happens next: a timer ticks, its publish going out or not, or a process is
handed one of the pings or of the pongs, its own included. -/
inductive Act (ι : Type)
  | tick (i : ι) (sec nanosec : BitVec 32) (ok : Bool)
  | ping (i : ι) (k : Nat)
  | pong (i : ι) (k : Nat)

variable {ι : Type} [DecidableEq ι]

/-- The processes and the middleware, in every order. -/
def step (s : State ι) : Act ι → Option (State ι)
  | .tick i sec nanosec ok =>
    let n := pingTimerCallback rand sec nanosec (s.node i)
    some { s with
      node := Function.update s.node i n
      pings := if ok then s.pings ++ [⟨i, n.seqNo, n.outcomingPing.msg⟩] else s.pings }
  | .ping i k =>
    (s.pings[k]?).map fun p =>
      let pong := pingSubscriptionCallback (s.node i) p.msg
      { s with
        pongs := s.pongs ++ pong.toList, handed := s.handed ++ [⟨i, p, pong.isSome⟩] }
  | .pong i k =>
    (s.pongs[k]?).map fun msg =>
      { s with node := Function.update s.node i (pongSubscriptionCallback (s.node i) msg) }

/-- The machine of the processes. -/
def machine : Machine (State ι) (Act ι) := ⟨step rand⟩

/-- Every process starts to spin; nothing is published. -/
def State.start (buffer : ι → List Byte) : State ι := ⟨fun i => .start rand (buffer i), [], [], []⟩

/-! ## What tells the pings apart -/

/-- The latest number of the process tells whether the ping is its own: it is the
ping's, or else another process sent the ping. Before the first tick, what is in the
uninitialised array must not read as the ping does. -/
def TellsApart (n : Node) (own : Prop) (p : Ping ι) : Prop :=
  (own → n.seqNo = p.number) ∧
    (¬ own → if 1 < n.calls then n.seqNo ≠ p.number else cstring n.outcomingPing.data ≠ p.msg.frameId)

/-- Every ping that is handed over in the run can be told apart. -/
def HandsApart (s : State ι) : Act ι → Prop
  | .ping i k => ∀ p, s.pings[k]? = some p → TellsApart (s.node i) (p.sender = i) p
  | .tick _ _ _ _ | .pong _ _ => True

/-- A printed pair is a string when it is closed by a NUL. -/
theorem cstring_pairText (a b : Int) (rest : List Byte) :
    cstring (pairText a b ++ 0 :: rest) = pairText a b :=
  cstring_append fun _ h => pairText_ne_zero h

theorem sprintf_eq (data text : List Byte) :
    sprintf data text = text ++ 0 :: data.drop (text.length + 1) := by
  rw [sprintf, Mem.overlay, List.take_zero, List.nil_append, Nat.zero_add, List.length_append,
    List.length_singleton, List.append_assoc, List.singleton_append]

/-- What a process's globals are during a run. -/
structure Node.Ok (n : Node) : Prop where
  device : n.deviceId = rand 0
  calls : 0 < n.calls
  text : 1 < n.calls → cstring n.outcomingPing.data = pairText n.seqNo (rand 0)

theorem start_ok (buffer : List Byte) : (Node.start rand buffer).Ok rand where
  device := rfl
  calls := Nat.one_pos
  text h := absurd h (Nat.lt_irrefl 1)

section
variable {rand} {n : Node}

/-- After a tick the array reads as the printed pair, and so does what is published. -/
theorem tick_text (h : n.Ok rand) (sec nanosec : BitVec 32) :
    cstring (pingTimerCallback rand sec nanosec n).outcomingPing.data =
        pairText (rand n.calls) (rand 0) ∧
      (pingTimerCallback rand sec nanosec n).outcomingPing.msg.frameId =
        pairText (rand n.calls) (rand 0) := by
  have hdata : (pingTimerCallback rand sec nanosec n).outcomingPing.data =
      pairText (rand n.calls) n.deviceId ++
        0 :: n.outcomingPing.data.drop ((pairText (rand n.calls) n.deviceId).length + 1) :=
    sprintf_eq _ _
  have hsize : (pingTimerCallback rand sec nanosec n).outcomingPing.size =
      (cstring (pingTimerCallback rand sec nanosec n).outcomingPing.data).length := rfl
  rw [h.device] at hdata
  have htext : cstring (pingTimerCallback rand sec nanosec n).outcomingPing.data =
      pairText (rand n.calls) (rand 0) := by
    rw [hdata, cstring_pairText]
  refine ⟨htext, ?_⟩
  rw [Header.msg, hsize, htext, hdata, List.take_left]

theorem tick_ok (h : n.Ok rand) (sec nanosec : BitVec 32) :
    (pingTimerCallback rand sec nanosec n).Ok rand where
  device := h.device
  calls := Nat.succ_pos _
  text _ := (tick_text h sec nanosec).1

theorem pong_ok (h : n.Ok rand) (msg : Msg) : (pongSubscriptionCallback n msg).Ok rand := by
  unfold pongSubscriptionCallback
  split
  · exact ⟨h.device, h.calls, h.text⟩
  · exact h

theorem pong_calls (n : Node) (msg : Msg) : (pongSubscriptionCallback n msg).calls = n.calls := by
  unfold pongSubscriptionCallback
  split <;> rfl

end

/-- What a run keeps: the pings read as their numbers, and their senders have ticked. -/
structure Inv (s : State ι) : Prop where
  node : ∀ i, (s.node i).Ok rand
  pings : ∀ p ∈ s.pings, p.msg.frameId = pairText p.number (rand 0) ∧ 1 < (s.node p.sender).calls

variable {rand} {s t : State ι}

omit [DecidableEq ι] in
theorem start_inv (buffer : ι → List Byte) : Inv rand (State.start rand buffer) where
  node i := start_ok rand (buffer i)
  pings p h := by cases h

theorem step_inv {a : Act ι} (h : Inv rand s) (hstep : step rand s a = some t) : Inv rand t := by
  cases a with
  | tick i sec nanosec ok =>
    cases hstep
    have hi := h.node i
    have hgrow (j : ι) : (s.node j).calls ≤
        (Function.update s.node i (pingTimerCallback rand sec nanosec (s.node i)) j).calls := by
      rcases eq_or_ne j i with rfl | hne
      · rw [Function.update_self]
        exact Nat.le_succ _
      · rw [Function.update_of_ne hne]
    have hold : ∀ p ∈ s.pings, p.msg.frameId = pairText p.number (rand 0) ∧
        1 < (Function.update s.node i (pingTimerCallback rand sec nanosec (s.node i)) p.sender).calls :=
      fun p hp => (h.pings p hp).imp_right fun hc => hc.trans_le (hgrow p.sender)
    refine ⟨(Function.forall_update_iff _ fun _ (n : Node) => n.Ok rand).mpr
      ⟨tick_ok hi sec nanosec, fun j _ => h.node j⟩, ?_⟩
    cases ok with
    | false => exact hold
    | true =>
      refine forall_mem_grown.mpr ⟨hold, (tick_text hi sec nanosec).2, ?_⟩
      dsimp only
      rw [Function.update_self]
      exact Nat.succ_lt_succ hi.calls
  | ping i k =>
    obtain ⟨p, _, rfl⟩ := Option.map_eq_some_iff.mp hstep
    exact ⟨h.node, h.pings⟩
  | pong i k =>
    obtain ⟨msg, _, rfl⟩ := Option.map_eq_some_iff.mp hstep
    refine ⟨(Function.forall_update_iff _ fun _ (n : Node) => n.Ok rand).mpr
      ⟨pong_ok (h.node i) msg, fun j _ => h.node j⟩, fun p hp => ?_⟩
    obtain ⟨htext, hsent⟩ := h.pings p hp
    refine ⟨htext, ?_⟩
    dsimp only
    rcases eq_or_ne p.sender i with rfl | hne
    · rw [Function.update_self, pong_calls]
      exact hsent
    · rw [Function.update_of_ne hne]
      exact hsent

/-- A ping is answered when the array reads otherwise. -/
theorem answers_iff (n : Node) {msg : Msg} {a b : Int} (htext : msg.frameId = pairText a b) :
    (pingSubscriptionCallback n msg).isSome = true ↔ cstring n.outcomingPing.data ≠ msg.frameId := by
  have hmsg : cstring msg.data = msg.frameId := by
    rw [Msg.data, htext, cstring_pairText]
  unfold pingSubscriptionCallback sameString
  rw [hmsg]
  by_cases heq : cstring n.outcomingPing.data = msg.frameId
  · simp [heq]
  · simp [heq]

/-- In every state of a run, a process answers just the others' pings if and only if
its latest number tells them apart. -/
theorem Inv.answers (h : Inv rand s) (i : ι) {p : Ping ι} (hp : p ∈ s.pings) :
    ((pingSubscriptionCallback (s.node i) p.msg).isSome = true ↔ p.sender ≠ i) ↔
      TellsApart (s.node i) (p.sender = i) p := by
  obtain ⟨htext, hsent⟩ := h.pings p hp
  have hlatest (hticked : 1 < (s.node i).calls) :
      cstring (s.node i).outcomingPing.data ≠ p.msg.frameId ↔ (s.node i).seqNo ≠ p.number := by
    rw [(h.node i).text hticked, htext, Ne, Ne, not_iff_not]
    exact ⟨fun heq => (pairText_inj heq).1, fun heq => by rw [heq]⟩
  rw [answers_iff _ htext, TellsApart]
  by_cases hown : p.sender = i
  · have hticked : 1 < (s.node i).calls := hown ▸ hsent
    rw [hlatest hticked]
    simp only [hown, ne_eq, not_true_eq_false, iff_false, not_not, forall_const, false_imp_iff, and_true]
  · simp only [hown, ne_eq, not_false_eq_true, iff_true, false_imp_iff, forall_const, true_and]
    split
    · next hticked => exact hlatest hticked
    · exact Iff.rfl

theorem step_handed {a : Act ι} (h : Inv rand s) (hapart : HandsApart s a)
    (hhanded : ∀ x ∈ s.handed, x.ponged = true ↔ x.ping.sender ≠ x.receiver)
    (hstep : step rand s a = some t) : ∀ x ∈ t.handed, x.ponged = true ↔ x.ping.sender ≠ x.receiver := by
  cases a with
  | tick i sec nanosec ok =>
    cases hstep
    exact hhanded
  | ping i k =>
    obtain ⟨p, hp, rfl⟩ := Option.map_eq_some_iff.mp hstep
    exact forall_mem_grown.mpr ⟨hhanded, (h.answers i (List.mem_of_getElem? hp)).mpr (hapart p hp)⟩
  | pong i k =>
    obtain ⟨msg, _, rfl⟩ := Option.map_eq_some_iff.mp hstep
    exact hhanded

/-- **Who answers which ping.** For any processes, any `rand()` that they share, and
any order of ticks and deliveries: a process that is handed a ping answers it just
when another process sent it, if and only if the process's latest number tells them
apart. In a run in which it always does, every ping that is handed over is answered
by exactly the others. -/
theorem ping_answered_iff (rand : Nat → Int) (buffer : ι → List Byte) {s : State ι}
    (hrun : (machine rand).Reach (State.start rand buffer) s) :
    (∀ (i : ι), ∀ p ∈ s.pings,
      (((pingSubscriptionCallback (s.node i) p.msg).isSome = true ↔ p.sender ≠ i) ↔
        TellsApart (s.node i) (p.sender = i) p)) ∧
    ((machine rand).Run HandsApart (State.start rand buffer) s →
      ∀ x ∈ s.handed, x.ponged = true ↔ x.ping.sender ≠ x.receiver) := by
  have hinv : Inv rand s := hrun.invariant _ (start_inv buffer) fun _ _ _ h _ hstep => step_inv h hstep
  refine ⟨fun i p hp => hinv.answers i hp, fun hapart => ?_⟩
  have hboth := hapart.invariant
    (fun s => Inv rand s ∧ ∀ x ∈ s.handed, x.ponged = true ↔ x.ping.sender ≠ x.receiver)
    ⟨start_inv buffer, fun x hx => by cases hx⟩
    fun _ _ _ h hok hstep => ⟨step_inv h.1 hstep, step_handed h.1 hok h.2 hstep⟩
  exact hboth.2

/-! ## Two processes -/

/-- The `rand` that the C standard gives as an example, from the seed 1: the state
after `n` calls, and the numbers. -/
def randState : Nat → Nat
  | 0 => 1
  | n + 1 => (randState n * 1103515245 + 12345) % 2 ^ 32

def exampleRand (n : Nat) : Int := (randState (n + 1) / 65536 % 32768 : Nat)

/-- A process that is one tick ahead answers the other's ping. -/
theorem ping_answered_ahead :
    ∃ s, (machine exampleRand).Reach (State.start exampleRand fun _ : Bool => []) s ∧
      ∃ p ∈ s.pings, p.sender = false ∧
        ((pingSubscriptionCallback (s.node true) p.msg).isSome = true ↔ p.sender ≠ true) := by
  obtain ⟨s, hrun, p, hp, hsender, hapart⟩ :=
    (machine exampleRand).exists_reach
      (P := fun s => ∃ p ∈ s.pings, p.sender = false ∧ p.sender ≠ true ∧
        1 < (s.node true).calls ∧ (s.node true).seqNo ≠ p.number)
      (s := State.start exampleRand fun _ : Bool => [])
      [.tick true 0 0 true, .tick true 0 0 true, .tick false 0 0 true] (by decide +kernel)
  obtain ⟨hother, hticked, hnumber⟩ := hapart
  refine ⟨s, hrun, p, hp, hsender, ((ping_answered_iff _ _ hrun).1 true p hp).mpr ⟨?_, ?_⟩⟩
  · exact fun hown => absurd hown hother
  · intro _
    rw [if_pos hticked]
    exact hnumber

/-- Two processes that have ticked once each ignore each other's pings, and a process
answers its own ping when that comes back after the next tick. -/
theorem ping_misjudged :
    (∃ s : State Bool, (machine exampleRand).Reach (State.start exampleRand fun _ => []) s ∧
      s.handed.map (fun x => (x.receiver, x.ping.sender, x.ponged)) =
        [(true, false, false), (false, true, false)]) ∧
    ∃ s : State Bool, (machine exampleRand).Reach (State.start exampleRand fun _ => []) s ∧
      s.handed.map (fun x => (x.receiver, x.ping.sender, x.ponged)) = [(true, true, true)] := by
  constructor
  · exact Machine.exists_reach
      [.tick false 0 0 true, .tick true 0 0 true, .ping true 0, .ping false 1] (by decide +kernel)
  · exact Machine.exists_reach
      [.tick true 0 0 true, .tick true 0 0 true, .ping true 0] (by decide +kernel)

end MicroRosDemos.Rclc.PingPong
