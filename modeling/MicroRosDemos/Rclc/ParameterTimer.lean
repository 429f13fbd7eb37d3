import MicroRosDemos.Lib.Machine
import MicroRosDemos.Rclc.ParameterServer

/-!
# What the parameter server publishes

The timer publishes `msg` and counts it up, when `publish` says so, and `on_parameter_changed`
sets `publish` in between. Whatever is requested, the numbers tell how many messages lie
between two of them: none is used twice, a message that did not go out has one, and a time
without publishing has none. As long as each request can be applied, a client of the parameter
server sees from what is stored whether the next tick publishes (`timer_publishes`).
-/

namespace MicroRosDemos.Rclc.ParameterServer

open MicroRosDemos.Lib

/-- `timer_callback`: the number that `rcl_publish` is given, if it is called, and `msg.data`
after it. -/
def timerCallback (publish : Bool) (data : BitVec 32) : Option (BitVec 32) × BitVec 32 :=
  if publish then (some data, data + 1) else (none, data)

/-- A tick of the timer: what is stored as `publish_toogle` at the time, the number that was
published, and whether it went out. -/
structure Tick where
  stored : Option Value
  sent : Option (BitVec 32)
  ok : Bool
deriving DecidableEq

/-- The process and its parameter server; the history is the ticks. -/
structure Process extends State where
  data : BitVec 32
  ticks : List Tick

/-- What happens next: the timer ticks, its publish going out or not, or a request. -/
inductive Act
  | tick (ok : Bool)
  | request (r : Request)

/-- The timer and the requests, in every order. -/
def timerMachine : Machine Process Act where
  step s
    | .tick ok =>
      let called := timerCallback s.live.publish s.data
      some { s with data := called.2, ticks := s.ticks ++ [⟨s.store "publish_toogle", called.1, ok⟩] }
    | .request r => some { s with toState := (handle s.toState r).2 }

/-- The executor starts to spin. -/
def Process.start : Process := ⟨.start, 0, []⟩

/-- Each request can be applied. -/
def Applying (_ : Process) : Act → Prop
  | .tick _ => True
  | .request r => r.Applies

/-- The messages of the first ticks, gone out or not. -/
def Process.messages (s : Process) (i : Nat) : Nat := (s.ticks.take i).countP fun t => t.sent.isSome

/-- What every run keeps: the numbers count the messages. -/
structure Counts (s : Process) : Prop where
  data : s.data = BitVec.ofNat 32 (s.messages s.ticks.length)
  sent : ∀ i t d, s.ticks[i]? = some t → t.sent = some d → d = BitVec.ofNat 32 (s.messages i)

/-- What a run of requests that can be applied keeps besides. -/
structure AsStored (s : Process) : Prop where
  agree : Agree s.toState
  ticks : ∀ t ∈ s.ticks, t.sent.isSome = true ↔ t.stored = some (.bool true)

variable {s t : Process}

theorem timerCallback_isSome (publish : Bool) (data : BitVec 32) :
    (timerCallback publish data).1.isSome = publish := by
  cases publish <;> rfl

theorem start_counts : Counts .start where
  data := rfl
  sent _ _ _ h := by cases h

theorem start_asStored : AsStored .start where
  agree := start_agree
  ticks _ h := absurd h List.not_mem_nil

theorem step_counts {a : Act} (h : Counts s) (hstep : timerMachine.step s a = some t) : Counts t := by
  cases a with
  | request r =>
    cases hstep
    exact ⟨h.data, h.sent⟩
  | tick ok =>
    cases hstep
    have hdata := h.data
    unfold Process.messages at hdata
    rw [List.take_length] at hdata
    refine ⟨?_, fun i t d ht hd => ?_⟩
    · unfold Process.messages
      dsimp only
      rw [List.take_length, List.countP_append, List.countP_singleton, BitVec.ofNat_add, ← hdata]
      cases hpublish : s.live.publish with
      | false => exact (BitVec.add_zero _).symm
      | true => rfl
    · have hlen : i ≤ s.ticks.length := by
        have hi := (List.getElem?_eq_some_iff.mp ht).1
        rw [List.length_append, List.length_singleton] at hi
        omega
      unfold Process.messages
      dsimp only at ht ⊢
      rw [List.take_append_of_le_length hlen]
      rcases getElem?_grown ht with hold | ⟨rfl, rfl⟩
      · exact h.sent i t d hold hd
      · cases hpublish : s.live.publish with
        | false =>
          rw [hpublish] at hd
          cases hd
        | true =>
          rw [hpublish] at hd
          cases hd
          rw [List.take_length]
          exact hdata

theorem step_asStored {a : Act} (h : AsStored s) (happ : Applying s a)
    (hstep : timerMachine.step s a = some t) : AsStored t := by
  cases a with
  | request r =>
    cases hstep
    exact ⟨((honoured_iff h.agree r).mpr happ).agree, h.ticks⟩
  | tick ok =>
    cases hstep
    refine ⟨h.agree, forall_mem_grown.mpr ⟨h.ticks, ?_⟩⟩
    dsimp only
    rw [h.agree.publish, timerCallback_isSome]
    cases s.live.publish <;> decide

/-- **What is published, and when.** For every order of ticks and requests, whether a publish
goes out or not: the number of each message is that of the messages before it, so that the
numbers of two messages differ by the messages from the one to the other. If each request can
be applied, a tick publishes just when `publish_toogle` is stored as true, and what is stored
is in effect at all times. -/
theorem timer_publishes (hrun : timerMachine.Reach .start s) :
    (∀ (i j : Nat) (t u : Tick) (d e : BitVec 32), i ≤ j → s.ticks[i]? = some t → s.ticks[j]? = some u →
      t.sent = some d → u.sent = some e →
      e - d = BitVec.ofNat 32 (((s.ticks.take j).drop i).countP fun t => t.sent.isSome)) ∧
    (timerMachine.Run Applying .start s →
      Agree s.toState ∧ ∀ t ∈ s.ticks, t.sent.isSome = true ↔ t.stored = some (.bool true)) := by
  have h : Counts s := hrun.invariant _ start_counts fun _ _ _ hs _ hstep => step_counts hs hstep
  refine ⟨fun i j t u d e hij ht hu hd he => ?_, fun happ => ?_⟩
  · have hsplit : s.messages j =
        s.messages i + ((s.ticks.take j).drop i).countP fun t => t.sent.isSome := by
      have htake : s.ticks.take i = (s.ticks.take j).take i := by
        rw [List.take_take, Nat.min_eq_left hij]
      unfold Process.messages
      rw [htake, ← List.countP_append, List.take_append_drop]
    rw [h.sent i t d ht hd, h.sent j u e hu he, hsplit, BitVec.ofNat_add]
    exact add_sub_cancel_left _ _
  · have hboth := happ.invariant AsStored start_asStored fun _ _ _ hs hok hstep => step_asStored hs hok hstep
    exact ⟨hboth.agree, hboth.ticks⟩

/-- Three messages, of which the second is lost, with publishing turned off in between: the
numbers of the first and the last differ by two. -/
theorem timer_publishes_three :
    ∃ s, timerMachine.Reach .start s ∧ timerMachine.Run Applying .start s ∧
      s.ticks.map Tick.sent = [some 0, some 1, none, some 2] ∧ Agree s.toState ∧
      ∀ t ∈ s.ticks, t.sent.isSome = true ↔ t.stored = some (.bool true) := by
  have hexec : timerMachine.Run Applying .start _ := Machine.run_of_exec
    [.tick true, .tick false, .request (.set ⟨"publish_toogle", .bool false⟩ true), .tick true,
      .request (.set ⟨"publish_toogle", .bool true⟩ true), .tick true]
    (by simp [Applying, Request.Applies]) rfl
  exact ⟨_, hexec.reach, hexec, rfl, (timer_publishes hexec.reach).2 hexec⟩

end MicroRosDemos.Rclc.ParameterServer
