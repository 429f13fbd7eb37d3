import MicroRosDemos.Lib.Machine
import MicroRosDemos.Lib.Text

/-!
# The ping_uros_agent demo

`main` asks whether the micro-ROS agent is up: once and for all in basic mode, and until it is
in interactive mode, where it then starts an application whose timer publishes and asks again.
Between a publication and the `ping` before it nothing happens that could be seen, and that
`ping` has succeeded; the first one that fails after a publication ends the program, with
status 1 (`published_up`).
-/

namespace MicroRosDemos.Rclc.PingUrosAgent

open MicroRosDemos.Lib

/-- `rosidl_runtime_c__String`, with its array. -/
structure RosString where
  data : List Byte
  size : Nat
  capacity : Nat

/-- The text of the message. -/
def message : List Byte := "This is a message sent after pinging micro-ROS Agent".toList.map ascii

/-- What is assigned to `msg`. -/
def initMsg : RosString :=
  let data := message ++ [0]
  let size := (cstring data).length
  ⟨data, size, size + 1⟩

/-- What is recorded of the program: a call of `rmw_uros_ping_agent` and whether the agent
answered, or of `rcl_publish` with the text and whether it went out. -/
inductive Event
  | ping (timeoutMs attempts : Nat) (up : Bool)
  | published (text : List Byte) (ok : Bool)
deriving DecidableEq

/-- The calls under `RCCHECK`. -/
inductive InitStep
  | supportInit
  | nodeInit
  | publisherInit
  | timerInit
  | executorInit
  | executorAddTimer
deriving DecidableEq

def initSteps : List InitStep :=
  [.supportInit, .nodeInit, .publisherInit, .timerInit, .executorInit, .executorAddTimer]

/-- Where the program is: at the start of `main`, before the `ping` of basic mode or of the
loop of interactive mode, before a call under `RCCHECK`, in `rclc_executor_spin`, in
`timer_callback` before its `rcl_publish` or before its `ping`, or no longer there. -/
inductive Pc
  | main
  | basic
  | waiting
  | init (step : InitStep) (rest : List InitStep)
  | spin
  | publish
  | pingAgain
  | exited (status : Nat)
deriving DecidableEq

/-- The program with what was seen of it. -/
structure State where
  argv : List (List Byte)
  msg : RosString
  pc : Pc
  events : List Event

/-- What happens next: `main` looks at its arguments, a `ping`, a call under `RCCHECK` or a
`rcl_publish` comes back, the timer ticks, or the executor comes back. -/
inductive Act
  | parse
  | ping (up : Bool)
  | call (ok : Bool)
  | tick
  | publish (ok : Bool)
  | spun

/-- The start of `main`: the usage is printed with status 1. -/
def parse (s : State) : State :=
  match s.argv with
  | [_, mode] =>
    let s := { s with msg := initMsg }
    if cstring mode = "basic".toList.map ascii then { s with pc := .basic }
    else if cstring mode = "interactive".toList.map ascii then { s with pc := .waiting }
    else { s with pc := .exited 1 }
  | _ => { s with pc := .exited 1 }

/-- A `ping` comes back. -/
def pinged (s : State) (up : Bool) : Option State :=
  match s.pc with
  | .basic => some { s with
      pc := .exited (if up then 0 else 1), events := s.events ++ [.ping 1000 5 up] }
  | .waiting => some { s with
      pc := if up then .init .supportInit initSteps.tail else .waiting
      events := s.events ++ [.ping 1000 1 up] }
  | .pingAgain => some { s with
      pc := if up then .spin else .exited 1, events := s.events ++ [.ping 100 1 up] }
  | _ => none

/-- A call under `RCCHECK` comes back. -/
def called (s : State) (ok : Bool) : Option State :=
  match s.pc with
  | .init _ rest => some { s with
      pc := if ok then
          match rest with
          | step :: rest => .init step rest
          | [] => .spin
        else .exited 1 }
  | _ => none

/-- The program, whatever its calls return. -/
def step (s : State) : Act → Option State
  | .parse => if s.pc = .main then some (parse s) else none
  | .ping up => pinged s up
  | .call ok => called s ok
  | .tick => if s.pc = .spin then some { s with pc := .publish } else none
  | .publish ok =>
    if s.pc = .publish then
      some { s with
        pc := .pingAgain, events := s.events ++ [.published (s.msg.data.take s.msg.size) ok] }
    else none
  | .spun => if s.pc = .spin then some { s with pc := .exited 0 } else none

/-- The program as a machine. -/
def machine : Machine State Act := ⟨step⟩

/-- The program is started; `msg` is zero. -/
def State.start (argv : List (List Byte)) : State := ⟨argv, ⟨[], 0, 0⟩, .main, []⟩

/-- The program was started for interactive mode. -/
def State.Interactive (s : State) : Prop :=
  ∃ name mode, s.argv = [name, mode] ∧ cstring mode = "interactive".toList.map ascii

/-- The last that was seen is a `ping` that succeeded. -/
def Up (events : List Event) : Prop := ∃ t n, events.getLast? = some (.ping t n true)

/-- A message was published. -/
def Published (events : List Event) : Prop := ∃ text ok, .published text ok ∈ events

/-! ## Where the program is, and what was seen -/

/-- What was seen when the program is at a place. -/
def Seen (events : List Event) : Pc → Prop
  | .main | .basic | .waiting => ¬ Published events
  | .init _ _ => Up events ∧ ¬ Published events
  | .spin | .publish => Up events
  | .pingAgain => True
  | .exited status => if status = 0 then Up events
      else Published events → events.getLast? = some (.ping 100 1 false)

/-- The application is on its way or running. -/
def Pc.InApp : Pc → Prop
  | .waiting | .init _ _ | .spin | .publish | .pingAgain => True
  | .main | .basic | .exited _ => False

/-- The program has not ended. -/
def Pc.Running : Pc → Prop
  | .exited _ => False
  | _ => True

/-- Each publication is one of the message, right after a `ping` that succeeded. -/
def Checked (events : List Event) : Prop :=
  ∀ (i : Nat) (text : List Byte) (ok : Bool), events[i]? = some (.published text ok) → text = message ∧
    ∃ j t n, i = j + 1 ∧ events[j]? = some (.ping t n true)

/-- A `ping` that fails after a publication is the last that is seen, and the program has
ended. -/
def Stopped (events : List Event) (pc : Pc) : Prop :=
  ∀ (i j : Nat) (text : List Byte) (ok : Bool) (t n : Nat), i < j → events[i]? = some (.published text ok) →
    events[j]? = some (.ping t n false) → j + 1 = events.length ∧ pc = .exited 1

/-- What every run keeps. -/
structure Inv (s : State) : Prop where
  app : s.pc.InApp → s.msg = initMsg ∧ s.Interactive
  mode : Published s.events → s.Interactive
  seen : Seen s.events s.pc
  checked : Checked s.events
  stopped : Stopped s.events s.pc

variable {s t : State} {events : List Event} {pc : Pc} {e : Event}

theorem start_inv (argv : List (List Byte)) : Inv (.start argv) where
  app h := h.elim
  mode h := by
    obtain ⟨text, ok, hmem⟩ := h
    cases hmem
  seen h := by
    obtain ⟨text, ok, hmem⟩ := h
    cases hmem
  checked i text ok h := by cases h
  stopped i j text ok t n hij h := by cases h

/-- A publication among the events, by its index. -/
theorem published_of_getElem? {i : Nat} {text : List Byte} {ok : Bool}
    (h : events[i]? = some (.published text ok)) : Published events := ⟨text, ok, List.mem_of_getElem? h⟩

theorem up_grown (t n : Nat) : Up (events ++ [.ping t n true]) := ⟨t, n, List.getLast?_concat⟩

/-- A `ping` is no publication. -/
theorem published_ping {t n : Nat} {up : Bool} (h : Published (events ++ [.ping t n up])) : Published events := by
  obtain ⟨text, ok, hmem⟩ := h
  rcases List.mem_append.mp hmem with hold | hnew
  · exact ⟨text, ok, hold⟩
  · cases List.mem_singleton.mp hnew

theorem Checked.ping (h : Checked events) (t n : Nat) (up : Bool) : Checked (events ++ [.ping t n up]) := by
  intro i text ok hi
  rcases getElem?_grown hi with hold | ⟨_, hnew⟩
  · obtain ⟨htext, j, t', n', rfl, hj⟩ := h i text ok hold
    have hlt := (List.getElem?_eq_some_iff.mp hj).1
    exact ⟨htext, j, t', n', rfl, by rw [List.getElem?_append_left hlt]; exact hj⟩
  · cases hnew

theorem Checked.published (h : Checked events) (hup : Up events) (ok : Bool) :
    Checked (events ++ [.published message ok]) := by
  intro i text ok' hi
  rcases getElem?_grown hi with hold | ⟨rfl, hnew⟩
  · obtain ⟨htext, j, t, n, rfl, hj⟩ := h i text ok' hold
    have hlt := (List.getElem?_eq_some_iff.mp hj).1
    exact ⟨htext, j, t, n, rfl, by rw [List.getElem?_append_left hlt]; exact hj⟩
  · cases hnew
    obtain ⟨t, n, hlast⟩ := hup
    rw [List.getLast?_eq_getElem?] at hlast
    have hlt := (List.getElem?_eq_some_iff.mp hlast).1
    refine ⟨rfl, events.length - 1, t, n, by omega, ?_⟩
    rw [List.getElem?_append_left hlt]
    exact hlast

/-- While the program runs, no `ping` has failed after a publication; so this stays when
something is seen that is not such a failure. -/
theorem Stopped.grown (h : Stopped events pc) (hpc : pc.Running) {pc' : Pc}
    (hnew : ∀ t n, e = .ping t n false → Published events → pc' = .exited 1) :
    Stopped (events ++ [e]) pc' := by
  intro i j text ok t n hij hi hj
  rcases getElem?_grown hj with hold | ⟨rfl, he⟩
  · have hlt := (List.getElem?_eq_some_iff.mp hold).1
    rw [List.getElem?_append_left (hij.trans hlt)] at hi
    rw [(h i j text ok t n hij hi hold).2] at hpc
    exact hpc.elim
  · rw [List.getElem?_append_left hij] at hi
    exact ⟨by rw [List.length_append, List.length_singleton], hnew t n he.symm (published_of_getElem? hi)⟩

/-- So it does when nothing is seen. -/
theorem Stopped.move (h : Stopped events pc) (hpc : pc.Running) (pc' : Pc) :
    Stopped events pc' := by
  intro i j text ok t n hij hi hj
  rw [(h i j text ok t n hij hi hj).2] at hpc
  exact hpc.elim

theorem parse_inv (h : Inv s) (hpc : s.pc = .main) : Inv (parse s) := by
  have hnone : ¬ Published s.events := by
    have hseen := h.seen
    rw [hpc] at hseen
    exact hseen
  have hrunning : s.pc.Running := by rw [hpc]; trivial
  have husage : Inv { s with pc := .exited 1 } :=
    ⟨fun happ => happ.elim, h.mode, fun hpub => absurd hpub hnone, h.checked, h.stopped.move hrunning _⟩
  unfold parse
  split
  · next name mode hargv =>
    dsimp only
    split
    · exact ⟨fun happ => happ.elim, h.mode, hnone, h.checked, h.stopped.move hrunning _⟩
    · split
      · next hmode =>
        exact ⟨fun _ => ⟨rfl, name, mode, hargv, hmode⟩, h.mode, hnone, h.checked, h.stopped.move hrunning _⟩
      · exact ⟨fun happ => happ.elim, h.mode, husage.seen, h.checked, h.stopped.move hrunning _⟩
  · exact husage

theorem pinged_inv {up : Bool} (h : Inv s) (hstep : pinged s up = some t) : Inv t := by
  have hseen := h.seen
  have happ := h.app
  unfold pinged at hstep
  split at hstep
  · next hpc =>
    cases hstep
    rw [hpc] at hseen
    have hrunning : s.pc.Running := by rw [hpc]; trivial
    refine ⟨fun happ => happ.elim, fun hpub => h.mode (published_ping hpub), ?_, h.checked.ping _ _ _,
      h.stopped.grown hrunning fun _ _ _ hpub => absurd hpub hseen⟩
    cases up with
    | false => exact fun hpub => absurd (published_ping hpub) hseen
    | true => exact up_grown 1000 5
  · next hpc =>
    cases hstep
    rw [hpc] at hseen happ
    have hrunning : s.pc.Running := by rw [hpc]; trivial
    refine ⟨fun _ => happ trivial, fun hpub => h.mode (published_ping hpub), ?_, h.checked.ping _ _ _,
      h.stopped.grown hrunning fun _ _ _ hpub => absurd hpub hseen⟩
    cases up with
    | false => exact fun hpub => hseen (published_ping hpub)
    | true => exact ⟨up_grown 1000 1, fun hpub => hseen (published_ping hpub)⟩
  · next hpc =>
    cases hstep
    rw [hpc] at happ
    have hrunning : s.pc.Running := by rw [hpc]; trivial
    refine ⟨fun _ => happ trivial, fun hpub => h.mode (published_ping hpub), ?_, h.checked.ping _ _ _,
      h.stopped.grown hrunning fun _ _ hfails _ => ?_⟩
    · cases up with
      | false => exact fun _ => List.getLast?_concat
      | true => exact up_grown 100 1
    · cases hfails
      rfl
  · cases hstep

theorem called_inv {ok : Bool} (h : Inv s) (hstep : called s ok = some t) : Inv t := by
  have hseen := h.seen
  have happ := h.app
  unfold called at hstep
  split at hstep
  · next rest hpc =>
    cases hstep
    rw [hpc] at hseen happ
    have hrunning : s.pc.Running := by rw [hpc]; trivial
    cases ok with
    | false =>
      exact ⟨fun happ => happ.elim, h.mode, fun hpub => absurd hpub hseen.2, h.checked, h.stopped.move hrunning _⟩
    | true =>
      cases rest with
      | nil => exact ⟨fun _ => happ trivial, h.mode, hseen.1, h.checked, h.stopped.move hrunning _⟩
      | cons step rest => exact ⟨fun _ => happ trivial, h.mode, hseen, h.checked, h.stopped.move hrunning _⟩
  · cases hstep

theorem step_inv {a : Act} (h : Inv s) (hstep : step s a = some t) : Inv t := by
  have hseen := h.seen
  have happ := h.app
  cases a with
  | parse =>
    simp only [step] at hstep
    split at hstep
    · next hpc =>
      cases hstep
      exact parse_inv h hpc
    · cases hstep
  | ping up => exact pinged_inv h hstep
  | call ok => exact called_inv h hstep
  | tick =>
    simp only [step] at hstep
    split at hstep
    · next hpc =>
      cases hstep
      rw [hpc] at hseen happ
      have hrunning : s.pc.Running := by rw [hpc]; trivial
      exact ⟨fun _ => happ trivial, h.mode, hseen, h.checked, h.stopped.move hrunning _⟩
    · cases hstep
  | publish ok =>
    simp only [step] at hstep
    split at hstep
    · next hpc =>
      cases hstep
      rw [hpc] at hseen happ
      obtain ⟨hmsg, hmode⟩ := happ trivial
      have hrunning : s.pc.Running := by rw [hpc]; trivial
      have htext : s.msg.data.take s.msg.size = message := by
        rw [hmsg]
        rfl
      refine ⟨fun _ => ⟨hmsg, hmode⟩, fun _ => hmode, trivial, ?_,
        h.stopped.grown hrunning fun _ _ hfails => ?_⟩
      · rw [htext]
        exact h.checked.published hseen ok
      · cases hfails
    · cases hstep
  | spun =>
    simp only [step] at hstep
    split at hstep
    · next hpc =>
      cases hstep
      rw [hpc] at hseen
      have hrunning : s.pc.Running := by rw [hpc]; trivial
      exact ⟨fun happ => happ.elim, h.mode, hseen, h.checked, h.stopped.move hrunning _⟩
    · cases hstep

/-- **The agent is up at every publication.** For any arguments, whatever the calls return and
however often the timer ticks: a message is published in interactive mode only, and is the
text; before each publication a `ping` has succeeded, with no other `ping` or publication in
between; a `ping` that fails after a publication is the last of both, and the program has ended
with status 1. In a program that ended with status 0 a `ping` that succeeded comes last, and in
one that has published and ended otherwise one that failed. -/
theorem published_up (argv : List (List Byte)) {s : State} (hrun : machine.Reach (.start argv) s) :
    (Published s.events → s.Interactive) ∧ Checked s.events ∧ Stopped s.events s.pc ∧
    (s.pc = .exited 0 → Up s.events) ∧
    ∀ status, s.pc = .exited status → status ≠ 0 → Published s.events →
      s.events.getLast? = some (.ping 100 1 false) := by
  have h : Inv s := hrun.invariant _ (start_inv argv) fun _ _ _ hs _ hstep => step_inv hs hstep
  have hseen := h.seen
  refine ⟨h.mode, h.checked, h.stopped, fun hpc => ?_, fun status hpc hstatus => ?_⟩
  · rw [hpc] at hseen
    exact hseen
  · rw [hpc, Seen, if_neg hstatus] at hseen
    exact hseen

/-- Two looks, two ticks, and an agent that goes down. -/
theorem published_up_two :
    ∃ s, machine.Reach (.start ["ping_uros_agent".toList.map ascii, "interactive".toList.map ascii]) s ∧
      s.pc = .exited 1 ∧ s.events.length = 6 ∧ Published s.events ∧ Checked s.events ∧
      s.events.getLast? = some (.ping 100 1 false) := by
  obtain ⟨s, hrun, hpc, hlen, ok, hok⟩ := machine.exists_reach
    (P := fun s => s.pc = .exited 1 ∧ s.events.length = 6 ∧ ∃ ok, .published message ok ∈ s.events)
    (s := .start ["ping_uros_agent".toList.map ascii, "interactive".toList.map ascii])
    ([.parse, .ping false, .ping true] ++ List.replicate 6 (.call true) ++
      [.tick, .publish true, .ping true, .tick, .publish false, .ping false]) (by decide +kernel)
  obtain ⟨_, hchecked, _, _, hlast⟩ := published_up _ hrun
  have hpublished : Published s.events := ⟨message, ok, hok⟩
  exact ⟨s, hrun, hpc, hlen, hpublished, hchecked, hlast 1 hpc (by decide) hpublished⟩

end MicroRosDemos.Rclc.PingUrosAgent
