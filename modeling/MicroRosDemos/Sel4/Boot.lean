import MicroRosDemos.Lib.Machine
import MicroRosDemos.Spsc.Queue

/-!
# The order of initialisation

ping_pong's globals start out zero, and `transport_init` fills them in when the
guest signals that it is ready. Nothing in `notified` asks whether that has
happened: the VMM notifies `CHAN_PINGPONG` for every frame of the guest, ready or
not, and `transport_init` has three ways to go on when a call fails. `RCCHECK`
ends the program, `rmw_uros_set_custom_transport` is followed by a return, and
the results of `std_msgs__msg__Header__init` are dropped.

What the calls of `transport_init` do with the transport on their own account
belongs to the initialisation. The uses here are those of the handler:
`spsc_empty`, the executor, and the publishers.
-/

namespace MicroRosDemos.Sel4.Boot

open MicroRosDemos.Lib MicroRosDemos.Spsc

/-- `CHAN_READY` and `CHAN_PINGPONG`. -/
inductive Channel
  | ready
  | pingPong
deriving DecidableEq

/-- `pingPublisher` and `pongPublisher`; the subscribers likewise. -/
inductive Topic
  | ping
  | pong
deriving DecidableEq

/-- The messages `transport_init` initialises. -/
inductive Message
  | incomingPing
  | incomingPong
  | outgoingPing
  | outgoingPong
deriving DecidableEq

/-- The steps of `transport_init`: a pointer with its `spsc_init`, the three
headers, or one call. -/
inductive InitStep
  | spscPp2vmm
  | spscVmm2pp
  | txHdrs
  | headerInit (m : Message)
  | setCustomTransport
  | defaultAllocator
  | supportInit
  | nodeInit
  | publisherInit (topic : Topic)
  | subscriptionInit (topic : Topic)
  | zeroExecutor
  | executorInit
  | addSubscription (topic : Topic)
deriving DecidableEq

/-- `transport_init`, in order. -/
def transportInit : List InitStep :=
  [.spscPp2vmm, .spscVmm2pp, .txHdrs, .headerInit .incomingPing, .headerInit .incomingPong,
    .headerInit .outgoingPing, .headerInit .outgoingPong, .setCustomTransport, .defaultAllocator,
    .supportInit, .nodeInit, .publisherInit .ping, .publisherInit .pong, .subscriptionInit .ping,
    .subscriptionInit .pong, .zeroExecutor, .executorInit, .addSubscription .ping,
    .addSubscription .pong]

/-- What the code does when a step fails. -/
inductive OnError
  -- the result is dropped, or there is none
  | proceed
  -- transport_init returns
  | leave
  -- RCCHECK: the program ends
  | exit
deriving DecidableEq

def InitStep.onError : InitStep → OnError
  | .spscPp2vmm | .spscVmm2pp | .txHdrs | .headerInit _ | .defaultAllocator | .zeroExecutor => .proceed
  | .setCustomTransport => .leave
  | .supportInit | .nodeInit | .publisherInit _ | .subscriptionInit _ | .executorInit
  | .addSubscription _ => .exit

/-- Where the two queues are mapped. -/
def pp2vmm : Nat := 0x5000000

def vmm2pp : Nat := 0x5100000

/-- Whether a step succeeds, given the outcomes of the calls that leave the program. -/
def InitStep.succeeds (outcome : InitStep → Bool) : InitStep → Bool
  | .spscPp2vmm => (spscInit ⟨0, 0, 0, 0, 0, 0, 0, 0, 0, 0⟩ (pp2vmm + sizeofSpscQueue) (pp2vmm + 0x100000) 11).1
  | .spscVmm2pp => (spscInit ⟨0, 0, 0, 0, 0, 0, 0, 0, 0, 0⟩ (vmm2pp + sizeofSpscQueue) (vmm2pp + 0x100000) 11).1
  | .txHdrs | .defaultAllocator | .zeroExecutor => true
  | step => outcome step

/-- Where ping_pong is: in its event loop, in `transport_init` with these steps
before it, about to call `spsc_empty`, in `rclc_executor_spin_some`, about to
call `rcl_publish`, or stopped. -/
inductive Pc
  | idle
  | transportInit (rest : List InitStep)
  | empty
  | spin
  | publish (topic : Topic) (inSpin : Bool)
  | exited
deriving DecidableEq

/-- What the VMM has signalled, where ping_pong is, and which steps of
`transport_init` have succeeded. -/
structure State where
  readySignalSent : Bool
  pending : Channel → Bool
  pc : Pc
  done : List InitStep

/-- What happens next: `process_tx_pending` notifies for a frame, the guest
touches the ready page, ping_pong takes a notification or a step of its handler,
or the executor calls a subscription back. -/
inductive Act
  | frame
  | readyPage (write : Bool)
  | take (channel : Channel)
  | init
  | look (empty : Bool)
  | callback (topic : Topic)
  | published (ok : Bool)
  | spinDone

/-- The pending bits once one of them is set or taken. -/
def setPending (pending : Channel → Bool) (channel : Channel) (value : Bool) : Channel → Bool :=
  fun c => if c = channel then value else pending c

/-- The next step of `transport_init`; the last one is followed by `send_ping`. -/
def initStep (outcome : InitStep → Bool) (s : State) : Option State :=
  match s.pc with
  | .transportInit [] => some { s with pc := .publish .ping false }
  | .transportInit (step :: rest) =>
    if step.succeeds outcome then
      some { s with pc := .transportInit rest, done := s.done ++ [step] }
    else
      match step.onError with
      | .proceed => some { s with pc := .transportInit rest }
      | .leave => some { s with pc := .publish .ping false }
      | .exit => some { s with pc := .exited }
  | _ => none

/-- The VMM's signals and ping_pong's handler, in every order. -/
def step (outcome : InitStep → Bool) (s : State) : Act → Option State
  | .frame => some { s with pending := setPending s.pending .pingPong true }
  | .readyPage write =>
    if write && !s.readySignalSent then
      some { s with readySignalSent := true, pending := setPending s.pending .ready true }
    else some s
  | .take channel =>
    match s.pc, s.pending channel with
    | .idle, true =>
      some { s with
        pending := setPending s.pending channel false
        pc := match channel with
          | .ready => .transportInit transportInit
          | .pingPong => .empty }
    | _, _ => none
  | .init => initStep outcome s
  | .look empty =>
    match s.pc with
    | .empty => some { s with pc := if empty then .idle else .spin }
    | _ => none
  | .callback topic =>
    match s.pc with
    | .spin => some { s with pc := .publish topic true }
    | _ => none
  | .published ok =>
    match s.pc with
    | .publish _ inSpin =>
      some { s with pc := if ok then (if inSpin then .spin else .idle) else .exited }
    | _ => none
  | .spinDone =>
    match s.pc with
    | .spin => some { s with pc := .idle }
    | _ => none

/-- The machine of the boot order. -/
def machine (outcome : InitStep → Bool) : Machine State Act := ⟨step outcome⟩

/-- Nothing signalled, nothing initialised. -/
def State.start : State := ⟨false, fun _ => false, .idle, []⟩

/-- ping_pong is about to use its queue, its executor or a publisher. -/
def State.Uses (s : State) : Prop :=
  match s.pc with
  | .empty | .spin | .publish _ _ => True
  | .idle | .transportInit _ | .exited => False

/-- Every step of `transport_init` has succeeded. -/
def State.Initialised (s : State) : Prop := s.done = transportInit

/-! ## What the code relies on -/

/-- `CHAN_PINGPONG` is taken after `transport_init` has succeeded, and not before. -/
def PingPongAfterInit (s : State) : Act → Prop
  | .take .pingPong => s.Initialised
  | _ => True

/-- `rmw_uros_set_custom_transport` succeeds, and so do the calls whose results
are dropped, unless an `RCCHECK` ends the program. -/
def OutcomesOk (outcome : InitStep → Bool) : Prop :=
  InitStep.setCustomTransport.succeeds outcome = true ∧
    ((∀ step ∈ transportInit, step.onError = .proceed → step.succeeds outcome = true) ∨
      ∃ step ∈ transportInit, step.onError = .exit ∧ step.succeeds outcome = false)

variable {outcome : InitStep → Bool} {s t : State}

theorem onError_leave {step : InitStep} (h : step.onError = .leave) : step = .setCustomTransport := by
  cases step <;> first | rfl | cases h

/-! ## Everything a step does -/

/-- The VMM's signals, and the steps of ping_pong's handler. -/
inductive Move (outcome : InitStep → Bool) (s : State) : Act → State → Prop
  | frame : Move outcome s .frame { s with pending := setPending s.pending .pingPong true }
  | signal (hunsent : s.readySignalSent = false) :
    Move outcome s (.readyPage true)
      { s with readySignalSent := true, pending := setPending s.pending .ready true }
  | again (write : Bool) : Move outcome s (.readyPage write) s
  | ready (hpc : s.pc = .idle) (hpending : s.pending .ready = true) :
    Move outcome s (.take .ready)
      { s with pending := setPending s.pending .ready false, pc := .transportInit transportInit }
  | pingPong (hpc : s.pc = .idle) :
    Move outcome s (.take .pingPong)
      { s with pending := setPending s.pending .pingPong false, pc := .empty }
  | passed (step : InitStep) (rest : List InitStep) (hpc : s.pc = .transportInit (step :: rest))
    (hpass : step.succeeds outcome = true ∨ step.onError = .proceed) :
    Move outcome s .init
      { s with pc := .transportInit rest, done := s.done ++ [step].filter (·.succeeds outcome) }
  | left (step : InitStep) (rest : List InitStep) (hpc : s.pc = .transportInit (step :: rest))
    (hfails : step.succeeds outcome = false) (hleave : step.onError = .leave) :
    Move outcome s .init { s with pc := .publish .ping false }
  | failed (step : InitStep) (rest : List InitStep) (hpc : s.pc = .transportInit (step :: rest)) :
    Move outcome s .init { s with pc := .exited }
  | initialised (hpc : s.pc = .transportInit []) :
    Move outcome s .init { s with pc := .publish .ping false }
  | look (empty : Bool) (hpc : s.pc = .empty) :
    Move outcome s (.look empty) { s with pc := if empty then .idle else .spin }
  | callback (topic : Topic) (hpc : s.pc = .spin) :
    Move outcome s (.callback topic) { s with pc := .publish topic true }
  | published (topic : Topic) (inSpin ok : Bool) (hpc : s.pc = .publish topic inSpin) :
    Move outcome s (.published ok)
      { s with pc := if ok then (if inSpin then .spin else .idle) else .exited }
  | spinDone (hpc : s.pc = .spin) : Move outcome s .spinDone { s with pc := .idle }

theorem initStep_move (h : initStep outcome s = some t) : Move outcome s .init t := by
  unfold initStep at h
  split at h
  · next hpc =>
    cases h
    exact .initialised hpc
  · next step rest hpc =>
    split at h
    · next hsucceeds =>
      cases h
      have hmove : Move outcome s .init _ := .passed step rest hpc (.inl hsucceeds)
      rwa [List.filter_cons_of_pos hsucceeds, List.filter_nil] at hmove
    · next hfails =>
      split at h
      · next hproceed =>
        cases h
        have hmove : Move outcome s .init _ := .passed step rest hpc (.inr hproceed)
        rwa [List.filter_cons_of_neg hfails, List.filter_nil, List.append_nil] at hmove
      · next hleave =>
        cases h
        exact .left step rest hpc (Bool.eq_false_of_not_eq_true hfails) hleave
      · cases h
        exact .failed step rest hpc
  · cases h

theorem step_move {a : Act} (h : step outcome s a = some t) : Move outcome s a t := by
  cases a with
  | frame =>
    cases h
    exact .frame
  | readyPage write =>
    simp only [step] at h
    split at h
    · next hfirst =>
      cases h
      obtain ⟨rfl, hunsent⟩ := (Bool.and_eq_true _ _).mp hfirst
      exact .signal ((Bool.not_eq_true' _).mp hunsent)
    · cases h
      exact .again write
  | take channel =>
    simp only [step] at h
    split at h
    · next hpc hpending =>
      cases h
      cases channel with
      | ready => exact .ready hpc hpending
      | pingPong => exact .pingPong hpc
    · cases h
  | init => exact initStep_move h
  | look empty =>
    simp only [step] at h
    split at h
    · next hpc =>
      cases h
      exact .look empty hpc
    · cases h
  | callback topic =>
    simp only [step] at h
    split at h
    · next hpc =>
      cases h
      exact .callback topic hpc
    · cases h
  | published ok =>
    simp only [step] at h
    split at h
    · next topic inSpin hpc =>
      cases h
      exact .published topic inSpin ok hpc
    · cases h
  | spinDone =>
    simp only [step] at h
    split at h
    · next hpc =>
      cases h
      exact .spinDone hpc
    · cases h

/-! ## The order, on the notifications -/

/-- Only a step of `transport_init` adds to what is done, and it adds one. -/
theorem Move.done_le {a : Act} (h : Move outcome s a t) :
    t.done = s.done ∨ a = .init ∧ t.done.length ≤ s.done.length + 1 := by
  cases h with
  | passed step rest hpc =>
    refine .inr ⟨rfl, ?_⟩
    have hone := List.length_filter_le (·.succeeds outcome) [step]
    rw [List.length_append]
    exact Nat.add_le_add_left hone _
  | _ => exact .inl rfl

/-- So what is done has taken as many steps. -/
theorem exec_inits {acts : List Act} (h : (machine outcome).exec s acts = some t) :
    (List.replicate (t.done.length - s.done.length) Act.init).Sublist acts := by
  induction acts generalizing s with
  | nil =>
    cases h
    rw [Nat.sub_self]
    exact .slnil
  | cons a acts ih =>
    unfold Machine.exec at h
    split at h
    · next u hu =>
      have hrest := ih h
      rcases (step_move hu).done_le with hdone | ⟨rfl, hdone⟩
      · rw [hdone] at hrest
        exact hrest.cons a
      · have hle : t.done.length - s.done.length ≤ (t.done.length - u.done.length) + 1 := by omega
        refine .trans (List.replicate_sublist_replicate _ |>.mpr hle) ?_
        rw [List.replicate_succ]
        exact hrest.cons_cons _
    · cases h

/-- Before `CHAN_READY` is taken nothing is done. -/
theorem exec_ready {acts : List Act} (hdone : s.done = []) (hpc : ∀ rest, s.pc ≠ .transportInit rest)
    (h : (machine outcome).exec s acts = some t) (hnonempty : t.done ≠ []) :
    ∃ before after, acts = before ++ .take .ready :: after ∧
      (List.replicate t.done.length Act.init).Sublist after := by
  induction acts generalizing s with
  | nil =>
    cases h
    exact absurd hdone hnonempty
  | cons a acts ih =>
    unfold Machine.exec at h
    split at h
    · next u hu =>
      have hlater (hdone' : u.done = []) (hpc' : ∀ rest, u.pc ≠ .transportInit rest) :
          ∃ before after, a :: acts = before ++ .take .ready :: after ∧
            (List.replicate t.done.length Act.init).Sublist after := by
        obtain ⟨before, after, rfl, hinits⟩ := ih hdone' hpc' h
        exact ⟨a :: before, after, rfl, hinits⟩
      cases step_move hu with
      | ready hidle hpending =>
        have hinits := exec_inits h
        simp only [hdone, List.length_nil, Nat.sub_zero] at hinits
        exact ⟨[], acts, rfl, hinits⟩
      | passed step rest heq | left step rest heq | failed step rest heq => exact absurd heq (hpc _)
      | initialised heq => exact absurd heq (hpc _)
      | frame | signal | again => exact hlater hdone hpc
      | pingPong | callback | spinDone => exact hlater hdone fun rest heq => by cases heq
      | look empty => exact hlater hdone fun rest heq => by cases empty <;> cases heq
      | published topic inSpin ok =>
        exact hlater hdone fun rest heq => by cases ok <;> cases inSpin <;> cases heq
    · cases h

/-- The order condition asks this of the notifications: before `CHAN_PINGPONG` is taken,
`CHAN_READY` has been, and all of `transport_init` has run behind that. -/
theorem PingPongAfterInit.ready_first {acts : List Act}
    (h : (machine outcome).exec .start acts = some s) (horder : PingPongAfterInit s (.take .pingPong)) :
    ∃ before after, acts = before ++ .take .ready :: after ∧
      (List.replicate transportInit.length Act.init).Sublist after := by
  have hinit : s.done = transportInit := horder
  rw [← hinit]
  exact exec_ready rfl (fun rest heq => by cases heq) h (by rw [hinit]; exact List.cons_ne_nil _ _)

/-! ## The invariant -/

/-- What has been initialised at each place of the handler, once `CHAN_READY`
has been taken. -/
def Progress (outcome : InitStep → Bool) (done : List InitStep) : Pc → Prop
  | .transportInit rest =>
    ∃ passed, passed ++ rest = transportInit ∧ done = passed.filter (·.succeeds outcome) ∧
      ∀ step ∈ passed, step.onError ≠ .proceed → step.succeeds outcome = true
  | .exited => True
  | .idle | .empty | .spin | .publish _ _ => done = transportInit

/-- Before `CHAN_READY` is taken nothing is initialised and the handler has not
run; afterwards the channel is silent, and `Progress` holds. -/
def Inv (outcome : InitStep → Bool) (s : State) : Prop :=
  (s.pc = .idle ∧ s.done = [] ∧ (s.pending .ready = true → s.readySignalSent = true)) ∨
    (s.readySignalSent = true ∧ s.pending .ready = false ∧ Progress outcome s.done s.pc)

/-- When `transport_init` has passed its last step, all steps have succeeded. -/
theorem passed_all (hok : OutcomesOk outcome)
    (h : ∀ step ∈ transportInit, step.onError ≠ .proceed → step.succeeds outcome = true) :
    transportInit.filter (·.succeeds outcome) = transportInit := by
  refine List.filter_eq_self.mpr fun step hmem => ?_
  obtain ⟨_, hproceed | ⟨failing, hin, hexit, hfails⟩⟩ := hok
  · by_cases herr : step.onError = .proceed
    · exact hproceed step hmem herr
    · exact h step hmem herr
  · have hsucceeds := h failing hin (by rw [hexit]; exact nofun)
    rw [hfails] at hsucceeds
    cases hsucceeds

/-- A step of `transport_init` that is passed. -/
theorem Progress.pass {done rest : List InitStep} {step : InitStep}
    (h : Progress outcome done (.transportInit (step :: rest)))
    (hpass : step.succeeds outcome = true ∨ step.onError = .proceed) :
    Progress outcome (done ++ [step].filter (·.succeeds outcome)) (.transportInit rest) := by
  obtain ⟨passed, heq, rfl, hpassed⟩ := h
  refine ⟨passed ++ [step], ?_, (List.filter_append _ _).symm, ?_⟩
  · rw [List.append_assoc]
    exact heq
  · exact forall_mem_grown.mpr ⟨hpassed, hpass.resolve_right⟩

theorem start_inv : Inv outcome .start := .inl ⟨rfl, rfl, nofun⟩

/-- In its handler, ping_pong has taken `CHAN_READY`. -/
theorem Inv.progress (h : Inv outcome s) (hpc : s.pc ≠ .idle) :
    s.readySignalSent = true ∧ s.pending .ready = false ∧ Progress outcome s.done s.pc := by
  rcases h with ⟨hidle, _⟩ | htaken
  · exact absurd hidle hpc
  · exact htaken

theorem step_inv {a : Act} (hok : OutcomesOk outcome) (h : Inv outcome s)
    (horder : PingPongAfterInit s a) (hstep : step outcome s a = some t) : Inv outcome t := by
  cases step_move hstep with
  | frame | again write => exact h
  | signal hunsent =>
    rcases h with ⟨hpc, hdone, _⟩ | ⟨hsent, _⟩
    · exact .inl ⟨hpc, hdone, fun _ => rfl⟩
    · cases hunsent.symm.trans hsent
  | ready hpc hpending =>
    rcases h with ⟨_, hdone, hsent⟩ | ⟨_, hsilent, _⟩
    · exact .inr ⟨hsent hpending, rfl, [], rfl, hdone, nofun⟩
    · cases hsilent.symm.trans hpending
  | pingPong hpc =>
    have hinit : s.done = transportInit := horder
    rcases h with ⟨_, hdone, _⟩ | ⟨hsent, hsilent, _⟩
    · cases hdone.symm.trans hinit
    · exact .inr ⟨hsent, hsilent, hinit⟩
  | passed step rest hpc hpass =>
    obtain ⟨hsent, hsilent, hprogress⟩ := h.progress (by simp [hpc])
    rw [hpc] at hprogress
    exact .inr ⟨hsent, hsilent, hprogress.pass hpass⟩
  | left step rest hpc hfails hleave =>
    rw [onError_leave hleave] at hfails
    cases hfails.symm.trans hok.1
  | failed step rest hpc =>
    obtain ⟨hsent, hsilent, _⟩ := h.progress (by simp [hpc])
    exact .inr ⟨hsent, hsilent, trivial⟩
  | initialised hpc =>
    obtain ⟨hsent, hsilent, hprogress⟩ := h.progress (by simp [hpc])
    rw [hpc] at hprogress
    obtain ⟨passed, heq, hdone, hpassed⟩ := hprogress
    rw [List.append_nil] at heq
    subst heq
    exact .inr ⟨hsent, hsilent, hdone.trans (passed_all hok hpassed)⟩
  | look empty hpc =>
    obtain ⟨hsent, hsilent, hprogress⟩ := h.progress (by simp [hpc])
    rw [hpc] at hprogress
    cases empty <;> exact .inr ⟨hsent, hsilent, hprogress⟩
  | callback topic hpc | spinDone hpc =>
    obtain ⟨hsent, hsilent, hprogress⟩ := h.progress (by simp [hpc])
    rw [hpc] at hprogress
    exact .inr ⟨hsent, hsilent, hprogress⟩
  | published topic inSpin ok hpc =>
    obtain ⟨hsent, hsilent, hprogress⟩ := h.progress (by simp [hpc])
    rw [hpc] at hprogress
    refine .inr ⟨hsent, hsilent, ?_⟩
    cases ok with
    | false => trivial
    | true => cases inSpin <;> exact hprogress

theorem Inv.initialised (h : Inv outcome s) (huses : s.Uses) : s.Initialised := by
  rcases h with ⟨hpc, _⟩ | ⟨_, _, hprogress⟩
  · rw [State.Uses, hpc] at huses
    exact huses.elim
  · unfold State.Uses at huses
    cases hpc : s.pc with
    | idle | transportInit rest | exited =>
      rw [hpc] at huses
      exact huses.elim
    | empty | spin | publish topic inSpin =>
      rw [hpc] at hprogress
      exact hprogress

/-! ## Where it goes wrong -/

/-- Steps that succeed or whose failure is dropped are passed. -/
theorem run_pass (l rest : List InitStep) (hpc : s.pc = .transportInit (l ++ rest))
    (hpass : ∀ step ∈ l, step.succeeds outcome = true ∨ step.onError = .proceed) :
    (machine outcome).Run PingPongAfterInit s
      { s with pc := .transportInit rest, done := s.done ++ l.filter (·.succeeds outcome) } := by
  induction l generalizing s with
  | nil =>
    have hsame : { s with
        pc := .transportInit rest
        done := s.done ++ ([] : List InitStep).filter (·.succeeds outcome) } = s := by
      rw [List.filter_nil, List.append_nil, ← List.nil_append rest, ← hpc]
    rw [hsame]
    exact .refl
  | cons step l ih =>
    have hl : ∀ x ∈ l, x.succeeds outcome = true ∨ x.onError = .proceed :=
      fun x hx => hpass x (List.mem_cons_of_mem _ hx)
    cases hsucceeds : step.succeeds outcome with
    | true =>
      have hstep : (machine outcome).step s .init =
          some { s with pc := .transportInit (l ++ rest), done := s.done ++ [step] } := by
        simp only [machine, Boot.step, initStep, hpc, List.cons_append, hsucceeds, if_true]
      have hrest := ih (s := { s with pc := .transportInit (l ++ rest), done := s.done ++ [step] })
        rfl hl
      rw [List.filter_cons_of_pos hsucceeds, List.append_cons]
      exact (Machine.Run.single trivial hstep).trans hrest
    | false =>
      have hproceed : step.onError = .proceed := by
        rcases hpass step List.mem_cons_self with h | h
        · rw [hsucceeds] at h
          cases h
        · exact h
      have hstep : (machine outcome).step s .init =
          some { s with pc := .transportInit (l ++ rest) } := by
        simp only [machine, Boot.step, initStep, hpc, List.cons_append, hsucceeds, hproceed,
          Bool.false_eq_true, if_false]
      have hrest := ih (s := { s with pc := .transportInit (l ++ rest) }) rfl hl
      rw [List.filter_cons_of_neg (by rw [hsucceeds]; exact Bool.false_ne_true)]
      exact (Machine.Run.single trivial hstep).trans hrest

/-- The guest has signalled, and ping_pong has taken the notification. -/
def State.readyTaken : State :=
  ⟨true, setPending (setPending (fun _ => false) .ready true) .ready false,
    .transportInit transportInit, []⟩

theorem run_ready : (machine outcome).Run PingPongAfterInit .start .readyTaken :=
  Machine.run_of_exec [.readyPage true, .take .ready] (by simp [PingPongAfterInit]) rfl

/-- Steps of `transport_init` up to one that makes it return. -/
theorem run_until (l rest : List InitStep) (heq : transportInit = l ++ rest)
    (hpass : ∀ step ∈ l, step.succeeds outcome = true ∨ step.onError = .proceed)
    (hleave : ∀ done, initStep outcome
      { State.readyTaken with pc := .transportInit rest, done } =
        some { State.readyTaken with pc := .publish .ping false, done }) :
    (machine outcome).Run PingPongAfterInit .start
      { State.readyTaken with
        pc := .publish .ping false, done := l.filter (·.succeeds outcome) } := by
  have hrun : (machine outcome).Run PingPongAfterInit State.readyTaken _ :=
    run_pass l rest (congrArg Pc.transportInit heq) hpass
  exact (run_ready.trans hrun).step (a := .init) trivial (hleave _)

/-- A failed `rmw_uros_set_custom_transport` is followed by a publication. -/
theorem leave_uses (hfails : InitStep.setCustomTransport.succeeds outcome = false) :
    ∃ s, (machine outcome).Run PingPongAfterInit .start s ∧ s.Uses ∧ ¬ s.Initialised := by
  have hpass : ∀ step ∈ transportInit.take 7, step.onError = .proceed := by decide
  have hrun : (machine outcome).Run PingPongAfterInit .start _ :=
    run_until (transportInit.take 7) _ rfl (fun step hstep => .inr (hpass step hstep))
      fun done => if_neg (by rw [hfails]; exact Bool.false_ne_true)
  refine ⟨_, hrun, trivial, fun hinit => ?_⟩
  have hlen : ((transportInit.take 7).filter (·.succeeds outcome)).length = 19 :=
    congrArg List.length hinit
  have hle := List.length_filter_le (·.succeeds outcome) (transportInit.take 7)
  rw [hlen] at hle
  exact absurd hle (by decide)

/-- So is a dropped failure, when no `RCCHECK` ends the program. -/
theorem proceed_uses (hset : InitStep.setCustomTransport.succeeds outcome = true)
    (hexit : ∀ step ∈ transportInit, step.onError = .exit → step.succeeds outcome = true)
    {failing : InitStep} (hin : failing ∈ transportInit)
    (hfails : failing.succeeds outcome = false) :
    ∃ s, (machine outcome).Run PingPongAfterInit .start s ∧ s.Uses ∧ ¬ s.Initialised := by
  have hpass : ∀ step ∈ transportInit,
      step.succeeds outcome = true ∨ step.onError = .proceed := by
    intro step hstep
    cases herr : step.onError with
    | proceed => exact .inr rfl
    | leave =>
      rw [onError_leave herr]
      exact .inl hset
    | exit => exact .inl (hexit step hstep herr)
  have hrun : (machine outcome).Run PingPongAfterInit .start _ :=
    run_until transportInit [] (List.append_nil _).symm hpass fun done => rfl
  refine ⟨_, hrun, trivial, fun hinit => ?_⟩
  have hall := List.filter_eq_self.mp hinit failing hin
  rw [hfails] at hall
  cases hall

/-- **Nothing is used before it is initialised** in the runs that take
`CHAN_PINGPONG` after `transport_init` has succeeded, just when the calls whose
failure does not end the program succeed; and a `CHAN_PINGPONG` taken before
that is a use at once. -/
theorem used_after_init_iff (outcome : InitStep → Bool) :
    ((∀ s, (machine outcome).Run PingPongAfterInit .start s → s.Uses → s.Initialised) ↔
      OutcomesOk outcome) ∧
    ∀ s t, (machine outcome).step s (.take .pingPong) = some t →
      t.Uses ∧ (t.Initialised ↔ s.Initialised) := by
  refine ⟨⟨fun hall => ?_, fun hok s hrun huses => ?_⟩, fun s t hstep => ?_⟩
  · by_contra hnot
    cases hset : InitStep.setCustomTransport.succeeds outcome with
    | false =>
      obtain ⟨s, hrun, huses, hinit⟩ := leave_uses hset
      exact hinit (hall s hrun huses)
    | true =>
      obtain ⟨hproceed, hexit⟩ := not_or.mp fun hok => hnot ⟨hset, hok⟩
      push Not at hproceed hexit
      obtain ⟨failing, hin, _, hfails⟩ := hproceed
      obtain ⟨s, hrun, huses, hinit⟩ := proceed_uses hset
        (fun step hstep herr => Bool.eq_true_of_not_eq_false (hexit step hstep herr)) hin
        (Bool.eq_false_of_not_eq_true hfails)
      exact hinit (hall s hrun huses)
  · have hinv := hrun.invariant (Inv outcome) start_inv
      fun s a t h horder hstep => step_inv hok h horder hstep
    exact hinv.initialised huses
  · have hmove : Move outcome s (.take .pingPong) t := step_move hstep
    cases hmove with
    | pingPong hpc => exact ⟨trivial, Iff.rfl⟩

/-- The guest sends a frame and has not signalled: ping_pong looks at a queue it
has no pointer to. It signals and `rmw_uros_set_custom_transport` fails:
ping_pong publishes through a publisher that is not there. -/
theorem used_before_init :
    (∃ s, (machine fun _ => true).Reach .start s ∧ s.pc = .empty ∧ s.done = []) ∧
      ∃ s, (machine fun step => step ≠ .setCustomTransport).Reach .start s ∧
        s.pc = .publish .ping false ∧ .publisherInit .ping ∉ s.done := by
  constructor
  · exact Machine.exists_reach [.frame, .take .pingPong] (by decide +kernel)
  · exact Machine.exists_reach ([.readyPage true, .take .ready] ++ List.replicate 8 .init)
      (by decide +kernel)

end MicroRosDemos.Sel4.Boot
