import MicroRosDemos.Lib.Link
import MicroRosDemos.Rclc.FibonacciValues

/-!
# The Fibonacci action client and its server

The client sends one goal and spins until one of its callbacks has set `goal_completed`;
the server answers the goal, and its worker publishes feedback and sends a result. Between
them are links that may lose what is on its way. What the client prints is then a part of
what the worker computed, in order and each message once, and `main` comes back just when
the goal was rejected or its result arrived (`client_agrees`).
-/

namespace MicroRosDemos.Rclc.FibonacciClient

open MicroRosDemos.Lib MicroRosDemos.Rclc.Fibonacci

/-- `MAX_FIBONACCI_ORDER`: what the client's sequences have room for. -/
def maxFibonacciOrder : Nat := 500

/-- What is printed of a result. -/
inductive Outcome
  | numbers (sequence : List (BitVec 32))
  | canceled
  | aborted
deriving DecidableEq

/-- The lines that the callbacks print; the client asks for no cancellation. -/
inductive Line
  | goalRequest (order : BitVec 32) (accepted : Bool)
  | feedback (order : BitVec 32) (sequence : List (BitVec 32))
  | result (order : BitVec 32) (outcome : Outcome)
deriving DecidableEq

/-- Where the client's `main` is: before it sends its goal, at the head of its loop, in
`rclc_executor_spin_some`, or back, from the loop or without having sent the goal. -/
inductive ClientPc
  | sendGoal
  | loop
  | spin
  | done
  | failed
deriving DecidableEq

structure Client where
  pc : ClientPc
  goalCompleted : Bool
  lines : List Line

def Client.print (c : Client) (line : Line) : Client := { c with lines := c.lines ++ [line] }

/-- What is printed behind the order, by the status of the result. -/
def outcome (status : GoalState) (sequence : List (BitVec 32)) : Outcome :=
  match status with
  | .succeeded => .numbers sequence
  | .canceled => .canceled
  | .aborted => .aborted

/-! ## The callbacks -/

def goalRequestCallback (order : BitVec 32) (accepted : Bool) (c : Client) : Client :=
  let c := c.print (.goalRequest order accepted)
  if !accepted then { c with goalCompleted := true } else c

def feedbackCallback (order : BitVec 32) (sequence : List (BitVec 32)) (c : Client) : Client :=
  c.print (.feedback order sequence)

def resultRequestCallback (order : BitVec 32) (status : GoalState) (sequence : List (BitVec 32))
    (c : Client) : Client :=
  { c.print (.result order (outcome status sequence)) with goalCompleted := true }

/-! ## Both programs -/

/-- The client; its goal request and the answer, when they are on their way; the worker,
once there is one, with what it has published and sent; how many feedback messages and
results the links have dealt with; how many messages they have lost; and how many did not
fit the client's sequences. -/
structure State where
  client : Client
  request : Bool
  response : Option Bool
  worker : Option Recorded
  feedbacks : Nat
  results : Nat
  lost : Nat
  refused : Nat

/-- The feedback messages of the worker. -/
def State.published (s : State) : List (List (BitVec 32)) :=
  match s.worker with
  | none => []
  | some r => r.published

/-- The results that the worker has sent with success. -/
def State.sent (s : State) : List Sent :=
  match s.worker with
  | none => []
  | some r => r.worker.sends.filter Sent.ok

/-- A message comes to a callback of the client, or is lost. The client takes messages while
it spins, and only those that fit its sequences. -/
def State.deliver (s : State) (keep : Bool) (size : Nat) (callback : Client → Client) : Option State :=
  if keep then
    match s.client.pc with
    | .spin =>
      if size ≤ maxFibonacciOrder then some { s with client := callback s.client }
      else some { s with refused := s.refused + 1 }
    | _ => none
  else some { s with lost := s.lost + 1 }

theorem State.published_of {s : State} {r : Recorded} (h : s.worker = some r) :
    s.published = r.published := by
  unfold State.published
  rw [h]

theorem State.sent_of {s : State} {r : Recorded} (h : s.worker = some r) :
    s.sent = r.worker.sends.filter Sent.ok := by
  unfold State.sent
  rw [h]

/-- What happens next: the client sends its goal, enters or leaves a spin, or its loop; the
goal request is lost or handled; the worker goes on, or its goal is cancelled by somebody
else; or the links deal with a message, and keep it or lose it. -/
inductive Act
  | sendGoal (ok : Bool)
  | spin
  | endSpin
  | leave
  | loseRequest
  | handleGoal
  | worker (a : Fibonacci.Act)
  | goalResponse (keep : Bool)
  | feedback (keep : Bool)
  | result (keep : Bool)

variable (g : Goal)

/-- The client's goal has the order of `g`. -/
def step (s : State) : Act → Option State
  | .sendGoal ok =>
    match s.client.pc with
    | .sendGoal =>
      if ok then some { s with client := { s.client with pc := .loop }, request := true }
      else some { s with client := { s.client with pc := .failed } }
    | _ => none
  | .spin =>
    match s.client.pc with
    | .loop =>
      if s.client.goalCompleted then none else some { s with client := { s.client with pc := .spin } }
    | _ => none
  | .endSpin =>
    match s.client.pc with
    | .spin => some { s with client := { s.client with pc := .loop } }
    | _ => none
  | .leave =>
    match s.client.pc with
    | .loop =>
      if s.client.goalCompleted then some { s with client := { s.client with pc := .done } } else none
    | _ => none
  | .loseRequest => if s.request then some { s with request := false, lost := s.lost + 1 } else none
  | .handleGoal =>
    if s.request then
      match handleGoal g with
      | none => some { s with request := false, response := some false }
      | some worker =>
        some { s with request := false, response := some true, worker := some ⟨worker, []⟩ }
    else none
  | .worker a =>
    match s.worker with
    | none => none
    | some r => ((recorded g).step r a).map fun r => { s with worker := some r }
  | .goalResponse keep =>
    match s.response with
    | none => none
    | some accepted =>
      State.deliver { s with response := none } keep 0 (goalRequestCallback g.order accepted)
  | .feedback keep =>
    match s.published[s.feedbacks]? with
    | none => none
    | some sequence =>
      State.deliver { s with feedbacks := s.feedbacks + 1 } keep sequence.length
        (feedbackCallback g.order sequence)
  | .result keep =>
    match s.sent[s.results]? with
    | none => none
    | some x =>
      State.deliver { s with results := s.results + 1 } keep x.result.length
        (resultRequestCallback g.order x.state x.result)

/-- The two programs and what is between them. -/
def machine : Machine State Act := ⟨step g⟩

/-- Before the goal is sent. -/
def State.start : State := ⟨⟨.sendGoal, false, []⟩, false, none, none, 0, 0, 0, 0⟩

/-! ## What the client may rely on -/

def Line.order : Line → BitVec 32
  | .goalRequest order _ | .feedback order _ | .result order _ => order

/-- The sequence of a feedback line. -/
def Line.sequence : Line → Option (List (BitVec 32))
  | .feedback _ sequence => some sequence
  | .goalRequest _ _ | .result _ _ => none

/-- The outcome in a result line. -/
def Line.outcome : Line → Option Outcome
  | .result _ outcome => some outcome
  | .goalRequest _ _ | .feedback _ _ => none

/-- The lines with which a goal is over. -/
def Line.final : Line → Bool
  | .goalRequest _ accepted => !accepted
  | .result _ _ => true
  | .feedback _ _ => false

/-- What an outcome says of the goal. -/
def Outcome.Right (g : Goal) (cancelled : Bool) : Outcome → Prop
  | .numbers sequence => 2 ≤ g.order.toInt ∧ sequence = fibs g.orderSize
  | .canceled => 2 ≤ g.order.toInt ∧ cancelled = true
  | .aborted => g.order.toInt < 2

/-- The goal was cancelled. -/
def State.cancelled (s : State) : Bool :=
  match s.worker with
  | none => false
  | some r => r.worker.cancelled

/-- What the client prints and does agrees with what became of its goal. -/
structure Agrees (g : Goal) (s : State) : Prop where
  order : ∀ line ∈ s.client.lines, line.order = g.order
  answer : ∀ accepted, .goalRequest g.order accepted ∈ s.client.lines →
    (accepted = true ↔ g.order.toInt ≤ 200)
  feedback : ∃ ks : List Nat, ks.Pairwise (· < ·) ∧ (∀ k ∈ ks, 3 ≤ k ∧ (k : Int) ≤ g.order.toInt) ∧
    s.client.lines.filterMap Line.sequence = ks.map fibs
  lossless : s.lost = 0 → s.client.lines.filterMap Line.sequence <+: s.published
  result : ∀ outcome ∈ s.client.lines.filterMap Line.outcome, outcome.Right g s.cancelled
  once : (s.client.lines.filterMap Line.outcome).length ≤ 1
  completed : s.client.goalCompleted = true ↔ ∃ line ∈ s.client.lines, line.final = true
  done : s.client.pc = .done → s.client.goalCompleted = true
  fits : s.refused = 0

/-! ## The worker on its own -/

section
variable {g : Goal} {r r' : Recorded} {s t : Fibonacci.State}

/-- Up to the sending of the result, nothing is sent. -/
theorem work_sends (hwork : work g s = some t) : t.sends = s.sends := by
  unfold work at hwork
  split at hwork
  case h_3 | h_4 =>
    split at hwork <;> cases hwork
    · next hstore =>
      obtain ⟨elems, rfl⟩ := store_eq hstore
      rfl
    · rfl
  case h_6 =>
    split at hwork
    · split at hwork <;> cases hwork
      · next hstore =>
        obtain ⟨elems, rfl⟩ := store_eq hstore
        rfl
      · rfl
    · cases hwork
      rfl
  all_goals (try split at hwork) <;> cases hwork <;> rfl

/-- What has been published and sent stays. -/
theorem recorded_grows {a : Fibonacci.Act} (hstep : (recorded g).step r a = some r') :
    r.published <+: r'.published ∧ r.worker.sends <+: r'.worker.sends := by
  obtain ⟨t, hworker, rfl⟩ := Option.map_eq_some_iff.mp hstep
  refine ⟨List.prefix_append _ _, ?_⟩
  cases a with
  | cancel =>
    cases hworker
    exact List.prefix_rfl
  | work =>
    rw [work_sends hworker]
  | sendResult ok =>
    simp only [Fibonacci.step, sendResult] at hworker
    split at hworker
    · split at hworker <;> cases hworker
      · exact List.prefix_append _ _
      · exact List.prefix_rfl
    · cases hworker

/-- What is known of the goal and of its result at each place, whatever the worker's pointer is. -/
def Answers (g : Goal) (s : Fibonacci.State) : Pc → Prop
  | .start => s.response.size = 0
  | .malloc | .first | .second | .test _ | .body _ | .publish _ | .check =>
    2 ≤ g.order.toInt ∧ s.response.size = 0
  | .send .aborted => g.order.toInt < 2 ∧ s.response.size = 0
  | .send .canceled => 2 ≤ g.order.toInt ∧ s.cancelled = true ∧ s.response.size = 0
  | .send .succeeded | .free | .exited | .badAccess => True

/-- The results of a worker are as their states say, and one of them is sent for good. -/
structure SentOk (g : Goal) (s : Fibonacci.State) : Prop where
  at_ : Answers g s s.pc
  sent : ∀ x ∈ s.sends, x.state ≠ .succeeded →
    x.result = [] ∧ (outcome x.state x.result).Right g s.cancelled
  once : s.sends.countP Sent.ok = s.pc.sent

theorem start_sentOk : SentOk g (.start g) := ⟨rfl, fun _ hx => (by cases hx), rfl⟩

/-- The worker goes on to a place that fits its goal, and sends nothing for good on its own. -/
theorem work_answers (h : Answers g s s.pc) (hwork : work g s = some t) :
    Answers g t t.pc ∧ t.pc.sent = s.pc.sent := by
  cases hpc : s.pc with
  | start =>
    rw [hpc] at h
    simp only [work, hpc] at hwork
    cases hwork
    by_cases hsmall : g.order.toInt < 2
    · rw [if_pos hsmall]
      exact ⟨⟨hsmall, h⟩, rfl⟩
    · rw [if_neg hsmall]
      exact ⟨⟨not_lt.mp hsmall, h⟩, rfl⟩
  | malloc =>
    rw [hpc] at h
    simp only [work, hpc] at hwork
    cases hwork
    exact ⟨h, rfl⟩
  | first | second =>
    rw [hpc] at h
    simp only [work, hpc] at hwork
    split at hwork <;> cases hwork
    · next hstore =>
      obtain ⟨elems, rfl⟩ := store_eq hstore
      exact ⟨h, rfl⟩
    · exact ⟨trivial, rfl⟩
  | test i =>
    rw [hpc] at h
    simp only [work, hpc] at hwork
    cases hwork
    dsimp only
    split <;> exact ⟨h, rfl⟩
  | body i =>
    rw [hpc] at h
    simp only [work, hpc] at hwork
    split at hwork
    · split at hwork <;> cases hwork
      · next hstore =>
        obtain ⟨elems, rfl⟩ := store_eq hstore
        exact ⟨h, rfl⟩
      · exact ⟨trivial, rfl⟩
    · cases hwork
      exact ⟨trivial, rfl⟩
  | publish i =>
    rw [hpc] at h
    simp only [work, hpc] at hwork
    split at hwork <;> cases hwork
    · exact ⟨h, rfl⟩
    · exact ⟨trivial, rfl⟩
  | check =>
    rw [hpc] at h
    simp only [work, hpc] at hwork
    split at hwork <;> cases hwork
    · next hflag => exact ⟨⟨h.1, hflag, h.2⟩, rfl⟩
    · exact ⟨trivial, rfl⟩
  | free =>
    simp only [work, hpc] at hwork
    cases hwork
    exact ⟨trivial, rfl⟩
  | send goalState | exited | badAccess =>
    simp only [work, hpc] at hwork
    cases hwork

/-- A result other than a succeeded one is empty. -/
theorem sendResult_sentOk {ok : Bool} (h : SentOk g s) (hsend : sendResult s ok = some t) : SentOk g t := by
  obtain ⟨hat, hsent, honce⟩ := h
  unfold sendResult at hsend
  split at hsend
  · next goalState hpc =>
    rw [hpc] at hat honce
    split at hsend <;> cases hsend
    · next result hread =>
      have hempty (hzero : s.response.size = 0) : result = [] := by
        rw [Fibonacci.State.read, if_pos hzero] at hread
        exact (Option.some.inj hread).symm
      refine ⟨?_, forall_mem_grown.mpr ⟨hsent, fun hstate => ?_⟩, ?_⟩
      · cases ok
        · exact hat
        · trivial
      · cases goalState with
        | succeeded => exact absurd rfl hstate
        | canceled => exact ⟨hempty hat.2.2, hat.1, hat.2.1⟩
        | aborted => exact ⟨hempty hat.2, hat.1⟩
      · rw [List.countP_append, honce]
        cases ok <;> rfl
    · exact ⟨trivial, hsent, honce⟩
  · cases hsend

theorem step_sentOk {a : Fibonacci.Act} (h : SentOk g s) (hstep : Fibonacci.step g s a = some t) :
    SentOk g t := by
  cases a with
  | cancel =>
    cases hstep
    refine ⟨?_, fun x hx hstate => ?_, h.once⟩
    · have hat := h.at_
      dsimp only
      cases hpc : s.pc with
      | send goalState =>
        rw [hpc] at hat
        cases goalState with
        | canceled => exact ⟨hat.1, rfl, hat.2.2⟩
        | aborted | succeeded => exact hat
      | _ =>
        rw [hpc] at hat
        exact hat
    · obtain ⟨hempty, hright⟩ := h.sent x hx hstate
      refine ⟨hempty, ?_⟩
      cases hcase : x.state with
      | succeeded => exact absurd hcase hstate
      | canceled | aborted =>
        rw [hcase] at hright
        first | exact hright | exact ⟨hright.1, rfl⟩
  | work =>
    obtain ⟨hat, hcount⟩ := work_answers h.at_ hstep
    refine ⟨hat, fun x hx hstate => ?_, ?_⟩
    · rw [work_sends hstep] at hx
      rw [work_cancelled hstep]
      exact h.sent x hx hstate
    · rw [work_sends hstep, hcount]
      exact h.once
  | sendResult ok => exact sendResult_sentOk h hstep

/-- What is known of every state of a worker. -/
theorem reach_sentOk (hreach : (recorded g).Reach ⟨.start g, []⟩ r) : SentOk g r.worker :=
  hreach.invariant (fun r => SentOk g r.worker) start_sentOk fun _ _ _ h _ hstep => by
    obtain ⟨t, hworker, rfl⟩ := Option.map_eq_some_iff.mp hstep
    exact step_sentOk h hworker

/-- The bound on what a worker computes: its order, or the two elements it begins with. -/
def bound (g : Goal) : Nat := max 2 g.order.toInt.toNat

theorem bound_le (haccept : g.order.toInt ≤ 200) : bound g ≤ 200 := by
  unfold bound
  omega

theorem reach_bound (hreach : (recorded g).Reach ⟨.start g, []⟩ r) : Kept g (bound g) r :=
  reach_kept (by unfold bound; omega) (by unfold bound; omega) hreach

/-- The messages of a worker. -/
theorem reach_published (hreach : (recorded g).Reach ⟨.start g, []⟩ r) :
    ∃ n, r.published = messages n ∧ n + 2 ≤ bound g := by
  obtain ⟨n, hpublished, hn, _⟩ := (reach_bound hreach).published
  exact ⟨n, hpublished, hn⟩

/-- The results of a worker: each fits the client's sequence, and is as its state says. -/
theorem reach_sent (hreach : (recorded g).Reach ⟨.start g, []⟩ r) {x : Sent} (hx : x ∈ r.worker.sends) :
    x.result.length ≤ bound g ∧ (outcome x.state x.result).Right g r.worker.cancelled := by
  by_cases hstate : x.state = .succeeded
  · obtain ⟨horder, hresult, hle⟩ := (reach_bound hreach).succeeded x hx hstate
    rw [hstate, hresult, fibs_length]
    exact ⟨hle, horder, rfl⟩
  · obtain ⟨hempty, hright⟩ := (reach_sentOk hreach).sent x hx hstate
    refine ⟨?_, hright⟩
    rw [hempty]
    exact Nat.zero_le _

/-- One result is sent for good, at most. -/
theorem reach_once (hreach : (recorded g).Reach ⟨.start g, []⟩ r) :
    (r.worker.sends.filter Sent.ok).length ≤ 1 := by
  rw [← List.countP_eq_length_filter, (reach_sentOk hreach).once]
  cases r.worker.pc <;> exact Nat.le_of_ble_eq_true rfl

end

/-! ## Every step -/

/-- A callback has printed one line, and completed the goal if that is what the line says. -/
structure Prints (line : Line) (c c' : Client) : Prop where
  pc : c'.pc = c.pc
  lines : c'.lines = c.lines ++ [line]
  goalCompleted : c'.goalCompleted = (c.goalCompleted || line.final)

theorem goalRequestCallback_prints (order : BitVec 32) (accepted : Bool) (c : Client) :
    Prints (.goalRequest order accepted) c (goalRequestCallback order accepted c) := by
  cases accepted with
  | true => exact ⟨rfl, rfl, (Bool.or_false _).symm⟩
  | false => exact ⟨rfl, rfl, (Bool.or_true _).symm⟩

theorem feedbackCallback_prints (order : BitVec 32) (sequence : List (BitVec 32)) (c : Client) :
    Prints (.feedback order sequence) c (feedbackCallback order sequence c) :=
  ⟨rfl, rfl, (Bool.or_false _).symm⟩

theorem resultRequestCallback_prints (order : BitVec 32) (status : GoalState)
    (sequence : List (BitVec 32)) (c : Client) :
    Prints (.result order (outcome status sequence)) c (resultRequestCallback order status sequence c) :=
  ⟨rfl, rfl, (Bool.or_true _).symm⟩

/-- What a client keeps whatever is delivered to it. -/
structure ClientOk (g : Goal) (c : Client) : Prop where
  order : ∀ line ∈ c.lines, line.order = g.order
  completed : c.goalCompleted = true ↔ ∃ line ∈ c.lines, line.final = true
  done : c.pc = .done → c.goalCompleted = true

/-- The invariant of the two programs, with one clause for each link. -/
structure Inv (g : Goal) (s : State) : Prop where
  client : ClientOk g s.client
  idle : s.client.pc = .sendGoal → s.request = false ∧ s.worker = none
  request : s.request = true → s.worker = none
  response : ∀ accepted, s.response = some accepted → (accepted = true ↔ g.order.toInt ≤ 200)
  answer : ∀ accepted, .goalRequest g.order accepted ∈ s.client.lines →
    (accepted = true ↔ g.order.toInt ≤ 200)
  worker : ∀ r, s.worker = some r → (recorded g).Reach ⟨.start g, []⟩ r ∧ g.order.toInt ≤ 200
  feedbacks : s.feedbacks ≤ s.published.length
  results : s.results ≤ s.sent.length
  sequences : Carried s.lost (s.published.take s.feedbacks) (s.client.lines.filterMap Line.sequence)
  outcomes : Carried s.lost ((s.sent.take s.results).map fun x => outcome x.state x.result)
    (s.client.lines.filterMap Line.outcome)
  fits : s.refused = 0

section
variable {g : Goal} {s t : State} {c c' : Client} {line : Line}

theorem Prints.sequences (h : Prints line c c') :
    c'.lines.filterMap Line.sequence = c.lines.filterMap Line.sequence ++ line.sequence.toList := by
  rw [h.lines, List.filterMap_append, List.filterMap_cons, List.filterMap_nil]
  cases line.sequence <;> rfl

theorem Prints.outcomes (h : Prints line c c') :
    c'.lines.filterMap Line.outcome = c.lines.filterMap Line.outcome ++ line.outcome.toList := by
  rw [h.lines, List.filterMap_append, List.filterMap_cons, List.filterMap_nil]
  cases line.outcome <;> rfl

theorem ClientOk.prints (h : ClientOk g c) (hprints : Prints line c c') (horder : line.order = g.order) :
    ClientOk g c' := by
  obtain ⟨hpc, hlines, hcompleted⟩ := hprints
  refine ⟨?_, ?_, fun hdone => ?_⟩
  · rw [hlines]
    exact forall_mem_grown.mpr ⟨h.order, horder⟩
  · rw [hlines, hcompleted, Bool.or_eq_true, h.completed]
    simp only [List.mem_append, List.mem_singleton, or_and_right, exists_or, exists_eq_left]
  · rw [hcompleted, h.done (hpc ▸ hdone)]
    rfl

/-- A message that fits comes to its callback, or is lost. -/
theorem deliver_cases {keep : Bool} {size : Nat} {callback : Client → Client}
    (hsize : size ≤ maxFibonacciOrder) (h : s.deliver keep size callback = some t) :
    (s.client.pc = .spin ∧ t = { s with client := callback s.client }) ∨
      t = { s with lost := s.lost + 1 } := by
  unfold State.deliver at h
  split at h
  · split at h
    · next hspin =>
      cases h
      exact .inl ⟨hspin, rfl⟩
    · cases h
  · cases h
    exact .inr rfl

/-- The client goes on by itself. -/
theorem Inv.moved (h : Inv g s) {pc : ClientPc} {request : Bool} (hpc : pc ≠ .sendGoal)
    (hrequest : request = true → s.worker = none) (hdone : pc = .done → s.client.goalCompleted = true) :
    Inv g { s with client := { s.client with pc := pc }, request := request } :=
  { h with
    client := ⟨h.client.order, h.client.completed, hdone⟩
    idle := fun hidle => absurd hidle hpc
    request := hrequest }

/-- Something is lost that nobody has a history of. -/
theorem Inv.lose (h : Inv g s) : Inv g { s with lost := s.lost + 1 } :=
  { h with sequences := h.sequences.succ, outcomes := h.outcomes.succ }

/-- The server answers the goal, and starts a worker if it accepts it. -/
theorem Inv.handled (h : Inv g s) (hrequest : s.request = true)
    (hstep : step g s .handleGoal = some t) : Inv g t := by
  have hworker := h.request hrequest
  have hpublished : s.published = [] := by rw [State.published, hworker]
  have hsent : s.sent = [] := by rw [State.sent, hworker]
  have hfeedbacks := h.feedbacks
  have hresults := h.results
  have hsequences := h.sequences
  have houtcomes := h.outcomes
  rw [hpublished] at hfeedbacks hsequences
  rw [hsent] at hresults houtcomes
  simp only [step, if_pos hrequest] at hstep
  split at hstep
  · next hreject =>
    cases hstep
    have horder : 200 < g.order.toInt := by
      by_contra hle
      rw [handleGoal, if_neg hle] at hreject
      cases hreject
    refine { h with
      idle := fun hpc => ⟨rfl, hworker⟩, request := fun hno => (by cases hno), response := ?_ }
    intro accepted haccepted
    cases haccepted
    exact ⟨fun hno => (by cases hno), fun hle => by omega⟩
  · next worker haccept =>
    cases hstep
    have horder : g.order.toInt ≤ 200 := by
      by_contra hlt
      rw [handleGoal, if_pos (by omega)] at haccept
      cases haccept
    cases handleGoal_eq haccept
    refine { h with
      idle := fun hpc => ?_, request := fun hno => (by cases hno), response := ?_, worker := ?_
      feedbacks := hfeedbacks, results := hresults, sequences := hsequences, outcomes := houtcomes }
    · have hidle := (h.idle hpc).1
      rw [hrequest] at hidle
      cases hidle
    · intro accepted haccepted
      cases haccepted
      exact ⟨fun _ => horder, fun _ => rfl⟩
    · intro r hr
      cases hr
      exact ⟨.refl, horder⟩

/-- The worker goes on, and what it has published and sent stays. -/
theorem Inv.worked (h : Inv g s) {a : Fibonacci.Act} {r r' : Recorded} (hr : s.worker = some r)
    (hstep : (recorded g).step r a = some r') : Inv g { s with worker := some r' } := by
  obtain ⟨hreach, horder⟩ := h.worker r hr
  obtain ⟨hpublished, hsends⟩ := recorded_grows hstep
  have hsent := hsends.filter Sent.ok
  have hfeedbacks := h.feedbacks
  have hresults := h.results
  have hsequences := h.sequences
  have houtcomes := h.outcomes
  rw [State.published_of hr] at hfeedbacks hsequences
  rw [State.sent_of hr] at hresults houtcomes
  refine { h with
    idle := fun hpc => ?_, request := fun hrequest => ?_, worker := ?_
    feedbacks := hfeedbacks.trans hpublished.length_le
    results := hresults.trans hsent.length_le, sequences := ?_, outcomes := ?_ }
  · have hnone := (h.idle hpc).2
    rw [hr] at hnone
    cases hnone
  · have hnone := h.request hrequest
    rw [hr] at hnone
    cases hnone
  · intro r'' hr''
    cases hr''
    exact ⟨hreach.step trivial hstep, horder⟩
  · obtain ⟨more, hmore⟩ := hpublished
    show Carried s.lost (r'.published.take s.feedbacks) _
    rw [← hmore, List.take_append_of_le_length hfeedbacks]
    exact hsequences
  · obtain ⟨more, hmore⟩ := hsent
    show Carried s.lost (((r'.worker.sends.filter Sent.ok).take s.results).map _) _
    rw [← hmore, List.take_append_of_le_length hresults]
    exact houtcomes

/-- The answer of the server comes to the client, or is lost. -/
theorem Inv.answered (h : Inv g s) {keep : Bool} (hstep : step g s (.goalResponse keep) = some t) :
    Inv g t := by
  simp only [step] at hstep
  split at hstep
  · cases hstep
  · next accepted hresponse =>
    have hnone : Inv g { s with response := none } := { h with response := fun _ hno => (by cases hno) }
    rcases deliver_cases (Nat.zero_le _) hstep with ⟨hspin, rfl⟩ | rfl
    · have hprints := goalRequestCallback_prints g.order accepted s.client
      have hlines := hprints.lines
      refine { hnone with
        client := h.client.prints hprints rfl, idle := fun hpc => ?_, answer := ?_
        sequences := ?_, outcomes := ?_ }
      · have hno := hprints.pc.symm.trans hpc
        rw [hspin] at hno
        cases hno
      · dsimp only
        rw [hlines]
        intro accepted' hmem
        rcases List.mem_append.mp hmem with hold | hnew
        · exact h.answer accepted' hold
        · cases List.mem_singleton.mp hnew
          exact h.response accepted hresponse
      · dsimp only
        rw [hprints.sequences]
        exact (List.append_nil _).symm ▸ h.sequences
      · dsimp only
        rw [hprints.outcomes]
        exact (List.append_nil _).symm ▸ h.outcomes
    · exact hnone.lose

/-- A feedback message comes to the client, or is lost. -/
theorem Inv.fed (h : Inv g s) {keep : Bool} (hstep : step g s (.feedback keep) = some t) : Inv g t := by
  simp only [step] at hstep
  split at hstep
  · cases hstep
  · next sequence hnext =>
    have hlt := (List.getElem?_eq_some_iff.mp hnext).1
    have htake : s.published.take (s.feedbacks + 1) = s.published.take s.feedbacks ++ [sequence] := by
      rw [List.take_add_one, hnext]
      rfl
    have hfit : sequence.length ≤ maxFibonacciOrder := by
      cases hr : s.worker with
      | none =>
        rw [State.published, hr] at hnext
        cases hnext
      | some r =>
        obtain ⟨hreach, horder⟩ := h.worker r hr
        obtain ⟨n, hpublished, hn⟩ := reach_published hreach
        rw [State.published_of hr, hpublished] at hnext
        obtain ⟨k, hk, rfl⟩ := List.mem_map.mp (List.mem_of_getElem? hnext)
        have hkn := List.mem_range.mp hk
        have := bound_le horder
        rw [fibs_length, maxFibonacciOrder]
        omega
    rcases deliver_cases hfit hstep with ⟨hspin, rfl⟩ | rfl
    · have hprints := feedbackCallback_prints g.order sequence s.client
      refine { h with
        client := h.client.prints hprints rfl
        idle := fun hpc => ?_, answer := fun accepted hmem => ?_
        feedbacks := hlt, sequences := ?_, outcomes := ?_ }
      · have hno := hprints.pc.symm.trans hpc
        rw [hspin] at hno
        cases hno
      · rcases List.mem_append.mp hmem with hold | hnew
        · exact h.answer accepted hold
        · cases List.mem_singleton.mp hnew
      · show Carried s.lost (s.published.take (s.feedbacks + 1)) _
        rw [htake, hprints.sequences]
        exact h.sequences.carry sequence
      · dsimp only
        rw [hprints.outcomes]
        exact (List.append_nil _).symm ▸ h.outcomes
    · refine { h with feedbacks := hlt, sequences := ?_, outcomes := h.outcomes.succ }
      show Carried (s.lost + 1) (s.published.take (s.feedbacks + 1)) _
      rw [htake]
      exact h.sequences.lose sequence

/-- The result comes to the client, or is lost. -/
theorem Inv.resulted (h : Inv g s) {keep : Bool}
    (hstep : step g s (.result keep) = some t) : Inv g t := by
  simp only [step] at hstep
  split at hstep
  · cases hstep
  · next x hnext =>
    have hlt := (List.getElem?_eq_some_iff.mp hnext).1
    have htake : (s.sent.take (s.results + 1)).map (fun x => outcome x.state x.result) =
        (s.sent.take s.results).map (fun x => outcome x.state x.result) ++ [outcome x.state x.result] := by
      rw [List.take_add_one, hnext, List.map_append]
      rfl
    have hfit : x.result.length ≤ maxFibonacciOrder := by
      cases hr : s.worker with
      | none =>
        rw [State.sent, hr] at hnext
        cases hnext
      | some r =>
        obtain ⟨hreach, horder⟩ := h.worker r hr
        rw [State.sent_of hr] at hnext
        have hx := (List.mem_filter.mp (List.mem_of_getElem? hnext)).1
        have := (reach_sent hreach hx).1
        have := bound_le horder
        unfold maxFibonacciOrder
        omega
    rcases deliver_cases hfit hstep with ⟨hspin, rfl⟩ | rfl
    · have hprints := resultRequestCallback_prints g.order x.state x.result s.client
      refine { h with
        client := h.client.prints hprints rfl
        idle := fun hpc => ?_, answer := fun accepted hmem => ?_
        results := hlt, sequences := ?_, outcomes := ?_ }
      · have hno := hprints.pc.symm.trans hpc
        rw [hspin] at hno
        cases hno
      · rcases List.mem_append.mp hmem with hold | hnew
        · exact h.answer accepted hold
        · cases List.mem_singleton.mp hnew
      · dsimp only
        rw [hprints.sequences]
        exact (List.append_nil _).symm ▸ h.sequences
      · show Carried s.lost ((s.sent.take (s.results + 1)).map fun x => outcome x.state x.result) _
        rw [htake, hprints.outcomes]
        exact h.outcomes.carry _
    · refine { h with results := hlt, sequences := h.sequences.succ, outcomes := ?_ }
      show Carried (s.lost + 1) ((s.sent.take (s.results + 1)).map fun x => outcome x.state x.result) _
      rw [htake]
      exact h.outcomes.lose _

/-- Every step keeps the invariant. -/
theorem client_step_inv (h : Inv g s) {a : Act} (hstep : step g s a = some t) :
    Inv g t := by
  cases a with
  | goalResponse keep => exact h.answered hstep
  | feedback keep => exact h.fed hstep
  | result keep => exact h.resulted hstep
  | sendGoal ok =>
    simp only [step] at hstep
    split at hstep
    · next hpc =>
      obtain ⟨_, hnone⟩ := h.idle hpc
      split at hstep <;> cases hstep
      · exact h.moved (fun hno => (by cases hno)) (fun _ => hnone) fun hno => (by cases hno)
      · exact h.moved (fun hno => (by cases hno)) h.request fun hno => (by cases hno)
    · cases hstep
  | spin =>
    simp only [step] at hstep
    split at hstep
    · split at hstep <;> cases hstep
      exact h.moved (fun hno => (by cases hno)) h.request fun hno => (by cases hno)
    · cases hstep
  | endSpin =>
    simp only [step] at hstep
    split at hstep <;> cases hstep
    exact h.moved (fun hno => (by cases hno)) h.request fun hno => (by cases hno)
  | leave =>
    simp only [step] at hstep
    split at hstep
    · split at hstep <;> cases hstep
      next hcompleted =>
      exact h.moved (fun hno => (by cases hno)) h.request fun _ => hcompleted
    · cases hstep
  | loseRequest =>
    simp only [step] at hstep
    split at hstep <;> cases hstep
    refine { h.lose with idle := fun hpc => ⟨rfl, (h.idle hpc).2⟩, request := fun hno => (by cases hno) }
  | handleGoal =>
    by_cases hrequest : s.request = true
    · exact h.handled hrequest hstep
    · simp only [step, if_neg hrequest] at hstep
      cases hstep
  | worker a =>
    simp only [step] at hstep
    split at hstep
    · cases hstep
    · next r hr =>
      obtain ⟨r', hr', rfl⟩ := Option.map_eq_some_iff.mp hstep
      exact h.worked hr hr'

theorem client_start_inv : Inv g .start where
  client := ⟨fun _ hmem => (by cases hmem),
    ⟨fun hno => (by cases hno), fun ⟨_, hmem, _⟩ => (by cases hmem)⟩,
    fun hno => (by cases hno)⟩
  idle := fun _ => ⟨rfl, rfl⟩
  request := fun _ => rfl
  response := fun _ hno => (by cases hno)
  answer := fun _ hmem => (by cases hmem)
  worker := fun _ hno => (by cases hno)
  feedbacks := Nat.le_refl 0
  results := Nat.le_refl 0
  sequences := carried_nil
  outcomes := carried_nil
  fits := rfl

/-! ## What the client sees -/

/-- Of the worker's messages, those that the client has printed. -/
theorem Inv.feedback (h : Inv g s) :
    ∃ ks : List Nat, ks.Pairwise (· < ·) ∧ (∀ k ∈ ks, 3 ≤ k ∧ (k : Int) ≤ g.order.toInt) ∧
      s.client.lines.filterMap Line.sequence = ks.map fibs := by
  have hsub := h.sequences.sublist.trans (List.take_sublist _ _)
  cases hr : s.worker with
  | none =>
    rw [State.published, hr] at hsub
    exact ⟨[], .nil, fun _ hmem => (by cases hmem), List.sublist_nil.mp hsub⟩
  | some r =>
    obtain ⟨n, hpublished, hn⟩ := reach_published (h.worker r hr).1
    rw [State.published_of hr, hpublished, messages] at hsub
    obtain ⟨js, hjs, heq⟩ := List.sublist_map_iff.mp hsub
    refine ⟨js.map (· + 3), ?_, fun k hk => ?_, ?_⟩
    · exact (List.pairwise_lt_range.sublist hjs).map _ fun _ _ hlt => Nat.add_lt_add_right hlt 3
    · obtain ⟨j, hj, rfl⟩ := List.mem_map.mp hk
      have hjn := List.mem_range.mp (hjs.subset hj)
      unfold bound at hn
      omega
    · rw [heq, List.map_map]
      rfl

theorem Inv.agrees (h : Inv g s) : Agrees g s where
  order := h.client.order
  answer := h.answer
  feedback := h.feedback
  lossless hzero := by
    rw [h.sequences.lossless hzero]
    exact List.take_prefix _ _
  result line hline := by
    obtain ⟨x, hx, rfl⟩ := List.mem_map.mp (h.outcomes.sublist.subset hline)
    have hmem := List.mem_of_mem_take hx
    cases hr : s.worker with
    | none =>
      rw [State.sent, hr] at hmem
      cases hmem
    | some r =>
      rw [State.sent_of hr] at hmem
      rw [State.cancelled, hr]
      exact (reach_sent (h.worker r hr).1 (List.mem_filter.mp hmem).1).2
  once := by
    have hle := h.outcomes.sublist.length_le
    rw [List.length_map, List.length_take] at hle
    cases hr : s.worker with
    | none =>
      rw [State.sent, hr] at hle
      simp only [List.length_nil] at hle
      omega
    | some r =>
      have honce := reach_once (h.worker r hr).1
      rw [State.sent_of hr] at hle
      omega
  completed := h.client.completed
  done := h.client.done
  fits := h.fits

/-- **The client sees what became of its goal.** For every goal, whatever `malloc` gives its
worker and whatever its uninitialised pointer holds, in every interleaving of the client, the
server, its worker and somebody who cancels, and whatever the links lose: each feedback line is
a longer beginning of the Fibonacci sequence than the one before, no longer than the order, and
none is left out before the last as long as nothing was lost; there is at most one result, which
is the whole sequence, or says rightly that the goal was cancelled or aborted; the goal counts
as completed just when it was rejected or has its result; the loop is left only then; and
every message fits the client's sequences. What a worker that frees a pointer which is not its
own does to its server after that is left out. -/
theorem client_agrees (hreach : (machine g).Reach .start s) : Agrees g s :=
  (hreach.invariant (Inv g) client_start_inv fun _ _ _ h _ hstep => client_step_inv h hstep).agrees

/-- A goal of order 5: its first feedback is lost, the others arrive, and its result. -/
theorem client_agrees_five :
    ∃ s, (machine goalFive).Reach .start s ∧ s.client.pc = .done ∧
      s.client.lines = [.goalRequest 5 true, .feedback 5 [0, 1, 1, 2], .feedback 5 [0, 1, 1, 2, 3],
        .result 5 (.numbers [0, 1, 1, 2, 3])] ∧ Agrees goalFive s := by
  obtain ⟨s, hreach, hdone, hlines⟩ := (machine goalFive).exists_reach
    (P := fun s => s.client.pc = .done ∧
      s.client.lines = [.goalRequest 5 true, .feedback 5 [0, 1, 1, 2], .feedback 5 [0, 1, 1, 2, 3],
        .result 5 (.numbers [0, 1, 1, 2, 3])])
    (s := .start)
    ([.sendGoal true, .handleGoal, .spin, .goalResponse true] ++
      List.replicate 15 (.worker .work) ++ [.worker (.sendResult true), .feedback false,
        .feedback true, .feedback true, .endSpin, .spin, .result true, .endSpin, .leave])
    (by decide +kernel)
  exact ⟨s, hreach, hdone, hlines, client_agrees hreach⟩

end

end MicroRosDemos.Rclc.FibonacciClient
