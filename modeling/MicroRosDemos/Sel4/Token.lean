import MicroRosDemos.Sel4.Send

/-!
# One message at a time

The guest may write its ready page again and again: `ready_signal_handler` notifies
`CHAN_READY` once. That notification is a token. ping_pong holds it while it
initialises and while it publishes, and in between it is the message on its way,
which the agent delivers or loses (`Inv.count`). So pings and pongs take turns at
`seqNum`, though each callback reads the same counter (`token_unique`).
-/

namespace MicroRosDemos.Sel4.Token

open MicroRosDemos.Lib MicroRosDemos.Sel4.Boot MicroRosDemos.Sel4.Send

/-- The VMM's signals and ping_pong's handler, what the handler publishes from, the
messages that are published and neither delivered nor lost, and how often the
`CHAN_READY` branch was entered. -/
structure State where
  boot : Boot.State
  sender : Send.State
  flight : List Passed
  readyRuns : Nat

/-- What happens next: something in the VMM or the handler, or the agent delivers or
loses one of the messages on their way. -/
inductive Act
  | handler (a : Boot.Act)
  | deliver (i : Nat)
  | lose (i : Nat)

/-- The callback of a subscription: `send_pong` for a ping, `send_ping` for a pong. -/
def answer : Topic → Topic
  | .ping => .pong
  | .pong => .ping

variable (outcome : InitStep → Bool)

/-- A step in the VMM or the handler. The executor calls a subscription back for a
message only, so not here. -/
def handlerStep (s : State) : Boot.Act → Option State
  | .callback _ => none
  | .take .ready =>
    (Boot.step outcome s.boot (.take .ready)).map fun boot =>
      { s with boot, readyRuns := s.readyRuns + 1 }
  | .published ok =>
    match s.boot.pc with
    | .publish topic _ =>
      (Boot.step outcome s.boot (.published ok)).map fun boot =>
        { s with
          boot, sender := sendImpl s.sender topic ok
          flight := if ok then s.flight ++ [sent s.sender topic] else s.flight }
    | _ => none
  | a => (Boot.step outcome s.boot a).map fun boot => { s with boot }

/-- The VMM, the handler and the agent, in every order. -/
def step (s : State) : Act → Option State
  | .handler a => handlerStep outcome s a
  | .deliver i =>
    match s.flight[i]? with
    | some p =>
      (Boot.step outcome s.boot (.callback (answer p.topic))).map fun boot =>
        { s with boot, flight := s.flight.eraseIdx i }
    | none => none
  | .lose i => if i < s.flight.length then some { s with flight := s.flight.eraseIdx i } else none

/-- The machine of the messages. -/
def machine : Machine State Act := ⟨step outcome⟩

/-- Nothing signalled, nothing published, `seqNum` zero. -/
def State.start (mem : Mem) (outgoing : Topic → Header) : State :=
  ⟨.start, .start mem outgoing 0, [], 0⟩

/-- Whose turn it is when `seqNum` is `k`. -/
def turn (k : Nat) : Topic := if k % 2 = 0 then .ping else .pong

theorem answer_turn (k : Nat) : answer (turn k) = turn (k + 1) := by
  rcases Nat.mod_two_eq_zero_or_one k with h | h
  · rw [turn, turn, if_pos h, if_neg (by omega)]
    rfl
  · rw [turn, turn, if_neg (by omega), if_pos (by omega)]
    rfl

/-! ## The token -/

/-- The token before the first message: not yet signalled, signalled and not taken. -/
def signals (boot : Boot.State) : Nat :=
  (!boot.readySignalSent).toNat + (boot.pending .ready).toNat

/-- The token in ping_pong: initialising, or about to publish. -/
def held : Pc → Nat
  | .transportInit _ | .publish _ _ => 1
  | .idle | .empty | .spin | .exited => 0

/-- ping_pong has not come to its first message. -/
def Early (boot : Boot.State) : Prop :=
  boot.readySignalSent = false ∨ boot.pending .ready = true ∨ ∃ rest, boot.pc = .transportInit rest

/-- One token, in the signal, in ping_pong or in flight, and it is the turn of
whoever it will make publish. -/
structure Inv (mem : Mem) (outgoing : Topic → Header) (s : State) : Prop where
  count : signals s.boot + held s.boot.pc + s.flight.length ≤ 1
  runs : s.readyRuns + signals s.boot ≤ 1
  sender : Send.Inv (.start mem outgoing 0) s.sender
  exited : s.sender.exited = true → s.boot.pc = .exited
  early : Early s.boot → s.sender.passed = []
  publish : ∀ topic inSpin, s.boot.pc = .publish topic inSpin → topic = turn s.sender.passed.length
  flight : ∀ p ∈ s.flight, answer p.topic = turn s.sender.passed.length
  topics : ∀ i p, s.sender.passed[i]? = some p → p.topic = turn i

variable {mem : Mem} {outgoing : Topic → Header} {s t : State}

theorem start_inv : Inv mem outgoing (.start mem outgoing) := by
  refine ⟨Nat.le_refl 1, Nat.le_refl 1, ?_, ?_, fun _ => rfl, ?_, ?_, ?_⟩
  · exact Send.run_inv .refl
  · intro h
    cases h
  · intro topic inSpin h
    cases h
  · intro p h
    cases h
  · intro i p h
    cases h

theorem signals_eq_zero {boot : Boot.State} :
    signals boot = 0 ↔ boot.readySignalSent = true ∧ boot.pending .ready = false := by
  unfold signals
  cases boot.readySignalSent <;> cases boot.pending .ready <;> decide

/-- The token is in the signal or in ping_pong until the first message. -/
theorem Early.token {boot : Boot.State} (h : Early boot) : 1 ≤ signals boot + held boot.pc := by
  unfold signals
  rcases h with hunsent | hwaiting | ⟨rest, hpc⟩
  · rw [hunsent, Bool.not_false, Bool.toNat_true]
    omega
  · rw [hwaiting, Bool.toNat_true]
    omega
  · rw [hpc, held]
    omega

/-- A step that neither publishes nor touches a message keeps the invariant, when it
moves the token from place to place. -/
theorem Inv.move (h : Inv mem outgoing s) {boot : Boot.State} {runs : Nat}
    (hcount : signals boot + held boot.pc ≤ signals s.boot + held s.boot.pc)
    (hruns : runs + signals boot ≤ s.readyRuns + signals s.boot)
    (hexited : s.boot.pc = .exited → boot.pc = .exited) (hearly : Early boot → Early s.boot)
    (hpublish : ∀ topic inSpin, boot.pc = .publish topic inSpin →
      s.boot.pc = .publish topic inSpin ∨ topic = .ping ∧ Early s.boot) :
    Inv mem outgoing { s with boot, readyRuns := runs } := by
  refine ⟨?_, ?_, h.sender, fun hs => hexited (h.exited hs), fun he => h.early (hearly he), ?_,
    h.flight, h.topics⟩
  · have := h.count
    dsimp only
    omega
  · have := h.runs
    dsimp only
    omega
  · intro topic inSpin hpc
    rcases hpublish topic inSpin hpc with hold | ⟨rfl, he⟩
    · exact h.publish topic inSpin hold
    · dsimp only
      rw [h.early he]
      rfl

/-- ping_pong goes on in its handler, and the signal stays as it is. -/
theorem Inv.goOn (h : Inv mem outgoing s) {boot : Boot.State}
    (hsent : boot.readySignalSent = s.boot.readySignalSent)
    (hpending : boot.pending .ready = s.boot.pending .ready) (hrunning : s.boot.pc ≠ .exited)
    (hheld : held boot.pc ≤ held s.boot.pc)
    (hinit : ∀ rest, boot.pc = .transportInit rest → Early s.boot)
    (hpublish : ∀ topic inSpin, boot.pc = .publish topic inSpin → topic = .ping ∧ Early s.boot) :
    Inv mem outgoing { s with boot } := by
  have hsignals : signals boot = signals s.boot := by
    rw [signals, hsent, hpending, signals]
  refine h.move (by omega) (by omega) (fun hexited => absurd hexited hrunning) ?_
    fun topic inSpin hpc => .inr (hpublish topic inSpin hpc)
  rintro (hunsent | hwaiting | ⟨rest, hpc⟩)
  · exact .inl (hsent.symm.trans hunsent)
  · exact .inr (.inl (hpending.symm.trans hwaiting))
  · exact hinit rest hpc

/-- Steps outside `CHAN_READY`, the callbacks and the publishers. -/
theorem Inv.handler (h : Inv mem outgoing s) {a : Boot.Act} {boot : Boot.State}
    (hcallback : ∀ topic, a ≠ .callback topic) (hpublished : ∀ ok, a ≠ .published ok)
    (hready : a ≠ .take .ready) (hstep : Boot.step outcome s.boot a = some boot) :
    Inv mem outgoing { s with boot } := by
  cases step_move hstep with
  | frame => exact h.move (Nat.le_refl _) (Nat.le_refl _) id id fun _ _ hpc => .inl hpc
  | again write => exact h
  | signal hunsent =>
    have hsignals : signals s.boot = 1 + (s.boot.pending .ready).toNat := by
      rw [signals, hunsent]
      rfl
    refine h.move ?_ ?_ id (fun _ => .inl hunsent) fun _ _ hpc => .inl hpc
    · rw [hsignals]
      exact Nat.add_le_add_right (Nat.le_add_right _ _) _
    · rw [hsignals]
      exact Nat.add_le_add_left (Nat.le_add_right _ _) _
  | ready hpc hpending => exact absurd rfl hready
  | pingPong hpc => exact h.goOn rfl rfl (by simp [hpc]) (Nat.zero_le _) (by simp) (by simp)
  | passed step rest hpc hpass =>
    have hearly : Early s.boot := .inr (.inr ⟨_, hpc⟩)
    exact h.goOn rfl rfl (by simp [hpc]) (by rw [hpc]; rfl) (fun _ _ => hearly) (by simp)
  | failed step rest hpc =>
    exact h.goOn rfl rfl (by simp [hpc]) (Nat.zero_le _) (by simp) (by simp)
  | left step rest hpc _ _ | initialised hpc =>
    -- `send_ping` follows `transport_init`, also when that returned early
    have hearly : Early s.boot := .inr (.inr ⟨_, hpc⟩)
    refine h.goOn rfl rfl (by simp [hpc]) (by rw [hpc]; rfl) (fun _ _ => hearly) ?_
    intro topic inSpin hpublish
    cases hpublish
    exact ⟨rfl, hearly⟩
  | look empty hpc =>
    cases empty <;> exact h.goOn rfl rfl (by simp [hpc]) (Nat.zero_le _) (by simp) (by simp)
  | callback topic hpc => exact absurd rfl (hcallback topic)
  | published topic inSpin ok hpc => exact absurd rfl (hpublished ok)
  | spinDone hpc => exact h.goOn rfl rfl (by simp [hpc]) (Nat.zero_le _) (by simp) (by simp)

/-- The `CHAN_READY` branch is entered: the signal was there, and is taken. -/
theorem Inv.takeReady (h : Inv mem outgoing s) {boot : Boot.State}
    (hstep : Boot.step outcome s.boot (.take .ready) = some boot) :
    Inv mem outgoing { s with boot, readyRuns := s.readyRuns + 1 } := by
  cases step_move hstep with
  | ready hpc hpending =>
    have hsignals : signals s.boot = (!s.boot.readySignalSent).toNat + 1 := by
      rw [signals, hpending]
      rfl
    have hheld : held s.boot.pc = 0 := by
      rw [hpc]
      rfl
    refine h.move ?_ ?_ (by simp [hpc]) (fun _ => .inr (.inl hpending)) (by simp)
    · rw [hsignals, hheld]
      exact Nat.le_refl _
    · rw [hsignals, Nat.add_assoc, Nat.add_comm 1]
      exact Nat.le_refl _

/-- A message leaves the flight, and the callback takes the token over. -/
theorem Inv.deliver (h : Inv mem outgoing s) {i : Nat} {p : Passed} (hp : s.flight[i]? = some p)
    {boot : Boot.State} (hstep : Boot.step outcome s.boot (.callback (answer p.topic)) = some boot) :
    Inv mem outgoing { s with boot, flight := s.flight.eraseIdx i } := by
  have hi := (List.getElem?_eq_some_iff.mp hp).1
  have hmem := List.mem_of_getElem? hp
  cases step_move hstep with
  | callback _ hpc =>
    have hcount := h.count
    have hheld : held s.boot.pc = 0 := by
      rw [hpc]
      rfl
    have hearly : ¬ Early s.boot := fun he => by
      have := he.token
      omega
    refine ⟨?_, h.runs, h.sender, fun hs => ?_, ?_, ?_, ?_, h.topics⟩
    · have hlen := List.length_eraseIdx_of_lt hi
      show signals s.boot + 1 + (s.flight.eraseIdx i).length ≤ 1
      omega
    · cases hpc.symm.trans (h.exited hs)
    · rintro (hunsent | hwaiting | ⟨rest, hinit⟩)
      · exact absurd (.inl hunsent) hearly
      · exact absurd (.inr (.inl hwaiting)) hearly
      · cases hinit
    · intro topic inSpin hpublish
      cases hpublish
      exact h.flight p hmem
    · exact fun q hq => h.flight q (List.mem_of_mem_eraseIdx hq)

/-- A lost message takes the token with it. -/
theorem Inv.lose (h : Inv mem outgoing s) {i : Nat} (hi : i < s.flight.length) :
    Inv mem outgoing { s with flight := s.flight.eraseIdx i } := by
  have hlen := List.length_eraseIdx_of_lt hi
  have hcount := h.count
  refine ⟨?_, h.runs, h.sender, h.exited, h.early, h.publish, ?_, h.topics⟩
  · dsimp only
    omega
  · exact fun q hq => h.flight q (List.mem_of_mem_eraseIdx hq)

/-- ping_pong publishes in its turn, and the message takes the token over. -/
theorem Inv.published (h : Inv mem outgoing s) {topic : Topic} {inSpin ok : Bool}
    (hpc : s.boot.pc = .publish topic inSpin) {boot : Boot.State}
    (hstep : Boot.step outcome s.boot (.published ok) = some boot) :
    Inv mem outgoing { s with
      boot, sender := sendImpl s.sender topic ok
      flight := if ok then s.flight ++ [sent s.sender topic] else s.flight } := by
  have hturn := h.publish topic inSpin hpc
  have hcount := h.count
  have hheld : held s.boot.pc = 1 := by
    rw [hpc]
    rfl
  have hsignals : signals s.boot = 0 := by omega
  have hflight : s.flight = [] := List.eq_nil_of_length_eq_zero (by omega)
  have hrunning : s.sender.exited = false := by
    refine Bool.eq_false_of_not_eq_true fun hexited => ?_
    cases hpc.symm.trans (h.exited hexited)
  have hsender : Send.step s.sender ⟨topic, ok⟩ = some (sendImpl s.sender topic ok) := by
    rw [Send.step, hrunning]
    rfl
  have hpassed := sendImpl_passed s.sender topic ok
  have hlast : turn (sendImpl s.sender topic ok).passed.length = answer topic := by
    rw [hpassed, List.length_append, List.length_singleton, ← answer_turn, ← hturn]
  simp only [Boot.step, hpc] at hstep
  cases hstep
  have hnext : held (if ok then (if inSpin then .spin else .idle) else .exited) = 0 := by
    cases ok <;> cases inSpin <;> rfl
  refine ⟨?_, h.runs, Send.step_inv h.sender hsender, ?_, ?_, ?_, ?_, ?_⟩
  · show signals s.boot + held _ + (if ok then s.flight ++ [sent s.sender topic] else s.flight).length ≤ 1
    rw [hsignals, hnext, hflight]
    cases ok with
    | false => exact Nat.zero_le 1
    | true => exact Nat.le_refl 1
  · cases ok with
    | false => exact fun _ => rfl
    | true =>
      intro hexited
      cases hrunning.symm.trans hexited
  · obtain ⟨hsent, hquiet⟩ := signals_eq_zero.mp hsignals
    rintro (hunsent | hwaiting | ⟨rest, hinit⟩)
    · cases hsent.symm.trans hunsent
    · cases hquiet.symm.trans hwaiting
    · cases ok <;> cases inSpin <;> cases hinit
  · intro t u hpublish
    cases ok <;> cases inSpin <;> cases hpublish
  · intro p hp
    rw [hflight] at hp
    cases ok with
    | false => cases hp
    | true =>
      cases List.mem_singleton.mp hp
      exact hlast.symm
  · intro i p hp
    dsimp only at hp
    rw [hpassed] at hp
    rcases getElem?_grown hp with hold | ⟨rfl, rfl⟩
    · exact h.topics i p hold
    · exact hturn

theorem step_inv {a : Act} (h : Inv mem outgoing s) (hstep : step outcome s a = some t) :
    Inv mem outgoing t := by
  cases a with
  | handler a =>
    simp only [step] at hstep
    unfold handlerStep at hstep
    split at hstep
    · cases hstep
    · obtain ⟨boot, hboot, rfl⟩ := Option.map_eq_some_iff.mp hstep
      exact h.takeReady outcome hboot
    · split at hstep
      · next hpc =>
        obtain ⟨boot, hboot, rfl⟩ := Option.map_eq_some_iff.mp hstep
        exact h.published outcome hpc hboot
      · cases hstep
    · next hcallback hready hpublished =>
      obtain ⟨boot, hboot, rfl⟩ := Option.map_eq_some_iff.mp hstep
      exact h.handler outcome hcallback hpublished hready hboot
  | deliver i =>
    simp only [step] at hstep
    split at hstep
    · next hp =>
      obtain ⟨boot, hboot, rfl⟩ := Option.map_eq_some_iff.mp hstep
      exact h.deliver outcome hp hboot
    · cases hstep
  | lose i =>
    simp only [step] at hstep
    split at hstep
    · next hi =>
      cases hstep
      exact h.lose hi
    · cases hstep

/-! ## Turns -/

theorem turn_eq_ping {k : Nat} : turn k = .ping ↔ k % 2 = 0 := by
  unfold turn
  split
  · next h => exact ⟨fun _ => h, fun _ => rfl⟩
  · next h => exact ⟨fun hpong => (by cases hpong), fun heven => absurd heven h⟩

theorem toInt_ofNat_of_lt {i : Nat} (h : i < 2 ^ 31) : (BitVec.ofNat 32 i).toInt = i := by
  rw [BitVec.toInt_eq_toNat_cond, BitVec.toNat_ofNat]
  split <;> omega

theorem toInt_ofNat_even {i : Nat} : (BitVec.ofNat 32 i).toInt % 2 = 0 ↔ i % 2 = 0 := by
  rw [BitVec.toInt_eq_toNat_cond, BitVec.toNat_ofNat]
  split <;> omega

/-- **One token.** In every run, however often the guest writes its ready page and
whatever the agent delivers or loses, the `CHAN_READY` branch is entered at most
once, and at most one message is on its way. The messages are numbered from zero
without a gap, in the order in which they are published, and the even ones are
pings, the odd ones pongs. -/
theorem token_unique (mem : Mem) (outgoing : Topic → Header) {s : State}
    (hrun : (machine outcome).Reach (State.start mem outgoing) s) :
    s.readyRuns ≤ 1 ∧ s.flight.length ≤ 1 ∧
    (s.sender.passed.length ≤ 2 ^ 31 →
      s.sender.passed.map (fun p => p.seqNum.toInt) =
        (List.range s.sender.passed.length).map Int.ofNat) ∧
    ∀ p ∈ s.sender.passed, (p.topic = .ping ↔ p.seqNum.toInt % 2 = 0) := by
  have hinv : Inv mem outgoing s :=
    hrun.invariant _ start_inv fun _ _ _ h _ hstep => step_inv outcome h hstep
  have hnum (i : Nat) (p : Passed) (hp : s.sender.passed[i]? = some p) :
      p.seqNum = BitVec.ofNat 32 i := by
    rw [(hinv.sender.passed i p hp).1]
    exact BitVec.zero_add _
  refine ⟨?_, ?_, fun hlen => ?_, fun p hmem => ?_⟩
  · have := hinv.runs
    omega
  · have := hinv.count
    omega
  · refine List.ext_getElem (by rw [List.length_map, List.length_map, List.length_range]) ?_
    intro i h₁ h₂
    have hi : i < s.sender.passed.length := by rwa [List.length_map] at h₁
    rw [List.getElem_map, List.getElem_map, List.getElem_range,
      hnum i _ (List.getElem?_eq_getElem hi)]
    exact toInt_ofNat_of_lt (by omega)
  · obtain ⟨i, hp⟩ := List.mem_iff_getElem?.mp hmem
    rw [hinv.topics i p hp, turn_eq_ping, hnum i p hp, toInt_ofNat_even]

/-- Two writes to the ready page, the first ping, a frame that brings it back, and
the pong that answers it. -/
def firstExchange : List Act :=
  [Act.handler (.readyPage true), .handler (.readyPage true), .handler (.take .ready)] ++
    List.replicate 20 (Act.handler .init) ++
      [Act.handler (.published true), .handler .frame, .handler (.take .pingPong),
        .handler (.look false), .deliver 0, .handler (.published true), .handler .spinDone]

theorem token_unique_firstExchange :
    ∃ s, (machine fun _ => true).Reach (State.start (fun _ => 0) (headers 1)) s ∧
      s.sender.passed.map Passed.topic = [.ping, .pong] ∧ s.flight.length = 1 ∧ s.readyRuns ≤ 1 ∧
        s.sender.passed.map (fun p => p.seqNum.toInt) = [0, 1] := by
  obtain ⟨s, hrun, htopics, hflight⟩ :=
    (machine fun _ => true).exists_reach
      (P := fun s => s.sender.passed.map Passed.topic = [.ping, .pong] ∧ s.flight.length = 1)
      (s := State.start (fun _ => 0) (headers 1)) firstExchange (by decide +kernel)
  have hlen : s.sender.passed.length = 2 := by
    have := congrArg List.length htopics
    rwa [List.length_map] at this
  obtain ⟨hruns, _, hnumbers, _⟩ := token_unique _ _ _ hrun
  have hlist := hnumbers (by rw [hlen]; decide)
  rw [hlen] at hlist
  exact ⟨s, hrun, htopics, hflight, hruns, hlist⟩

end MicroRosDemos.Sel4.Token
