import MicroRosDemos.Net.Packet
import MicroRosDemos.Sel4.Boot
import MicroRosDemos.Sel4.IsPortOpen

/-!
# From the open port to the first ping

In the guest, `S60microros_agent` starts the agent and then `is_port_open 8888`, which looks
into `/proc/net/udp` until the port is there and then writes to the ready page. The VMM turns
the first write into `CHAN_READY`, and ping_pong initialises its transport when it takes that.
So it does not do so before the port was seen open, nor twice (`handshake`).

The guest does nothing while the VMM handles a fault of it, and there the VMM waits for a block
for each frame. Before ping_pong has started nothing takes the blocks away. So a guest that has
sent more frames than fit never comes to write to the ready page.
-/

namespace MicroRosDemos.Sel4.Handshake

open MicroRosDemos.Lib
open MicroRosDemos.Sel4.IsPortOpen (Header Entry procNetUdp isUdpPortOpen searchLines_entries strstr_portStr)

/-! ## `main` of `is_port_open.c` -/

/-- What `fopen` gives for `/proc/net/udp`. -/
abbrev Content := Option (Header × List Entry)

def Content.file (content : Content) : Option (List Byte) :=
  content.map fun (header, entries) => procNetUdp header entries

/-- One of the entries is of the port. -/
def Content.Lists (content : Content) (port : BitVec 32) : Prop :=
  ∃ header entries, content = some (header, entries) ∧ ∃ e ∈ entries, (e.port.toNat : Int) = port.toInt

/-- What `strtol` returns for a number: the nearest `long`. -/
def strtol (n : Int) : BitVec 64 := BitVec.ofInt 64 (max (-2 ^ 63) (min n (2 ^ 63 - 1)))

/-- `atoi`. A number that is not an `int` is not defined there; the C library cuts what `strtol`
returns to one. -/
def atoi (s : List Byte) : BitVec 32 :=
  match scanInt (cstring s) with
  | some (n, _) => (strtol n).setWidth 32
  | none => 0

/-- `UDP_PORT`. -/
def udpPort : BitVec 32 := 12345

/-- The port that `main` waits for. -/
def mainPort (argv : List (List Byte)) : BitVec 32 :=
  match argv[1]? with
  | some arg => atoi arg
  | none => udpPort

/-- Where `main` is: before `is_udp_port_open`, in `spin_sleep`, in `signal_ready` before its
`open`, its `mmap`, its store to the ready page and its `munmap`, or no longer there. -/
inductive Pc
  | look
  | sleep
  | openMem
  | mmap
  | store
  | munmap
  | exited (status : Nat)
deriving DecidableEq

/-! ## The guest, the VMM and ping_pong -/

/-- `main`, and the VMM with ping_pong: the frames that `process_tx_pending` has still to
forward, and the blocks of `spsc_vmm2pp` that ping_pong has still to pop. The history is what
`main` has read, and how often `transport_init` was called. -/
structure State where
  pc : Pc
  boot : Boot.State
  active : Nat
  queued : Nat
  looked : List Content
  started : Nat

/-- What happens next: `main` looks, wakes up, or comes past one of its calls or the store; the
guest sends some frames with a fault, the VMM gets a block for one of them and forwards it, or
ping_pong pops it; or the VMM or ping_pong takes another step. -/
inductive Act
  | look (content : Content)
  | slept
  | opened (ok : Bool)
  | mapped (ok : Bool)
  | store
  | unmapped
  | fault (frames : Nat)
  | forward
  | pop
  | boot (a : Boot.Act)

/-- How often the action calls `transport_init`. -/
def starts : Boot.Act → Nat
  | .take .ready => 1
  | _ => 0

/-- What the guest has to do with: its write to the ready page, and its frames. -/
def ofGuest : Boot.Act → Bool
  | .readyPage write => write
  | .frame => true
  | _ => false

/-- Where ping_pong may read from its queue: behind `spsc_init`, in `transport_init`, the
executor or a publisher. -/
def Reads : Boot.Pc → Prop
  | .transportInit rest => Boot.InitStep.spscVmm2pp ∉ rest
  | .spin | .publish _ _ => True
  | .idle | .empty | .exited => False

instance (pc : Boot.Pc) : Decidable (Reads pc) :=
  match pc with
  | .transportInit rest => inferInstanceAs (Decidable (_ ∉ rest))
  | .spin | .publish _ _ => .isTrue trivial
  | .idle | .empty | .exited => .isFalse id

/-- What an action leaves in the queue: `transport_init` initialises it again. -/
def State.queuedAfter (s : State) : Boot.Act → Nat
  | .init =>
    match s.boot.pc with
    | .transportInit (.spscVmm2pp :: _) => 0
    | _ => s.queued
  | _ => s.queued

variable (port : BitVec 32) (capacity : Nat) (outcome : Boot.InitStep → Bool)

/-- `main`, the VMM and ping_pong, in every order, with room for `capacity` blocks in
`spsc_vmm2pp`. The guest, which has one processor, does nothing while `process_tx_pending` has
frames, and nothing else in it touches the ready page. -/
def step (s : State) : Act → Option State
  | .look content =>
    match s.pc, s.active with
    | .look, 0 =>
      some { s with
        pc := if isUdpPortOpen content.file port then .openMem else .sleep
        looked := s.looked ++ [content] }
    | _, _ => none
  | .slept =>
    match s.pc, s.active with
    | .sleep, 0 => some { s with pc := .look }
    | _, _ => none
  | .opened ok =>
    match s.pc, s.active with
    | .openMem, 0 => some { s with pc := if ok then .mmap else .exited 1 }
    | _, _ => none
  | .mapped ok =>
    match s.pc, s.active with
    | .mmap, 0 => some { s with pc := if ok then .store else .exited 1 }
    | _, _ => none
  | .store =>
    match s.pc, s.active with
    | .store, 0 =>
      (Boot.step outcome s.boot (.readyPage true)).map fun b => { s with pc := .munmap, boot := b }
    | _, _ => none
  | .unmapped =>
    match s.pc, s.active with
    | .munmap, 0 => some { s with pc := .exited 0 }
    | _, _ => none
  | .fault frames =>
    match s.active with
    | 0 => some { s with active := frames }
    | _ => none
  | .forward =>
    match s.active with
    | 0 => none
    | active + 1 =>
      if s.queued < capacity then
        (Boot.step outcome s.boot .frame).map fun b => { s with boot := b, active, queued := s.queued + 1 }
      else none
  | .pop =>
    if Reads s.boot.pc ∧ 0 < s.queued then some { s with queued := s.queued - 1 } else none
  | .boot a =>
    if ofGuest a then none
    else
      (Boot.step outcome s.boot a).map fun b =>
        { s with boot := b, queued := s.queuedAfter a, started := s.started + starts a }

/-- The machine of the handshake. -/
def machine : Machine State Act := ⟨step port capacity outcome⟩

/-- The guest has started `is_port_open`. -/
def State.start : State := ⟨.look, .start, 0, 0, [], 0⟩

/-- The port was seen open. -/
def State.Found (s : State) : Prop := ∃ content ∈ s.looked, content.Lists port

/-- `CHAN_PINGPONG` is taken after `transport_init` has succeeded. -/
def AfterInit (s : State) : Act → Prop
  | .boot a => Boot.PingPongAfterInit s.boot a
  | _ => True

variable {port capacity outcome} {s t : State}

/-- What `is_udp_port_open` says of what `fopen` gives. -/
theorem isUdpPortOpen_lists {content : Content} :
    isUdpPortOpen content.file port = true ↔ content.Lists port := by
  cases content with
  | none =>
    refine ⟨fun h => absurd h Bool.false_ne_true, ?_⟩
    rintro ⟨_, _, h, _⟩
    cases h
  | some file =>
    obtain ⟨header, entries⟩ := file
    have hheader : isUdpPortOpen (Content.file (some (header, entries))) port =
        IsPortOpen.searchLines port (IsPortOpen.entriesText entries) := by
      have hshort := header.short
      have hread : fgets 256 (procNetUdp header entries) = some (header.text ++ [newline], _) :=
        fgets_line header.line (by omega)
      unfold isUdpPortOpen Content.file
      dsimp only [Option.map_some]
      rw [hread]
    have hsearch : isUdpPortOpen (Content.file (some (header, entries))) port = true ↔
        ∃ e ∈ entries, (e.port.toNat : Int) = port.toInt := by
      rw [hheader, searchLines_entries, List.any_eq_true]
      simp only [strstr_portStr]
    rw [hsearch]
    constructor
    · intro h
      exact ⟨header, entries, rfl, h⟩
    · rintro ⟨_, _, heq, h⟩
      cases heq
      exact h

/-! ## What the VMM and ping_pong do with the signal -/

/-- `CHAN_READY`, signalled and not taken. -/
def pendings (b : Boot.State) : Nat := if b.pending .ready then 1 else 0

/-- `transport_init` has begun. -/
def Begun (b : Boot.State) : Prop := b.done ≠ [] ∨ ∃ rest, b.pc = .transportInit rest

section
variable {b c : Boot.State} {a : Boot.Act}

/-- `CHAN_READY` is signalled by a write to the ready page alone, and each call of
`transport_init` takes one signal. -/
theorem boot_count (h : Boot.Move outcome b a c) (hother : a ≠ .readyPage true) :
    c.readySignalSent = b.readySignalSent ∧ starts a + pendings c = pendings b := by
  cases h with
  | signal => exact absurd rfl hother
  | ready _ hpending =>
    refine ⟨rfl, ?_⟩
    unfold pendings
    rw [hpending]
    rfl
  | _ => exact ⟨rfl, Nat.zero_add _⟩

/-- `transport_init` begins when `CHAN_READY` is taken. -/
theorem boot_begun (h : Boot.Move outcome b a c) (hbegun : Begun c) : Begun b ∨ 0 < starts a := by
  have hsame (hdone : c.done = b.done) (hpc : ∀ rest, c.pc ≠ .transportInit rest) : Begun b := by
    rcases hbegun with hne | ⟨rest, hrest⟩
    · exact .inl (hdone ▸ hne)
    · exact absurd hrest (hpc rest)
  cases h with
  | frame | signal | again write => exact .inl hbegun
  | ready => exact .inr Nat.one_pos
  | passed step rest hpc => exact .inl (.inr ⟨_, hpc⟩)
  | left step rest hpc | failed step rest hpc | initialised hpc => exact .inl (.inr ⟨_, hpc⟩)
  | pingPong | callback | spinDone => exact .inl (hsame rfl fun _ h => by cases h)
  | look empty => exact .inl (hsame rfl fun _ h => by cases empty <;> cases h)
  | published topic inSpin ok => exact .inl (hsame rfl fun _ h => by cases ok <;> cases inSpin <;> cases h)

/-- ping_pong comes to use its transport from `transport_init`, or from another use. -/
theorem boot_uses (h : Boot.Move outcome b a c) (horder : Boot.PingPongAfterInit b a) (huses : c.Uses) :
    b.Uses ∨ Begun b := by
  have hold {pc : Boot.Pc} (hpc : b.pc = pc) (hpcUses : Boot.State.Uses { b with pc }) : b.Uses := by
    unfold Boot.State.Uses at hpcUses ⊢
    rwa [hpc]
  cases h with
  | frame | signal | again write => exact .inl huses
  | ready | failed => exact huses.elim
  | passed => exact huses.elim
  | left step rest hpc | initialised hpc => exact .inr (.inr ⟨_, hpc⟩)
  | pingPong =>
    have hinit : b.done = Boot.transportInit := horder
    exact .inr (.inl (by rw [hinit]; exact List.cons_ne_nil _ _))
  | look empty hpc | callback topic hpc | published topic inSpin ok hpc | spinDone hpc => exact .inl (hold hpc trivial)

end

/-- A step of the VMM or of ping_pong. -/
theorem boot_step {a : Boot.Act} (h : step port capacity outcome s (.boot a) = some t) :
    a ≠ .readyPage true ∧ ∃ b, Boot.Move outcome s.boot a b ∧
      t = { s with boot := b, queued := s.queuedAfter a, started := s.started + starts a } := by
  simp only [step] at h
  split at h
  · cases h
  · next hother =>
    obtain ⟨b, hb, rfl⟩ := Option.map_eq_some_iff.mp h
    refine ⟨?_, b, Boot.step_move hb, rfl⟩
    rintro rfl
    exact hother rfl

/-- The VMM forwards a frame when there is room for it. -/
theorem forward_step (h : step port capacity outcome s .forward = some t) :
    ∃ active, s.active = active + 1 ∧ s.queued < capacity ∧
      t = { s with
        boot := { s.boot with pending := Boot.setPending s.boot.pending .pingPong true }
        active, queued := s.queued + 1 } := by
  simp only [step] at h
  split at h
  · cases h
  · next active hactive =>
    split at h
    · next hroom =>
      obtain ⟨b, hb, rfl⟩ := Option.map_eq_some_iff.mp h
      cases hb
      exact ⟨active, hactive, hroom, rfl⟩
    · cases h

theorem queuedAfter_le (s : State) (a : Boot.Act) : s.queuedAfter a ≤ s.queued := by
  unfold State.queuedAfter
  split
  · split
    · exact Nat.zero_le _
    · exact Nat.le_refl _
  · exact Nat.le_refl _

/-! ## Every run -/

/-- What a run keeps: `main` comes past its loop when it has seen the port, it has stored when
the VMM has signalled, there are as many signals as calls of `transport_init`, and one more
while it is not taken, and no more blocks are queued than there are. -/
structure Inv (port : BitVec 32) (capacity : Nat) (s : State) : Prop where
  found : s.pc ≠ .look → s.pc ≠ .sleep → s.Found port
  stored : s.boot.readySignalSent = true ↔ s.pc = .munmap ∨ s.pc = .exited 0
  count : s.started + pendings s.boot = if s.boot.readySignalSent then 1 else 0
  begun : Begun s.boot → 0 < s.started
  room : s.queued ≤ capacity

theorem start_inv : Inv port capacity .start where
  found h := absurd rfl h
  stored := by decide
  count := rfl
  begun h := by
    rcases h with h | ⟨_, h⟩
    · exact absurd rfl h
    · cases h
  room := Nat.zero_le _

/-- `main` takes a step that is not the store, past its loop or in it. -/
theorem Inv.main (h : Inv port capacity s) {pc : Pc} {looked : List Content}
    (hfound : pc ≠ .look → pc ≠ .sleep → State.Found port { s with pc, looked })
    (hstored : (pc = .munmap ∨ pc = .exited 0) ↔ (s.pc = .munmap ∨ s.pc = .exited 0)) :
    Inv port capacity { s with pc, looked } :=
  ⟨hfound, h.stored.trans hstored.symm, h.count, h.begun, h.room⟩

/-- Before its store, `main` has signalled nothing. -/
theorem Inv.unsent (h : Inv port capacity s) (hpc : s.pc = .store) : s.boot.readySignalSent = false := by
  refine Bool.eq_false_of_not_eq_true fun hsent => ?_
  have hstored := h.stored.mp hsent
  rw [hpc] at hstored
  exact absurd hstored (by decide)

theorem step_inv {a : Act} (h : Inv port capacity s) (hstep : step port capacity outcome s a = some t) :
    Inv port capacity t := by
  cases a with
  | look content =>
    simp only [step] at hstep
    split at hstep
    · next hpc _ =>
      cases hstep
      cases hopen : isUdpPortOpen content.file port with
      | false => exact h.main (fun _ hne => absurd rfl hne) (by rw [hpc]; decide)
      | true =>
        refine h.main (fun _ _ => ⟨content, ?_, isUdpPortOpen_lists.mp hopen⟩) (by rw [hpc]; decide)
        exact List.mem_append_right _ (List.mem_singleton_self _)
    · cases hstep
  | slept =>
    simp only [step] at hstep
    split at hstep
    · next hpc _ =>
      cases hstep
      exact h.main (fun hne => absurd rfl hne) (by rw [hpc]; decide)
    · cases hstep
  | opened ok =>
    simp only [step] at hstep
    split at hstep
    · next hpc _ =>
      cases hstep
      have hfound := h.found (by rw [hpc]; decide) (by rw [hpc]; decide)
      exact h.main (fun _ _ => hfound) (by rw [hpc]; cases ok <;> decide)
    · cases hstep
  | mapped ok =>
    simp only [step] at hstep
    split at hstep
    · next hpc _ =>
      cases hstep
      have hfound := h.found (by rw [hpc]; decide) (by rw [hpc]; decide)
      exact h.main (fun _ _ => hfound) (by rw [hpc]; cases ok <;> decide)
    · cases hstep
  | store =>
    simp only [step] at hstep
    split at hstep
    · next hpc _ =>
      have hfound := h.found (by rw [hpc]; decide) (by rw [hpc]; decide)
      have hunsent := h.unsent hpc
      have hcount := h.count
      rw [hunsent] at hcount
      have hstarted : s.started = 0 := (Nat.add_eq_zero_iff.mp hcount).1
      simp only [Boot.step, hunsent] at hstep
      cases hstep
      refine ⟨fun _ _ => hfound, ⟨fun _ => .inl rfl, fun _ => rfl⟩, ?_, h.begun, h.room⟩
      dsimp only
      rw [hstarted]
      rfl
    · cases hstep
  | unmapped =>
    simp only [step] at hstep
    split at hstep
    · next hpc _ =>
      cases hstep
      have hfound := h.found (by rw [hpc]; decide) (by rw [hpc]; decide)
      exact h.main (fun _ _ => hfound) (by rw [hpc]; decide)
    · cases hstep
  | fault frames =>
    simp only [step] at hstep
    split at hstep <;> cases hstep
    exact ⟨h.found, h.stored, h.count, h.begun, h.room⟩
  | forward =>
    obtain ⟨active, _, hroom, rfl⟩ := forward_step hstep
    exact ⟨h.found, h.stored, h.count, h.begun, hroom⟩
  | pop =>
    simp only [step] at hstep
    split at hstep <;> cases hstep
    exact ⟨h.found, h.stored, h.count, h.begun, (Nat.sub_le _ _).trans h.room⟩
  | boot a =>
    obtain ⟨hother, b, hb, rfl⟩ := boot_step hstep
    obtain ⟨hsent, hcount⟩ := boot_count hb hother
    refine ⟨h.found, ?_, ?_, fun hbegun => ?_, (queuedAfter_le s a).trans h.room⟩
    · rw [hsent]
      exact h.stored
    · dsimp only
      rw [hsent, ← h.count, ← hcount, Nat.add_assoc]
    · dsimp only
      rcases boot_begun hb hbegun with hold | hnew
      · exact Nat.add_pos_left (h.begun hold) _
      · exact Nat.add_pos_right _ hnew

theorem Inv.uses_step {a : Act} (h : Inv port capacity s) (horder : AfterInit s a)
    (huses : s.boot.Uses → 0 < s.started) (hstep : step port capacity outcome s a = some t) :
    t.boot.Uses → 0 < t.started := by
  intro hused
  cases a with
  | boot a =>
    obtain ⟨_, b, hb, rfl⟩ := boot_step hstep
    rcases boot_uses hb horder hused with hold | hbegun
    · exact Nat.add_pos_left (huses hold) _
    · exact Nat.add_pos_left (h.begun hbegun) _
  | store =>
    simp only [step] at hstep
    split at hstep
    · obtain ⟨b, hb, rfl⟩ := Option.map_eq_some_iff.mp hstep
      -- a write to the ready page leaves ping_pong where it is
      rcases boot_uses (Boot.step_move hb) trivial hused with hold | hbegun
      · exact huses hold
      · exact h.begun hbegun
    · cases hstep
  | forward =>
    obtain ⟨active, _, _, rfl⟩ := forward_step hstep
    exact huses hused
  | look content | slept | opened ok | mapped ok | unmapped | fault frames | pop =>
    simp only [step] at hstep
    split at hstep
    · cases hstep
      exact huses hused
    · cases hstep

/-! ## Whether ping_pong can start -/

/-- A run from the state that takes `CHAN_PINGPONG` after `transport_init` leads into
`transport_init`. -/
def CanStart (port : BitVec 32) (capacity : Nat) (outcome : Boot.InitStep → Bool) (s : State) : Prop :=
  ∃ t, (machine port capacity outcome).Run AfterInit s t ∧ t.started = 1 ∧
    t.boot.pc = .transportInit Boot.transportInit

theorem CanStart.of_step {a : Act} (h : CanStart port capacity outcome t)
    (hstep : step port capacity outcome s a = some t) (hok : AfterInit s a) : CanStart port capacity outcome s := by
  obtain ⟨u, hrun, hu⟩ := h
  exact ⟨u, (Machine.Run.single (m := machine port capacity outcome) hok hstep).trans hrun, hu⟩

/-- ping_pong in its event loop takes a pending `CHAN_READY`. -/
theorem canStart_take (hstarted : s.started = 0) (hidle : s.boot.pc = .idle)
    (hpending : s.boot.pending .ready = true) : CanStart port capacity outcome s := by
  refine CanStart.of_step ⟨_, .refl, ?_, ?_⟩
    (a := .boot (.take .ready)) (t := { s with
      boot := { s.boot with
        pending := Boot.setPending s.boot.pending .ready false, pc := .transportInit Boot.transportInit }
      started := s.started + 1 }) ?_ trivial
  · dsimp only
    rw [hstarted]
  · rfl
  · simp only [step, ofGuest, Boot.step, hidle, hpending, Bool.false_eq_true, if_false, Option.map_some]
    rfl

/-- Once the VMM has signalled, ping_pong in its event loop takes the signal, whatever the VMM
does meanwhile. -/
theorem canStart_sent (h : Inv port capacity s) (hstarted : s.started = 0) (hidle : s.boot.pc = .idle)
    (hsent : s.boot.readySignalSent = true) : CanStart port capacity outcome s := by
  have hcount := h.count
  rw [hsent, hstarted, Nat.zero_add, if_pos rfl] at hcount
  refine canStart_take hstarted hidle ?_
  by_contra hnot
  rw [pendings, if_neg hnot] at hcount
  cases hcount

/-- From the store on, the signal is there. -/
theorem canStart_store (h : Inv port capacity s) (hstarted : s.started = 0) (hidle : s.boot.pc = .idle)
    (hactive : s.active = 0) (hpc : s.pc = .store) : CanStart port capacity outcome s := by
  have hunsent := h.unsent hpc
  refine CanStart.of_step (canStart_take ?_ ?_ ?_) (a := .store) (t := { s with
    pc := .munmap
    boot := { s.boot with
      readySignalSent := true, pending := Boot.setPending s.boot.pending .ready true } }) ?_ trivial
  · exact hstarted
  · exact hidle
  · rfl
  · simp only [step, hpc, hactive, Boot.step, hunsent]
    rfl

/-- While the guest runs and `main` has not failed, `main` looks again, and a port that is there
gets ping_pong to start. -/
theorem canStart_main (h : Inv port capacity s) (hstarted : s.started = 0) (hidle : s.boot.pc = .idle)
    (hactive : s.active = 0) (hmain : ∀ status, s.pc = .exited status → status = 0) {content : Content}
    (hlists : content.Lists port) : CanStart port capacity outcome s := by
  have hmmap : ∀ u : State, Inv port capacity u → u.started = 0 → u.boot.pc = .idle → u.active = 0 →
      u.pc = .mmap → CanStart port capacity outcome u := by
    intro u hu hstarted hidle hactive hpc
    have hstep : step port capacity outcome u (.mapped true) = some { u with pc := .store } := by
      simp only [step, hpc, hactive, if_true]
    exact (canStart_store (step_inv hu hstep) hstarted hidle hactive rfl).of_step hstep trivial
  have hopen : ∀ u : State, Inv port capacity u → u.started = 0 → u.boot.pc = .idle → u.active = 0 →
      u.pc = .openMem → CanStart port capacity outcome u := by
    intro u hu hstarted hidle hactive hpc
    have hstep : step port capacity outcome u (.opened true) = some { u with pc := .mmap } := by
      simp only [step, hpc, hactive, if_true]
    exact (hmmap _ (step_inv hu hstep) hstarted hidle hactive rfl).of_step hstep trivial
  have hlook : ∀ u : State, Inv port capacity u → u.started = 0 → u.boot.pc = .idle → u.active = 0 →
      u.pc = .look → CanStart port capacity outcome u := by
    intro u hu hstarted hidle hactive hpc
    have hstep : step port capacity outcome u (.look content) =
        some { u with pc := .openMem, looked := u.looked ++ [content] } := by
      simp only [step, hpc, hactive, isUdpPortOpen_lists.mpr hlists, if_true]
    exact (hopen _ (step_inv hu hstep) hstarted hidle hactive rfl).of_step hstep trivial
  cases hpc : s.pc with
  | look => exact hlook s h hstarted hidle hactive hpc
  | sleep =>
    have hstep : step port capacity outcome s .slept = some { s with pc := .look } := by
      simp only [step, hpc, hactive]
    exact (hlook _ (step_inv h hstep) hstarted hidle hactive rfl).of_step hstep trivial
  | openMem => exact hopen s h hstarted hidle hactive hpc
  | mmap => exact hmmap s h hstarted hidle hactive hpc
  | store => exact canStart_store h hstarted hidle hactive hpc
  | munmap => exact canStart_sent h hstarted hidle (h.stored.mpr (.inl hpc))
  | exited status =>
    have hzero := hmain status hpc
    subst hzero
    exact canStart_sent h hstarted hidle (h.stored.mpr (.inr hpc))

/-- The VMM gets through its frames when they fit the queue. -/
theorem canStart_forward (h : Inv port capacity s) (hstarted : s.started = 0) (hidle : s.boot.pc = .idle)
    (hmain : ∀ status, s.pc = .exited status → status = 0) {content : Content} (hlists : content.Lists port)
    (hfit : s.queued + s.active ≤ capacity) : CanStart port capacity outcome s := by
  generalize hn : s.active = n at hfit
  induction n generalizing s with
  | zero => exact canStart_main h hstarted hidle hn hmain hlists
  | succ n ih =>
    have hstep : step port capacity outcome s .forward = some { s with
        boot := { s.boot with pending := Boot.setPending s.boot.pending .pingPong true }
        active := n, queued := s.queued + 1 } := by
      simp only [step, hn, if_pos (show s.queued < capacity by omega)]
      rfl
    exact (ih (step_inv h hstep) hstarted hidle hmain rfl (by dsimp only; omega)).of_step hstep trivial

/-- The VMM waits in `process_tx_pending`, and the guest has not written to the ready page. -/
structure Jammed (port : BitVec 32) (capacity : Nat) (s : State) : Prop extends Inv port capacity s where
  idle : s.boot.pc = .idle
  unstarted : s.started = 0
  unsent : s.boot.readySignalSent = false
  full : capacity < s.queued + s.active

/-- The guest does nothing there. -/
theorem Jammed.active (h : Jammed port capacity s) : s.active ≠ 0 := by
  have hfull := h.full
  have hroom := h.room
  omega

/-- Nor has ping_pong anything to take. -/
theorem Jammed.silent (h : Jammed port capacity s) : s.boot.pending .ready ≠ true := by
  intro hpending
  have hcount := h.count
  rw [h.unsent, h.unstarted, pendings, if_pos hpending] at hcount
  cases hcount

theorem step_jammed {a : Act} (h : Jammed port capacity s) (horder : AfterInit s a)
    (hstep : step port capacity outcome s a = some t) : Jammed port capacity t := by
  have hinv := step_inv h.toInv hstep
  cases a with
  | look content | slept | opened ok | mapped ok | store | unmapped =>
    simp only [step] at hstep
    split at hstep
    · next hzero => exact absurd hzero h.active
    · cases hstep
  | fault frames =>
    simp only [step] at hstep
    split at hstep
    · next hzero => exact absurd hzero h.active
    · cases hstep
  | forward =>
    have hfull := h.full
    obtain ⟨active, hactive, _, rfl⟩ := forward_step hstep
    exact ⟨hinv, h.idle, h.unstarted, h.unsent, by dsimp only; omega⟩
  | pop =>
    simp only [step, h.idle] at hstep
    split at hstep
    · next hreads => exact absurd hreads.1 id
    · cases hstep
  | boot a =>
    obtain ⟨hother, b, hb, rfl⟩ := boot_step hstep
    have hidle := h.idle
    cases hb with
    | again => exact ⟨hinv, hidle, h.unstarted, h.unsent, h.full⟩
    | frame => exact ⟨hinv, hidle, h.unstarted, h.unsent, h.full⟩
    | signal => exact absurd rfl hother
    | ready _ hpending => exact absurd hpending h.silent
    | pingPong =>
      -- the order asks for an initialised transport, and nothing is done yet
      have hdone : s.boot.done = Boot.transportInit := horder
      have hbegun := h.begun (.inl (by rw [hdone]; exact List.cons_ne_nil _ _))
      exact absurd h.unstarted (Nat.ne_of_gt hbegun)
    | passed step rest hpc | left step rest hpc | failed step rest hpc => cases hidle.symm.trans hpc
    | initialised hpc | look empty hpc | callback topic hpc | published topic inSpin ok hpc
    | spinDone hpc => cases hidle.symm.trans hpc

/-- So it stays. -/
theorem Jammed.not_canStart (h : Jammed port capacity s) : ¬ CanStart port capacity outcome s := by
  rintro ⟨t, hrun, hstarted, _⟩
  have hjammed := hrun.invariant (Jammed port capacity) h fun _ _ _ hs horder hstep =>
    step_jammed hs horder hstep
  cases hjammed.unstarted.symm.trans hstarted

/-- **ping_pong starts when the port is open.** For every port, every number of blocks and every
order of the steps of `is_port_open`, of the VMM and of ping_pong, whatever `/proc/net/udp` is
each time, whatever frames the guest sends and however the calls end: `transport_init` is called
at most once, and only after `is_port_open` has seen a socket on its port, and nothing of it is
done before. In the runs that take `CHAN_PINGPONG` after `transport_init` has succeeded, ping_pong
does not use its queue, its executor or a publisher before that either. And as long as
`is_port_open` has not failed and ping_pong is in its event loop, a look at a file with the port
still leads to the call in such a run just when the VMM has signalled already, or the frames that
it has still to forward fit the queue beside those that are there. -/
theorem handshake (port : BitVec 32) (capacity : Nat) (outcome : Boot.InitStep → Bool) {s : State}
    (hrun : (machine port capacity outcome).Reach .start s) :
    s.started ≤ 1 ∧ (0 < s.started → s.Found port) ∧ (Begun s.boot → 0 < s.started) ∧
    ((machine port capacity outcome).Run AfterInit .start s → s.boot.Uses → s.Found port) ∧
    ∀ content : Content, content.Lists port → s.started = 0 → s.boot.pc = .idle →
      (∀ status, s.pc = .exited status → status = 0) →
        (CanStart port capacity outcome s ↔
          s.boot.readySignalSent = true ∨ s.queued + s.active ≤ capacity) := by
  have h : Inv port capacity s :=
    hrun.invariant _ start_inv fun _ _ _ hs _ hstep => step_inv hs hstep
  have hfound : 0 < s.started → s.Found port := by
    intro hpos
    have hsent : s.boot.readySignalSent = true := by
      by_contra hnot
      have hcount := h.count
      rw [if_neg hnot] at hcount
      omega
    refine h.found ?_ ?_
    · rcases h.stored.mp hsent with hpc | hpc <;> rw [hpc] <;> decide
    · rcases h.stored.mp hsent with hpc | hpc <;> rw [hpc] <;> decide
  refine ⟨?_, hfound, h.begun, fun hafter huses => hfound ?_, ?_⟩
  · have hcount := h.count
    split at hcount <;> omega
  · have hboth := hafter.invariant (fun s => Inv port capacity s ∧ (s.boot.Uses → 0 < s.started))
      ⟨start_inv, fun huses => huses.elim⟩
      fun _ _ _ hs horder hstep => ⟨step_inv hs.1 hstep, hs.1.uses_step horder hs.2 hstep⟩
    exact hboth.2 huses
  · intro content hlists hstarted hidle hmain
    constructor
    · intro hcan
      by_contra hnot
      obtain ⟨hunsent, hfull⟩ := not_or.mp hnot
      have hjammed : Jammed port capacity s :=
        ⟨h, hidle, hstarted, Bool.eq_false_of_not_eq_true hunsent, Nat.not_le.mp hfull⟩
      exact hjammed.not_canStart hcan
    · rintro (hsent | hfit)
      · exact canStart_sent h hstarted hidle hsent
      · exact canStart_forward h hstarted hidle hmain hlists hfit

/-! ## As shipped -/

/-- The arguments in `S60microros_agent`. -/
def shippedArgv : List (List Byte) := ["/bin/is_port_open", "8888"].map fun arg => arg.toList.map ascii

-- it waits for the port that ping_pong's datagrams go to
example : (mainPort shippedArgv).toInt = (Net.htons Net.pingPongHdrs.udp.uhDport).toNat := by decide +kernel

/-- An entry of `/proc/net/udp` for a socket on some port. -/
def socket (port : BitVec 16) : Entry where
  pad := 3
  sl := 5
  addr := 0
  port := port
  columns := "00000000:0000 07".toList.map ascii
  sl_lt := by decide
  columns_line := by decide
  columns_text := by decide
  short := by
    unfold IsPortOpen.entryLine
    simp only [List.length_append, List.length_cons, IsPortOpen.addrText_length]
    decide

def columnNames : Header where
  text := "   sl  local_address rem_address   st".toList.map ascii
  line := by decide
  short := by decide

/-- With the one block there is: no file, another socket, a frame, and the agent's socket, and
ping_pong starts after the third look; and after two frames in one fault it cannot start. -/
theorem handshake_three :
    (∃ s, (machine (mainPort shippedArgv) 1 fun _ => true).Reach .start s ∧ s.looked.length = 3 ∧
      s.queued = 1 ∧ s.started = 1 ∧ s.Found (mainPort shippedArgv)) ∧
    ∃ s, (machine (mainPort shippedArgv) 1 fun _ => true).Reach .start s ∧
      ¬ CanStart (mainPort shippedArgv) 1 (fun _ => true) s := by
  constructor
  · obtain ⟨s, hrun, hlooked, hqueued, hstarted⟩ :=
      (machine (mainPort shippedArgv) 1 fun _ => true).exists_reach
        (P := fun s => s.looked.length = 3 ∧ s.queued = 1 ∧ s.started = 1) (s := .start)
        [.look none, .slept, .look (some (columnNames, [socket 12345])), .fault 1, .forward, .slept,
          .look (some (columnNames, [socket 12345, socket 8888])), .opened true, .mapped true, .store,
          .unmapped, .boot (.take .ready)] (by decide +kernel)
    refine ⟨s, hrun, hlooked, hqueued, hstarted, (handshake _ _ _ hrun).2.1 ?_⟩
    rw [hstarted]
    exact Nat.one_pos
  · obtain ⟨s, hrun, hstarted, hidle, hpc, hunsent, hfull⟩ :=
      (machine (mainPort shippedArgv) 1 fun _ => true).exists_reach
        (P := fun s => s.started = 0 ∧ s.boot.pc = .idle ∧ s.pc = .look ∧
          s.boot.readySignalSent = false ∧ 1 < s.queued + s.active) (s := .start)
        [.fault 2, .forward] (by decide +kernel)
    have hlists : Content.Lists (some (columnNames, [socket 8888])) (mainPort shippedArgv) :=
      ⟨_, _, rfl, socket 8888, List.mem_singleton_self _, by decide +kernel⟩
    refine ⟨s, hrun, fun hcan => ?_⟩
    rcases ((handshake _ _ _ hrun).2.2.2.2 _ hlists hstarted hidle fun status hexited => by
      cases hpc.symm.trans hexited).mp hcan with hsent | hfit
    · cases hunsent.symm.trans hsent
    · omega

end MicroRosDemos.Sel4.Handshake
