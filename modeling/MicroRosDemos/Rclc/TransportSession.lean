import MicroRosDemos.Lib.Machine
import MicroRosDemos.Rclc.CustomTransport

/-!
# The sockets of the custom transport

The client library opens the custom transport, writes to it and reads from it, and closes it,
and it may begin again. However its calls end, the transport has no more than one socket, and
none when it is closed: each `close` is of a socket that is there, and the others go to it, or
to no socket at all when there was none to be had (`session_sockets`).
-/

namespace MicroRosDemos.Rclc.CustomTransport

open MicroRosDemos.Lib

/-- A call of the C library by one of the four functions. -/
inductive Io
  | call (c : Call)
  | send (fd : Int) (len : Nat)
  | poll (fd : Int) (events : BitVec 16) (timeout : Int)
  | recv (fd : Int) (len : Nat)
deriving DecidableEq

/-- What a write or a read returns and leaves in `errcode`, and the calls it has made. -/
structure Moved where
  rv : Nat
  errcode : BitVec 8
  calls : List Io

/-- `custom_transport_write`; `bytesSent` is what `send` returns. -/
def customTransportWrite (data : TransportData) (len : Nat) (bytesSent : Int) : Moved :=
  let send := Io.send data.fd len
  if bytesSent ≠ -1 then ⟨bytesSent.toNat, 0, [send]⟩ else ⟨0, 1, [send]⟩

/-- `custom_transport_read`; `pollRv` and `bytesReceived` are what `poll` and `recv` return. -/
def customTransportRead (data : TransportData) (len : Nat) (timeout pollRv bytesReceived : Int) : Moved :=
  let poll := Io.poll data.fd data.events timeout
  if 0 < pollRv then
    let recv := Io.recv data.fd len
    if bytesReceived ≠ -1 then ⟨bytesReceived.toNat, 0, [poll, recv]⟩ else ⟨0, 1, [poll, recv]⟩
  else ⟨0, if pollRv = 0 then 0 else 1, [poll]⟩

/-- The socket that a call is on. -/
def Io.fd : Io → Option Int
  | .call (.connect fd _) => some fd
  | .call (.close fd) => some fd
  | .send fd _ => some fd
  | .poll fd _ _ => some fd
  | .recv fd _ => some fd
  | .call (.socket _ _ _) | .call (.getaddrinfo _ _ _ _) | .call (.freeaddrinfo _) => none

/-- The transport, whether the client library has it open, and the sockets there are. The
history is the calls, each with the sockets there were, and the writes and reads, each with the
length it was given. -/
structure Session where
  data : TransportData
  isOpen : Bool
  sockets : List Int
  calls : List (Io × List Int)
  moved : List (Nat × Moved)

/-- What the client library does next, with what the calls return. -/
inductive Act
  | open (o : Outcomes)
  | write (len : Nat) (bytesSent : Int)
  | read (len : Nat) (timeout pollRv bytesReceived : Int)
  | close (closed : Int)

/-- The sockets that are left after a call. -/
def closing (sockets : List Int) : Call → List Int
  | .close fd => sockets.erase fd
  | _ => sockets

/-- A write or a read on an open transport. -/
def Session.move (s : Session) (len : Nat) (m : Moved) : Session :=
  { s with calls := s.calls ++ m.calls.map (·, s.sockets), moved := s.moved ++ [(len, m)] }

/-- The client library opens a transport that is closed, and uses and closes one that is
open. -/
def session : Machine Session Act where
  step s
    | .open o =>
      if s.isOpen then none
      else
        let done := customTransportOpen o s.data
        let sockets := if o.socket = -1 then s.sockets else s.sockets ++ [o.socket]
        some { s with
          data := done.data, isOpen := done.ret, sockets
          calls := s.calls ++ done.calls.map fun c => (.call c, sockets) }
    | .write len bytesSent =>
      if s.isOpen then some (s.move len (customTransportWrite s.data len bytesSent)) else none
    | .read len timeout pollRv bytesReceived =>
      if s.isOpen then some (s.move len (customTransportRead s.data len timeout pollRv bytesReceived)) else none
    | .close closed =>
      if s.isOpen then
        let done := customTransportClose s.data closed
        some { s with
          data := done.data, isOpen := false, sockets := done.calls.foldl closing s.sockets
          calls := s.calls ++ done.calls.map fun c => (.call c, s.sockets) }
      else none

/-- Nothing is open; the memory of the transport's data is whatever it was. -/
def Session.start (data : TransportData) : Session := ⟨data, false, [], [], []⟩

/-- What the C library says of `send` and `recv`: they return -1, or no more than they were
given. -/
def Documented (_ : Session) : Act → Prop
  | .open _ | .close _ => True
  | .write len bytesSent => bytesSent = -1 ∨ 0 ≤ bytesSent ∧ bytesSent ≤ len
  | .read len _ _ bytesReceived => bytesReceived = -1 ∨ 0 ≤ bytesReceived ∧ bytesReceived ≤ len

/-- A call is on a socket that is there, or on none at all when there is none; only the latter
is not closed. -/
structure OnSocket (c : Io × List Int) : Prop where
  used : ∀ fd, c.1.fd = some fd → fd ∈ c.2 ∨ fd = -1 ∧ c.2 = []
  closed : ∀ fd, c.1 = .call (.close fd) → fd ∈ c.2

/-- A write or a read has moved no more than it was given, and nothing when it reports an
error. -/
structure Sane (m : Nat × Moved) : Prop where
  rv : m.2.rv ≤ m.1
  errcode : m.2.errcode = 0 ∨ m.2.errcode = 1 ∧ m.2.rv = 0

/-- What every run keeps: the transport's socket is the only one, and it is there while the
transport is open. -/
structure Session.Inv (s : Session) : Prop where
  sockets : s.sockets = if s.isOpen ∧ s.data.fd ≠ -1 then [s.data.fd] else []
  calls : ∀ c ∈ s.calls, OnSocket c
  moved : ∀ m ∈ s.moved, Sane m

variable {s t : Session}

/-! ## The four functions -/

/-- An opening makes calls on no socket, and connects the one it has. -/
theorem open_calls {o : Outcomes} {data : TransportData} {c : Call} (h : c ∈ (customTransportOpen o data).calls) :
    (Io.call c).fd = none ∨ o.socket ≠ -1 ∧ ∃ node, c = .connect o.socket node := by
  unfold customTransportOpen at h
  dsimp only at h
  split at h
  · next hsocket =>
    split at h
    · simp only [List.mem_append, List.mem_cons, List.not_mem_nil, or_false] at h
      rcases h with ((rfl | rfl) | h) | rfl
      · exact .inl rfl
      · exact .inl rfl
      · exact .inr ⟨hsocket, (connectFirst_fd _ _).2 c h⟩
      · exact .inl rfl
    · simp only [List.mem_cons, List.not_mem_nil, or_false] at h
      rcases h with rfl | rfl | rfl <;> exact .inl rfl
  · rw [List.mem_singleton.mp h]
    exact .inl rfl

/-- A write or a read is on the transport's descriptor. -/
def Moved.On (m : Moved) (fd : Int) : Prop := ∀ c ∈ m.calls, c.fd = some fd ∧ ∀ fd', c ≠ .call (.close fd')

theorem write_on (data : TransportData) (len : Nat) (bytesSent : Int) :
    (customTransportWrite data len bytesSent).On data.fd := by
  intro c hc
  have hsend : c = .send data.fd len := by
    unfold customTransportWrite at hc
    dsimp only at hc
    split at hc <;> exact List.mem_singleton.mp hc
  rw [hsend]
  exact ⟨rfl, fun fd' h => by cases h⟩

theorem read_on (data : TransportData) (len : Nat) (timeout pollRv bytesReceived : Int) :
    (customTransportRead data len timeout pollRv bytesReceived).On data.fd := by
  intro c hc
  have hcases : c = .poll data.fd data.events timeout ∨ c = .recv data.fd len := by
    unfold customTransportRead at hc
    dsimp only at hc
    split at hc
    · split at hc <;> exact (List.mem_cons.mp hc).imp_right List.mem_singleton.mp
    · exact .inl (List.mem_singleton.mp hc)
  rcases hcases with rfl | rfl
  · exact ⟨rfl, fun fd' h => by cases h⟩
  · exact ⟨rfl, fun fd' h => by cases h⟩

theorem write_sane (data : TransportData) {len : Nat} {bytesSent : Int}
    (h : bytesSent = -1 ∨ 0 ≤ bytesSent ∧ bytesSent ≤ len) :
    Sane (len, customTransportWrite data len bytesSent) := by
  unfold customTransportWrite
  dsimp only
  split
  · next hok =>
    obtain ⟨_, hle⟩ := h.resolve_left hok
    exact ⟨Int.toNat_le.mpr hle, .inl rfl⟩
  · exact ⟨Nat.zero_le _, .inr ⟨rfl, rfl⟩⟩

theorem read_sane (data : TransportData) {len : Nat} (timeout pollRv : Int) {bytesReceived : Int}
    (h : bytesReceived = -1 ∨ 0 ≤ bytesReceived ∧ bytesReceived ≤ len) :
    Sane (len, customTransportRead data len timeout pollRv bytesReceived) := by
  unfold customTransportRead
  dsimp only
  split
  · split
    · next hok =>
      obtain ⟨_, hle⟩ := h.resolve_left hok
      exact ⟨Int.toNat_le.mpr hle, .inl rfl⟩
    · exact ⟨Nat.zero_le _, .inr ⟨rfl, rfl⟩⟩
  · refine ⟨Nat.zero_le _, ?_⟩
    by_cases htimeout : pollRv = 0
    · exact .inl (if_pos htimeout)
    · exact .inr ⟨if_neg htimeout, rfl⟩

/-! ## Every run -/

/-- A write or a read leaves the sockets, and is on the one there is. -/
theorem Session.Inv.move (h : s.Inv) (hopen : s.isOpen = true) {len : Nat} {m : Moved} (hon : m.On s.data.fd)
    (hsane : Sane (len, m)) : (s.move len m).Inv := by
  refine ⟨h.sockets, fun c hc => ?_, forall_mem_grown.mpr ⟨h.moved, hsane⟩⟩
  rcases List.mem_append.mp hc with hold | hnew
  · exact h.calls c hold
  · obtain ⟨io, hio, rfl⟩ := List.mem_map.mp hnew
    obtain ⟨hfd, hclose⟩ := hon io hio
    refine ⟨fun fd hused => ?_, fun fd hc => absurd hc (hclose fd)⟩
    dsimp only at hused ⊢
    rw [hfd] at hused
    cases hused
    rw [h.sockets]
    by_cases hnone : s.data.fd = -1
    · rw [if_neg fun hboth => hboth.2 hnone]
      exact .inr ⟨hnone, rfl⟩
    · rw [if_pos ⟨hopen, hnone⟩]
      exact .inl (List.mem_singleton_self _)

theorem Session.Inv.open (h : s.Inv) (hclosed : ¬ s.isOpen = true) {o : Outcomes} {sockets : List Int}
    (hnew : sockets = if o.socket = -1 then s.sockets else s.sockets ++ [o.socket]) :
    Session.Inv { s with
      data := (customTransportOpen o s.data).data, isOpen := (customTransportOpen o s.data).ret, sockets
      calls := s.calls ++ (customTransportOpen o s.data).calls.map fun c => (.call c, sockets) } := by
  have hnone : s.sockets = [] := h.sockets.trans (if_neg fun hboth => hclosed hboth.1)
  rw [hnone, List.nil_append] at hnew
  refine ⟨?_, fun c hc => ?_, h.moved⟩
  · dsimp only
    rw [open_ret, open_fd, hnew]
    by_cases hfail : o.socket = -1
    · rw [if_pos hfail, if_neg fun hboth => hboth.2 hfail]
    · rw [if_neg hfail, if_pos ⟨rfl, hfail⟩]
  · rcases List.mem_append.mp hc with hold | hcall
    · exact h.calls c hold
    · obtain ⟨call, hmem, rfl⟩ := List.mem_map.mp hcall
      rcases open_calls hmem with hno | ⟨hsocket, node, rfl⟩
      · refine ⟨fun fd hfd => ?_, fun fd hclose => ?_⟩
        · cases hno.symm.trans hfd
        · cases hclose
          cases hno
      · refine ⟨fun fd hfd => .inl ?_, fun fd hclose => by cases hclose⟩
        cases hfd
        dsimp only
        rw [hnew, if_neg hsocket]
        exact List.mem_singleton_self _

/-- A closing closes the socket there is. -/
theorem Session.Inv.close (h : s.Inv) (hopen : s.isOpen = true) (closed : Int) :
    Session.Inv { s with
      data := (customTransportClose s.data closed).data, isOpen := false
      sockets := (customTransportClose s.data closed).calls.foldl closing s.sockets
      calls := s.calls ++ (customTransportClose s.data closed).calls.map fun c => (.call c, s.sockets) } := by
  have hsockets := h.sockets
  unfold customTransportClose
  split
  · next hnone =>
    rw [if_neg fun hboth => hboth.2 hnone] at hsockets
    refine ⟨hsockets, fun c hc => ?_, h.moved⟩
    rw [List.map_nil, List.append_nil] at hc
    exact h.calls c hc
  · next hfd =>
    rw [if_pos ⟨hopen, hfd⟩] at hsockets
    refine ⟨?_, forall_mem_grown.mpr ⟨h.calls, fun fd hused => .inl ?_, fun fd hclose => ?_⟩, h.moved⟩
    · show s.sockets.erase s.data.fd = []
      rw [hsockets]
      simp
    · cases hused
      dsimp only
      rw [hsockets]
      exact List.mem_singleton_self _
    · cases hclose
      dsimp only
      rw [hsockets]
      exact List.mem_singleton_self _

theorem session_inv {a : Act} (h : s.Inv) (hdoc : Documented s a) (hstep : session.step s a = some t) : t.Inv := by
  cases a with
  | «open» o =>
    simp only [session] at hstep
    split at hstep
    · cases hstep
    · next hclosed =>
      cases hstep
      exact h.open hclosed rfl
  | write len bytesSent =>
    simp only [session] at hstep
    split at hstep
    · next hopen =>
      cases hstep
      exact h.move hopen (write_on s.data len bytesSent) (write_sane s.data hdoc)
    · cases hstep
  | read len timeout pollRv bytesReceived =>
    simp only [session] at hstep
    split at hstep
    · next hopen =>
      cases hstep
      exact h.move hopen (read_on s.data len timeout pollRv bytesReceived) (read_sane s.data timeout pollRv hdoc)
    · cases hstep
  | close closed =>
    simp only [session] at hstep
    split at hstep
    · next hopen =>
      cases hstep
      exact h.close hopen closed
    · cases hstep

/-- **One socket, and none when it is closed.** For every sequence of openings, writes, reads
and closings that the client library makes, whatever the calls return within what they are
documented to: the transport's sockets are the one that it holds, while it is open and has one,
and none otherwise, so none is leaked; each call is on a socket that is there at the time, or
on none at all when there is none, and what is closed is there; and a write or a read has moved
at most what it was given, and nothing if it reports an error. -/
theorem session_sockets (data : TransportData) {s : Session} (hrun : session.Run Documented (.start data) s) :
    (s.sockets = if s.isOpen ∧ s.data.fd ≠ -1 then [s.data.fd] else []) ∧
    (∀ c ∈ s.calls, OnSocket c) ∧ ∀ m ∈ s.moved, Sane m := by
  have h : s.Inv := hrun.invariant _
    ⟨rfl, fun _ hc => absurd hc List.not_mem_nil, fun _ hm => absurd hm List.not_mem_nil⟩
    fun _ _ _ hs hdoc hstep => session_inv hs hdoc hstep
  exact ⟨h.sockets, h.calls, h.moved⟩

/-- A session over the second address, with a read that times out and one that is answered,
and a session without a socket. -/
theorem session_sockets_two :
    ∃ s, session.Run Documented (.start ⟨9, 0⟩) s ∧ s.isOpen = true ∧ s.sockets = [] ∧
      s.calls.length = 12 ∧
      (∀ c ∈ s.calls, OnSocket c) ∧ ∀ m ∈ s.moved, Sane m := by
  have hrun : session.Run Documented (.start ⟨9, 0⟩) _ := Machine.run_of_exec
    [.open ⟨3, some (0x1000, [⟨1, 16, -1⟩, ⟨2, 16, 0⟩]), 0⟩, .write 20 20, .read 64 100 0 0, .read 64 100 1 12,
      .close 0, .open ⟨-1, none, 0⟩, .write 20 (-1)]
    (by simp [Documented]) rfl
  obtain ⟨hsockets, hcalls, hmoved⟩ := session_sockets ⟨9, 0⟩ hrun
  exact ⟨_, hrun, rfl, hsockets, rfl, hcalls, hmoved⟩

end MicroRosDemos.Rclc.CustomTransport
