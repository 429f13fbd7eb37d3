import MicroRosDemos.Lib.Text
import MicroRosDemos.Sel4.Boot

/-!
# What ping_pong publishes

`send_impl` prints the identifier of the message into the header's `frame_id`,
within its capacity, and takes the result of `snprintf` for the size. That is the
length of the whole text, written or not, so the header is a string with the whole
identifier in it just when the text is shorter than the capacity
(`send_complete_iff`). `std_msgs__msg__Header__init` leaves a capacity of 1.
-/

namespace MicroRosDemos.Sel4.Send

open MicroRosDemos.Lib MicroRosDemos.Sel4.Boot

/-- `rosidl_runtime_c__String`. -/
structure RosString where
  data : Nat
  size : BitVec 64
  capacity : BitVec 64

/-- `std_msgs__msg__Header`. -/
structure Header where
  sec : BitVec 32
  nanosec : BitVec 32
  frameId : RosString

/-- `DEVICE_ID`. -/
def deviceId : Int := 0

/-- The text of a message: its number and the device. -/
def frameText (seqNum : BitVec 32) : List Byte := pairText seqNum.toInt deviceId

/-- A header as `rcl_publish` is given it: the topic, the header with the memory it
points into, and `seqNum` at the time. -/
structure Passed where
  topic : Topic
  header : Header
  mem : Mem
  seqNum : BitVec 32

/-- What `send_ping` and `send_pong` work on: `outgoingPing` and `outgoingPong` with
the memory they point into, `seqNum`, and whether `RCCHECK` has ended the program.
The history is the headers passed to `rcl_publish`. -/
structure State where
  mem : Mem
  outgoing : Topic → Header
  seqNum : BitVec 32
  exited : Bool
  passed : List Passed

/-- `send_impl` on the header of a topic, `ok` being what `rcl_publish` returns. -/
def sendImpl (s : State) (topic : Topic) (ok : Bool) : State :=
  let hdr := s.outgoing topic
  let (mem, size) := snprintf s.mem hdr.frameId.data hdr.frameId.capacity.toNat (frameText s.seqNum)
  let hdr : Header := ⟨0, 0, { hdr.frameId with size := BitVec.ofNat 64 size }⟩
  let s : State := { s with
    mem, outgoing := fun t => if t = topic then hdr else s.outgoing t
    passed := s.passed ++ [⟨topic, hdr, mem, s.seqNum⟩] }
  if ok then { s with seqNum := s.seqNum + 1 } else { s with exited := true }

/-- `send_ping` or `send_pong`, and what `rcl_publish` returns. -/
structure Act where
  topic : Topic
  ok : Bool

def step (s : State) (a : Act) : Option State :=
  if s.exited then none else some (sendImpl s a.topic a.ok)

/-- Any sequence of sends. -/
def machine : Machine State Act := ⟨step⟩

/-- No message sent yet. -/
def State.start (mem : Mem) (outgoing : Topic → Header) (seqNum : BitVec 32) : State :=
  ⟨mem, outgoing, seqNum, false, []⟩

/-- The header is a string of its text, whole. -/
structure Passed.Complete (p : Passed) : Prop where
  size : p.header.frameId.size.toNat < p.header.frameId.capacity.toNat
  nul : p.mem (p.header.frameId.data + p.header.frameId.size.toNat) = 0
  text : p.mem.read p.header.frameId.data p.header.frameId.size.toNat = frameText p.seqNum

/-- The identifier that is published. -/
def Passed.identifier (p : Passed) : List Byte :=
  p.mem.read p.header.frameId.data p.header.frameId.size.toNat

/-! ## One send -/

/-- The text fits the capacity of the header. -/
def Passed.Fits (p : Passed) : Prop := (frameText p.seqNum).length < p.header.frameId.capacity.toNat

/-- The text takes three bytes at least: a digit, the underscore, a digit. -/
theorem frameText_length (seqNum : BitVec 32) : 3 ≤ (frameText seqNum).length := by
  have hseq := intText_length_pos seqNum.toInt
  have hdevice := intText_length_pos deviceId
  rw [frameText, pairText_length]
  omega

theorem frameText_length_le (seqNum : BitVec 32) : (frameText seqNum).length ≤ 13 := by
  have hseq := intText_length_le (BitVec.le_toInt seqNum) (BitVec.toInt_lt)
  have hdevice : (intText deviceId).length = 1 := rfl
  rw [frameText, pairText_length]
  omega

/-- The text tells the number. -/
theorem frameText_inj {a b : BitVec 32} (h : frameText a = frameText b) : a = b :=
  BitVec.eq_of_toInt_eq (pairText_inj h).1

/-- What a send passes to `rcl_publish`. -/
def sent (s : State) (topic : Topic) : Passed :=
  let id := (s.outgoing topic).frameId
  let text := frameText s.seqNum
  ⟨topic, ⟨0, 0, { id with size := BitVec.ofNat 64 text.length }⟩,
    (snprintf s.mem id.data id.capacity.toNat text).1, s.seqNum⟩

theorem sendImpl_passed (s : State) (topic : Topic) (ok : Bool) :
    (sendImpl s topic ok).passed = s.passed ++ [sent s topic] := by
  cases ok <;> rfl

theorem sendImpl_capacity (s : State) (topic t : Topic) (ok : Bool) :
    ((sendImpl s topic ok).outgoing t).frameId.capacity = (s.outgoing t).frameId.capacity := by
  by_cases h : t = topic
  · subst h
    cases ok <;> simp [sendImpl]
  · cases ok <;> simp [sendImpl, h]

/-- A header is complete just when its text fits. -/
theorem sent_complete_iff (s : State) (topic : Topic) : (sent s topic).Complete ↔ (sent s topic).Fits := by
  have hle := frameText_length_le s.seqNum
  have hsize : (sent s topic).header.frameId.size.toNat = (frameText s.seqNum).length := by
    have hlen : (BitVec.ofNat 64 (frameText s.seqNum).length).toNat = (frameText s.seqNum).length := by
      rw [BitVec.toNat_ofNat]
      omega
    exact hlen
  constructor
  · intro h
    have := h.size
    rw [hsize] at this
    exact this
  · intro h
    obtain ⟨htext, hnul⟩ := snprintf_stringAt s.mem (s.outgoing topic).frameId.data h
    refine ⟨?_, ?_, ?_⟩
    · rw [hsize]
      exact h
    · rw [hsize]
      exact hnul
    · rw [hsize]
      exact htext

/-! ## Every run of sends -/

/-- What a run keeps: the capacities are those of the start, the numbers count up
from its `seqNum`, and each header is complete just when its text fits. -/
structure Inv (start s : State) : Prop where
  capacity : ∀ t, (s.outgoing t).frameId.capacity = (start.outgoing t).frameId.capacity
  seqNum : s.exited = false → s.seqNum = start.seqNum + BitVec.ofNat 32 s.passed.length
  passed : ∀ i p, s.passed[i]? = some p → p.seqNum = start.seqNum + BitVec.ofNat 32 i ∧
    p.header.frameId.capacity = (start.outgoing p.topic).frameId.capacity ∧ (p.Complete ↔ p.Fits)

theorem step_inv {start s t : State} {a : Act} (h : Inv start s) (hstep : step s a = some t) :
    Inv start t := by
  unfold step at hstep
  split at hstep
  · cases hstep
  next hrunning =>
  cases hstep
  have hseq := h.seqNum (Bool.eq_false_of_not_eq_true hrunning)
  refine ⟨fun u => ?_, ?_, ?_⟩
  · rw [sendImpl_capacity]
    exact h.capacity u
  · intro hexited
    rw [sendImpl_passed, List.length_append, List.length_singleton]
    obtain ⟨topic, ok⟩ := a
    cases ok with
    | false => cases hexited
    | true =>
      have hnext : (sendImpl s topic true).seqNum = s.seqNum + 1 := rfl
      rw [hnext, hseq, BitVec.add_assoc, BitVec.ofNat_add]
      rfl
  · intro i p hp
    rw [sendImpl_passed] at hp
    rcases getElem?_grown hp with hold | ⟨rfl, rfl⟩
    · exact h.passed i p hold
    · exact ⟨hseq, h.capacity a.topic, sent_complete_iff s a.topic⟩

theorem run_inv {mem : Mem} {outgoing : Topic → Header} {seqNum : BitVec 32} {s : State}
    (hrun : machine.Reach (State.start mem outgoing seqNum) s) :
    Inv (State.start mem outgoing seqNum) s := by
  refine hrun.invariant _ ⟨fun _ => rfl, fun _ => ?_, ?_⟩ fun _ _ _ h _ hstep => step_inv h hstep
  · exact (BitVec.add_zero _).symm
  · intro i p hp
    cases hp

/-- **A header is complete just when its text is shorter than its capacity**, for
every send of every run, whatever the memory, the headers and `seqNum` at the
start. Complete headers of distinct sends carry distinct identifiers, as long as
`seqNum` has not come round. -/
theorem send_complete_iff (mem : Mem) (outgoing : Topic → Header) (seqNum : BitVec 32) {s : State}
    (hrun : machine.Reach (State.start mem outgoing seqNum) s) :
    (∀ i p, s.passed[i]? = some p → p.seqNum = seqNum + BitVec.ofNat 32 i ∧
      (p.Complete ↔ (frameText p.seqNum).length < (outgoing p.topic).frameId.capacity.toNat)) ∧
    (s.passed.length ≤ 2 ^ 32 → ∀ (i j : Nat) (p q : Passed), i ≠ j → s.passed[i]? = some p →
      s.passed[j]? = some q → p.Complete → q.Complete → p.identifier ≠ q.identifier) := by
  have hinv := run_inv hrun
  constructor
  · intro i p hp
    obtain ⟨hseq, hcapacity, hcomplete⟩ := hinv.passed i p hp
    refine ⟨hseq, ?_⟩
    rw [hcomplete, Passed.Fits, hcapacity]
    rfl
  · intro hlen i j p q hij hp hq hcp hcq hsame
    have hi := (List.getElem?_eq_some_iff.mp hp).1
    have hj := (List.getElem?_eq_some_iff.mp hq).1
    have hnum : p.seqNum = q.seqNum := frameText_inj (hcp.text.symm.trans (hsame.trans hcq.text))
    rw [(hinv.passed i p hp).1, (hinv.passed j q hq).1] at hnum
    have hback := congrArg BitVec.toNat ((BitVec.add_right_inj seqNum).mp hnum)
    rw [BitVec.toNat_ofNat, BitVec.toNat_ofNat, Nat.mod_eq_of_lt (by omega),
      Nat.mod_eq_of_lt (by omega)] at hback
    exact hij hback

/-- The outgoing headers, each with a `frame_id` of some capacity at 0 or at 256. -/
def headers (capacity : BitVec 64) : Topic → Header
  | .ping => ⟨0, 0, 0, 0, capacity⟩
  | .pong => ⟨0, 0, 256, 0, capacity⟩

/-- A ping and a pong with room for their texts. -/
theorem send_complete_two :
    ∃ s p q, machine.Reach (State.start (fun _ => 0xAA) (headers 100) 9) s ∧ s.passed = [p, q] ∧
      p.Complete ∧ q.Complete ∧ p.identifier ≠ q.identifier := by
  have hrun : machine.Reach (State.start (fun _ => 0xAA) (headers 100) 9)
      (sendImpl (sendImpl (State.start (fun _ => 0xAA) (headers 100) 9) .ping true) .pong true) :=
    (Machine.Run.single (a := ⟨.ping, true⟩) trivial rfl).step (a := ⟨.pong, true⟩) trivial rfl
  obtain ⟨hall, hdistinct⟩ := send_complete_iff _ _ _ hrun
  have hp := (hall 0 _ rfl).2.mpr (by decide)
  have hq := (hall 1 _ rfl).2.mpr (by decide)
  exact ⟨_, _, _, hrun, rfl, hp, hq, hdistinct (by decide) 0 1 _ _ (by decide) rfl rfl hp hq⟩

/-- With the capacity that `std_msgs__msg__Header__init` leaves, the first ping says
it has 3 bytes in 1, and no message of any run is complete. -/
theorem send_incomplete_shipped :
    (∃ s p, machine.Reach (State.start (fun _ => 0) (headers 1) 0) s ∧ s.passed = [p] ∧
      p.header.frameId.size = 3 ∧ p.header.frameId.capacity = 1 ∧ p.mem 0 = 0) ∧
    ∀ s, machine.Reach (State.start (fun _ => 0) (headers 1) 0) s → ∀ p ∈ s.passed, ¬ p.Complete := by
  constructor
  · exact ⟨_, _, Machine.Run.single (a := ⟨.ping, true⟩) trivial rfl, rfl, rfl, rfl, rfl⟩
  · intro s hrun p hmem hcomplete
    obtain ⟨i, hp⟩ := List.mem_iff_getElem?.mp hmem
    obtain ⟨_, hcapacity, hiff⟩ := (run_inv hrun).passed i p hp
    have hfits := hiff.mp hcomplete
    have hlen := frameText_length p.seqNum
    have hone : p.header.frameId.capacity = 1 := hcapacity.trans (by cases p.topic <;> rfl)
    rw [Passed.Fits, hone] at hfits
    have : (1 : BitVec 64).toNat = 1 := rfl
    omega

end MicroRosDemos.Sel4.Send
