import MicroRosDemos.Lib.Machine
import MicroRosDemos.Lib.Text
import MicroRosDemos.Net.Stack

/-!
# The guest's echo server: `vm_echo.c`

`main` receives a datagram into `buf`, puts a NUL behind it, prints it as a string and
sends it back to where it came from, again and again in the same buffer. Longer
datagrams leave their ends there. Still every reply is its own datagram, and so is
every line (`echo_replies`).
-/

namespace MicroRosDemos.Sel4.VmEcho

open MicroRosDemos.Lib MicroRosDemos.Net

/-- `sizeof(buf)`. -/
def bufSize : Nat := 1500

/-- What a turn of the loop prints: the length and the string of a datagram, or what
`recvfrom` returned. -/
inductive Line
  | received (n : Nat) (text : List Byte)
  | returned (n : Int)
deriving DecidableEq

/-- The memory around `buf`. The histories are the datagrams received, the lines
printed and the datagrams sent. -/
structure State where
  mem : Mem
  received : List Dgram
  lines : List Line
  sent : List Dgram

/-- A turn of the loop in `main`, with what `recvfrom` gets: a datagram, of which it
takes what fits, or an error. -/
def turn (buf : Nat) (s : State) : Option Dgram → State
  | none => { s with lines := s.lines ++ [.returned (-1)] }
  | some d =>
    let taken := d.data.take (bufSize - 1)
    let n := taken.length
    let mem := s.mem.write buf taken
    if 0 < n then
      let mem := mem.write (buf + n) [0]
      { mem
        received := s.received ++ [d]
        lines := s.lines ++ [.received n (cstring (mem.read buf bufSize))]
        sent := s.sent ++ [⟨d.peer, mem.read buf n⟩] }
    else { s with mem, received := s.received ++ [d], lines := s.lines ++ [.returned n] }

/-- The server before its loop, over any memory. -/
def State.start (mem : Mem) : State := ⟨mem, [], [], []⟩

/-- The server, whatever it receives. -/
def machine (buf : Nat) : Machine State (Option Dgram) := ⟨fun s r => some (turn buf s r)⟩

/-! ## What it should do -/

/-- The reply to a datagram: what fits of it, back to its sender; none to an empty one. -/
def reply (d : Dgram) : Option Dgram :=
  if d.data = [] then none else some ⟨d.peer, d.data.take (bufSize - 1)⟩

/-- The line for a datagram. -/
def line (d : Dgram) : Line :=
  if d.data = [] then .returned 0
  else .received (d.data.take (bufSize - 1)).length (cstring (d.data.take (bufSize - 1)))

/-- Every datagram was answered and printed, as it is, and nothing outside `buf` was
touched. -/
structure Echoes (buf : Nat) (before : Mem) (s : State) : Prop where
  sent : s.sent = s.received.filterMap reply
  lines : s.lines.filter (· ≠ .returned (-1)) = s.received.map line
  outside : ∀ a, a < buf ∨ buf + bufSize ≤ a → s.mem a = before a

variable {buf : Nat} {before : Mem} {s t : State} {r : Option Dgram}

/-- The string in an array is that of what stands before a NUL. -/
theorem cstring_ended (bs cs : List Byte) : cstring (bs ++ 0 :: cs) = cstring bs := by
  unfold cstring
  rw [List.takeWhile_append]
  split
  · next hall =>
    rw [List.takeWhile_cons_of_neg (by decide), List.append_nil]
    exact ((List.takeWhile_prefix _).eq_of_length hall).symm
  · rfl

/-- What was received, and the NUL behind it. -/
theorem read_ended (m : Mem) (buf : Nat) (bs : List Byte) (hlen : bs.length < bufSize) :
    ((m.write buf bs).write (buf + bs.length) [0]).read buf bs.length = bs ∧
      cstring (((m.write buf bs).write (buf + bs.length) [0]).read buf bufSize) = cstring bs := by
  have hread : ((m.write buf bs).write (buf + bs.length) [0]).read buf (bs.length + 1) = bs ++ [0] := by
    have hself := Mem.read_write_self m buf (bs ++ [0])
    rw [List.length_append] at hself
    rw [Mem.write_append]
    exact hself
  constructor
  · rw [← Mem.read_take _ _ _ (Nat.le_succ _), hread, List.take_left]
  · obtain ⟨rest, hrest⟩ : ∃ rest, bufSize = bs.length + 1 + rest := ⟨bufSize - (bs.length + 1), by omega⟩
    rw [hrest, Mem.read_add, hread, List.append_assoc]
    exact cstring_ended _ _

/-- Every turn keeps to its datagram. -/
theorem turn_echoes (h : Echoes buf before s) : Echoes buf before (turn buf s r) := by
  obtain ⟨hsent, hlines, houtside⟩ := h
  cases r with
  | none =>
    refine ⟨hsent, ?_, houtside⟩
    show (s.lines ++ [Line.returned (-1)]).filter (· ≠ .returned (-1)) = _
    rw [List.filter_append, hlines, List.filter_singleton]
    exact List.append_nil _
  | some d =>
    have hlt : (d.data.take (bufSize - 1)).length < bufSize := by
      rw [List.length_take]
      unfold bufSize
      omega
    unfold turn
    dsimp only
    split
    · next hpos =>
      have hne : d.data ≠ [] := by
        rintro hnil
        rw [hnil] at hpos
        cases hpos
      obtain ⟨hback, htext⟩ := read_ended s.mem buf _ hlt
      refine ⟨?_, ?_, fun a ha => ?_⟩
      · rw [hsent, List.filterMap_append, hback]
        simp only [List.filterMap_cons, List.filterMap_nil, reply, if_neg hne]
      · rw [List.filter_append, hlines, List.map_append, htext]
        simp only [List.map_cons, List.map_nil, line, if_neg hne]
        rfl
      · dsimp only
        rw [Mem.write_outside _ _ _ (by simp only [List.length_singleton]; omega),
          Mem.write_outside _ _ _ (by omega)]
        exact houtside a ha
    · next hzero =>
      have hlen : (d.data.take (bufSize - 1)).length = 0 := Nat.eq_zero_of_not_pos hzero
      have hnil : d.data = [] := by
        rw [List.length_take] at hlen
        unfold bufSize at hlen
        exact List.eq_nil_of_length_eq_zero (by omega)
      refine ⟨?_, ?_, fun a ha => ?_⟩
      · rw [hsent, List.filterMap_append]
        simp only [List.filterMap_cons, List.filterMap_nil, reply, if_pos hnil, List.append_nil]
      · rw [List.filter_append, hlines, List.map_append, hlen]
        simp only [List.map_cons, List.map_nil, line, if_pos hnil]
        rfl
      · dsimp only
        rw [Mem.write_outside _ _ _ (by omega)]
        exact houtside a ha

/-- **The server echoes.** Whatever it receives, however often `recvfrom` fails and
whatever the buffer held: each datagram that is not empty is sent back to its sender,
what fits of it, in the order received and once each; each is printed as the string it
holds; and nothing outside `buf` is written. -/
theorem echo_replies (hrun : (machine buf).Reach (.start before) s) :
    Echoes buf before s := by
  refine hrun.invariant (Echoes buf before) ⟨rfl, rfl, fun _ _ => rfl⟩ fun _ _ _ h _ hstep => ?_
  cases hstep
  exact turn_echoes h

/-- A datagram of three bytes, an error, and a datagram of one byte. -/
theorem echo_replies_two :
    ∃ s, (machine 0).Reach (.start fun _ => 7) s ∧ s.sent.map Dgram.data = [[1, 2, 3], [4]] ∧
      s.lines = [.received 3 [1, 2, 3], .returned (-1), .received 1 [4]] ∧ Echoes 0 (fun _ => 7) s := by
  obtain ⟨s, hreach, hsent, hlines⟩ := (machine 0).exists_reach
    (P := fun s => s.sent.map Dgram.data = [[1, 2, 3], [4]] ∧
      s.lines = [.received 3 [1, 2, 3], .returned (-1), .received 1 [4]])
    (s := .start fun _ => 7)
    [some ⟨⟨1, 2⟩, [1, 2, 3]⟩, none, some ⟨⟨1, 2⟩, [4]⟩] (by decide +kernel)
  exact ⟨s, hreach, hsent, hlines, echo_replies hreach⟩

end MicroRosDemos.Sel4.VmEcho
