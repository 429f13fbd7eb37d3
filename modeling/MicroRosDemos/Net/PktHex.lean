import MicroRosDemos.Lib.Hex
import MicroRosDemos.Net.Packet

/-!
# Packets in hexadecimal

`put_pkt_hex` prints each byte of a packet as two digits and a blank, with one `sprintf`
after the other, so that each writes its digits over the NUL of the one before. As long as
the output is nowhere over the packet, what stands there at the end is the string of the
whole packet, unless that is empty, from which `sscanf` would have it back
(`putPktHex_dump`). How long the output array is the function is not told: `dbgBuf`, of
2048 bytes, is enough for 682.
-/

namespace MicroRosDemos.Net

open MicroRosDemos.Lib

/-- `sprintf(p, "%02x ", b)`: the memory after it, and its result. -/
def sprintfByte (m : Mem) (p : Nat) (b : Byte) : Mem × Nat :=
  let text := byteText b ++ [32]
  (m.write p (text ++ [0]), text.length)

/-- `put_pkt_hex`, by turns of its loop: the memory after it, and `bytesPrinted`. -/
def putPktHex (m : Mem) (outBuf pkt : Nat) : Nat → Mem × Nat
  | 0 => (m, 0)
  | i + 1 =>
    let (m, bytesPrinted) := putPktHex m outBuf pkt i
    let (m, n) := sprintfByte m (outBuf + bytesPrinted) (m (pkt + i))
    (m, bytesPrinted + n)

/-- `sizeof dbgBuf`. -/
def dbgBufSize : Nat := 2048

/-- What is written for a packet: its dump and a NUL, and nothing for no packet. -/
def hexBytes (bs : List Byte) : List Byte := if bs = [] then [] else dump bs ++ [0]

variable {m : Mem} {outBuf pkt n : Nat}

theorem hexBytes_length (bs : List Byte) :
    (hexBytes bs).length = if bs = [] then 0 else 3 * bs.length + 1 := by
  unfold hexBytes
  split
  · rfl
  · rw [List.length_append, dump_length, List.length_singleton]

theorem dump_append (as bs : List Byte) : dump (as ++ bs) = dump as ++ dump bs := List.flatMap_append

/-- A turn writes over the NUL of the turn before. -/
theorem write_hexBytes (m : Mem) (p : Nat) (bs : List Byte) (b : Byte) :
    (m.write p (hexBytes bs)).write (p + 3 * bs.length) (byteText b ++ [32] ++ [0]) =
      m.write p (hexBytes (bs ++ [b])) := by
  have hnext : hexBytes (bs ++ [b]) = dump bs ++ (byteText b ++ [32] ++ [0]) := by
    rw [hexBytes, if_neg (List.append_ne_nil_of_right_ne_nil _ (List.cons_ne_nil _ _)), dump_append,
      List.append_assoc]
    rfl
  have hdump := Mem.write_append m p (dump bs) (byteText b ++ [32] ++ [0])
  have hnul := Mem.write_append m p (dump bs) [0]
  rw [dump_length] at hdump hnul
  rw [hnext, ← hdump]
  unfold hexBytes
  split
  · next hnil =>
    rw [hnil, Mem.write_nil, dump, List.flatMap_nil, Mem.write_nil]
  · rw [← hnul, Mem.write_write _ _ [0] _ (Nat.le_add_left 1 _)]

/-- **The loop.** Over a packet that it does not write to, the function is one write. -/
theorem putPktHex_eq_write (m : Mem) {outBuf pkt : Nat} (n : Nat)
    (happart : pkt + n ≤ outBuf ∨ outBuf + 3 * n + 1 ≤ pkt) :
    putPktHex m outBuf pkt n = (m.write outBuf (hexBytes (m.read pkt n)), 3 * n) := by
  induction n with
  | zero =>
    have hnothing : hexBytes (m.read pkt 0) = [] := if_pos rfl
    rw [putPktHex, hnothing, Mem.write_nil, Nat.mul_zero]
  | succ n ih =>
    have hlen := hexBytes_length (m.read pkt n)
    rw [Mem.read_length] at hlen
    have hbyte : m.write outBuf (hexBytes (m.read pkt n)) (pkt + n) = m (pkt + n) := by
      refine Mem.write_outside _ _ _ ?_
      rw [hlen]
      split <;> omega
    have hread : m.read pkt (n + 1) = m.read pkt n ++ [m (pkt + n)] := by
      rw [Mem.read_add]
      rfl
    have hwrite := write_hexBytes m outBuf (m.read pkt n) (m (pkt + n))
    rw [Mem.read_length] at hwrite
    rw [putPktHex, ih (by omega)]
    dsimp only [sprintfByte]
    rw [hbyte, hwrite, hread]
    rfl

/-- **A packet in hexadecimal is the packet.** Over a packet that is not empty and that it
does not write to, `put_pkt_hex` returns three times the length and leaves a string of as many characters, from
which `%hhx` reads exactly the bytes of the packet; and nothing outside these characters and
their NUL is changed. -/
theorem putPktHex_dump (m : Mem) (outBuf pkt n : Nat)
    (happart : pkt + n ≤ outBuf ∨ outBuf + 3 * n + 1 ≤ pkt) (hpos : 0 < n) :
    (putPktHex m outBuf pkt n).2 = 3 * n ∧
      (∃ text, StringAt (putPktHex m outBuf pkt n).1 outBuf text ∧ text.length = 3 * n ∧
        0 ∉ text ∧ scanBytes n text = m.read pkt n) ∧
      ∀ a, a < outBuf ∨ outBuf + 3 * n + 1 ≤ a → (putPktHex m outBuf pkt n).1 a = m a := by
  have hlen := dump_length (m.read pkt n)
  have hback := scanBytes_dump (m.read pkt n)
  rw [Mem.read_length] at hlen hback
  have hne : m.read pkt n ≠ [] := List.ne_nil_of_length_pos (by rw [Mem.read_length]; exact hpos)
  have hbytes : hexBytes (m.read pkt n) = dump (m.read pkt n) ++ [0] := if_neg hne
  rw [putPktHex_eq_write m n happart, hbytes]
  refine ⟨rfl, ⟨dump (m.read pkt n), ⟨?_, ?_⟩, hlen, fun h => dump_ne_zero h rfl, hback⟩, fun a ha => ?_⟩
  · rw [← Mem.write_append]
    rw [Mem.read_write_disjoint _ _ _ _ (.inl (Nat.le_refl _))]
    exact Mem.read_write_self _ _ _
  · dsimp only
    rw [Mem.write_add, List.getElem?_append_right (Nat.le_refl _), Nat.sub_self]
    rfl
  · refine Mem.write_outside _ _ _ ?_
    rw [List.length_append, hlen, List.length_singleton]
    omega

/-- The first bytes of an ARP request. -/
theorem putPktHex_dump_three :
    (putPktHex (Mem.ofList [0xFF, 0x08, 0x06]) 100 0 3).2 = 9 ∧
      ∃ text, StringAt (putPktHex (Mem.ofList [0xFF, 0x08, 0x06]) 100 0 3).1 100 text ∧
        text = "ff 08 06 ".toList.map ascii ∧ scanBytes 3 text = [0xFF, 0x08, 0x06] := by
  obtain ⟨hret, ⟨text, hstring, hlen, _, hscan⟩, _⟩ :=
    putPktHex_dump (Mem.ofList [0xFF, 0x08, 0x06]) 100 0 3 (by decide) (by decide)
  refine ⟨hret, text, hstring, ?_, hscan⟩
  rw [← hstring.1, hlen]
  decide +kernel

/-! ## How much fits -/

theorem putPktHex_ret (m : Mem) (outBuf pkt n : Nat) : (putPktHex m outBuf pkt n).2 = 3 * n := by
  induction n with
  | zero => rfl
  | succ n ih =>
    rw [putPktHex]
    dsimp only
    rw [ih]
    rfl

/-- The characters and the NUL are all that is written, also over a packet that they are in. -/
theorem putPktHex_outside (m : Mem) (outBuf pkt n : Nat) {a : Nat}
    (ha : a < outBuf ∨ outBuf + 3 * n + 1 ≤ a) : (putPktHex m outBuf pkt n).1 a = m a := by
  induction n with
  | zero => rfl
  | succ n ih =>
    rw [putPktHex]
    dsimp only [sprintfByte]
    rw [putPktHex_ret, Mem.write_outside _ _ _ ?_]
    · exact ih (by omega)
    · have hfour (b : Byte) : (byteText b ++ [32] ++ [0]).length = 4 := rfl
      rw [hfour]
      omega

/-- The last turn puts its NUL behind all characters. -/
theorem putPktHex_nul (m : Mem) (outBuf pkt n : Nat) :
    (putPktHex m outBuf pkt (n + 1)).1 (outBuf + 3 * (n + 1)) = 0 := by
  rw [putPktHex]
  dsimp only [sprintfByte]
  rw [putPktHex_ret, Nat.mul_succ, ← Nat.add_assoc, Mem.write_add]
  rfl

/-- **Which packets fit the output.** A call leaves everything outside an output array of `size`
bytes alone, in every memory, just when the packet is empty or three characters for each of
its bytes and a NUL fit the array. -/
theorem putPktHex_inside_iff (outBuf pkt n size : Nat) :
    (∀ m a, a < outBuf ∨ outBuf + size ≤ a → (putPktHex m outBuf pkt n).1 a = m a) ↔
      n = 0 ∨ 3 * n + 1 ≤ size := by
  constructor
  · intro h
    cases n with
    | zero => exact .inl rfl
    | succ n =>
      refine .inr (Nat.not_lt.mp fun hshort => ?_)
      -- the NUL is put where no byte was zero
      have hsame := h (fun _ => 1) (outBuf + 3 * (n + 1)) (.inr (by omega))
      rw [putPktHex_nul] at hsame
      cases hsame
  · rintro (rfl | hfits) m a ha
    · rfl
    · exact putPktHex_outside m outBuf pkt n (by omega)

/-- `dbgBuf` is large enough for 682 bytes, and too small for one more. -/
theorem putPktHex_inside_dbgBuf :
    (∀ m a, a < 4096 ∨ 4096 + dbgBufSize ≤ a → (putPktHex m 4096 0 682).1 a = m a) ∧
      ¬ ∀ m a, a < 4096 ∨ 4096 + dbgBufSize ≤ a → (putPktHex m 4096 0 683).1 a = m a :=
  ⟨(putPktHex_inside_iff 4096 0 682 dbgBufSize).mpr (by decide),
    fun h => absurd ((putPktHex_inside_iff 4096 0 683 dbgBufSize).mp h) (by decide)⟩

end MicroRosDemos.Net
