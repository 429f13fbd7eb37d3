import Mathlib.Data.BitVec
import Mathlib.Data.List.Basic

/-!
# Byte memory

A flat memory of bytes with total addresses, and the two range operations a C
program has: copying bytes in and copying bytes out. The laws are the frame
laws: a write changes its own range and nothing else, so a read of a disjoint
range is unmoved, and a read that starts where the write did sees the written
bytes and then whatever lay behind them.
-/

namespace MicroRosDemos.Lib

/-- One octet. -/
abbrev Byte := BitVec 8

/-- A byte at every address. -/
abbrev Mem := Nat → Byte

namespace Mem

/-- The `n` bytes from `p` on. -/
def read (m : Mem) (p n : Nat) : List Byte := (List.range n).map fun i => m (p + i)

/-- `m` with the bytes `bs` copied to `p`. -/
def write (m : Mem) (p : Nat) (bs : List Byte) : Mem := fun a =>
  if p ≤ a then (bs[a - p]?).getD (m a) else m a

/-- The memory that starts with `bs` at address `0` and is zero behind it. -/
def ofList (bs : List Byte) : Mem := fun a => bs.getD a 0

variable (m : Mem) (p n : Nat) (bs : List Byte)

@[simp] theorem read_length : (m.read p n).length = n := by
  simp [read]

theorem getElem_read {i : Nat} (h : i < (m.read p n).length) : (m.read p n)[i] = m (p + i) := by
  simp [read]

/-- The byte at an offset from a write: the written one, or else what was there. -/
theorem write_add (i : Nat) : m.write p bs (p + i) = (bs[i]?).getD (m (p + i)) := by
  simp [write]

theorem write_inside {a : Nat} (hlo : p ≤ a) (hhi : a - p < bs.length) :
    m.write p bs a = bs[a - p] := by
  simp [write, hlo, hhi]

theorem write_outside {a : Nat} (h : a < p ∨ p + bs.length ≤ a) : m.write p bs a = m a := by
  unfold write
  split
  · have : bs.length ≤ a - p := by omega
    simp [this]
  · rfl

/-- A read depends on its own range only. -/
theorem read_congr {m m' : Mem} {p n : Nat} (h : ∀ a, p ≤ a → a < p + n → m a = m' a) :
    m.read p n = m'.read p n := by
  unfold read
  refine List.map_congr_left fun i hi => h _ (Nat.le_add_right _ _) ?_
  have := List.mem_range.mp hi
  omega

theorem read_add (k : Nat) : m.read p (n + k) = m.read p n ++ m.read (p + n) k := by
  simp [read, List.range_add, Nat.add_assoc, Function.comp_def]

theorem read_take {k : Nat} (h : k ≤ n) : (m.read p n).take k = m.read p k := by
  obtain ⟨j, rfl⟩ := Nat.exists_eq_add_of_le h
  rw [read_add]
  exact List.take_left' (read_length m p k)

/-- The bytes that two reads from one place have in common. -/
theorem read_take_comm (k : Nat) : (m.read p n).take k = (m.read p k).take n := by
  rcases Nat.le_total k n with h | h
  · rw [read_take m p n h, List.take_of_length_le (by rw [read_length]; exact h)]
  · rw [read_take m p k h, List.take_of_length_le (by rw [read_length]; exact h)]

theorem read_drop {k : Nat} (h : k ≤ n) : (m.read p n).drop k = m.read (p + k) (n - k) := by
  obtain ⟨j, rfl⟩ := Nat.exists_eq_add_of_le h
  rw [read_add, Nat.add_sub_cancel_left]
  exact List.drop_left' (read_length m p k)

/-- The list is there. -/
theorem read_ofList : (ofList bs).read 0 bs.length = bs := by
  refine List.ext_getElem (read_length _ _ _) fun i h₁ h₂ => ?_
  rw [getElem_read, Nat.zero_add, ofList, List.getD_eq_getElem?_getD, List.getElem?_eq_getElem h₂]
  rfl

/-- A read disjoint from the written range is unmoved. -/
theorem read_write_disjoint {q : Nat} (h : q + n ≤ p ∨ p + bs.length ≤ q) :
    (m.write p bs).read q n = m.read q n :=
  read_congr fun a _ _ => write_outside m p bs (by omega)

/-- A read of exactly the written range gives the written bytes. -/
theorem read_write_self : (m.write p bs).read p bs.length = bs := by
  refine List.ext_getElem (by simp) fun i h₁ h₂ => ?_
  rw [getElem_read, write_inside m p bs (Nat.le_add_right _ _) (by omega)]
  simp

/-- A longer read from the start of the written range sees the written bytes,
then what lay behind them. -/
theorem read_write (h : bs.length ≤ n) :
    (m.write p bs).read p n = bs ++ m.read (p + bs.length) (n - bs.length) := by
  obtain ⟨k, rfl⟩ := Nat.exists_eq_add_of_le h
  rw [read_add, read_write_self, read_write_disjoint _ _ _ _ (by omega), Nat.add_sub_cancel_left]

/-- Writing nothing changes nothing. -/
theorem write_nil : m.write p [] = m := by
  funext a
  exact write_outside m p [] (by simp only [List.length_nil]; omega)

/-- A write over the start of an earlier one at the same place. -/
theorem write_write (cs : List Byte) (h : bs.length ≤ cs.length) :
    (m.write p bs).write p cs = m.write p cs := by
  funext a
  by_cases ha : p ≤ a ∧ a - p < cs.length
  · rw [write_inside _ p cs ha.1 ha.2, write_inside _ p cs ha.1 ha.2]
  · rw [write_outside _ p cs (by omega), write_outside _ p cs (by omega),
      write_outside _ p bs (by omega)]

/-- Two writes side by side are one. -/
theorem write_append (cs : List Byte) :
    (m.write p bs).write (p + bs.length) cs = m.write p (bs ++ cs) := by
  funext a
  by_cases h : p ≤ a ∧ a - p < bs.length
  · rw [write_outside _ _ cs (by omega), write_inside m p bs h.1 h.2,
      write_inside m p _ h.1 (by simp only [List.length_append]; omega), List.getElem_append_left h.2]
  · by_cases hc : p + bs.length ≤ a ∧ a - (p + bs.length) < cs.length
    · rw [write_inside _ _ cs hc.1 hc.2,
        write_inside m p _ (by omega) (by simp only [List.length_append]; omega),
        List.getElem_append_right (by omega)]
      congr 1
      omega
    · rw [write_outside _ _ cs (by omega), write_outside m p bs (by omega),
        write_outside m p _ (by simp only [List.length_append]; omega)]

/-- The list `cs` with `bs` laid over it from index `k` on. -/
def overlay (k : Nat) (bs cs : List Byte) : List Byte := cs.take k ++ bs ++ cs.drop (k + bs.length)

theorem overlay_length {k : Nat} {bs cs : List Byte} (h : k + bs.length ≤ cs.length) :
    (overlay k bs cs).length = cs.length := by
  simp only [overlay, List.length_append, List.length_take, List.length_drop]
  omega

/-- An overlaid list holds `bs` from `k` on, and `cs` elsewhere. -/
theorem overlay_getElem? {k : Nat} {bs cs : List Byte} (h : k + bs.length ≤ cs.length) (i : Nat) :
    (overlay k bs cs)[i]? = if k ≤ i ∧ i < k + bs.length then bs[i - k]? else cs[i]? := by
  have hlen : (cs.take k).length = k := List.length_take_of_le (by omega)
  unfold overlay
  rw [List.append_assoc]
  rcases Nat.lt_or_ge i k with hi | hi
  · rw [List.getElem?_append_left (by omega), List.getElem?_take_of_lt hi, if_neg (by omega)]
  · rw [List.getElem?_append_right (by omega), hlen]
    rcases Nat.lt_or_ge i (k + bs.length) with hj | hj
    · rw [List.getElem?_append_left (by omega), if_pos ⟨hi, hj⟩]
    · rw [List.getElem?_append_right (by omega), List.getElem?_drop, if_neg (by omega)]
      congr 1
      omega

/-- A write inside an earlier one is one write of the overlaid bytes. -/
theorem write_inside_write {k : Nat} (cs : List Byte) (h : k + bs.length ≤ cs.length) :
    (m.write p cs).write (p + k) bs = m.write p (overlay k bs cs) := by
  funext a
  by_cases ha : p ≤ a
  · have hright : m.write p (overlay k bs cs) a =
        (if k ≤ a - p ∧ a - p < k + bs.length then bs[a - p - k]? else cs[a - p]?).getD (m a) := by
      rw [← overlay_getElem? h]
      exact if_pos ha
    rw [hright]
    by_cases hin : k ≤ a - p ∧ a - p < k + bs.length
    · rw [if_pos hin, write_inside _ _ _ (by omega) (by omega),
        List.getElem?_eq_getElem (by omega), Option.getD_some]
      congr 1
      omega
    · rw [if_neg hin, write_outside _ _ _ (by omega)]
      exact if_pos ha
  · rw [write_outside _ _ _ (by omega), write_outside _ _ _ (by omega),
      write_outside _ _ _ (by omega)]

end Mem

end MicroRosDemos.Lib
