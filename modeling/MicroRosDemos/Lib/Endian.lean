import MicroRosDemos.Lib.Memory

/-!
# Little-endian loads and stores

How a little-endian machine lays 16-bit and 32-bit values out in bytes, how it
loads them back, and the byte swap that turns its order into the network's.
-/

namespace MicroRosDemos.Lib

/-- The bytes of a 16-bit value, low byte first. -/
def le16 (v : BitVec 16) : List Byte := [v.extractLsb' 0 8, v.extractLsb' 8 8]

/-- The bytes of a 32-bit value, low byte first. -/
def le32 (v : BitVec 32) : List Byte :=
  [v.extractLsb' 0 8, v.extractLsb' 8 8, v.extractLsb' 16 8, v.extractLsb' 24 8]

/-- The two bytes exchanged. -/
def bswap16 (v : BitVec 16) : BitVec 16 := v.extractLsb' 0 8 ++ v.extractLsb' 8 8

/-- A 16-bit load. -/
def Mem.load16 (m : Mem) (p : Nat) : BitVec 16 := m (p + 1) ++ m p

/-- A 32-bit load. -/
def Mem.load32 (m : Mem) (p : Nat) : BitVec 32 := m (p + 3) ++ m (p + 2) ++ m (p + 1) ++ m p

@[simp] theorem le16_length (v : BitVec 16) : (le16 v).length = 2 := rfl

@[simp] theorem le32_length (v : BitVec 32) : (le32 v).length = 4 := rfl

/-- Swapping a loaded value reads its bytes in network order. -/
theorem bswap16_append (hi lo : Byte) : bswap16 (hi ++ lo) = lo ++ hi := by
  unfold bswap16
  rw [BitVec.extractLsb'_append_eq_right, BitVec.extractLsb'_append_eq_left]

/-- The two halves of a 16-bit value are the value. -/
theorem high_append_low (v : BitVec 16) : v.extractLsb' 8 8 ++ v.extractLsb' 0 8 = v := by
  rw [BitVec.extractLsb'_append_extractLsb'_eq_extractLsb' (by rfl), BitVec.extractLsb'_eq_self]

theorem bswap16_bswap16 (v : BitVec 16) : bswap16 (bswap16 v) = v := by
  have hswap : bswap16 v = v.extractLsb' 0 8 ++ v.extractLsb' 8 8 := rfl
  rw [hswap, bswap16_append, high_append_low]

/-- A load of stored bytes. -/
theorem Mem.load16_eq {m : Mem} {p : Nat} {v : BitVec 16} (hlo : m p = v.extractLsb' 0 8)
    (hhi : m (p + 1) = v.extractLsb' 8 8) : m.load16 p = v := by
  rw [load16, hlo, hhi, high_append_low]

/-- An append is a value when its parts are the parts of the value. -/
theorem append_eq_iff {m n : Nat} {hi : BitVec m} {lo : BitVec n} {v : BitVec (m + n)} :
    hi ++ lo = v ↔ hi = v.extractLsb' n m ∧ lo = v.extractLsb' 0 n := by
  constructor
  · rintro rfl
    exact ⟨BitVec.extractLsb'_append_eq_left.symm, BitVec.extractLsb'_append_eq_right.symm⟩
  · rintro ⟨rfl, rfl⟩
    exact BitVec.extractLsb'_append_extractLsb'

/-- A part of a part. -/
theorem extractLsb'_extractLsb' {w s l s' l' : Nat} (v : BitVec w) (h : s' + l' ≤ l) :
    (v.extractLsb' s l).extractLsb' s' l' = v.extractLsb' (s + s') l' := by
  ext i hi
  simp only [BitVec.getElem_extractLsb', BitVec.getLsbD_extractLsb']
  rw [decide_eq_true (by omega), Bool.true_and, Nat.add_assoc]

/-- A load gives the value whose bytes are there. -/
theorem Mem.load16_eq_iff {m : Mem} {p : Nat} {v : BitVec 16} :
    m.load16 p = v ↔ m.read p 2 = le16 v := by
  have hread : m.read p 2 = [m p, m (p + 1)] := rfl
  rw [hread, le16, load16, append_eq_iff (m := 8) (n := 8), and_comm]
  simp only [List.cons.injEq, and_true]

theorem Mem.load32_eq_iff {m : Mem} {p : Nat} {v : BitVec 32} :
    m.load32 p = v ↔ m.read p 4 = le32 v := by
  have hread : m.read p 4 = [m p, m (p + 1), m (p + 2), m (p + 3)] := rfl
  rw [hread, le32, load32, append_eq_iff (m := 24) (n := 8), append_eq_iff (m := 16) (n := 8),
    append_eq_iff (m := 8) (n := 8)]
  simp (disch := decide) only [extractLsb'_extractLsb', Nat.reduceAdd, List.cons.injEq, and_true]
  constructor
  · rintro ⟨⟨⟨h₃, h₂⟩, h₁⟩, h₀⟩
    exact ⟨h₀, h₁, h₂, h₃⟩
  · rintro ⟨h₀, h₁, h₂, h₃⟩
    exact ⟨⟨⟨h₃, h₂⟩, h₁⟩, h₀⟩

/-- The last of two stores at one place. -/
theorem Mem.write_le16_write (m : Mem) (p : Nat) (u v : BitVec 16) :
    (m.write p (le16 u)).write p (le16 v) = m.write p (le16 v) :=
  Mem.write_write m p _ _ (Nat.le_refl 2)

/-- A load looks at its own bytes only. -/
theorem Mem.load16_congr {m m' : Mem} {p p' : Nat} (h : ∀ i, i < 2 → m (p + i) = m' (p' + i)) :
    m.load16 p = m'.load16 p' := by
  have h0 := h 0 (by omega)
  have h1 := h 1 (by omega)
  simp only [Nat.add_zero] at h0
  rw [load16, load16, h0, h1]

end MicroRosDemos.Lib
