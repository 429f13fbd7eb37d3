import MicroRosDemos.Lib.Memory

/-!
# Texts in C

What `%d` prints, and the strings the C library leaves in memory. A printed number
has no underscore and no NUL in it, so two of them joined by an underscore can be
told apart (`pairText_inj`) and end where the string ends (`cstring_append`).
-/

namespace MicroRosDemos.Lib

/-! ## Numbers -/

/-- The byte of an ASCII character. -/
def ascii (c : Char) : Byte := BitVec.ofNat 8 c.toNat

/-- What `%d` prints for a number from 0 on. -/
def natText (n : Nat) : List Byte := (Nat.toDigits 10 n).map ascii

/-- What `%d` prints. -/
def intText : Int → List Byte
  | .ofNat n => natText n
  | .negSucc n => ascii '-' :: natText (n + 1)

/-- What `%d_%d` prints. -/
def pairText (a b : Int) : List Byte := intText a ++ ascii '_' :: intText b

/-- The characters of a printed number. -/
theorem toDigits_digit {n : Nat} {c : Char} (h : c ∈ Nat.toDigits 10 n) :
    48 ≤ c.toNat ∧ c.toNat ≤ 57 :=
  Char.isDigit_iff_toNat.mp (Nat.isDigit_of_mem_toDigits (by omega) (by omega) h)

theorem ascii_toNat {c : Char} (h : c.toNat < 256) : (ascii c).toNat = c.toNat := Nat.mod_eq_of_lt h

theorem natText_digit {n : Nat} {b : Byte} (h : b ∈ natText n) : 48 ≤ b.toNat ∧ b.toNat ≤ 57 := by
  obtain ⟨c, hc, rfl⟩ := List.mem_map.mp h
  have hdigit := toDigits_digit hc
  rw [ascii_toNat (by omega)]
  exact hdigit

/-- The characters are back from the bytes. -/
theorem natText_chars (n : Nat) :
    (natText n).map (fun b => Char.ofNat b.toNat) = Nat.toDigits 10 n := by
  rw [natText, List.map_map]
  refine (List.map_congr_left fun c hc => ?_).trans (List.map_id _)
  have hdigit := toDigits_digit hc
  rw [Function.comp_apply, ascii_toNat (by omega), Char.ofNat_toNat, id]

/-- The number is back from its text. -/
theorem natText_inj {m n : Nat} (h : natText m = natText n) : m = n := by
  have hdigits := congrArg (List.map fun b => Char.ofNat b.toNat) h
  rw [natText_chars, natText_chars] at hdigits
  rw [← Nat.ofDigitChars_toDigits (b := 10) (n := m) (by omega) (by omega), hdigits,
    Nat.ofDigitChars_toDigits (by omega) (by omega)]

theorem natText_length_pos (n : Nat) : 0 < (natText n).length := by
  rw [natText, List.length_map]
  exact Nat.length_toDigits_pos

/-- A printed number below `10 ^ k` has at most `k` digits. -/
theorem natText_length_le {n k : Nat} (hk : 0 < k) (h : n < 10 ^ k) : (natText n).length ≤ k := by
  rw [natText, List.length_map]
  exact (Nat.length_toDigits_le_iff (by omega) hk).mpr h

/-- A sign is not a digit. -/
theorem minus_ne_digit {n : Nat} {bs : List Byte} : natText n ≠ ascii '-' :: bs := by
  intro h
  have hdigit := natText_digit (n := n) (b := ascii '-') (by rw [h]; exact List.mem_cons_self)
  exact absurd hdigit.1 (by decide)

theorem intText_inj {a b : Int} (h : intText a = intText b) : a = b := by
  cases a with
  | ofNat m =>
    cases b with
    | ofNat n => rw [natText_inj h]
    | negSucc n => exact absurd h minus_ne_digit
  | negSucc m =>
    cases b with
    | ofNat n => exact absurd h.symm minus_ne_digit
    | negSucc n =>
      have hnext := natText_inj (List.cons.inj h).2
      rw [Nat.succ.inj hnext]

/-- The bytes of a printed number: digits and a sign. -/
theorem intText_byte {a : Int} {b : Byte} (h : b ∈ intText a) : 45 ≤ b.toNat ∧ b.toNat ≤ 57 := by
  cases a with
  | ofNat n =>
    have hdigit := natText_digit h
    omega
  | negSucc n =>
    rcases List.mem_cons.mp h with rfl | h
    · decide
    · have hdigit := natText_digit h
      omega

theorem intText_length_pos (a : Int) : 0 < (intText a).length := by
  cases a with
  | ofNat n => exact natText_length_pos n
  | negSucc n => exact Nat.succ_pos _

/-- A 32-bit number is printed in at most 11 bytes. -/
theorem intText_length_le {a : Int} (hlo : -2 ^ 31 ≤ a) (hhi : a < 2 ^ 31) : (intText a).length ≤ 11 := by
  cases a with
  | ofNat n =>
    have hlt : n < 10 ^ 10 := by
      simp only [Int.ofNat_eq_natCast] at hhi
      omega
    have := natText_length_le (by omega) hlt
    simp only [intText]
    omega
  | negSucc n =>
    have hlt : n + 1 < 10 ^ 10 := by omega
    have := natText_length_le (by omega) hlt
    simp only [intText, List.length_cons]
    omega

/-- What stands before the first entry without a property. -/
theorem takeWhile_append_cons {α : Type*} {p : α → Bool} {as bs : List α} {b : α}
    (has : ∀ a ∈ as, p a = true) (hb : p b = false) : (as ++ b :: bs).takeWhile p = as := by
  rw [List.takeWhile_append_of_pos has, List.takeWhile_cons_of_neg (by rw [hb]; exact Bool.false_ne_true),
    List.append_nil]

/-- What stands before the first `x`. -/
theorem takeWhile_append_stop {x : Byte} {as bs : List Byte} (h : x ∉ as) :
    (as ++ x :: bs).takeWhile (· != x) = as :=
  takeWhile_append_cons (fun _ ha => bne_iff_ne.mpr fun heq => h (heq ▸ ha)) (bne_self_eq_false x)

theorem underscore_notMem (a : Int) : ascii '_' ∉ intText a := by
  intro h
  exact absurd (intText_byte h).2 (by decide)

/-- Both numbers are back from what `%d_%d` prints: neither holds an underscore. -/
theorem pairText_inj {a b c d : Int} (h : pairText a b = pairText c d) : a = c ∧ b = d := by
  unfold pairText at h
  have hfirst := congrArg (List.takeWhile (· != ascii '_')) h
  rw [takeWhile_append_stop (underscore_notMem a), takeWhile_append_stop (underscore_notMem c)] at hfirst
  rw [hfirst] at h
  exact ⟨intText_inj hfirst, intText_inj (List.cons.inj (List.append_cancel_left h)).2⟩

theorem pairText_length (a b : Int) :
    (pairText a b).length = (intText a).length + 1 + (intText b).length := by
  rw [pairText, List.length_append, List.length_cons]
  omega

/-- A printed pair has no NUL in it. -/
theorem pairText_ne_zero {a b : Int} {c : Byte} (h : c ∈ pairText a b) : c ≠ 0 := by
  rintro rfl
  rcases List.mem_append.mp h with h | h
  · exact absurd (intText_byte h).1 (by decide)
  · rcases List.mem_cons.mp h with h | h
    · exact absurd h (by decide)
    · exact absurd (intText_byte h).1 (by decide)

/-! ## Strings -/

/-- The string in an array: what stands before the first NUL. -/
def cstring (bs : List Byte) : List Byte := bs.takeWhile (· != 0)

/-- The string is what was put before a NUL. -/
theorem cstring_append {bs cs : List Byte} (h : ∀ b ∈ bs, b ≠ 0) : cstring (bs ++ 0 :: cs) = bs :=
  takeWhile_append_stop fun hmem => h 0 hmem rfl

/-- `snprintf` of a text to `capacity` bytes at `p`: the memory after it, and its
result. -/
def snprintf (m : Mem) (p capacity : Nat) (text : List Byte) : Mem × Nat :=
  (if capacity = 0 then m else m.write p (text.take (capacity - 1) ++ [0]), text.length)

/-- Memory holds a text with a NUL behind it. -/
def StringAt (m : Mem) (p : Nat) (text : List Byte) : Prop :=
  m.read p text.length = text ∧ m (p + text.length) = 0

/-- What fits is there as a string. -/
theorem snprintf_stringAt (m : Mem) (p : Nat) {capacity : Nat} {text : List Byte}
    (h : text.length < capacity) : StringAt (snprintf m p capacity text).1 p text := by
  have hall : text.take (capacity - 1) = text := List.take_of_length_le (by omega)
  unfold snprintf
  rw [if_neg (by omega), hall]
  dsimp only
  constructor
  · have hread := Mem.read_write_self m p (text ++ [0])
    rw [List.length_append, Mem.read_add] at hread
    exact (List.append_inj' hread rfl).1
  · rw [Mem.write_add, List.getElem?_append_right (Nat.le_refl _), Nat.sub_self]
    rfl

/-- `snprintf` writes to its array. -/
theorem snprintf_outside (m : Mem) {p capacity a : Nat} (text : List Byte) (h : a < p ∨ p + capacity ≤ a) :
    (snprintf m p capacity text).1 a = m a := by
  unfold snprintf
  split
  · rfl
  · refine Mem.write_outside m p _ ?_
    rw [List.length_append, List.length_take, List.length_singleton]
    omega

/-- A string stays while nothing is written to it. -/
theorem StringAt.congr {m m' : Mem} {p : Nat} {text : List Byte} (h : StringAt m p text)
    (hsame : ∀ a, p ≤ a → a ≤ p + text.length → m' a = m a) : StringAt m' p text := by
  refine ⟨?_, ?_⟩
  · rw [Mem.read_congr fun a hlo hhi => hsame a hlo (Nat.le_of_lt hhi)]
    exact h.1
  · rw [hsame _ (Nat.le_add_right _ _) (Nat.le_refl _)]
    exact h.2

end MicroRosDemos.Lib
