import Mathlib.Data.List.Infix
import Mathlib.Data.List.TakeWhile
import Mathlib.Data.Nat.Log
import MicroRosDemos.Lib.Text

/-!
# Reading lines and fields in C

What `%X` prints, and the parts of the C library that take a text apart: `fgets` reads
a line, the directives of `sscanf` read a number, a character and a word, and `strstr`
looks for one string in another. Each comes with what it does on a text of the form it
is meant for; a hexadecimal number of a fixed width is back from its digits
(`hexDigits_inj`), and a string that begins with a character that occurs only once is
found behind that occurrence or not at all (`infix_cons_iff`).
-/

namespace MicroRosDemos.Lib

/-! ## Hexadecimal numbers -/

/-- An upper-case hexadecimal digit. -/
def hexDigit (d : Nat) : Byte := if d < 10 then BitVec.ofNat 8 (48 + d) else BitVec.ofNat 8 (55 + d)

/-- The last `k` hexadecimal digits. -/
def hexDigits : Nat → Nat → List Byte
  | 0, _ => []
  | k + 1, n => hexDigits k (n / 16) ++ [hexDigit (n % 16)]

/-- What `%0kX` prints: at least `k` digits. -/
def hexText (k n : Nat) : List Byte := hexDigits (max k (Nat.log 16 n + 1)) n

theorem hexDigit_toNat {d : Nat} (h : d < 16) :
    (hexDigit d).toNat = if d < 10 then 48 + d else 55 + d := by
  unfold hexDigit
  split <;> rw [BitVec.toNat_ofNat] <;> omega

theorem hexDigit_inj {d e : Nat} (hd : d < 16) (he : e < 16) (h : hexDigit d = hexDigit e) : d = e := by
  have heq := congrArg BitVec.toNat h
  rw [hexDigit_toNat hd, hexDigit_toNat he] at heq
  split at heq <;> split at heq <;> omega

theorem hexDigits_length (k n : Nat) : (hexDigits k n).length = k := by
  induction k generalizing n with
  | zero => rfl
  | succ k ih => rw [hexDigits, List.length_append, ih, List.length_singleton]

/-- The number is back from its last `k` digits, modulo `16 ^ k`. -/
theorem hexDigits_inj {k m n : Nat} (h : hexDigits k m = hexDigits k n) : m % 16 ^ k = n % 16 ^ k := by
  induction k generalizing m n with
  | zero => rw [Nat.pow_zero, Nat.mod_one, Nat.mod_one]
  | succ k ih =>
    rw [hexDigits, hexDigits] at h
    obtain ⟨hhigh, hlow⟩ := List.append_inj' h rfl
    have hdigit := hexDigit_inj (Nat.mod_lt m (by omega)) (Nat.mod_lt n (by omega))
      (List.cons.inj hlow).1
    rw [Nat.pow_succ, Nat.mul_comm, Nat.mod_mul, Nat.mod_mul, hdigit, ih hhigh]

/-- The characters of a hexadecimal number: `0` to `9` and `A` to `F`. -/
theorem hexDigits_byte {k n : Nat} {b : Byte} (h : b ∈ hexDigits k n) :
    48 ≤ b.toNat ∧ b.toNat ≤ 70 ∧ b.toNat ≠ 58 := by
  induction k generalizing n with
  | zero => exact (List.not_mem_nil h).elim
  | succ k ih =>
    rcases List.mem_append.mp h with h | h
    · exact ih h
    · have hlt := Nat.mod_lt n (show 16 > 0 by omega)
      rw [List.mem_singleton.mp h, hexDigit_toNat hlt]
      split <;> omega

/-- A number that fits is printed in `k` digits. -/
theorem hexText_of_lt {k n : Nat} (hk : 0 < k) (h : n < 16 ^ k) : hexText k n = hexDigits k n := by
  have hlog : Nat.log 16 n < k := Nat.log_lt_of_lt_pow' (by omega) h
  rw [hexText, Nat.max_eq_left (by omega)]

/-- One that does not is longer. -/
theorem hexText_length_of_ge {k n : Nat} (h : 16 ^ k ≤ n) : k < (hexText k n).length := by
  have hpos : n ≠ 0 := by
    have := Nat.pow_pos (n := k) (show 0 < 16 by omega)
    omega
  have hlog : k ≤ Nat.log 16 n := (Nat.le_log_iff_pow_le (by omega) hpos).mpr h
  rw [hexText, hexDigits_length]
  omega

/-! ## Lines -/

/-- The end of a line. -/
def newline : Byte := 10

/-- Up to `n` bytes, and no more than a line: what is read, and what is left. -/
def readLine : Nat → List Byte → List Byte × List Byte
  | 0, stream => ([], stream)
  | _ + 1, [] => ([], [])
  | n + 1, b :: stream =>
    if b = newline then ([b], stream) else ((b :: (readLine n stream).1), (readLine n stream).2)

/-- `fgets(s, size, stream)`: what it puts into the array before the NUL, and what is
left of the stream; nothing at the end of the file. -/
def fgets (size : Nat) (stream : List Byte) : Option (List Byte × List Byte) :=
  if stream = [] then none else some (readLine (size - 1) stream)

theorem readLine_left (n : Nat) (stream : List Byte) :
    (readLine n stream).1 ++ (readLine n stream).2 = stream := by
  induction n generalizing stream with
  | zero => rfl
  | succ n ih =>
    cases stream with
    | nil => rfl
    | cons b stream =>
      unfold readLine
      split
      · rfl
      · exact congrArg (b :: ·) (ih stream)

/-- `fgets` takes something from the stream. -/
theorem fgets_lt {size : Nat} (hsize : 2 ≤ size) {stream line rest : List Byte}
    (h : fgets size stream = some (line, rest)) : rest.length < stream.length := by
  obtain ⟨n, hn⟩ : ∃ n, size - 1 = n + 1 := ⟨size - 2, by omega⟩
  unfold fgets at h
  split at h
  · cases h
  · next hne =>
    cases stream with
    | nil => exact absurd rfl hne
    | cons b stream =>
      rw [hn] at h
      have hline : (readLine (n + 1) (b :: stream)).1 = line := congrArg Prod.fst (Option.some.inj h)
      have hrest : (readLine (n + 1) (b :: stream)).2 = rest := congrArg Prod.snd (Option.some.inj h)
      have hall := congrArg List.length (readLine_left (n + 1) (b :: stream))
      rw [hline, hrest, List.length_append] at hall
      have hpos : 0 < line.length := by
        rw [← hline]
        unfold readLine
        split <;> exact Nat.succ_pos _
      omega

/-- A line that fits the array is read whole. -/
theorem fgets_line {size : Nat} {line rest : List Byte} (hline : newline ∉ line)
    (hfits : line.length + 1 < size) :
    fgets size (line ++ newline :: rest) = some (line ++ [newline], rest) := by
  have hread : ∀ n, line.length < n → readLine n (line ++ newline :: rest) = (line ++ [newline], rest) := by
    clear hfits
    induction line with
    | nil =>
      intro n hn
      obtain ⟨n, rfl⟩ := Nat.exists_eq_succ_of_ne_zero (Nat.ne_of_gt hn)
      exact if_pos rfl
    | cons b line ih =>
      intro n hn
      obtain ⟨n, rfl⟩ := Nat.exists_eq_succ_of_ne_zero (Nat.ne_of_gt (Nat.zero_lt_of_lt hn))
      have hb : b ≠ newline := fun heq => hline (heq ▸ List.mem_cons_self)
      rw [List.cons_append, Nat.succ_eq_add_one, readLine, if_neg hb,
        ih (fun hmem => hline (List.mem_cons_of_mem b hmem)) n (by simpa using hn)]
      rfl
  unfold fgets
  rw [if_neg (List.append_ne_nil_of_right_ne_nil _ (List.cons_ne_nil _ _)), hread _ (by omega)]

/-! ## Fields -/

/-- White space, in the C locale. -/
def isSpace (b : Byte) : Bool := b == 32 || (9 ≤ b.toNat && b.toNat ≤ 13)

def isDigit (b : Byte) : Bool := 48 ≤ b.toNat && b.toNat ≤ 57

/-- White space in the format of `sscanf`: any amount of it, or none. -/
def scanSpace (s : List Byte) : List Byte := s.dropWhile isSpace

/-- A sign, if there is one, and whether it is a minus. -/
def scanSign : List Byte → Bool × List Byte
  | [] => (false, [])
  | b :: s => if b = ascii '-' then (true, s) else if b = ascii '+' then (false, s) else (false, b :: s)

/-- `%d`: the number, and what follows it. A number that is not an `int` is not defined
there, and read as it stands here. -/
def scanInt (s : List Byte) : Option (Int × List Byte) :=
  let (negative, s) := scanSign (scanSpace s)
  let digits := s.takeWhile isDigit
  let n := Nat.ofDigitChars 10 (digits.map fun b => Char.ofNat b.toNat) 0
  if digits = [] then none else some (if negative then -(n : Int) else n, s.drop digits.length)

/-- A character in the format. -/
def scanChar (c : Byte) : List Byte → Option (List Byte)
  | [] => none
  | b :: s => if b = c then some s else none

/-- `%s` with a width: a word of no more bytes, and what follows it. -/
def scanWord (width : Nat) (s : List Byte) : Option (List Byte × List Byte) :=
  let s := scanSpace s
  let word := (s.takeWhile fun b => !isSpace b).take width
  if word = [] then none else some (word, s.drop word.length)

theorem scanSpace_replicate (k : Nat) {b : Byte} (hb : isSpace b = false) (s : List Byte) :
    scanSpace (List.replicate k 32 ++ b :: s) = b :: s := by
  unfold scanSpace
  rw [List.dropWhile_append_of_pos, List.dropWhile_cons_of_neg (by rw [hb]; exact Bool.false_ne_true)]
  intro a ha
  rw [(List.mem_replicate.mp ha).2]
  rfl

theorem scanSign_digit {b : Byte} (hb : isDigit b = true) (s : List Byte) :
    scanSign (b :: s) = (false, b :: s) := by
  have hminus : b ≠ ascii '-' := by
    rintro rfl
    exact absurd hb (by decide)
  have hplus : b ≠ ascii '+' := by
    rintro rfl
    exact absurd hb (by decide)
  unfold scanSign
  dsimp only
  rw [if_neg hminus, if_neg hplus]

theorem isDigit_natText {n : Nat} {b : Byte} (h : b ∈ natText n) : isDigit b = true := by
  have hdigit := natText_digit h
  unfold isDigit
  rw [decide_eq_true hdigit.1, decide_eq_true hdigit.2]
  rfl

/-- White space is the blank and what is below it. -/
theorem isSpace_of_gt {b : Byte} (h : 32 < b.toNat) : isSpace b = false := by
  have hne : b ≠ 32 := by
    rintro rfl
    exact absurd h (by decide)
  unfold isSpace
  rw [beq_false_of_ne hne, decide_eq_false (by omega : ¬ b.toNat ≤ 13), Bool.and_false]
  rfl

theorem isSpace_of_isDigit {b : Byte} (h : isDigit b = true) : isSpace b = false := by
  unfold isDigit at h
  have hlo := of_decide_eq_true (Bool.and_eq_true_iff.mp h).1
  exact isSpace_of_gt (by omega)

/-- A number that was printed is read back, behind blanks and before what is no digit. -/
theorem scanInt_natText (k n : Nat) {b : Byte} (hb : isDigit b = false) (s : List Byte) :
    scanInt (List.replicate k 32 ++ (natText n ++ b :: s)) = some ((n : Int), b :: s) := by
  cases htext : natText n with
  | nil =>
    have := natText_length_pos n
    rw [htext] at this
    exact absurd this (Nat.lt_irrefl 0)
  | cons d ds =>
    have hdigit : isDigit d = true := isDigit_natText (by rw [htext]; exact List.mem_cons_self)
    have htake : ((d :: ds) ++ b :: s).takeWhile isDigit = d :: ds :=
      takeWhile_append_cons (fun a ha => isDigit_natText (htext ▸ ha)) hb
    have hvalue : Nat.ofDigitChars 10 ((d :: ds).map fun b => Char.ofNat b.toNat) 0 = n := by
      rw [← htext, natText_chars, Nat.ofDigitChars_toDigits (by omega) (by omega)]
    unfold scanInt
    rw [List.cons_append, scanSpace_replicate k (isSpace_of_isDigit hdigit), scanSign_digit hdigit,
      ← List.cons_append]
    dsimp only
    rw [htake, if_neg (List.cons_ne_nil d ds), hvalue, List.drop_left]
    rfl

/-- A word that fits is read whole, up to the next white space. -/
theorem scanWord_append {width : Nat} {word s : List Byte} {b : Byte} (hne : word ≠ [])
    (hword : ∀ a ∈ word, isSpace a = false) (hfits : word.length ≤ width) (hb : isSpace b = true) :
    scanWord width (word ++ b :: s) = some (word, b :: s) := by
  have hspace : scanSpace (word ++ b :: s) = word ++ b :: s := by
    cases word with
    | nil => exact absurd rfl hne
    | cons a word =>
      have ha := hword a List.mem_cons_self
      unfold scanSpace
      rw [List.cons_append, List.dropWhile_cons_of_neg (by rw [ha]; exact Bool.false_ne_true)]
  have htake : (word ++ b :: s).takeWhile (fun b => !isSpace b) = word :=
    takeWhile_append_cons (fun a ha => by rw [hword a ha]; rfl) (by rw [hb]; rfl)
  unfold scanWord
  dsimp only
  rw [hspace, htake, List.take_of_length_le hfits, if_neg hne, List.drop_left]

/-- A text without a NUL is a string as it stands. -/
theorem cstring_of_notMem {s : List Byte} (h : 0 ∉ s) : cstring s = s :=
  List.takeWhile_eq_self_iff.mpr fun _ hb => bne_iff_ne.mpr fun heq => h (heq ▸ hb)

/-! ## Searching -/

/-- `strstr(haystack, needle) != NULL`. -/
def strstr (haystack needle : List Byte) : Bool := decide (needle <:+: haystack)

/-- A string whose first character occurs only once is found there or not at all. -/
theorem infix_cons_iff {α : Type*} [DecidableEq α] {x : α} {as bs cs : List α} (has : x ∉ as)
    (hbs : x ∉ bs) : x :: cs <:+: as ++ x :: bs ↔ cs <+: bs := by
  constructor
  · rintro ⟨s, t, h⟩
    have hcount := congrArg (List.count x) h
    simp only [List.count_append, List.count_cons_self, List.count_eq_zero_of_not_mem has,
      List.count_eq_zero_of_not_mem hbs] at hcount
    have hs : x ∉ s := List.count_eq_zero.mp (by omega)
    rw [List.append_assoc, List.cons_append] at h
    have hsplit : s = as := by
      have hother {us : List α} (hus : x ∉ us) : ∀ a ∈ us, decide (a ≠ x) = true :=
        fun a ha => decide_eq_true fun heq => hus (heq ▸ ha)
      have htake := congrArg (List.takeWhile fun a => decide (a ≠ x)) h
      rwa [takeWhile_append_cons (hother hs) (by simp), takeWhile_append_cons (hother has) (by simp)] at htake
    rw [hsplit] at h
    exact ⟨t, (List.cons.inj (List.append_cancel_left h)).2⟩
  · rintro ⟨t, rfl⟩
    exact ⟨as, t, by rw [List.append_assoc, List.cons_append]⟩

end MicroRosDemos.Lib
