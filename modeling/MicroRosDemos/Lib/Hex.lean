import MicroRosDemos.Lib.Scan

/-!
# Bytes in hexadecimal

What `%02x` prints for a byte, and what `%x` and `%hhx` of `sscanf` read. A number is read
up to the first character that is no digit (`scanHex_append`), so a byte that was printed is
back wherever the next character is none (`scanByte_byteText`), and so is each of several
with blanks between them (`scanBytes_dump`); and nothing is read but a number
(`scanHex_split`).
-/

namespace MicroRosDemos.Lib

/-- The value of a hexadecimal digit, of either case. -/
def hexValue (b : Byte) : Option Nat :=
  if 48 ≤ b.toNat ∧ b.toNat ≤ 57 then some (b.toNat - 48)
  else if 65 ≤ b.toNat ∧ b.toNat ≤ 70 then some (b.toNat - 55)
  else if 97 ≤ b.toNat ∧ b.toNat ≤ 102 then some (b.toNat - 87)
  else none

def isHexDigit (b : Byte) : Bool := (hexValue b).isSome

/-- The number with these digits, the first being the highest. -/
def ofHexDigits (digits : List Byte) : Nat := (digits.filterMap hexValue).foldl (fun n d => 16 * n + d) 0

/-- Behind `0x`, if that is there. -/
def skip0x : List Byte → List Byte
  | a :: b :: s => if a = ascii '0' ∧ (b = ascii 'x' ∨ b = ascii 'X') then s else a :: b :: s
  | s => s

/-- `%x`: the number, and what follows it. -/
def scanHex (s : List Byte) : Option (Int × List Byte) :=
  let (negative, s) := scanSign (scanSpace s)
  let s := skip0x s
  let digits := s.takeWhile isHexDigit
  let n := ofHexDigits digits
  if digits = [] then none else some (if negative then -(n : Int) else n, s.drop digits.length)

/-- What `strtoul` returns for a number: the largest `unsigned long` when it, or what is behind its
minus, has more than 64 bits. -/
def strtoul (n : Int) : BitVec 64 := if n.natAbs < 2 ^ 64 then BitVec.ofInt 64 n else BitVec.allOnes 64

/-- `%hhx`. A number that is not an `unsigned char` is not defined there; the C library cuts what
`strtoul` returns to one. -/
def scanByte (s : List Byte) : Option (Byte × List Byte) :=
  (scanHex s).map fun (n, s) => ((strtoul n).setWidth 8, s)

/-- `%hhx` again and again, `n` times at most: the bytes until it fails. -/
def scanBytes : Nat → List Byte → List Byte
  | 0, _ => []
  | n + 1, s =>
    match scanByte s with
    | some (b, s) => b :: scanBytes n s
    | none => []

/-- A lower-case hexadecimal digit. -/
def hexLower (d : Nat) : Byte := if d < 10 then BitVec.ofNat 8 (48 + d) else BitVec.ofNat 8 (87 + d)

/-- What `%02x` prints for a byte. -/
def byteText (b : Byte) : List Byte := [hexLower (b.toNat / 16), hexLower (b.toNat % 16)]

variable {digits s : List Byte} {b : Byte} {d : Nat}

theorem hexLower_toNat (h : d < 16) : (hexLower d).toNat = if d < 10 then 48 + d else 87 + d := by
  unfold hexLower
  split <;> rw [BitVec.toNat_ofNat] <;> omega

theorem hexValue_hexLower (h : d < 16) : hexValue (hexLower d) = some d := by
  unfold hexValue
  rw [hexLower_toNat h]
  split
  · rw [if_pos (by omega), Nat.add_sub_cancel_left]
  · rw [if_neg (by omega), if_neg (by omega), if_pos (by omega), Nat.add_sub_cancel_left]

theorem isHexDigit_hexLower (h : d < 16) : isHexDigit (hexLower d) = true := by
  rw [isHexDigit, hexValue_hexLower h]
  rfl

/-- A digit is neither white space nor a sign nor an `x`. -/
theorem isHexDigit_bounds (h : isHexDigit b = true) : 48 ≤ b.toNat ∧ b.toNat ≤ 102 := by
  unfold isHexDigit hexValue at h
  split at h
  · omega
  · split at h
    · omega
    · split at h
      · omega
      · cases h

theorem isHexDigit_ne {c : Byte} (h : isHexDigit b = true) (hc : isHexDigit c = false) : b ≠ c := by
  rintro rfl
  exact Bool.false_ne_true (hc.symm.trans h)

theorem byteText_digit {c : Byte} (h : c ∈ byteText b) : isHexDigit c = true := by
  have hlt := b.isLt
  rcases List.mem_cons.mp h with rfl | h
  · exact isHexDigit_hexLower (by omega)
  · rw [List.mem_singleton.mp h]
    exact isHexDigit_hexLower (by omega)

theorem ofHexDigits_byteText (b : Byte) : ofHexDigits (byteText b) = b.toNat := by
  have hlt := b.isLt
  unfold ofHexDigits byteText
  rw [List.filterMap_cons_some (hexValue_hexLower (by omega)),
    List.filterMap_cons_some (hexValue_hexLower (by omega))]
  simp only [List.filterMap_nil, List.foldl_cons, List.foldl_nil]
  omega

/-- A number ends in front of `s`. -/
def EndsHex (s : List Byte) : Prop := ∀ b ∈ s.head?, isHexDigit b = false ∧ b ≠ ascii 'x' ∧ b ≠ ascii 'X'

theorem endsHex_nil : EndsHex [] := fun b hb => by cases hb

theorem endsHex_cons (hdigit : isHexDigit b = false) (hlower : b ≠ ascii 'x') (hupper : b ≠ ascii 'X') :
    EndsHex (b :: s) := by
  intro c hc
  cases hc
  exact ⟨hdigit, hlower, hupper⟩

/-- No prefix is skipped in front of a number that has none. -/
theorem skip0x_append (hne : digits ≠ []) (hdigits : ∀ b ∈ digits, isHexDigit b = true)
    (hs : EndsHex s) : skip0x (digits ++ s) = digits ++ s := by
  have hsecond : ∀ b, (digits ++ s)[1]? = some b → b ≠ ascii 'x' ∧ b ≠ ascii 'X' := by
    intro b hb
    rcases Nat.lt_or_ge 1 digits.length with hlen | hlen
    · rw [List.getElem?_append_left hlen] at hb
      have hdigit := hdigits b (List.mem_of_getElem? hb)
      exact ⟨isHexDigit_ne hdigit rfl, isHexDigit_ne hdigit rfl⟩
    · have hone : 1 - digits.length = 0 := by
        have := List.length_pos_of_ne_nil hne
        omega
      rw [List.getElem?_append_right hlen, hone, ← List.head?_eq_getElem?] at hb
      exact (hs b hb).2
  cases htext : digits ++ s with
  | nil => rfl
  | cons a rest =>
    cases rest with
    | nil => rfl
    | cons b rest =>
      obtain ⟨hlower, hupper⟩ := hsecond b (by rw [htext]; rfl)
      exact if_neg fun h => h.2.elim hlower hupper

/-- What stands in front of an entry without a property, or of the end. -/
theorem takeWhile_append_head {α : Type*} {p : α → Bool} {as bs : List α} (has : ∀ a ∈ as, p a = true)
    (hbs : ∀ b ∈ bs.head?, p b = false) : (as ++ bs).takeWhile p = as := by
  cases bs with
  | nil => rw [List.append_nil, List.takeWhile_eq_self_iff.mpr has]
  | cons b bs => exact takeWhile_append_cons has (hbs b rfl)

/-- A number is read behind blanks and up to where it ends. -/
theorem scanHex_append (k : Nat) (hne : digits ≠ []) (hdigits : ∀ b ∈ digits, isHexDigit b = true)
    (hs : EndsHex s) :
    scanHex (List.replicate k 32 ++ (digits ++ s)) = some ((ofHexDigits digits : Int), s) := by
  have hskip := skip0x_append hne hdigits hs
  have htake := takeWhile_append_head hdigits fun b hb => (hs b hb).1
  cases digits with
  | nil => exact absurd rfl hne
  | cons c cs =>
    have hc := hdigits c List.mem_cons_self
    have hbounds := isHexDigit_bounds hc
    have hsign : scanSign (c :: cs ++ s) = (false, c :: cs ++ s) := by
      unfold scanSign
      rw [List.cons_append]
      dsimp only
      rw [if_neg (isHexDigit_ne hc rfl), if_neg (isHexDigit_ne hc rfl)]
    unfold scanHex
    rw [List.cons_append, scanSpace_replicate k (isSpace_of_gt (by omega)), ← List.cons_append, hsign]
    dsimp only
    rw [hskip, htake, if_neg (List.cons_ne_nil c cs), List.drop_left]
    rfl

theorem scanByte_append (k : Nat) (hne : digits ≠ []) (hdigits : ∀ b ∈ digits, isHexDigit b = true)
    (hs : EndsHex s) :
    scanByte (List.replicate k 32 ++ (digits ++ s)) =
      some ((strtoul (ofHexDigits digits)).setWidth 8, s) := by
  rw [scanByte, scanHex_append k hne hdigits hs, Option.map_some]

/-- Up to 64 bits the number is cut to its last byte, beyond them nothing of it is left. -/
theorem strtoul_byte (n : Nat) :
    (strtoul n).setWidth 8 = if n < 2 ^ 64 then BitVec.ofNat 8 n else 0xFF := by
  unfold strtoul
  rw [Int.natAbs_natCast]
  split
  · next hlt =>
    rw [BitVec.ofInt_natCast]
    exact BitVec.setWidth_ofNat_of_le (by decide) n
  · rfl

/-- A byte that was printed is read back. -/
theorem scanByte_byteText (k : Nat) (b : Byte) (hs : EndsHex s) :
    scanByte (List.replicate k 32 ++ (byteText b ++ s)) = some (b, s) := by
  have hne : byteText b ≠ [] := List.cons_ne_nil _ _
  have hlt := b.isLt
  rw [scanByte_append k hne (fun _ => byteText_digit) hs, ofHexDigits_byteText, strtoul_byte,
    if_pos (by omega), BitVec.ofNat_toNat, BitVec.setWidth_eq]

/-- Bytes as `%02x ` prints them one after the other. -/
def dump (bs : List Byte) : List Byte := bs.flatMap fun b => byteText b ++ [32]

theorem dump_length (bs : List Byte) : (dump bs).length = 3 * bs.length := by
  induction bs with
  | nil => rfl
  | cons b bs ih =>
    rw [dump, List.flatMap_cons, List.length_append, ← dump, ih, List.length_cons]
    have hthree : (byteText b ++ [32]).length = 3 := rfl
    omega

theorem dump_ne_zero {bs : List Byte} (h : b ∈ dump bs) : b ≠ 0 := by
  rintro rfl
  obtain ⟨c, _, hc⟩ := List.mem_flatMap.mp h
  rcases List.mem_append.mp hc with hc | hc
  · have hdigit := byteText_digit hc
    cases hdigit
  · have hblank := List.mem_singleton.mp hc
    cases hblank

/-- The bytes are back from their dump. -/
theorem scanBytes_dump (bs : List Byte) : scanBytes bs.length (dump bs) = bs := by
  have hblanks : ∀ k, scanBytes bs.length (List.replicate k 32 ++ dump bs) = bs := by
    induction bs with
    | nil => exact fun k => rfl
    | cons b bs ih =>
      intro k
      have hnext : dump (b :: bs) = byteText b ++ (List.replicate 1 32 ++ dump bs) := by
        rw [dump, List.flatMap_cons, List.append_assoc]
        rfl
      have hends : EndsHex (List.replicate 1 32 ++ dump bs) := endsHex_cons rfl (by decide) (by decide)
      rw [List.length_cons, scanBytes, hnext, scanByte_byteText k b hends]
      exact congrArg (b :: ·) (ih 1)
  exact hblanks 0

/-! ## What is read is a number -/

/-- A text that `%x` reads as `n`: white space, a sign and `0x`, or not, and digits. -/
def HexNumber (t : List Byte) (n : Int) : Prop :=
  ∃ spaces sign zero digits, t = spaces ++ (sign ++ (zero ++ digits)) ∧ (∀ b ∈ spaces, isSpace b = true) ∧
    (sign = [] ∨ sign = [ascii '+'] ∨ sign = [ascii '-']) ∧
    (zero = [] ∨ zero = [ascii '0', ascii 'x'] ∨ zero = [ascii '0', ascii 'X']) ∧
    digits ≠ [] ∧ (∀ b ∈ digits, isHexDigit b = true) ∧
    n = if sign = [ascii '-'] then -(ofHexDigits digits : Int) else ofHexDigits digits

theorem scanSign_split (s : List Byte) :
    ∃ sign, s = sign ++ (scanSign s).2 ∧ (sign = [] ∨ sign = [ascii '+'] ∨ sign = [ascii '-']) ∧
      ((scanSign s).1 = true ↔ sign = [ascii '-']) := by
  cases s with
  | nil => exact ⟨[], rfl, .inl rfl, by decide⟩
  | cons b s =>
    unfold scanSign
    dsimp only
    split
    · next hminus => exact ⟨[b], rfl, .inr (.inr (by rw [hminus])), iff_of_true rfl (by rw [hminus])⟩
    · split
      · next hplus =>
        refine ⟨[b], rfl, .inr (.inl (by rw [hplus])), iff_of_false Bool.false_ne_true ?_⟩
        rw [hplus]
        decide
      · exact ⟨[], rfl, .inl rfl, iff_of_false Bool.false_ne_true (List.cons_ne_nil _ _).symm⟩

theorem skip0x_split (s : List Byte) :
    ∃ zero, s = zero ++ skip0x s ∧
      (zero = [] ∨ zero = [ascii '0', ascii 'x'] ∨ zero = [ascii '0', ascii 'X']) := by
  unfold skip0x
  split
  · next a b s =>
    split
    · next hprefixed =>
      obtain ⟨rfl, rfl | rfl⟩ := hprefixed
      · exact ⟨_, rfl, .inr (.inl rfl)⟩
      · exact ⟨_, rfl, .inr (.inr rfl)⟩
    · exact ⟨[], rfl, .inl rfl⟩
  · exact ⟨[], rfl, .inl rfl⟩

/-- What `%x` takes is a number, and it is what it reads. -/
theorem scanHex_split {n : Int} {rest : List Byte} (h : scanHex s = some (n, rest)) :
    ∃ t, s = t ++ rest ∧ HexNumber t n := by
  obtain ⟨sign, hsign, hsigns, hminus⟩ := scanSign_split (scanSpace s)
  obtain ⟨zero, hzero, hzeros⟩ := skip0x_split (scanSign (scanSpace s)).2
  have hspaces : s.takeWhile isSpace ++ scanSpace s = s := List.takeWhile_append_dropWhile
  unfold scanHex at h
  dsimp only at h
  split at h
  · cases h
  · next hne =>
    obtain ⟨hn, hrest⟩ := Prod.mk.inj (Option.some.inj h)
    have hall : ∀ b ∈ (skip0x (scanSign (scanSpace s)).2).takeWhile isHexDigit, isHexDigit b = true :=
      fun b hb => List.all_eq_true.mp List.all_takeWhile b hb
    have hdigits := List.prefix_iff_eq_append.mp
      (List.takeWhile_prefix (l := skip0x (scanSign (scanSpace s)).2) isHexDigit)
    rw [hrest] at hdigits
    refine ⟨s.takeWhile isSpace ++ (sign ++ (zero ++ _)), ?_, s.takeWhile isSpace, sign, zero, _, rfl,
      fun b hb => List.all_eq_true.mp List.all_takeWhile b hb, hsigns, hzeros, hne, hall, ?_⟩
    · simp only [List.append_assoc]
      rw [hdigits, ← hzero, ← hsign, hspaces]
    · rw [← hn]
      simp only [hminus]

end MicroRosDemos.Lib
