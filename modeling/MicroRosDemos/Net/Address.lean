import MicroRosDemos.Lib.Hex
import MicroRosDemos.Net.Packet

/-!
# Addresses as texts

`transport_init` has its addresses as texts, which `parse_mac` takes apart with `sscanf`
and `make_iphdr` with `inet_addr`. A MAC address is six hexadecimal numbers of any length
with colons between them (`parseMac_numbers`); what follows the sixth is not looked at.
`inet_addr` is that of the C library the component is linked with, which takes one to four
numbers, each in the notations of C. Printed as usual, with two hexadecimal digits and in
decimal, all addresses are back in the headers (`ofTexts_text`).
-/

namespace MicroRosDemos.Net

open MicroRosDemos.Lib

/-! ## MAC addresses -/

/-- The bytes that `sscanf` assigns for the format `%hhx:..:%hhx` with `n` numbers. -/
def scanMac : Nat → List Byte → List Byte
  | 0, _ => []
  | n + 1, s =>
    match scanByte s with
    | none => []
    | some (b, s) =>
      match scanChar (ascii ':') s with
      | none => [b]
      | some s => b :: scanMac n s

/-- `parse_mac`, which ends the program when `assert(ret == 6)` fails. -/
def parseMac (mac : List Byte) : Option (Vector Byte 6) :=
  let macBytes := scanMac 6 mac
  if h : macBytes.length = 6 then some ⟨macBytes.toArray, by rw [List.size_toArray, h]⟩ else none

/-- A MAC address as it is usually printed. -/
def macText (mac : Vector Byte 6) : List Byte := [ascii ':'].intercalate (mac.toList.map byteText)

/-- A hexadecimal number of at least one digit. -/
def HexField (f : List Byte) : Prop := f ≠ [] ∧ ∀ b ∈ f, isHexDigit b = true

/-- What `%hhx` assigns for it. -/
def fieldByte (f : List Byte) : Byte := if ofHexDigits f < 2 ^ 64 then BitVec.ofNat 8 (ofHexDigits f) else 0xFF

theorem endsHex_colon (s : List Byte) : EndsHex (ascii ':' :: s) := endsHex_cons rfl (by decide) (by decide)

theorem scanByte_field {f s : List Byte} (hf : HexField f) (hs : EndsHex s) :
    scanByte (f ++ s) = some (fieldByte f, s) := by
  have hscan := scanByte_append 0 hf.1 hf.2 hs
  rw [strtoul_byte] at hscan
  exact hscan

/-- Numbers with colons between them are read one after the other. -/
theorem scanMac_fields {fields : List (List Byte)} (hfields : ∀ f ∈ fields, HexField f) {rest : List Byte}
    (hrest : EndsHex rest) :
    scanMac fields.length ([ascii ':'].intercalate fields ++ rest) = fields.map fieldByte := by
  induction fields with
  | nil => rfl
  | cons f fields ih =>
    obtain ⟨hf, hnext⟩ := List.forall_mem_cons.mp hfields
    cases fields with
    | nil =>
      rw [List.intercalate_singleton, List.length_singleton, scanMac, scanByte_field hf hrest]
      dsimp only
      split <;> rfl
    | cons g fields =>
      rw [List.intercalate_cons_cons, List.append_assoc, List.append_assoc, List.singleton_append,
        List.length_cons, scanMac, scanByte_field hf (endsHex_colon _)]
      dsimp only
      rw [scanChar, if_pos rfl]
      exact congrArg (fieldByte f :: ·) (ih hnext)

/-- Any six hexadecimal numbers are a MAC address. -/
theorem parseMac_fields {fields : List (List Byte)} (hlen : fields.length = 6)
    (hfields : ∀ f ∈ fields, HexField f) {rest : List Byte} (hrest : EndsHex rest) :
    (parseMac ([ascii ':'].intercalate fields ++ rest)).map Vector.toList = some (fields.map fieldByte) := by
  have hscan := scanMac_fields hfields hrest
  rw [hlen] at hscan
  have hsix : (scanMac 6 ([ascii ':'].intercalate fields ++ rest)).length = 6 := by
    rw [hscan, List.length_map, hlen]
  unfold parseMac
  dsimp only
  rw [dif_pos hsix, Option.map_some]
  exact congrArg some hscan

/-- A MAC address that was printed is read back, whatever follows it. -/
theorem parseMac_macText (mac : Vector Byte 6) {rest : List Byte} (hrest : EndsHex rest) :
    parseMac (macText mac ++ rest) = some mac := by
  have hlen : (mac.toList.map byteText).length = 6 := by rw [List.length_map, Vector.length_toList]
  have hfields : ∀ f ∈ mac.toList.map byteText, HexField f := by
    intro f hf
    obtain ⟨b, _, rfl⟩ := List.mem_map.mp hf
    exact ⟨List.cons_ne_nil _ _, fun _ => byteText_digit⟩
  have hparse := parseMac_fields hlen hfields hrest
  have hbytes : (mac.toList.map byteText).map fieldByte = mac.toList := by
    rw [List.map_map]
    refine (List.map_congr_left fun b _ => ?_).trans (List.map_id _)
    have hlt := b.isLt
    rw [Function.comp_apply, fieldByte, ofHexDigits_byteText, if_pos (by omega), BitVec.ofNat_toNat,
      BitVec.setWidth_eq, id]
  rw [hbytes] at hparse
  obtain ⟨read, hread, heq⟩ := Option.map_eq_some_iff.mp hparse
  rw [macText, hread, Vector.toList_inj.mp heq]

/-- A text that `%hhx` reads as a byte. -/
def HexByte (t : List Byte) (b : Byte) : Prop := ∃ n, HexNumber t n ∧ b = (strtoul n).setWidth 8

theorem scanMac_split {n : Nat} {s : List Byte} (h : (scanMac n s).length = n) :
    ∃ numbers rest, s = [ascii ':'].intercalate numbers ++ rest ∧
      List.Forall₂ HexByte numbers (scanMac n s) := by
  induction n generalizing s with
  | zero => exact ⟨[], s, rfl, .nil⟩
  | succ n ih =>
    rw [scanMac] at h ⊢
    cases hscan : scanByte s with
    | none =>
      rw [hscan] at h
      cases h
    | some read =>
      obtain ⟨b, s'⟩ := read
      obtain ⟨⟨a, s''⟩, hhex, heq⟩ := Option.map_eq_some_iff.mp hscan
      obtain ⟨hb, rfl⟩ := Prod.mk.inj heq
      obtain ⟨t, rfl, hnumber⟩ := scanHex_split hhex
      have hbyte : HexByte t b := ⟨a, hnumber, hb.symm⟩
      rw [hscan] at h
      dsimp only at h ⊢
      cases hcolon : scanChar (ascii ':') s'' with
      | none => exact ⟨[t], s'', by rw [List.intercalate_singleton], .cons hbyte .nil⟩
      | some left =>
        rw [hcolon] at h
        obtain ⟨numbers, rest, hleft, hnumbers⟩ := ih (Nat.succ.inj h)
        have hs : s'' = ascii ':' :: left := by
          cases s'' with
          | nil => cases hcolon
          | cons c cs =>
            rw [scanChar] at hcolon
            by_cases hc : c = ascii ':'
            · rw [if_pos hc] at hcolon
              rw [hc, Option.some.inj hcolon]
            · rw [if_neg hc] at hcolon
              cases hcolon
        cases numbers with
        | nil => exact ⟨[t], s'', by rw [List.intercalate_singleton], .cons hbyte hnumbers⟩
        | cons u us =>
          refine ⟨t :: u :: us, rest, ?_, .cons hbyte hnumbers⟩
          rw [List.intercalate_cons_cons, hs, hleft, List.append_assoc, List.append_assoc, List.singleton_append]

/-- What passes the assertion of `parse_mac` begins with six numbers. -/
theorem parseMac_split {s : List Byte} {mac : Vector Byte 6} (h : parseMac s = some mac) :
    ∃ numbers rest, s = [ascii ':'].intercalate numbers ++ rest ∧
      List.Forall₂ HexByte numbers mac.toList := by
  unfold parseMac at h
  dsimp only at h
  split at h
  · next hsix =>
    obtain ⟨numbers, rest, hs, hnumbers⟩ := scanMac_split hsix
    refine ⟨numbers, rest, hs, ?_⟩
    rw [← Option.some.inj h]
    exact hnumbers
  · cases h

/-- **What is taken for a MAC address.** A text that passes the assertion of `parse_mac`
begins with six numbers, each as `%x` takes them and with colons between them, and the bytes
are the last ones of what `strtoul` makes of them; and any six hexadecimal numbers of at least
one digit, with whatever behind them that does not continue the last, pass, and give their last
bytes, or 0xff when they have more than 64 bits. -/
theorem parseMac_numbers :
    (∀ s mac, parseMac s = some mac → ∃ numbers rest, s = [ascii ':'].intercalate numbers ++ rest ∧
      List.Forall₂ HexByte numbers mac.toList) ∧
    ∀ fields rest, fields.length = 6 → (∀ f ∈ fields, HexField f) → EndsHex rest →
      (parseMac ([ascii ':'].intercalate fields ++ rest)).map Vector.toList = some (fields.map fieldByte) :=
  ⟨fun _ _ => parseMac_split, fun _ _ hlen hfields hrest => parseMac_fields hlen hfields hrest⟩

/-- Single digits are enough, and more than six numbers are not refused. -/
theorem parseMac_numbers_seven :
    (parseMac ("2:0:0:0:0:1:F".toList.map ascii)).map Vector.toList = some [2, 0, 0, 0, 0, 1] ∧
      ∃ numbers rest, "2:0:0:0:0:1:F".toList.map ascii = [ascii ':'].intercalate numbers ++ rest ∧
        List.Forall₂ HexByte numbers [2, 0, 0, 0, 0, 1] := by
  have hfields : ∀ f ∈ ["2", "0", "0", "0", "0", "1"].map fun f => f.toList.map ascii, HexField f := by
    unfold HexField
    decide
  have hparse := parseMac_numbers.2 _ (":F".toList.map ascii) rfl hfields
    (endsHex_cons rfl (by decide) (by decide))
  obtain ⟨mac, hmac, hbytes⟩ := Option.map_eq_some_iff.mp hparse
  obtain ⟨numbers, rest, htext, hnumbers⟩ := parseMac_numbers.1 _ mac hmac
  rw [hbytes] at hnumbers
  exact ⟨hparse, numbers, rest, htext, hnumbers⟩

/-- Of a number of 65 bits nothing is left. -/
example : (parseMac ("10000000000000001:0:0:0:0:1".toList.map ascii)).map Vector.toList =
    some [0xFF, 0, 0, 0, 0, 1] := by decide +kernel

/-! ## IP addresses -/

/-- An octal digit. -/
def isOctalDigit (b : Byte) : Bool := 48 ≤ b.toNat && b.toNat ≤ 55

/-- The number with these digits. -/
def ofDigits (base : Nat) (digits : List Byte) : Nat :=
  Nat.ofDigitChars base (digits.map fun b => Char.ofNat b.toNat) 0

/-- `strtoul(s, &z, 0)` on a text that begins with a digit: hexadecimal behind `0x`, octal
behind `0`, or else decimal. -/
def scanNumber (s : List Byte) : Option (Nat × List Byte) :=
  match s with
  | [] => none
  | b :: _ =>
    if !isDigit b then none
    else if skip0x s ≠ s ∧ (skip0x s).takeWhile isHexDigit ≠ [] then
      let digits := (skip0x s).takeWhile isHexDigit
      some (ofHexDigits digits, (skip0x s).drop digits.length)
    else if b = ascii '0' then
      let digits := s.takeWhile isOctalDigit
      some (ofDigits 8 digits, s.drop digits.length)
    else
      let digits := s.takeWhile isDigit
      some (ofDigits 10 digits, s.drop digits.length)

/-- Up to `n` numbers with points between them, and nothing behind. -/
def scanParts : Nat → List Byte → Option (List Nat)
  | 0, _ => none
  | n + 1, s =>
    match scanNumber s with
    | none => none
    | some (a, []) => some [a]
    | some (a, b :: s) => if b = ascii '.' then (scanParts n s).map (a :: ·) else none

/-- The four bytes that one to four numbers stand for, the last of them for the rest. -/
def addrBytes : List Nat → List Nat
  | [a] => [a / 2 ^ 24, a / 2 ^ 16 % 2 ^ 8, a / 2 ^ 8 % 2 ^ 8, a % 2 ^ 8]
  | [a, b] => [a, b / 2 ^ 16, b / 2 ^ 8 % 2 ^ 8, b % 2 ^ 8]
  | [a, b, c] => [a, b, c / 2 ^ 8, c % 2 ^ 8]
  | bytes => bytes

/-- `in_addr_t` with the bytes in memory order. -/
def ofAddrBytes (a b c d : Nat) : BitVec 32 :=
  BitVec.ofNat 8 d ++ BitVec.ofNat 8 c ++ BitVec.ofNat 8 b ++ BitVec.ofNat 8 a

/-- `inet_addr`, -1 being its error. -/
def inetAddr (s : List Byte) : BitVec 32 :=
  match (scanParts 4 s).map addrBytes with
  | some [a, b, c, d] => if a ≤ 255 ∧ b ≤ 255 ∧ c ≤ 255 ∧ d ≤ 255 then ofAddrBytes a b c d else -1
  | _ => -1

/-- An IP address as it is usually printed. -/
def ipText (addr : BitVec 32) : List Byte :=
  [ascii '.'].intercalate ((le32 addr).map fun b => natText b.toNat)

/-- The notations of the C library: a zero in front makes an octal number, and the last of
fewer numbers stands for all that is left. -/
example : inetAddr ("010.0.2.15".toList.map ascii) = ofAddrBytes 8 0 2 15 ∧
    inetAddr ("10.0x20f".toList.map ascii) = ofAddrBytes 10 0 2 15 ∧
    inetAddr ("10.0.2.256".toList.map ascii) = -1 := by decide +kernel

/-- A printed number ends in front of `s`. -/
def EndsNumber (s : List Byte) : Prop := ∀ b ∈ s.head?, b = ascii '.'

/-- A printed byte begins with a zero only when it is zero. -/
theorem natText_head {n : Nat} (hn : n < 256) (h : (natText n).head? = some (ascii '0')) : n = 0 := by
  have hall : ∀ n : Fin 256, (natText n).head? = some (ascii '0') → n.val = 0 := by decide +kernel
  exact hall ⟨n, hn⟩ h

theorem ofDigits_natText (n : Nat) : ofDigits 10 (natText n) = n := by
  rw [ofDigits, natText_chars, Nat.ofDigitChars_toDigits (by omega) (by omega)]

/-- A printed byte is read back up to a point. -/
theorem scanNumber_natText {n : Nat} (hn : n < 256) {s : List Byte} (hs : EndsNumber s) :
    scanNumber (natText n ++ s) = some (n, s) := by
  have hdigit : ∀ b ∈ natText n, isDigit b = true := fun b hb => isDigit_natText hb
  have hhex : ∀ b ∈ natText n, isHexDigit b = true := by
    intro b hb
    have hbounds := natText_digit hb
    rw [isHexDigit, hexValue, if_pos hbounds]
    rfl
  have hne : natText n ≠ [] := List.ne_nil_of_length_pos (natText_length_pos n)
  have hends : EndsHex s := by
    intro b hb
    rw [hs b hb]
    decide
  have hskip := skip0x_append hne hhex hends
  cases htext : natText n with
  | nil => exact absurd htext hne
  | cons c cs =>
    have hc : isDigit c = true := hdigit c (htext ▸ List.mem_cons_self)
    rw [htext] at hskip
    unfold scanNumber
    rw [List.cons_append]
    dsimp only
    rw [hc, ← List.cons_append, hskip]
    simp only [Bool.not_true, Bool.false_eq_true, ↓reduceIte, ne_eq, not_true_eq_false, false_and]
    split
    · next hzero =>
      have hn0 : n = 0 := natText_head hn (by rw [htext, hzero]; rfl)
      subst hn0
      have hcs : c :: cs = [ascii '0'] := htext.symm
      rw [hcs, takeWhile_append_head (p := isOctalDigit) (by decide)
        (fun b hb => by rw [hs b hb]; rfl)]
      rfl
    · rw [← htext, takeWhile_append_head hdigit (fun b hb => by rw [hs b hb]; rfl), ofDigits_natText,
        List.drop_left]

theorem scanParts_intercalate {ns : List Nat} (hne : ns ≠ []) (hns : ∀ n ∈ ns, n < 256) {k : Nat}
    (hk : ns.length ≤ k) : scanParts k ([ascii '.'].intercalate (ns.map natText)) = some ns := by
  induction ns generalizing k with
  | nil => exact absurd rfl hne
  | cons n ns ih =>
    obtain ⟨hn, hrest⟩ := List.forall_mem_cons.mp hns
    obtain ⟨k, rfl⟩ := Nat.exists_eq_succ_of_ne_zero (Nat.ne_of_gt (Nat.zero_lt_of_lt hk))
    cases ns with
    | nil =>
      have hscan := scanNumber_natText hn (s := []) fun b hb => by cases hb
      rw [List.append_nil] at hscan
      rw [List.map_cons, List.map_nil, List.intercalate_singleton, Nat.succ_eq_add_one, scanParts, hscan]
    | cons a ns =>
      have hscan := scanNumber_natText hn
        (s := ascii '.' :: [ascii '.'].intercalate ((a :: ns).map natText)) fun b hb => by cases hb; rfl
      rw [List.map_cons, List.map_cons, List.intercalate_cons_cons, List.append_assoc, List.singleton_append,
        ← List.map_cons, Nat.succ_eq_add_one, scanParts, hscan]
      dsimp only
      rw [if_pos rfl, ih (List.cons_ne_nil a ns) hrest (Nat.le_of_succ_le_succ hk)]
      rfl

/-- The four bytes of an address are the address. -/
theorem ofAddrBytes_le32 (addr : BitVec 32) :
    ofAddrBytes (addr.extractLsb' 0 8).toNat (addr.extractLsb' 8 8).toNat (addr.extractLsb' 16 8).toNat
      (addr.extractLsb' 24 8).toNat = addr := by
  have hload : (Mem.ofList (le32 addr)).load32 0 = addr := Mem.load32_eq_iff.mpr (Mem.read_ofList _)
  unfold ofAddrBytes
  simp only [BitVec.ofNat_toNat, BitVec.setWidth_eq]
  exact hload

/-- An IP address that was printed is read back. -/
theorem inetAddr_ipText (addr : BitVec 32) : inetAddr (ipText addr) = addr := by
  have hbytes : ∀ n ∈ (le32 addr).map BitVec.toNat, n < 256 := by
    intro n hn
    obtain ⟨b, _, rfl⟩ := List.mem_map.mp hn
    exact b.isLt
  have hne : (le32 addr).map BitVec.toNat ≠ [] := List.cons_ne_nil _ _
  have hparts := scanParts_intercalate hne hbytes (Nat.le_refl 4)
  rw [List.map_map] at hparts
  have htext : ipText addr = [ascii '.'].intercalate ((le32 addr).map (natText ∘ BitVec.toNat)) := rfl
  have hle (i : Nat) : (addr.extractLsb' i 8).toNat ≤ 255 := Nat.le_of_lt_succ (addr.extractLsb' i 8).isLt
  unfold inetAddr
  rw [htext, hparts]
  simp only [le32, List.map_cons, List.map_nil, Option.map_some, addrBytes]
  rw [if_pos ⟨hle 0, hle 8, hle 16, hle 24⟩, ofAddrBytes_le32]

/-! ## The headers -/

/-- `make_ethhdr` on its texts. -/
def ethhdrOfTexts (srcMac dstMac : List Byte) : Option Ethhdr := do
  let hDest ← parseMac dstMac
  let hSource ← parseMac srcMac
  return makeEthhdr hSource hDest

/-- `make_iphdr` on its texts. -/
def iphdrOfTexts (srcIp dstIp : List Byte) : Iphdr := makeIphdr (inetAddr srcIp) (inetAddr dstIp)

/-- What `transport_init` makes of its texts and ports. -/
def TxHdrs.ofTexts (srcMac dstMac srcIp dstIp : List Byte) (srcPort dstPort : BitVec 16) (udpHdr : Udphdr) :
    Option TxHdrs := do
  let eth ← ethhdrOfTexts srcMac dstMac
  return ⟨eth, iphdrOfTexts srcIp dstIp, makeUdphdr udpHdr srcPort dstPort⟩

/-- **Printed addresses are the addresses.** For all addresses and ports, the headers that
`transport_init` would make from the addresses as they are usually printed are those with
exactly these addresses, and no assertion fails. -/
theorem ofTexts_text (srcMac dstMac : Vector Byte 6) (srcIp dstIp : BitVec 32) (srcPort dstPort : BitVec 16)
    (udpHdr : Udphdr) :
    TxHdrs.ofTexts (macText srcMac) (macText dstMac) (ipText srcIp) (ipText dstIp) srcPort dstPort udpHdr =
      some (.make srcMac dstMac srcIp dstIp srcPort dstPort udpHdr) := by
  have hmac (mac : Vector Byte 6) : parseMac (macText mac) = some mac := by
    have hparse := parseMac_macText mac endsHex_nil
    rwa [List.append_nil] at hparse
  rw [TxHdrs.ofTexts, ethhdrOfTexts, hmac, hmac, iphdrOfTexts, inetAddr_ipText, inetAddr_ipText]
  rfl

/-- The texts of `transport_init` make the headers of the node. -/
example :
    TxHdrs.ofTexts ("02:00:00:00:00:02".toList.map ascii) ("02:00:00:00:00:01".toList.map ascii)
      ("10.0.2.100".toList.map ascii) ("10.0.2.15".toList.map ascii) 54321 8888 ⟨0, 0, 0, 0⟩ =
      some pingPongHdrs := by
  have hsource : parseMac ("02:00:00:00:00:02".toList.map ascii) = some pingPongHdrs.eth.hSource := by
    decide +kernel
  have hdest : parseMac ("02:00:00:00:00:01".toList.map ascii) = some pingPongHdrs.eth.hDest := by
    decide +kernel
  have hsaddr : inetAddr ("10.0.2.100".toList.map ascii) = 0x6402000A := by decide +kernel
  have hdaddr : inetAddr ("10.0.2.15".toList.map ascii) = 0x0F02000A := by decide +kernel
  rw [TxHdrs.ofTexts, ethhdrOfTexts, hdest, hsource, iphdrOfTexts, hsaddr, hdaddr]
  rfl

end MicroRosDemos.Net
