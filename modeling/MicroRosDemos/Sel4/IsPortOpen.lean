import MicroRosDemos.Lib.Scan

/-!
# Which port is open: `is_port_open.c`

`is_udp_port_open` looks for a port in `/proc/net/udp`: it prints the port as the file
does, behind a colon, and searches the local address of every entry for that text. The
address has one colon, and the port behind it four digits, so the text is found just
where the port is equal (`isUdpPortOpen_iff`). A port outside 0..65535 is printed with
more digits, of which `port_str` holds six, and is found nowhere.
-/

namespace MicroRosDemos.Sel4.IsPortOpen

open MicroRosDemos.Lib

/-- `port_str`: what `snprintf(port_str, sizeof(port_str), ":%04X", port)` leaves in 8 bytes. -/
def portStr (port : BitVec 32) : List Byte := (ascii ':' :: hexText 4 port.toNat).take (8 - 1)

/-- `sscanf(line, "%d: %31s", &sl, local_addr)`, when it returns 2. -/
def scanLine (line : List Byte) : Option (Int × List Byte) := do
  let (sl, s) ← scanInt (cstring line)
  let s ← scanChar (ascii ':') s
  let (localAddr, _) ← scanWord 31 (scanSpace s)
  some (sl, localAddr)

/-- The loop of `is_udp_port_open`, over what is left of the file. -/
def searchLines (port : BitVec 32) (f : List Byte) : Bool :=
  match _h : fgets 256 f with
  | none => false
  | some (line, rest) =>
    match scanLine line with
    | some (_, localAddr) =>
      if strstr localAddr (portStr port) then true else searchLines port rest
    | none => searchLines port rest
termination_by f.length
decreasing_by all_goals exact fgets_lt (by omega) _h

/-- `is_udp_port_open`; the file is what `fopen` gives. -/
def isUdpPortOpen (file : Option (List Byte)) (port : BitVec 32) : Bool :=
  match file with
  | none => false
  | some f =>
    -- the header line, whatever it is
    match fgets 256 f with
    | none => searchLines port f
    | some (_, rest) => searchLines port rest

/-! ## The file -/

/-- An address and a port, as the file has them. -/
def addrText (addr : BitVec 32) (port : BitVec 16) : List Byte :=
  hexText 8 addr.toNat ++ ascii ':' :: hexText 4 port.toNat

/-- The line of an entry: its number behind blanks, its local address, and the other columns. -/
def entryLine (pad sl : Nat) (addr : BitVec 32) (port : BitVec 16) (columns : List Byte) : List Byte :=
  List.replicate pad 32 ++ (natText sl ++ ascii ':' :: 32 :: (addrText addr port ++ 32 :: columns))

/-- An entry of `/proc/net/udp`. -/
structure Entry where
  pad : Nat
  sl : Nat
  addr : BitVec 32
  port : BitVec 16
  columns : List Byte
  sl_lt : sl < 2 ^ 31
  columns_line : newline ∉ columns
  columns_text : 0 ∉ columns
  short : (entryLine pad sl addr port columns).length < 255

/-- The first line. -/
structure Header where
  text : List Byte
  line : newline ∉ text
  short : text.length < 255

def Entry.line (e : Entry) : List Byte := entryLine e.pad e.sl e.addr e.port e.columns

/-- The lines of the entries. -/
def entriesText (entries : List Entry) : List Byte := entries.flatMap fun e => e.line ++ [newline]

/-- The content of `/proc/net/udp`. -/
def procNetUdp (header : Header) (entries : List Entry) : List Byte :=
  header.text ++ newline :: entriesText entries

/-! ## An entry is read back -/

theorem portText_length (port : BitVec 16) : (hexText 4 port.toNat).length = 4 := by
  have hlt : port.toNat < 16 ^ 4 := port.isLt
  rw [hexText_of_lt (by omega) hlt, hexDigits_length]

theorem addrText_length (addr : BitVec 32) (port : BitVec 16) : (addrText addr port).length = 13 := by
  have hlt : addr.toNat < 16 ^ 8 := addr.isLt
  rw [addrText, List.length_append, List.length_cons, portText_length, hexText_of_lt (by omega) hlt,
    hexDigits_length]

/-- The bytes of an address: digits, letters and the colon. -/
theorem addrText_byte {addr : BitVec 32} {port : BitVec 16} {b : Byte} (h : b ∈ addrText addr port) :
    48 ≤ b.toNat := by
  rcases List.mem_append.mp h with h | h
  · exact (hexDigits_byte h).1
  · rcases List.mem_cons.mp h with rfl | h
    · decide
    · exact (hexDigits_byte h).1

/-- A line has a blank or a visible character everywhere but in the other columns. -/
theorem Entry.line_byte {e : Entry} {b : Byte} (h : b ∈ e.line) : 32 ≤ b.toNat ∨ b ∈ e.columns := by
  unfold Entry.line entryLine at h
  rcases List.mem_append.mp h with h | h
  · rw [(List.mem_replicate.mp h).2]
    exact .inl (by decide)
  rcases List.mem_append.mp h with h | h
  · have := natText_digit h
    exact .inl (by omega)
  rcases List.mem_cons.mp h with rfl | h
  · exact .inl (by decide)
  rcases List.mem_cons.mp h with rfl | h
  · exact .inl (by decide)
  rcases List.mem_append.mp h with h | h
  · have := addrText_byte h
    exact .inl (by omega)
  rcases List.mem_cons.mp h with rfl | h
  · exact .inl (by decide)
  · exact .inr h

theorem Entry.newline_notMem (e : Entry) : newline ∉ e.line := by
  intro h
  rcases e.line_byte h with h | h
  · exact absurd h (by decide)
  · exact e.columns_line h

theorem Entry.zero_notMem (e : Entry) : 0 ∉ e.line ++ [newline] := by
  intro h
  rcases List.mem_append.mp h with h | h
  · rcases e.line_byte h with h | h
    · exact absurd h (by decide)
    · exact e.columns_text h
  · exact absurd (List.mem_singleton.mp h) (by decide)

/-- `sscanf` finds the number and the local address. -/
theorem Entry.scanLine_eq (e : Entry) :
    scanLine (e.line ++ [newline]) = some ((e.sl : Int), addrText e.addr e.port) := by
  have hword : ∀ b ∈ addrText e.addr e.port, isSpace b = false := by
    intro b hb
    have hlo := addrText_byte hb
    exact isSpace_of_gt (by omega)
  have hne : addrText e.addr e.port ≠ [] := by
    intro hnil
    have := addrText_length e.addr e.port
    rw [hnil] at this
    cases this
  have hsplit : e.line ++ [newline] = List.replicate e.pad 32 ++ (natText e.sl ++ ascii ':' ::
      32 :: (addrText e.addr e.port ++ 32 :: (e.columns ++ [newline]))) := by
    unfold Entry.line entryLine
    simp only [List.append_assoc, List.cons_append]
  have hnumber := scanInt_natText e.pad e.sl (b := ascii ':') (by decide)
    (32 :: (addrText e.addr e.port ++ 32 :: (e.columns ++ [newline])))
  have hspace : scanSpace (32 :: (addrText e.addr e.port ++ 32 :: (e.columns ++ [newline]))) =
      addrText e.addr e.port ++ 32 :: (e.columns ++ [newline]) := by
    cases haddr : addrText e.addr e.port with
    | nil => exact absurd haddr hne
    | cons b bs =>
      exact scanSpace_replicate 1 (hword b (by rw [haddr]; exact List.mem_cons_self)) _
  have haddr : scanWord 31 (addrText e.addr e.port ++ 32 :: (e.columns ++ [newline])) =
      some (addrText e.addr e.port, 32 :: (e.columns ++ [newline])) :=
    scanWord_append hne hword (by rw [addrText_length]; omega) (by decide)
  unfold scanLine
  rw [cstring_of_notMem e.zero_notMem, hsplit, hnumber]
  simp only [Option.bind_eq_bind, Option.bind_some, scanChar, if_true, hspace, haddr]

/-! ## The search -/

/-- **The text of a port is found in a local address just when the port is there.** -/
theorem strstr_portStr {addr : BitVec 32} {port : BitVec 16} {wanted : BitVec 32} :
    strstr (addrText addr port) (portStr wanted) = true ↔ (port.toNat : Int) = wanted.toInt := by
  have haddr : addr.toNat < 16 ^ 8 := addr.isLt
  have hport : port.toNat < 16 ^ 4 := port.isLt
  have hcolon : ∀ {k n : Nat}, ascii ':' ∉ hexDigits k n := fun hmem =>
    (hexDigits_byte hmem).2.2 (by decide)
  have hint : (port.toNat : Int) = wanted.toInt ↔ port.toNat = wanted.toNat := by
    rw [BitVec.toInt_eq_toNat_cond]
    have := wanted.isLt
    split <;> omega
  have hbegin : strstr (addrText addr port) (portStr wanted) = true ↔
      (hexText 4 wanted.toNat).take 6 <+: hexText 4 port.toNat := by
    unfold strstr portStr addrText
    rw [decide_eq_true_iff]
    exact infix_cons_iff hcolon hcolon
  rw [hbegin, hint]
  constructor
  · intro h
    have hlen := h.length_le
    rw [portText_length, List.length_take] at hlen
    -- more than four digits are more than the port has, six of them too
    have hsmall : wanted.toNat < 16 ^ 4 := by
      by_contra hge
      have := hexText_length_of_ge (Nat.le_of_not_lt hge)
      omega
    have heq : hexText 4 wanted.toNat = hexText 4 port.toNat := by
      rw [hexText_of_lt (by omega) hsmall] at h ⊢
      have hfour : (hexDigits 4 wanted.toNat).length = 4 := hexDigits_length _ _
      rw [List.take_of_length_le (by omega)] at h
      exact h.eq_of_length (by rw [portText_length, hfour])
    rw [hexText_of_lt (by omega) hsmall, hexText_of_lt (by omega) hport] at heq
    have hmod := hexDigits_inj heq
    rw [Nat.mod_eq_of_lt hsmall, Nat.mod_eq_of_lt hport] at hmod
    exact hmod.symm
  · intro h
    rw [← h]
    exact List.take_prefix _ _

/-- One turn of the loop. -/
theorem searchLines_cons (port : BitVec 32) (e : Entry) (entries : List Entry) :
    searchLines port (entriesText (e :: entries)) =
      (strstr (addrText e.addr e.port) (portStr port) || searchLines port (entriesText entries)) := by
  have hshort : e.line.length < 255 := e.short
  have hsplit : entriesText (e :: entries) = e.line ++ newline :: entriesText entries := by
    unfold entriesText
    rw [List.flatMap_cons, List.append_assoc]
    rfl
  have hread : fgets 256 (entriesText (e :: entries)) = some (e.line ++ [newline], entriesText entries) := by
    rw [hsplit]
    exact fgets_line e.newline_notMem (by omega)
  rw [searchLines]
  split
  · next hnone =>
    rw [hread] at hnone
    cases hnone
  · next line rest hsome =>
    rw [hread] at hsome
    cases hsome
    rw [e.scanLine_eq]
    dsimp only
    cases strstr (addrText e.addr e.port) (portStr port) <;> rfl

/-- The loop finds the port in one of the entries, or comes to the end of the file. -/
theorem searchLines_entries (port : BitVec 32) (entries : List Entry) :
    searchLines port (entriesText entries) =
      entries.any fun e => strstr (addrText e.addr e.port) (portStr port) := by
  induction entries with
  | nil =>
    rw [searchLines]
    rfl
  | cons e entries ih => rw [searchLines_cons, ih, List.any_cons]

/-- **The probe reports exactly the open port.** For every content of `/proc/net/udp`
and every `int`: `is_udp_port_open` says that a port is open if and only if it is the
local port of one of the entries. -/
theorem isUdpPortOpen_iff (header : Header) (entries : List Entry) (port : BitVec 32) :
    isUdpPortOpen (some (procNetUdp header entries)) port = true ↔
      ∃ e ∈ entries, (e.port.toNat : Int) = port.toInt := by
  have hheader : fgets 256 (procNetUdp header entries) =
      some (header.text ++ [newline], entriesText entries) := by
    have := header.short
    exact fgets_line header.line (by omega)
  unfold isUdpPortOpen
  dsimp only
  rw [hheader]
  dsimp only
  rw [searchLines_entries, List.any_eq_true]
  simp only [strstr_portStr]

/-- A file with one entry, on port 12345 (0x3039), whose peer is on port 8888 (0x22B8). -/
def oneEntry : List Byte :=
  ("  sl  local_address rem_address   st\n" ++ "   10: 0100007F:3039 0200007F:22B8 07\n").toList.map ascii

example : isUdpPortOpen (some oneEntry) 12345 = true ∧ isUdpPortOpen (some oneEntry) 8888 = false ∧
    isUdpPortOpen (some oneEntry) 0x30391 = false := by
  decide +kernel

end MicroRosDemos.Sel4.IsPortOpen
