import Mathlib.Logic.Function.Basic
import MicroRosDemos.Lib.Machine
import MicroRosDemos.Lib.Text

/-!
# The complex_msg_publisher demo

The loop of `main` puts one number into every field of a `NestedMsgTest`, its four strings
included, and publishes it. Whether the messages go out or not, the i-th of them has the number
`i` in each field, as far as the field goes, its strings are whole and closed by a NUL, and
nothing but the four arrays is written to (`published_whole`).
-/

namespace MicroRosDemos.Rclc.ComplexMsg

open MicroRosDemos.Lib

/-- The strings of a `MultiStringTest`. -/
inductive StringField
  | data1
  | data2
  | data3
  | data4
deriving DecidableEq

/-- `rosidl_runtime_c__String`. -/
structure RosString where
  data : Nat
  size : Nat
  capacity : Nat

/-- `complex_msgs__msg__NestedMsgTest`; `data14` is the `MultiStringTest`. -/
structure NestedMsgTest where
  data1 : Bool
  data2 : BitVec 8
  data3 : BitVec 8
  data4 : BitVec 32
  data5 : BitVec 64
  data6 : BitVec 8
  data7 : BitVec 8
  data8 : BitVec 16
  data9 : BitVec 16
  data10 : BitVec 32
  data11 : BitVec 32
  data12 : BitVec 64
  data13 : BitVec 64
  data14 : StringField → RosString

/-- `sizeof(buff1)`. -/
def buffLen : Nat := 30

/-- Where `buff1` to `buff4` are. -/
structure Buffers where
  addr : StringField → Nat
  apart : ∀ f g, f ≠ g → addr f + buffLen ≤ addr g ∨ addr g + buffLen ≤ addr f

/-- What stands before the number. -/
def StringField.label : StringField → List Byte
  | .data1 => "Msg A - ".toList.map ascii
  | .data2 => "Msg B - ".toList.map ascii
  | .data3 => "Msg C - ".toList.map ascii
  | .data4 => "Msg D - ".toList.map ascii

/-- What the format of the field prints for a number. -/
def StringField.text (f : StringField) (num : BitVec 32) : List Byte := f.label ++ intText num.toInt

/-- The conversions to `float` and to `double`. -/
structure Floats where
  float : BitVec 32 → BitVec 32
  double : BitVec 32 → BitVec 64

/-- The assignments to the fields that are numbers. -/
def setNumbers (floats : Floats) (num : BitVec 32) (msg : NestedMsgTest) : NestedMsgTest :=
  { msg with
    data1 := num &&& 1 != 0
    data2 := num.setWidth 8
    data3 := num.setWidth 8
    data4 := floats.float num
    data5 := floats.double num
    data6 := num.setWidth 8
    data7 := num.setWidth 8
    data8 := num.setWidth 16
    data9 := num.setWidth 16
    data10 := num
    data11 := num
    data12 := num.signExtend 64
    data13 := num.signExtend 64 }

/-- The `snprintf` of a field. -/
def print (num : BitVec 32) (s : Mem × NestedMsgTest) (f : StringField) : Mem × NestedMsgTest :=
  let str := s.2.data14 f
  let printed := snprintf s.1 str.data str.capacity (f.text num)
  (printed.1, { s.2 with data14 := Function.update s.2.data14 f { str with size := printed.2 } })

/-- A message as `rcl_publish` is given it, with the memory its strings are in, and whether it
went out. -/
structure Passed where
  msg : NestedMsgTest
  mem : Mem
  ok : Bool

/-- The variables of `main`; the history is the messages. -/
structure State where
  mem : Mem
  msg : NestedMsgTest
  num : BitVec 32
  passed : List Passed

/-- The fields in the order they are printed in. -/
def stringFields : List StringField := [.data1, .data2, .data3, .data4]

/-- One turn of the loop, `ok` being what `rcl_publish` returns. -/
def turn (floats : Floats) (s : State) (ok : Bool) : State :=
  let printed := stringFields.foldl (print s.num) (s.mem, setNumbers floats s.num s.msg)
  ⟨printed.1, printed.2, s.num + 1, s.passed ++ [⟨printed.2, printed.1, ok⟩]⟩

/-- The loop. -/
def machine (floats : Floats) : Machine State Bool := ⟨fun s ok => some (turn floats s ok)⟩

/-- Before the loop: the strings have their arrays, and the other fields are whatever was on
the stack. -/
def State.start (mem : Mem) (msg : NestedMsgTest) (buffers : Buffers) : State :=
  ⟨mem, { msg with data14 := fun f => ⟨buffers.addr f, 0, buffLen⟩ }, 0, []⟩

/-! ## What a message shows -/

/-- The fields that are integers have the number, as far as they go. -/
structure NestedMsgTest.Shows (msg : NestedMsgTest) (num : BitVec 32) : Prop where
  odd : msg.data1 = true ↔ num.toNat % 2 = 1
  bytes : msg.data2.toNat = num.toNat % 2 ^ 8 ∧ msg.data7.toNat = num.toNat % 2 ^ 8
  chars : msg.data3.toInt = num.toInt.bmod (2 ^ 8) ∧ msg.data6.toInt = num.toInt.bmod (2 ^ 8)
  shorts : msg.data8.toInt = num.toInt.bmod (2 ^ 16) ∧ msg.data9.toNat = num.toNat % 2 ^ 16
  ints : msg.data10.toInt = num.toInt ∧ msg.data11.toNat = num.toNat
  longs : msg.data12.toInt = num.toInt ∧ (msg.data13.toNat : Int) = num.toInt % 2 ^ 64

/-- The strings are whole, and closed inside their arrays. -/
structure Passed.Whole (p : Passed) (num : BitVec 32) : Prop where
  size : ∀ f, (p.msg.data14 f).size = (f.text num).length
  fits : ∀ f, (p.msg.data14 f).size < (p.msg.data14 f).capacity
  text : ∀ f, StringAt p.mem (p.msg.data14 f).data (f.text num)

/-- A conversion to a shorter signed type. -/
theorem toInt_short {w : Nat} (hw : w ≤ 32) (num : BitVec 32) :
    (num.setWidth w).toInt = num.toInt.bmod (2 ^ w) := by
  rw [← BitVec.signExtend_eq_setWidth_of_le num hw]
  exact BitVec.toInt_signExtend_eq_toInt_bmod_of_le num hw

/-- The bytes of a string. -/
def Passed.string (p : Passed) (f : StringField) : List Byte :=
  p.mem.read (p.msg.data14 f).data (p.msg.data14 f).size

theorem Passed.Whole.string_eq {p : Passed} {num : BitVec 32} (h : p.Whole num) (f : StringField) :
    p.string f = f.text num := by
  rw [Passed.string, h.size f, (h.text f).1]

theorem setNumbers_shows (floats : Floats) (num : BitVec 32) (msg : NestedMsgTest) :
    (setNumbers floats num msg).Shows num where
  odd := by
    have hone : (num &&& 1).toNat = num.toNat % 2 := by
      rw [BitVec.toNat_and]
      exact Nat.and_one_is_mod _
    show (num &&& 1 != 0) = true ↔ _
    rw [bne_iff_ne, ← hone, Ne, ← BitVec.toNat_inj]
    have hlt := Nat.mod_lt num.toNat (show 2 > 0 by omega)
    rw [← hone] at hlt
    show ¬ (num &&& 1).toNat = 0 ↔ _
    omega
  bytes := ⟨BitVec.toNat_setWidth 8 num, BitVec.toNat_setWidth 8 num⟩
  chars := ⟨toInt_short (by omega) num, toInt_short (by omega) num⟩
  shorts := ⟨toInt_short (by omega) num, BitVec.toNat_setWidth 16 num⟩
  ints := ⟨rfl, rfl⟩
  longs := by
    have hlong : (num.signExtend 64).toInt = num.toInt := BitVec.toInt_signExtend_of_le (by omega)
    refine ⟨hlong, ?_⟩
    show ((num.signExtend 64).toNat : Int) = _
    rw [← hlong, BitVec.toInt_eq_toNat_cond]
    have hlt := (num.signExtend 64).isLt
    split <;> omega

/-! ## The strings -/

theorem StringField.text_length (f : StringField) (num : BitVec 32) : (f.text num).length < buffLen := by
  have hnum := intText_length_le (BitVec.le_toInt num) BitVec.toInt_lt
  have hlabel : f.label.length = 8 := by cases f <;> rfl
  rw [StringField.text, List.length_append, hlabel, buffLen]
  omega

/-- A text tells its number. -/
theorem StringField.text_inj {f : StringField} {a b : BitVec 32} (h : f.text a = f.text b) : a = b :=
  BitVec.eq_of_toInt_eq (intText_inj (List.append_cancel_left h))

/-- The strings of a message are in the arrays. -/
def InArrays (buffers : Buffers) (msg : NestedMsgTest) : Prop :=
  ∀ f, (msg.data14 f).data = buffers.addr f ∧ (msg.data14 f).capacity = buffLen

/-- A field is printed. -/
def Printed (num : BitVec 32) (s : Mem × NestedMsgTest) (f : StringField) : Prop :=
  (s.2.data14 f).size = (f.text num).length ∧ StringAt s.1 (s.2.data14 f).data (f.text num)

variable {buffers : Buffers} {num : BitVec 32} {s : Mem × NestedMsgTest}

theorem print_inArrays (h : InArrays buffers s.2) (f : StringField) : InArrays buffers (print num s f).2 := by
  intro g
  dsimp only [print]
  rcases eq_or_ne g f with rfl | hne
  · rw [Function.update_self]
    exact h g
  · rw [Function.update_of_ne hne]
    exact h g

theorem print_self (h : InArrays buffers s.2) (f : StringField) : Printed num (print num s f) f := by
  have hstring : StringAt (print num s f).1 (s.2.data14 f).data (f.text num) :=
    snprintf_stringAt s.1 _ (by rw [(h f).2]; exact f.text_length num)
  unfold Printed
  have hstr : (print num s f).2.data14 f = { s.2.data14 f with size := (f.text num).length } :=
    Function.update_self _ _ _
  rw [hstr]
  exact ⟨rfl, hstring⟩

/-- Printing writes to the array of its field. -/
theorem print_mem (h : InArrays buffers s.2) {f : StringField} {a : Nat}
    (ha : a < buffers.addr f ∨ buffers.addr f + buffLen ≤ a) : (print num s f).1 a = s.1 a := by
  refine snprintf_outside s.1 _ ?_
  rw [(h f).1, (h f).2]
  exact ha

/-- The other fields stay printed. -/
theorem print_other (h : InArrays buffers s.2) {f g : StringField} (hne : g ≠ f) (hg : Printed num s g) :
    Printed num (print num s f) g := by
  have hstr : (print num s f).2.data14 g = s.2.data14 g := Function.update_of_ne hne _ _
  unfold Printed
  rw [hstr]
  refine ⟨hg.1, hg.2.congr fun a hlo hhi => print_mem h ?_⟩
  have hapart := buffers.apart g f hne
  have hlen := g.text_length num
  rw [(h g).1] at hlo hhi
  omega

/-- Printing leaves the numbers. -/
theorem foldl_print_shows (fields : List StringField) (h : s.2.Shows num) :
    (fields.foldl (print num) s).2.Shows num := by
  induction fields generalizing s with
  | nil => exact h
  | cons f fields ih => exact ih ⟨h.odd, h.bytes, h.chars, h.shorts, h.ints, h.longs⟩

/-- The fields of a list are printed, and nothing outside the arrays is written to. -/
theorem foldl_print (fields : List StringField) (h : InArrays buffers s.2) :
    InArrays buffers (fields.foldl (print num) s).2 ∧
    (∀ g, g ∈ fields ∨ Printed num s g → Printed num (fields.foldl (print num) s) g) ∧
    ∀ a, (∀ f, a < buffers.addr f ∨ buffers.addr f + buffLen ≤ a) →
      (fields.foldl (print num) s).1 a = s.1 a := by
  induction fields generalizing s with
  | nil => exact ⟨h, fun g hg => hg.resolve_left List.not_mem_nil, fun _ _ => rfl⟩
  | cons f fields ih =>
    obtain ⟨harrays, hprinted, hmem⟩ := ih (print_inArrays h f)
    refine ⟨harrays, fun g hg => hprinted g ?_, fun a ha => (hmem a ha).trans (print_mem h (ha f))⟩
    rcases eq_or_ne g f with rfl | hne
    · exact .inr (print_self h g)
    · rcases hg with hin | hg
      · exact .inl ((List.mem_cons.mp hin).resolve_left hne)
      · exact .inr (print_other h hne hg)

/-! ## Every run of the loop -/

/-- What a run keeps: the strings have their arrays, `num` counts the turns, and every message
has its number whole. -/
structure Inv (mem : Mem) (buffers : Buffers) (s : State) : Prop where
  arrays : InArrays buffers s.msg
  num : s.num = BitVec.ofNat 32 s.passed.length
  passed : ∀ (i : Nat) (p : Passed), s.passed[i]? = some p →
    p.msg.Shows (BitVec.ofNat 32 i) ∧ p.Whole (BitVec.ofNat 32 i)
  outside : ∀ a, (∀ f, a < buffers.addr f ∨ buffers.addr f + buffLen ≤ a) → s.mem a = mem a

theorem start_inv (mem : Mem) (msg : NestedMsgTest) (buffers : Buffers) :
    Inv mem buffers (.start mem msg buffers) where
  arrays f := ⟨rfl, rfl⟩
  num := rfl
  passed i p hp := by cases hp
  outside a ha := rfl

theorem turn_inv {floats : Floats} {mem : Mem} {s : State} (h : Inv mem buffers s) (ok : Bool) :
    Inv mem buffers (turn floats s ok) := by
  obtain ⟨harrays, hprinted, hmem⟩ := @foldl_print buffers s.num
    (s.mem, setNumbers floats s.num s.msg) stringFields h.arrays
  have hall (f : StringField) : Printed s.num _ f := hprinted f (.inl (by cases f <;> decide))
  have hshows := foldl_print_shows (s := (s.mem, setNumbers floats s.num s.msg)) stringFields
    (setNumbers_shows floats s.num s.msg)
  refine ⟨harrays, ?_, fun i p hp => ?_, fun a ha => (hmem a ha).trans (h.outside a ha)⟩
  · show s.num + 1 = _
    rw [turn, List.length_append, List.length_singleton, BitVec.ofNat_add, ← h.num]
    rfl
  · rcases getElem?_grown hp with hold | ⟨rfl, rfl⟩
    · exact h.passed i p hold
    · rw [← h.num]
      refine ⟨hshows, fun f => (hall f).1, fun f => ?_, fun f => (hall f).2⟩
      dsimp only
      rw [(hall f).1, (harrays f).2]
      exact f.text_length s.num

/-- **Every message is whole.** For any memory, any four arrays that do not overlap, any
conversions to floating point and every sequence of turns, whether the messages go out or not:
the i-th message has the number `i` (modulo 2^32) in each of its integers, as far as that goes,
and in its four strings, each whole and with its NUL inside its array; nothing outside the
arrays is written to; and no two of the first 2^32 messages have a string in common. -/
theorem published_whole (floats : Floats) (mem : Mem) (msg : NestedMsgTest) (buffers : Buffers) {s : State}
    (hrun : (machine floats).Reach (.start mem msg buffers) s) :
    (∀ (i : Nat) (p : Passed), s.passed[i]? = some p →
      p.msg.Shows (BitVec.ofNat 32 i) ∧ p.Whole (BitVec.ofNat 32 i)) ∧
    (∀ a, (∀ f, a < buffers.addr f ∨ buffers.addr f + buffLen ≤ a) → s.mem a = mem a) ∧
    (s.passed.length ≤ 2 ^ 32 → ∀ (i j : Nat) (p q : Passed) (f : StringField), i ≠ j →
      s.passed[i]? = some p → s.passed[j]? = some q → p.string f ≠ q.string f) := by
  have h : Inv mem buffers s := hrun.invariant _
    (start_inv mem msg buffers) fun _ ok _ hs _ hstep => Option.some.inj hstep ▸ turn_inv hs ok
  refine ⟨h.passed, h.outside, fun hlen i j p q f hij hp hq hsame => ?_⟩
  rw [(h.passed i p hp).2.string_eq f, (h.passed j q hq).2.string_eq f] at hsame
  have hnum := congrArg BitVec.toNat (StringField.text_inj hsame)
  have hi := (List.getElem?_eq_some_iff.mp hp).1
  have hj := (List.getElem?_eq_some_iff.mp hq).1
  rw [BitVec.toNat_ofNat, BitVec.toNat_ofNat, Nat.mod_eq_of_lt (by omega), Nat.mod_eq_of_lt (by omega)] at hnum
  exact hij hnum

/-- The arrays one behind the other. -/
def someBuffers : Buffers where
  addr
    | .data1 => 1000
    | .data2 => 1030
    | .data3 => 1060
    | .data4 => 1090
  apart f g hne := by
    cases f <;> cases g <;> first
      | exact absurd rfl hne
      | decide

/-- The conversions of 0 and of 1. -/
def someFloats : Floats where
  float n := if n = 0 then 0 else 0x3F800000
  double n := if n = 0 then 0 else 0x3FF0000000000000

/-- What happens to be on the stack. -/
def someMsg : NestedMsgTest := ⟨false, 1, 2, 3, 4, 5, 6, 7, 8, 9, 10, 11, 12, fun _ => ⟨0, 0, 0⟩⟩

/-- Two turns, of which the first does not go out. -/
theorem published_whole_two :
    ∃ s p q, (machine someFloats).Reach (.start (fun _ => 7) someMsg someBuffers) s ∧ s.passed = [p, q] ∧
      p.ok = false ∧ p.msg.Shows 0 ∧ q.string .data3 = "Msg C - 1".toList.map ascii ∧
      p.string .data3 ≠ q.string .data3 := by
  have hrun : (machine someFloats).Reach (.start (fun _ => 7) someMsg someBuffers) _ :=
    (Machine.Run.single (a := false) trivial rfl).step (a := true) trivial rfl
  obtain ⟨hall, _, hdistinct⟩ := published_whole someFloats (fun _ => 7) someMsg someBuffers hrun
  have hfew : 2 ≤ 2 ^ 32 := by omega
  refine ⟨_, _, _, hrun, rfl, rfl, (hall 0 _ rfl).1, ?_, hdistinct hfew 0 1 _ _ _ (by decide) rfl rfl⟩
  rw [(hall 1 _ rfl).2.string_eq]
  rfl

end MicroRosDemos.Rclc.ComplexMsg
