import Mathlib.Data.BitVec
import MicroRosDemos.Lib.Machine

/-!
# The break of the heap

The C library of ping_pong asks `syscall_dispatch` for memory by moving the break, up or down.
A byte is granted when the break passes over it, and given back when it passes over it again
on its way down. Whatever is called, no byte is granted a second time before it was given
back, the bytes that are out are those of `heap_mem` below the break, and the caller can tell
from the result whether it got what it asked for (`heap_sound`).
-/

namespace MicroRosDemos.Sel4.HeapStub

open MicroRosDemos.Lib

/-- `long` and `char *`. -/
abbrev Long := BitVec 64

/-- `HEAP_SIZE`. -/
def heapSize : Nat := 128 * 1024

/-- Where `heap_mem` is. -/
structure Heap where
  mem : Long
  aligned : 16 ∣ mem.toNat
  mem_pos : 0 < mem.toNat
  inside : mem.toNat + heapSize < 2 ^ 64

/-- `SYS_brk`. -/
def sysBrk : Long := 214

/-- `syscall_dispatch(n, a1, ..)`: its result, and `heap_brk` after it. -/
def syscallDispatch (heap : Heap) (heapBrk n a1 : Long) : Long × Long :=
  if n = sysBrk then
    if a1 = 0 then (heapBrk, heapBrk)
    else if heap.mem ≤ a1 ∧ a1 ≤ heap.mem + BitVec.ofNat 64 heapSize then (a1, a1)
    else (heapBrk, heapBrk)
  else (-38, heapBrk)

/-! ## The calls of a program -/

/-- A call, its result, and `heap_brk` before and after it. -/
structure Call where
  n : Long
  a1 : Long
  ret : Long
  before : Long
  after : Long
deriving DecidableEq

/-- `heap_brk` after some calls, and these calls in order. -/
structure State where
  heapBrk : Long
  calls : List Call

/-- Each step is a call with some `n` and `a1`. -/
def machine (heap : Heap) : Machine State (Long × Long) where
  step s := fun (n, a1) =>
    let (ret, heapBrk) := syscallDispatch heap s.heapBrk n a1
    some ⟨heapBrk, s.calls ++ [⟨n, a1, ret, s.heapBrk, heapBrk⟩]⟩

def State.start (heap : Heap) : State := ⟨heap.mem, []⟩

/-- The address is one of `heap_mem`. -/
def Heap.Within (heap : Heap) (a : Long) : Prop :=
  heap.mem.toNat ≤ a.toNat ∧ a.toNat ≤ heap.mem.toNat + heapSize

instance (heap : Heap) (a : Long) : Decidable (heap.Within a) := inferInstanceAs (Decidable (_ ∧ _))

/-- The call grants the byte at an address. -/
def Call.Grants (c : Call) (x : Nat) : Prop := c.before.toNat ≤ x ∧ x < c.after.toNat

/-- The call gives the byte back. -/
def Call.Frees (c : Call) (x : Nat) : Prop := c.after.toNat ≤ x ∧ x < c.before.toNat

/-- A call has granted the byte, and none has given it back since. -/
def State.IsOut (s : State) (x : Nat) : Prop :=
  ∃ (i : Nat) (c : Call), s.calls[i]? = some c ∧ c.Grants x ∧
    ∀ (j : Nat) (d : Call), i < j → s.calls[j]? = some d → ¬ d.Frees x

/-- What the caller can go by: the break is what the result says, the one it asked for just
when that is in the heap, and the one before otherwise; no other call does anything. -/
structure Call.Sound (heap : Heap) (c : Call) : Prop where
  within : heap.Within c.before ∧ heap.Within c.after
  ret : c.n = sysBrk → c.ret = c.after
  got : c.n = sysBrk → c.a1 ≠ 0 → (c.ret = c.a1 ↔ heap.Within c.a1)
  kept : c.after = c.before ∨ c.n = sysBrk ∧ c.after = c.a1 ∧ heap.Within c.a1
  other : c.n ≠ sysBrk → c.ret = -38 ∧ c.after = c.before

variable {heap : Heap} {s t : State}

/-- The comparisons of the source are those of the addresses. -/
theorem Heap.within_iff (heap : Heap) (a : Long) :
    heap.mem ≤ a ∧ a ≤ heap.mem + BitVec.ofNat 64 heapSize ↔ heap.Within a := by
  have hinside := heap.inside
  have hend : (heap.mem + BitVec.ofNat 64 heapSize).toNat = heap.mem.toNat + heapSize := by
    rw [BitVec.toNat_add, BitVec.toNat_ofNat]
    unfold heapSize at hinside ⊢
    omega
  unfold Heap.Within
  rw [BitVec.le_def, BitVec.le_def, hend]

/-- A call from a break in the heap is sound. -/
theorem syscallDispatch_sound {heapBrk : Long} (h : heap.Within heapBrk) (n a1 : Long) :
    Call.Sound heap ⟨n, a1, (syscallDispatch heap heapBrk n a1).1, heapBrk,
      (syscallDispatch heap heapBrk n a1).2⟩ := by
  unfold syscallDispatch
  split
  · next hn =>
    split
    · next hzero =>
      exact ⟨⟨h, h⟩, fun _ => rfl, fun _ hne => absurd hzero hne, .inl rfl, fun hne => absurd hn hne⟩
    · split
      · next hin =>
        have hwithin := (heap.within_iff a1).mp hin
        exact ⟨⟨h, hwithin⟩, fun _ => rfl, fun _ _ => iff_of_true rfl hwithin, .inr ⟨hn, rfl, hwithin⟩,
          fun hne => absurd hn hne⟩
      · next hout =>
        have hnot : ¬ heap.Within a1 := fun hwithin => hout ((heap.within_iff a1).mpr hwithin)
        refine ⟨⟨h, h⟩, fun _ => rfl, fun _ _ => iff_of_false ?_ hnot, .inl rfl, fun hne => absurd hn hne⟩
        intro hret
        have hsame : heapBrk = a1 := hret
        exact hnot (hsame ▸ h)
  · next hn =>
    exact ⟨⟨h, h⟩, fun heq => absurd heq hn, fun heq => absurd heq hn, .inl rfl, fun _ => ⟨rfl, rfl⟩⟩

/-! ## Every run of calls -/

/-- `heap_brk` before the call at an index, or now. -/
def State.brkAt (s : State) (i : Nat) : Long := (s.calls[i]?).elim s.heapBrk Call.before

/-- What a run keeps: the break starts at `heap_mem`, and each call leaves it where the next
one finds it. -/
structure Inv (heap : Heap) (s : State) : Prop where
  first : s.brkAt 0 = heap.mem
  within : heap.Within s.heapBrk
  chain : ∀ i c, s.calls[i]? = some c → c.after = s.brkAt (i + 1)
  sound : ∀ c ∈ s.calls, c.Sound heap

theorem brkAt_eq {i : Nat} {c : Call} (h : s.calls[i]? = some c) : s.brkAt i = c.before := by
  rw [State.brkAt, h]
  rfl

theorem brkAt_length (s : State) : s.brkAt s.calls.length = s.heapBrk := by
  rw [State.brkAt, List.getElem?_eq_none (Nat.le_refl _)]
  rfl

theorem start_inv (heap : Heap) : Inv heap (.start heap) where
  first := rfl
  within := ⟨Nat.le_refl _, Nat.le_add_right _ _⟩
  chain i c h := by cases h
  sound c h := by cases h

/-- A call that is added leaves what was before it. -/
theorem brkAt_grown {i : Nat} (hi : i ≤ s.calls.length) (c : Call) (hc : c.before = s.heapBrk)
    (heapBrk : Long) :
    State.brkAt ⟨heapBrk, s.calls ++ [c]⟩ i = s.brkAt i := by
  rcases Nat.lt_or_eq_of_le hi with hlt | rfl
  · rw [State.brkAt, State.brkAt, List.getElem?_append_left hlt, List.getElem?_eq_getElem hlt]
    rfl
  · rw [brkAt_length, State.brkAt, List.getElem?_concat_length]
    exact hc

theorem brkAt_grown_last (calls : List Call) (c : Call) (heapBrk : Long) :
    State.brkAt ⟨heapBrk, calls ++ [c]⟩ (calls.length + 1) = heapBrk := by
  have hend : (calls ++ [c])[calls.length + 1]? = none :=
    List.getElem?_eq_none (Nat.le_of_eq List.length_append)
  unfold State.brkAt
  dsimp only
  rw [hend]
  rfl

theorem step_inv {a : Long × Long} (h : Inv heap s) (hstep : (machine heap).step s a = some t) : Inv heap t := by
  cases hstep
  have hsound := syscallDispatch_sound h.within a.1 a.2
  refine ⟨?_, hsound.within.2, fun i c hc => ?_, forall_mem_grown.mpr ⟨h.sound, hsound⟩⟩
  · rw [brkAt_grown (Nat.zero_le _) _ rfl]
    exact h.first
  · rcases getElem?_grown hc with hold | ⟨rfl, rfl⟩
    · have hlt := (List.getElem?_eq_some_iff.mp hold).1
      rw [brkAt_grown hlt _ rfl]
      exact h.chain i c hold
    · exact (brkAt_grown_last _ _ _).symm

/-- Between two times of which the byte is out at the first and not at the second, a call gives
it back. -/
theorem Inv.exists_frees (h : Inv heap s) {i j x : Nat} (hij : i ≤ j) (hj : j ≤ s.calls.length)
    (hout : x < (s.brkAt i).toNat) (hback : ¬ x < (s.brkAt j).toNat) :
    ∃ (k : Nat) (e : Call), i ≤ k ∧ k < j ∧ s.calls[k]? = some e ∧ e.Frees x := by
  obtain ⟨k, hik, hkj, hk, hlater⟩ := exists_last (p := fun k => x < (s.brkAt k).toNat) hij hout hback
  have hlt : k < s.calls.length := Nat.lt_of_lt_of_le hkj hj
  have hcall := List.getElem?_eq_getElem hlt
  refine ⟨k, s.calls[k], hik, hkj, hcall, ?_, ?_⟩
  · rw [h.chain k _ hcall]
    exact Nat.le_of_not_lt (hlater (k + 1) (Nat.lt_succ_self k) hkj)
  · rw [← brkAt_eq hcall]
    exact hk

/-- A byte that is out was granted, and was not given back since. -/
theorem Inv.isOut (h : Inv heap s) {x : Nat} (hmem : heap.mem.toNat ≤ x) (hout : x < s.heapBrk.toNat) :
    s.IsOut x := by
  have hfirst : (s.brkAt 0).toNat ≤ x := by
    rw [h.first]
    exact hmem
  have hnow : ¬ (s.brkAt s.calls.length).toNat ≤ x := by
    rw [brkAt_length]
    exact Nat.not_le_of_lt hout
  obtain ⟨k, _, hlt, hk, hlater⟩ :=
    exists_last (p := fun k => (s.brkAt k).toNat ≤ x) (Nat.zero_le _) hfirst hnow
  have hcall := List.getElem?_eq_getElem hlt
  refine ⟨k, s.calls[k], hcall, ⟨?_, ?_⟩, ?_⟩
  · rw [← brkAt_eq hcall]
    exact hk
  · rw [h.chain k _ hcall]
    exact Nat.lt_of_not_le (hlater (k + 1) (Nat.lt_succ_self k) hlt)
  · intro j d hkj hd hfrees
    have hj := (List.getElem?_eq_some_iff.mp hd).1
    refine hlater (j + 1) (Nat.lt_succ_of_lt hkj) hj ?_
    rw [← h.chain j d hd]
    exact hfrees.1

/-- **The heap is given out once.** For every sequence of calls, whatever their number and
argument: each result says where the break is, and says so of the requested place just when
that is in `heap_mem`; no byte is granted twice unless it was given back in between; and the
bytes of `heap_mem` below the break are those that were granted and not given back since. -/
theorem heap_sound (heap : Heap) {s : State} (hrun : (machine heap).Reach (.start heap) s) :
    (∀ c ∈ s.calls, c.Sound heap) ∧
    (∀ (i j : Nat) (c d : Call) (x : Nat), i < j → s.calls[i]? = some c → s.calls[j]? = some d →
      c.Grants x → d.Grants x →
        ∃ (k : Nat) (e : Call), i < k ∧ k < j ∧ s.calls[k]? = some e ∧ e.Frees x) ∧
    ∀ x, heap.mem.toNat ≤ x ∧ x < s.heapBrk.toNat ↔ s.IsOut x := by
  have h : Inv heap s := hrun.invariant _ (start_inv heap) fun _ _ _ hs _ hstep => step_inv hs hstep
  refine ⟨h.sound, ?_, fun x => ⟨fun hx => h.isOut hx.1 hx.2, ?_⟩⟩
  · intro i j c d x hij hc hd hfirst hsecond
    have hout : x < (s.brkAt (i + 1)).toNat := by
      rw [← h.chain i c hc]
      exact hfirst.2
    have hback : ¬ x < (s.brkAt j).toNat := by
      rw [brkAt_eq hd]
      exact Nat.not_lt_of_le hsecond.1
    have hj := (List.getElem?_eq_some_iff.mp hd).1
    exact h.exists_frees hij (Nat.le_of_lt hj) hout hback
  · rintro ⟨i, c, hc, hgrants, hkept⟩
    have hi := (List.getElem?_eq_some_iff.mp hc).1
    refine ⟨Nat.le_trans (h.sound c (List.mem_of_getElem? hc)).within.1.1 hgrants.1, ?_⟩
    refine Nat.lt_of_not_le fun hback => ?_
    have hnow : ¬ x < (s.brkAt s.calls.length).toNat := by
      rw [brkAt_length]
      exact Nat.not_lt_of_le hback
    have hout : x < (s.brkAt (i + 1)).toNat := by
      rw [← h.chain i c hc]
      exact hgrants.2
    obtain ⟨k, e, hik, _, he, hfrees⟩ := h.exists_frees hi (Nat.le_refl _) hout hnow
    exact hkept k e hik he hfrees

/-- `heap_mem` at an address, for what follows. -/
def someHeap : Heap := ⟨0x40000, by decide, by decide, by decide⟩

/-- 4 KiB are granted, a request behind the end and another call are refused, and of the 4 KiB
half is given back and granted again. -/
theorem heap_sound_six :
    ∃ s, (machine someHeap).Reach (.start someHeap) s ∧
      s.calls.map Call.ret = [0x40000, 0x41000, 0x41000, -38, 0x40800, 0x41000] ∧
      (∃ e ∈ s.calls, e.Frees 0x40900) ∧ s.IsOut 0x40900 := by
  obtain ⟨s, hrun, hret, hbrk, ⟨c, hc, hgrants⟩, d, hd, hagain⟩ := (machine someHeap).exists_reach
    (P := fun s => s.calls.map Call.ret = [0x40000, 0x41000, 0x41000, -38, 0x40800, 0x41000] ∧
      s.heapBrk = 0x41000 ∧ (∃ c ∈ s.calls[1]?, c.before.toNat ≤ 0x40900 ∧ 0x40900 < c.after.toNat) ∧
      ∃ d ∈ s.calls[5]?, d.before.toNat ≤ 0x40900 ∧ 0x40900 < d.after.toNat)
    (s := .start someHeap)
    [(sysBrk, 0), (sysBrk, 0x41000), (sysBrk, 0x60001), (222, 0x1000), (sysBrk, 0x40800), (sysBrk, 0x41000)]
    (by decide +kernel)
  obtain ⟨_, honce, hout⟩ := heap_sound someHeap hrun
  obtain ⟨k, e, _, _, he, hfrees⟩ := honce 1 5 c d 0x40900 (by decide) hc hd hgrants hagain
  refine ⟨s, hrun, hret, ⟨e, List.mem_of_getElem? he, hfrees⟩, (hout 0x40900).mp ?_⟩
  rw [hbrk]
  decide

end MicroRosDemos.Sel4.HeapStub
