import Mathlib.Logic.Function.Basic
import MicroRosDemos.Lib.Align
import MicroRosDemos.Lib.Machine

/-!
# Emulated TLS

`__emutls_get_address` places an object at its first use: at `emutls_next`, rounded up to
the object's alignment, and it moves `emutls_next` behind the object. So the addresses
are stable, aligned and apart as long as no sum wraps (`getAddress_sound`). Where the
storage ends is nowhere looked at, and an address is inside it just when the object
happened to fit (`inside_iff`).
-/

namespace MicroRosDemos.Sel4.Emutls

open MicroRosDemos.Lib

/-- `size_t` and `uintptr_t`. -/
abbrev Uintptr := BitVec 64

/-- `struct __emutls_object`, as a compiler lays it down: the alignment is zero or a power
of two. Its `loc`, the field that changes, is in the state. -/
structure EmutlsObject where
  size : Uintptr
  align : Uintptr
  templ : Uintptr
  align_valid : align = 0 ∨ ∃ k, align.toNat = 2 ^ k

/-- `sizeof emutls_storage`. -/
def storageSize : Nat := 4096

/-- Where `emutls_storage` is. -/
structure Storage where
  addr : Uintptr
  aligned : 16 ∣ addr.toNat
  addr_pos : 0 < addr.toNat
  inside : addr.toNat + storageSize < 2 ^ 64

/-- What the calls change: `loc.ptr` of every object, and `emutls_next`. -/
structure Tls (ι : Type*) where
  loc : ι → Uintptr
  next : Uintptr

variable {ι : Type*}

/-- Where an object goes that is used first when `emutls_next` is `next`. -/
def EmutlsObject.place (obj : EmutlsObject) (next : Uintptr) : Uintptr :=
  let addr := next
  if obj.align > 1 then (addr + obj.align - 1) &&& ~~~(obj.align - 1) else addr

/-- `__emutls_get_address(obj)`. -/
def emutlsGetAddress [DecidableEq ι] (objs : ι → EmutlsObject) (obj : ι) (tls : Tls ι) : Uintptr × Tls ι :=
  let tls :=
    if tls.loc obj = 0 then
      let addr := (objs obj).place tls.next
      { loc := Function.update tls.loc obj addr, next := addr + (objs obj).size }
    else tls
  (tls.loc obj, tls)

/-! ## The calls of a program -/

/-- A call, and what it returned. -/
structure Call (ι : Type*) where
  obj : ι
  ret : Uintptr
deriving DecidableEq

/-- The state after some calls, and these calls in order. -/
structure State (ι : Type*) extends Tls ι where
  calls : List (Call ι)

/-- No object has been used. -/
def Tls.start (ι : Type*) (storage : Storage) : Tls ι := ⟨fun _ => 0, storage.addr⟩

def State.start (ι : Type*) (storage : Storage) : State ι := ⟨Tls.start ι storage, []⟩

/-- Each step is a call on some object. -/
def machine [DecidableEq ι] (objs : ι → EmutlsObject) : Machine (State ι) ι where
  step s obj :=
    let (ret, tls) := emutlsGetAddress objs obj s.toTls
    some ⟨tls, s.calls ++ [⟨obj, ret⟩]⟩

/-- The alignment in bytes. -/
def EmutlsObject.alignment (obj : EmutlsObject) : Nat := max 1 obj.align.toNat

variable (objs : ι → EmutlsObject) (storage : Storage) (tls : Tls ι)

/-- `emutls_next`, rounded up to the alignment of `obj` without a limit. -/
def Tls.placed (obj : ι) : Nat := alignUp tls.next.toNat (objs obj).alignment

/-- A first use does not reach the end of the address space. -/
def NoWrap (obj : ι) : Prop := tls.loc obj = 0 → tls.placed objs obj + (objs obj).size.toNat < 2 ^ 64

/-- There is room for `obj` in what is left of the storage. -/
def Fits (obj : ι) : Prop :=
  storage.addr.toNat ≤ tls.placed objs obj ∧
    tls.placed objs obj + (objs obj).size.toNat ≤ storage.addr.toNat + storageSize

instance (obj : ι) : Decidable (NoWrap objs tls obj) := inferInstanceAs (Decidable (_ = _ → _ < _))

instance (obj : ι) : Decidable (Fits objs storage tls obj) := inferInstanceAs (Decidable (_ ≤ _ ∧ _ ≤ _))

variable {objs storage tls} {s t : State ι} {obj : ι}

theorem EmutlsObject.alignment_pos (o : EmutlsObject) : 0 < o.alignment := by
  unfold alignment
  omega

theorem EmutlsObject.exists_alignment_eq (o : EmutlsObject) : ∃ k, k < 64 ∧ o.alignment = 2 ^ k := by
  have hlt := o.align.isLt
  rcases o.align_valid with h | ⟨k, h⟩
  · exact ⟨0, by omega, by rw [alignment, h]; rfl⟩
  · refine ⟨k, (Nat.pow_lt_pow_iff_right (show 1 < 2 by omega)).mp (h ▸ hlt), ?_⟩
    rw [alignment, h, Nat.max_eq_right (Nat.two_pow_pos k)]

/-- The address that the code computes is the rounded one, modulo the address space. -/
theorem EmutlsObject.place_toNat (o : EmutlsObject) (next : Uintptr) :
    (o.place next).toNat = alignUp next.toNat o.alignment % 2 ^ 64 := by
  unfold place alignment
  dsimp only
  split
  · next hgt =>
    have hone : 1 < o.align.toNat := hgt
    rcases o.align_valid with h | ⟨k, h⟩
    · rw [h] at hone
      exact absurd hone (by decide)
    · rw [round_toNat h, Nat.max_eq_right (Nat.le_of_lt hone), h]
  · next hle =>
    have hone : o.align.toNat ≤ 1 := Nat.le_of_not_lt hle
    rw [Nat.max_eq_left hone, alignUp_one, Nat.mod_eq_of_lt next.isLt]

/-- Rounding up stops at the end of the address space at the latest. -/
theorem Tls.placed_le (tls : Tls ι) (obj : ι) : tls.placed objs obj ≤ 2 ^ 64 := by
  obtain ⟨k, hk, halign⟩ := (objs obj).exists_alignment_eq
  unfold placed
  rw [halign]
  exact alignUp_le (Nat.two_pow_pos k) (Nat.pow_dvd_pow 2 (Nat.le_of_lt hk)) (Nat.le_of_lt tls.next.isLt)

theorem Tls.next_le_placed (objs : ι → EmutlsObject) (tls : Tls ι) (obj : ι) :
    tls.next.toNat ≤ tls.placed objs obj :=
  le_alignUp (objs obj).alignment_pos

/-- A first use that does not wrap gives the object its rounded address, and `emutls_next`
is behind it. -/
theorem first_toNat (hloc : s.loc obj = 0) (hok : NoWrap objs s.toTls obj) :
    ((objs obj).place s.next).toNat = s.placed objs obj ∧
      ((objs obj).place s.next + (objs obj).size).toNat = s.placed objs obj + (objs obj).size.toNat := by
  have hlt := hok hloc
  have hplace : ((objs obj).place s.next).toNat = s.placed objs obj := by
    rw [EmutlsObject.place_toNat]
    exact Nat.mod_eq_of_lt (by unfold Tls.placed at hlt; omega)
  exact ⟨hplace, by rw [BitVec.toNat_add, hplace, Nat.mod_eq_of_lt hlt]⟩

/-! ## Stable, aligned and apart -/

/-- The addresses that the calls of a history returned: one for an object, a multiple of
its alignment, in front of `emutls_next`, and apart from every other object. -/
structure Sound (objs : ι → EmutlsObject) (s : State ι) : Prop where
  same : ∀ c ∈ s.calls, ∀ d ∈ s.calls, c.obj = d.obj → c.ret = d.ret
  aligned : ∀ c ∈ s.calls, 1 < (objs c.obj).align → (objs c.obj).align.toNat ∣ c.ret.toNat
  apart : ∀ c ∈ s.calls, ∀ d ∈ s.calls, c.obj ≠ d.obj →
    c.ret.toNat + (objs c.obj).size.toNat ≤ d.ret.toNat ∨
      d.ret.toNat + (objs d.obj).size.toNat ≤ c.ret.toNat
  below : ∀ c ∈ s.calls, c.ret.toNat + (objs c.obj).size.toNat ≤ s.next.toNat

/-- Every object that has an address is aligned, in front of `emutls_next` and apart from
the others, and the calls returned these addresses. -/
structure Inv (objs : ι → EmutlsObject) (s : State ι) : Prop where
  next_pos : 0 < s.next.toNat
  aligned : ∀ i, s.loc i ≠ 0 → (objs i).alignment ∣ (s.loc i).toNat
  below : ∀ i, s.loc i ≠ 0 → (s.loc i).toNat + (objs i).size.toNat ≤ s.next.toNat
  apart : ∀ i j, i ≠ j → s.loc i ≠ 0 → s.loc j ≠ 0 →
    (s.loc i).toNat + (objs i).size.toNat ≤ (s.loc j).toNat ∨
      (s.loc j).toNat + (objs j).size.toNat ≤ (s.loc i).toNat
  calls : ∀ c ∈ s.calls, c.ret = s.loc c.obj ∧ s.loc c.obj ≠ 0

theorem start_inv : Inv objs (State.start ι storage) where
  next_pos := storage.addr_pos
  aligned _ h := absurd rfl h
  below _ h := absurd rfl h
  apart _ _ _ h := absurd rfl h
  calls _ h := absurd h List.not_mem_nil

theorem Inv.sound (h : Inv objs s) : Sound objs s where
  same c hc d hd heq := by rw [(h.calls c hc).1, (h.calls d hd).1, heq]
  aligned c hc hone := by
    have halign := h.aligned c.obj (h.calls c hc).2
    have hmax : (objs c.obj).alignment = (objs c.obj).align.toNat := Nat.max_eq_right (Nat.le_of_lt hone)
    rwa [hmax, ← (h.calls c hc).1] at halign
  apart c hc d hd hne := by
    rw [(h.calls c hc).1, (h.calls d hd).1]
    exact h.apart _ _ hne (h.calls c hc).2 (h.calls d hd).2
  below c hc := by
    rw [(h.calls c hc).1]
    exact h.below _ (h.calls c hc).2

variable [DecidableEq ι]

/-- A first use places the object. -/
theorem getAddress_first (h : tls.loc obj = 0) :
    emutlsGetAddress objs obj tls = ((objs obj).place tls.next,
      ⟨Function.update tls.loc obj ((objs obj).place tls.next),
        (objs obj).place tls.next + (objs obj).size⟩) := by
  unfold emutlsGetAddress
  rw [if_pos h]
  dsimp only
  rw [Function.update_self]

/-- Any other returns the address that the object has. -/
theorem getAddress_again (h : tls.loc obj ≠ 0) : emutlsGetAddress objs obj tls = (tls.loc obj, tls) := by
  unfold emutlsGetAddress
  rw [if_neg h]

/-- A step is one or the other. -/
theorem step_cases (h : (machine objs).step s obj = some t) :
    s.loc obj ≠ 0 ∧ t = ⟨s.toTls, s.calls ++ [⟨obj, s.loc obj⟩]⟩ ∨
    s.loc obj = 0 ∧ t = ⟨⟨Function.update s.loc obj ((objs obj).place s.next),
      (objs obj).place s.next + (objs obj).size⟩, s.calls ++ [⟨obj, (objs obj).place s.next⟩]⟩ := by
  unfold machine at h
  dsimp only at h
  by_cases hloc : s.loc obj = 0
  · rw [getAddress_first hloc] at h
    exact .inr ⟨hloc, (Option.some.inj h).symm⟩
  · rw [getAddress_again hloc] at h
    exact .inl ⟨hloc, (Option.some.inj h).symm⟩

/-- `emutls_next` does not decrease. -/
theorem step_next_le (hok : NoWrap objs s.toTls obj) (h : (machine objs).step s obj = some t) :
    s.next.toNat ≤ t.next.toNat := by
  obtain ⟨_, rfl⟩ | ⟨hloc, rfl⟩ := step_cases h
  · exact Nat.le_refl _
  · have hle := s.next_le_placed objs obj
    obtain ⟨_, hnext⟩ := first_toNat hloc hok
    dsimp only
    omega

theorem step_inv (hs : Inv objs s) (hok : NoWrap objs s.toTls obj)
    (h : (machine objs).step s obj = some t) : Inv objs t := by
  obtain ⟨hloc, rfl⟩ | ⟨hloc, rfl⟩ := step_cases h
  · exact ⟨hs.next_pos, hs.aligned, hs.below, hs.apart, forall_mem_grown.mpr ⟨hs.calls, rfl, hloc⟩⟩
  · obtain ⟨hplace, hnext⟩ := first_toNat hloc hok
    have hle := s.next_le_placed objs obj
    have hpos := hs.next_pos
    have hgrow : s.next.toNat ≤ ((objs obj).place s.next + (objs obj).size).toNat := by omega
    have hne : (objs obj).place s.next ≠ 0 := by
      intro hzero
      rw [hzero] at hplace
      have : (0 : Uintptr).toNat = 0 := rfl
      omega
    -- what is placed is behind everything that was placed before
    have hbehind : ∀ i, s.loc i ≠ 0 →
        (s.loc i).toNat + (objs i).size.toNat ≤ ((objs obj).place s.next).toNat :=
      fun i hi => (hs.below i hi).trans (by omega)
    refine ⟨by dsimp only; omega, ?_, ?_, fun i j hij hi hj => ?_,
      forall_mem_grown.mpr ⟨fun c hc => ?_, ?_⟩⟩
    · refine (Function.forall_update_iff s.loc fun i p => p ≠ 0 → (objs i).alignment ∣ p.toNat).mpr
        ⟨fun _ => ?_, fun i _ => hs.aligned i⟩
      rw [hplace]
      exact dvd_alignUp _ _
    · refine (Function.forall_update_iff s.loc fun i p => p ≠ 0 → p.toNat + (objs i).size.toNat ≤ _).mpr
        ⟨fun _ => ?_, fun i _ hi => (hs.below i hi).trans hgrow⟩
      rw [hnext, hplace]
    · dsimp only at hi hj ⊢
      rcases eq_or_ne i obj with rfl | hio
      · rw [Function.update_of_ne hij.symm] at hj ⊢
        rw [Function.update_self]
        exact .inr (hbehind j hj)
      · rw [Function.update_of_ne hio] at hi ⊢
        rcases eq_or_ne j obj with rfl | hjo
        · rw [Function.update_self]
          exact .inl (hbehind i hi)
        · rw [Function.update_of_ne hjo] at hj ⊢
          exact hs.apart i j hij hi hj
    · obtain ⟨hret, hcloc⟩ := hs.calls c hc
      have hco : c.obj ≠ obj := fun heq => hcloc (heq ▸ hloc)
      dsimp only
      rw [Function.update_of_ne hco]
      exact ⟨hret, hcloc⟩
    · dsimp only
      rw [Function.update_self]
      exact ⟨rfl, hne⟩

theorem run_inv {m : State ι} (hs : Inv objs s) (h : (machine objs).Run (fun m => NoWrap objs m.toTls) s m) :
    Inv objs m :=
  h.invariant (Inv objs) hs fun _ _ _ hinv hok hstep => step_inv hinv hok hstep

/-- **Addresses of emulated TLS are stable, aligned and apart.** For all objects and every
sequence of calls on them in which no first use reaches the end of the address space: a call
on an object returns what every other call on it returned, at a multiple of the alignment;
different objects do not overlap; and `emutls_next` is behind all of them and never decreases. -/
theorem getAddress_sound (objs : ι → EmutlsObject) (storage : Storage) {s : State ι}
    (hrun : (machine objs).Run (fun s => NoWrap objs s.toTls) (State.start ι storage) s) :
    Sound objs s ∧ ∀ t, (machine objs).Run (fun s => NoWrap objs s.toTls) s t →
      s.next.toNat ≤ t.next.toNat := by
  refine ⟨(run_inv start_inv hrun).sound, fun t h => ?_⟩
  exact h.invariant (fun t => s.next.toNat ≤ t.next.toNat) (Nat.le_refl _)
    fun _ _ _ hle hok hstep => hle.trans (step_next_le hok hstep)

/-- A byte, and a pointer. -/
def byteAndPointer : Bool → EmutlsObject
  | false => ⟨1, 1, 0, .inr ⟨0, rfl⟩⟩
  | true => ⟨8, 8, 0, .inr ⟨3, rfl⟩⟩

/-- A storage from 4096 to 8192. -/
def storageAt4096 : Storage := ⟨4096, ⟨256, rfl⟩, by decide, by decide⟩

/-- The pointer stands behind the byte, at the next multiple of eight. -/
theorem getAddress_sound_two :
    ∃ s, (machine byteAndPointer).Run (fun s => NoWrap byteAndPointer s.toTls)
        (State.start Bool storageAt4096) s ∧
      s.calls = [⟨false, 4096⟩, ⟨true, 4104⟩, ⟨false, 4096⟩] ∧ Sound byteAndPointer s := by
  obtain ⟨s, hrun, hcalls⟩ := ((machine byteAndPointer).restrict fun s => NoWrap byteAndPointer s.toTls).exists_reach
    (P := fun s => s.calls = [⟨false, 4096⟩, ⟨true, 4104⟩, ⟨false, 4096⟩])
    (s := State.start Bool storageAt4096) [false, true, false] (by decide +kernel)
  have hrun := Machine.run_of_restrict hrun
  exact ⟨s, hrun, hcalls, (getAddress_sound byteAndPointer storageAt4096 hrun).1⟩

/-! ## The end of the storage -/

/-- Every address that a call returned is that of a range inside the storage, or NULL. -/
def Inside (objs : ι → EmutlsObject) (storage : Storage) (s : State ι) : Prop :=
  ∀ c ∈ s.calls, c.ret ≠ 0 → storage.addr.toNat ≤ c.ret.toNat ∧
    c.ret.toNat + (objs c.obj).size.toNat ≤ storage.addr.toNat + storageSize

/-- A first use is of an object that fits, or of one whose rounded address is NULL, at the
end of the address space. -/
def StaysInside (objs : ι → EmutlsObject) (storage : Storage) (tls : Tls ι) (obj : ι) : Prop :=
  tls.loc obj = 0 → 2 ^ 64 ∣ tls.placed objs obj ∨ Fits objs storage tls obj

instance : Decidable (StaysInside objs storage tls obj) :=
  inferInstanceAs (Decidable (_ = _ → _ ∣ _ ∨ Fits objs storage tls obj))

omit [DecidableEq ι] in
/-- Where the object goes is NULL or in the storage just when it stays inside. -/
theorem place_inside_iff :
    ((objs obj).place tls.next ≠ 0 → storage.addr.toNat ≤ ((objs obj).place tls.next).toNat ∧
      ((objs obj).place tls.next).toNat + (objs obj).size.toNat ≤ storage.addr.toNat + storageSize) ↔
    2 ^ 64 ∣ tls.placed objs obj ∨ Fits objs storage tls obj := by
  have hplace : ((objs obj).place tls.next).toNat = tls.placed objs obj % 2 ^ 64 :=
    (objs obj).place_toNat tls.next
  by_cases hdvd : 2 ^ 64 ∣ tls.placed objs obj
  · have hzero : (objs obj).place tls.next = 0 :=
      BitVec.eq_of_toNat_eq (hplace.trans (Nat.mod_eq_zero_of_dvd hdvd))
    exact ⟨fun _ => .inl hdvd, fun _ hne => absurd hzero hne⟩
  · have hlt : tls.placed objs obj < 2 ^ 64 :=
      Nat.lt_of_le_of_ne (tls.placed_le obj) fun heq => hdvd (heq ▸ Nat.dvd_refl _)
    rw [Nat.mod_eq_of_lt hlt] at hplace
    have hne : (objs obj).place tls.next ≠ 0 := by
      intro hzero
      rw [hzero] at hplace
      exact hdvd (hplace ▸ Nat.dvd_zero _)
    rw [hplace]
    exact ⟨fun h => .inr (h hne), fun h _ => h.resolve_left hdvd⟩

/-- An address that an object has was returned by a call on it. -/
theorem reach_recorded (h : (machine objs).Reach (State.start ι storage) s) :
    ∀ i, s.loc i ≠ 0 → ⟨i, s.loc i⟩ ∈ s.calls := by
  refine h.invariant (fun s => ∀ i, s.loc i ≠ 0 → ⟨i, s.loc i⟩ ∈ s.calls)
    (fun i hi => absurd rfl hi) fun s obj t hs _ hstep => ?_
  obtain ⟨_, rfl⟩ | ⟨_, rfl⟩ := step_cases hstep
  · exact fun i hi => List.mem_append_left _ (hs i hi)
  · intro i hi
    dsimp only at hi ⊢
    rcases eq_or_ne i obj with rfl | hio
    · rw [Function.update_self]
      exact List.mem_append_right _ (List.mem_singleton_self _)
    · rw [Function.update_of_ne hio] at hi ⊢
      exact List.mem_append_left _ (hs i hi)

theorem step_inside_iff (hrecorded : ∀ i, s.loc i ≠ 0 → ⟨i, s.loc i⟩ ∈ s.calls)
    (hs : Inside objs storage s) (h : (machine objs).step s obj = some t) :
    Inside objs storage t ↔ StaysInside objs storage s.toTls obj := by
  obtain ⟨hloc, rfl⟩ | ⟨hloc, rfl⟩ := step_cases h
  · have hagain := hs _ (hrecorded obj hloc)
    exact ⟨fun _ hzero => absurd hzero hloc, fun _ => forall_mem_grown.mpr ⟨hs, hagain⟩⟩
  · constructor
    · intro ht _
      exact place_inside_iff.mp (forall_mem_grown.mp ht).2
    · intro hstays
      exact forall_mem_grown.mpr ⟨hs, place_inside_iff.mpr (hstays hloc)⟩

/-- **Emulated TLS stays in its storage while the objects fit.** In every run whose first
uses are of objects that fit what is left of the storage, or whose rounded address is NULL,
every address is that of a range inside the storage, or NULL; and a call of any run that was
inside until then leaves it inside if and only if it is such a call. -/
theorem inside_iff (objs : ι → EmutlsObject) (storage : Storage) :
    (∀ s, (machine objs).Run (fun s => StaysInside objs storage s.toTls) (State.start ι storage) s →
      Inside objs storage s) ∧
    ∀ s, (machine objs).Reach (State.start ι storage) s → Inside objs storage s →
      ∀ obj t, (machine objs).step s obj = some t →
        (Inside objs storage t ↔ StaysInside objs storage s.toTls obj) := by
  have hstart : Inside objs storage (State.start ι storage) := fun c hc => absurd hc List.not_mem_nil
  constructor
  · intro s hrun
    induction hrun with
    | refl => exact hstart
    | step hrun hok hstep ih => exact (step_inside_iff (reach_recorded hrun.reach) ih hstep).mpr hok
  · intro s hrun hs obj t hstep
    exact step_inside_iff (reach_recorded hrun) hs hstep

/-- The byte and the pointer are inside. -/
theorem inside_two :
    ∃ s, (machine byteAndPointer).Run (fun s => StaysInside byteAndPointer storageAt4096 s.toTls)
        (State.start Bool storageAt4096) s ∧
      s.calls = [⟨true, 4096⟩, ⟨false, 4104⟩] ∧ Inside byteAndPointer storageAt4096 s := by
  obtain ⟨s, hrun, hcalls⟩ :=
    ((machine byteAndPointer).restrict fun s => StaysInside byteAndPointer storageAt4096 s.toTls).exists_reach
      (P := fun s => s.calls = [⟨true, 4096⟩, ⟨false, 4104⟩])
      (s := State.start Bool storageAt4096) [true, false] (by decide +kernel)
  have hrun := Machine.run_of_restrict hrun
  exact ⟨s, hrun, hcalls, (inside_iff byteAndPointer storageAt4096).1 s hrun⟩

/-- An object that fills the storage, and a byte. -/
private def wholeAndByte : Bool → EmutlsObject
  | false => ⟨4096, 16, 0, .inr ⟨4, rfl⟩⟩
  | true => ⟨1, 1, 0, .inr ⟨0, rfl⟩⟩

/-- The byte behind an object that fills the storage is outside. -/
theorem call_outside :
    ∃ s, (machine wholeAndByte).Reach (State.start Bool storageAt4096) s ∧
      s.calls = [⟨false, 4096⟩, ⟨true, 8192⟩] ∧ ¬ Inside wholeAndByte storageAt4096 s := by
  obtain ⟨s, hrun, hcalls⟩ := (machine wholeAndByte).exists_reach
    (P := fun s => s.calls = [⟨false, 4096⟩, ⟨true, 8192⟩])
    (s := State.start Bool storageAt4096) [false, true] (by decide +kernel)
  refine ⟨s, hrun, hcalls, fun hin => ?_⟩
  have hbyte := hin ⟨true, 8192⟩ (by simp [hcalls]) (by decide)
  exact absurd hbyte.2 (by decide)

end MicroRosDemos.Sel4.Emutls
