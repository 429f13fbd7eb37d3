import Mathlib.Algebra.BigOperators.Group.Finset.Basic
import Mathlib.Algebra.Order.BigOperators.Group.Finset
import MicroRosDemos.Sel4.Emutls

/-!
# A budget for emulated TLS

`__emutls_get_address` does not look where its storage ends, so what keeps the objects of a
program inside is how large they are. An object takes its size, and less than its alignment
in front of it; the order of the first uses decides how much less. So the sizes and the
alignments of all objects together are a budget that holds in every order
(`reach_of_budget`), and the sizes alone are one that none can do without
(`not_inside_of_sizes`). Between the two it depends on the order.
-/

namespace MicroRosDemos.Sel4.Emutls

open MicroRosDemos.Lib

/-- The most that an object takes of the storage. -/
def EmutlsObject.cost (obj : EmutlsObject) : Nat := obj.size.toNat + (obj.alignment - 1)

variable {ι : Type*} [Fintype ι] [DecidableEq ι]

/-- The objects that have an address. -/
def Tls.used (tls : Tls ι) : Finset ι := {i | tls.loc i ≠ 0}

variable {objs : ι → EmutlsObject} {storage : Storage} {s t : State ι} {obj : ι}

omit [DecidableEq ι] in
theorem Tls.mem_used {tls : Tls ι} {i : ι} : i ∈ tls.used ↔ tls.loc i ≠ 0 := by
  unfold used
  rw [Finset.mem_filter]
  exact and_iff_right (Finset.mem_univ i)

omit [DecidableEq ι] in
theorem used_start : (State.start ι storage).used = ∅ :=
  Finset.eq_empty_of_forall_notMem fun _ hi => Tls.mem_used.mp hi rfl

/-- A first use adds the object. -/
theorem used_first {p q : Uintptr} (hp : p ≠ 0) :
    (⟨Function.update s.loc obj p, q⟩ : Tls ι).used = insert obj s.used := by
  ext i
  rw [Tls.mem_used, Finset.mem_insert, Tls.mem_used]
  dsimp only
  rcases eq_or_ne i obj with rfl | hio
  · rw [Function.update_self]
    exact iff_of_true hp (.inl rfl)
  · rw [Function.update_of_ne hio]
    exact (or_iff_right hio).symm

/-- What a first use adds to a sum over the objects that have an address. -/
theorem sum_used_first {p q : Uintptr} (hloc : s.loc obj = 0) (hp : p ≠ 0) (f : ι → Nat) :
    ∑ i ∈ (⟨Function.update s.loc obj p, q⟩ : Tls ι).used, f i = f obj + ∑ i ∈ s.used, f i := by
  rw [used_first hp, Finset.sum_insert fun hmem => Tls.mem_used.mp hmem hloc]

/-- Where `emutls_next` is: behind the sizes of the objects in use, and not behind what they
can take. The last object placed ends there. -/
structure Spent (objs : ι → EmutlsObject) (storage : Storage) (s : State ι) : Prop extends Inv objs s where
  recorded : ∀ i, s.loc i ≠ 0 → ⟨i, s.loc i⟩ ∈ s.calls
  sizes_le : storage.addr.toNat + ∑ i ∈ s.used, (objs i).size.toNat ≤ s.next.toNat
  le_costs : s.next.toNat ≤ storage.addr.toNat + ∑ i ∈ s.used, (objs i).cost
  last : s.next = storage.addr ∨
    ∃ i, s.loc i ≠ 0 ∧ (s.loc i).toNat + (objs i).size.toNat = s.next.toNat

omit [DecidableEq ι] in
theorem start_spent : Spent objs storage (State.start ι storage) where
  toInv := start_inv
  recorded _ h := absurd rfl h
  sizes_le := by
    rw [used_start, Finset.sum_empty]
    exact Nat.le_refl _
  le_costs := by
    rw [used_start, Finset.sum_empty]
    exact Nat.le_refl _
  last := .inl rfl

theorem step_spent (hs : Spent objs storage s) (hok : NoWrap objs s.toTls obj)
    (h : (machine objs).step s obj = some t) : Spent objs storage t := by
  have hinv := step_inv hs.toInv hok h
  obtain ⟨_, rfl⟩ | ⟨hloc, rfl⟩ := step_cases h
  · exact { hs with toInv := hinv, recorded := fun i hi => List.mem_append_left _ (hs.recorded i hi) }
  · obtain ⟨hplace, hnext⟩ := first_toNat hloc hok
    have hne : (objs obj).place s.next ≠ 0 := by
      have hlast := (hinv.calls _ (List.mem_append_right _ (List.mem_singleton_self _))).2
      dsimp only at hlast
      rwa [Function.update_self] at hlast
    have hle := s.next_le_placed objs obj
    have hskip : s.placed objs obj ≤ s.next.toNat + ((objs obj).alignment - 1) := alignUp_le_add _ _
    refine ⟨hinv, fun i hi => ?_, ?_, ?_, .inr ⟨obj, ?_, ?_⟩⟩
    · dsimp only at hi ⊢
      rcases eq_or_ne i obj with rfl | hio
      · rw [Function.update_self]
        exact List.mem_append_right _ (List.mem_singleton_self _)
      · rw [Function.update_of_ne hio] at hi ⊢
        exact List.mem_append_left _ (hs.recorded i hi)
    · have hsizes := hs.sizes_le
      rw [sum_used_first hloc hne]
      dsimp only
      omega
    · have hcosts := hs.le_costs
      have hcost : (objs obj).cost = (objs obj).size.toNat + ((objs obj).alignment - 1) := rfl
      rw [sum_used_first hloc hne]
      dsimp only
      omega
    · dsimp only
      rwa [Function.update_self]
    · dsimp only
      rw [Function.update_self, hnext, hplace]

/-! ## Enough for every order -/

/-- With a budget that the storage covers there is room for every object not used yet. -/
theorem fits_of_budget (hbudget : ∑ i, (objs i).cost ≤ storageSize) (hs : Spent objs storage s)
    (hloc : s.loc obj = 0) : Fits objs storage s.toTls obj := by
  have hnot : obj ∉ s.used := fun hmem => Tls.mem_used.mp hmem hloc
  have htotal : (objs obj).cost + ∑ i ∈ s.used, (objs i).cost ≤ ∑ i, (objs i).cost := by
    rw [← Finset.sum_insert (f := fun i => (objs i).cost) hnot]
    exact Finset.sum_le_sum_of_subset (Finset.subset_univ _)
  have hcost : (objs obj).cost = (objs obj).size.toNat + ((objs obj).alignment - 1) := rfl
  have hskip : s.placed objs obj ≤ s.next.toNat + ((objs obj).alignment - 1) := alignUp_le_add _ _
  have hle := s.next_le_placed objs obj
  have hsizes := hs.sizes_le
  have hcosts := hs.le_costs
  unfold Fits
  omega

/-- **A budget for emulated TLS.** When the sizes of all objects, and for each the bytes that its
alignment can skip, are together at most the storage, then in every order of calls, with no
condition on them, a call on an object returns what every other call on it returned, aligned
and apart from every other object; and no address is NULL or leaves the storage. -/
theorem reach_of_budget (objs : ι → EmutlsObject) (storage : Storage)
    (hbudget : ∑ i, (objs i).cost ≤ storageSize) {s : State ι}
    (h : (machine objs).Reach (State.start ι storage) s) :
    Sound objs s ∧ Inside objs storage s ∧ ∀ c ∈ s.calls, c.ret ≠ 0 := by
  have hboth : Spent objs storage s ∧ Inside objs storage s := by
    refine h.invariant (fun s => Spent objs storage s ∧ Inside objs storage s)
      ⟨start_spent, fun c hc => absurd hc List.not_mem_nil⟩ fun s obj t hs _ hstep => ?_
    obtain ⟨hspent, hinside⟩ := hs
    have hfits : s.loc obj = 0 → Fits objs storage s.toTls obj := fits_of_budget hbudget hspent
    have hend := storage.inside
    have hok : NoWrap objs s.toTls obj := fun hloc => by
      have hroom := (hfits hloc).2
      omega
    exact ⟨step_spent hspent hok hstep,
      (step_inside_iff hspent.recorded hinside hstep).mpr fun hloc => .inr (hfits hloc)⟩
  obtain ⟨hspent, hinside⟩ := hboth
  refine ⟨hspent.toInv.sound, hinside, fun c hc => ?_⟩
  obtain ⟨hret, hne⟩ := hspent.calls c hc
  rwa [hret]

/-- The byte and the pointer stay inside, whichever is first. -/
theorem reach_of_budget_two :
    ∃ s, (machine byteAndPointer).Reach (State.start Bool storageAt4096) s ∧
      s.calls = [⟨true, 4096⟩, ⟨false, 4104⟩, ⟨true, 4096⟩] ∧
      Sound byteAndPointer s ∧ Inside byteAndPointer storageAt4096 s ∧ ∀ c ∈ s.calls, c.ret ≠ 0 := by
  obtain ⟨s, hrun, hcalls⟩ := (machine byteAndPointer).exists_reach
    (P := fun s => s.calls = [⟨true, 4096⟩, ⟨false, 4104⟩, ⟨true, 4096⟩])
    (s := State.start Bool storageAt4096) [true, false, true] (by decide +kernel)
  exact ⟨s, hrun, hcalls, reach_of_budget byteAndPointer storageAt4096 (by decide) hrun⟩

/-! ## Needed in every order -/

/-- **Sizes beyond the storage.** When the sizes alone are together more than the storage, every
run that has used all the objects, and whose sums have not wrapped, has returned an address
whose range leaves the storage. -/
theorem not_inside_of_sizes (objs : ι → EmutlsObject) (storage : Storage)
    (hsizes : storageSize < ∑ i, (objs i).size.toNat) {s : State ι}
    (h : (machine objs).Run (fun s => NoWrap objs s.toTls) (State.start ι storage) s)
    (hall : ∀ i, ∃ c ∈ s.calls, c.obj = i) : ¬ Inside objs storage s := by
  have hs : Spent objs storage s :=
    h.invariant (Spent objs storage) start_spent fun _ _ _ hs hok hstep => step_spent hs hok hstep
  have hused : s.used = Finset.univ := by
    refine Finset.eq_univ_of_forall fun i => Tls.mem_used.mpr ?_
    obtain ⟨c, hc, rfl⟩ := hall i
    exact (hs.calls c hc).2
  have hnext := hs.sizes_le
  rw [hused] at hnext
  intro hinside
  rcases hs.last with hstart | ⟨i, hi, hend⟩
  · rw [hstart] at hnext
    omega
  · -- the object placed last ends at `emutls_next`, behind the storage
    have hlast : (s.loc i).toNat + (objs i).size.toNat ≤ _ := (hinside _ (hs.recorded i hi) hi).2
    omega

/-- Two objects, the one as large as the storage. -/
private def storageAndByte : Bool → EmutlsObject
  | false => ⟨4096, 32, 0, .inr ⟨5, rfl⟩⟩
  | true => ⟨1, 2, 0, .inr ⟨1, rfl⟩⟩

/-- The larger one is outside when the byte is first. -/
theorem not_inside_of_sizes_two :
    ∃ s, (machine storageAndByte).Run (fun s => NoWrap storageAndByte s.toTls)
        (State.start Bool storageAt4096) s ∧
      s.calls = [⟨true, 4096⟩, ⟨false, 4128⟩] ∧ ¬ Inside storageAndByte storageAt4096 s := by
  obtain ⟨s, hrun, hcalls⟩ :=
    ((machine storageAndByte).restrict fun s => NoWrap storageAndByte s.toTls).exists_reach
      (P := fun s => s.calls = [⟨true, 4096⟩, ⟨false, 4128⟩])
      (s := State.start Bool storageAt4096) [true, false] (by decide +kernel)
  have hrun := Machine.run_of_restrict hrun
  refine ⟨s, hrun, hcalls, not_inside_of_sizes storageAndByte storageAt4096 (by decide) hrun ?_⟩
  rw [hcalls]
  exact Bool.forall_bool.mpr
    ⟨⟨_, List.mem_cons_of_mem _ List.mem_cons_self, rfl⟩, ⟨_, List.mem_cons_self, rfl⟩⟩

end MicroRosDemos.Sel4.Emutls
