import Mathlib.Order.Lattice
import Mathlib.Logic.Function.Basic

/-!
# Memory with release and acquire

What threads may see of each other when nothing makes a store visible at once. Each
thread has a *view*: of every atomic location, the newest store it knows of, and of every
thread, how many of its plain accesses it knows to lie behind. A load returns any store of
its location that is not older than the one the thread knows of. A release store carries
the view of its thread; an acquire load takes that view over, and a relaxed load only puts
it aside until the next acquire fence.

Every location here has one thread that stores to it, so its stores are in the order in
which that thread makes them. An access to plain memory *races* when it overlaps an
earlier one that the thread does not know of, and one of the two writes; from then on the
program means nothing, and `raced` stays set.

A step takes nothing away from what any thread knows, and only appends stores
(`Memory.Extends`). Each thread knows its own accesses, so whatever it stores later says so
(`Memory.Wf`, `Memory.releaseStore_stores`). The order in which the steps are listed is one
in which no load comes before the store it returns; a program in which a relaxed load could
be carried past a later store of its own thread is outside this account.
-/

namespace MicroRosDemos.Lib.Views

/-- The newest known store of each location, and the number of known accesses of each thread. -/
abbrev View (L T : Type*) := (L → Nat) × (T → Nat)

/-- A store, and what is known to whoever synchronises with it. -/
structure Store (L T V : Type*) where
  value : V
  view : View L T

/-- What a thread knows now, and what the next acquire fence adds. -/
structure Known (L T : Type*) where
  now : View L T
  pending : View L T

/-- A plain access to `length` bytes at `start`, after `time` others of its thread. -/
structure Access (T : Type*) where
  thread : T
  time : Nat
  writes : Bool
  start : Nat
  length : Nat

/-- The stores to each location, oldest first; what each thread knows; every plain access so
far, and whether one of them raced. -/
structure Memory (L T V : Type*) where
  stores : L → List (Store L T V)
  known : T → Known L T
  accesses : List (Access T)
  raced : Bool

/-- The two orders of a load. -/
inductive LoadOrder
  | relaxed
  | acquire
deriving DecidableEq, Repr

variable {L T V : Type*}

/-- The access lies behind whoever has the view. -/
def View.Knows (v : View L T) (a : Access T) : Prop := a.time < v.2 a.thread

theorem View.Knows.mono {v w : View L T} {a : Access T} (h : v.Knows a) (hle : v ≤ w) : w.Knows a :=
  Nat.lt_of_lt_of_le h (hle.2 a.thread)

/-- Two stretches of memory have a byte in common. -/
def Overlap (start length start' length' : Nat) : Prop :=
  max start start' < min (start + length) (start' + length')

instance (start length start' length' : Nat) : Decidable (Overlap start length start' length') :=
  inferInstanceAs (Decidable (_ < _))

namespace Memory

variable {m m' : Memory L T V}

/-- An access of `t` would race. -/
def Races (m : Memory L T V) (t : T) (writes : Bool) (start length : Nat) : Prop :=
  ∃ a ∈ m.accesses, (a.writes || writes) = true ∧ Overlap a.start a.length start length ∧
    (m.known t).now.2 a.thread ≤ a.time

instance (m : Memory L T V) (t : T) (writes : Bool) (start length : Nat) :
    Decidable (m.Races t writes start length) :=
  inferInstanceAs (Decidable (∃ a ∈ m.accesses, _))

/-- No thread knows less, and no store is lost. -/
structure Extends (m m' : Memory L T V) : Prop where
  now : ∀ t, (m.known t).now ≤ (m'.known t).now
  pending : ∀ t, (m.known t).pending ≤ (m'.known t).pending
  stores : ∀ l, m.stores l <+: m'.stores l

theorem Extends.refl (m : Memory L T V) : m.Extends m :=
  ⟨fun _ => le_rfl, fun _ => le_rfl, fun _ => List.prefix_rfl⟩

/-- A store stays where it is. -/
theorem Extends.getElem? (h : m.Extends m') {l : L} {i : Nat} (hi : i < (m.stores l).length) :
    (m'.stores l)[i]? = (m.stores l)[i]? := by
  obtain ⟨rest, hrest⟩ := h.stores l
  rw [← hrest, List.getElem?_append_left hi]

/-- The view names stores that are there. -/
def Within (m : Memory L T V) (v : View L T) : Prop := ∀ l, v.1 l < (m.stores l).length

theorem Within.mono {v w : View L T} (h : m.Within w) (hle : v ≤ w) : m.Within v :=
  fun l => Nat.lt_of_le_of_lt (hle.1 l) (h l)

theorem Within.sup {v w : View L T} (hv : m.Within v) (hw : m.Within w) : m.Within (v ⊔ w) :=
  fun l => Nat.max_lt.mpr ⟨hv l, hw l⟩

theorem Within.extends {v : View L T} (h : m.Within v) (hext : m.Extends m') : m'.Within v :=
  fun l => Nat.lt_of_lt_of_le (h l) (hext.stores l).length_le

/-- Every thread knows its own accesses, and nobody knows of stores that are not there. -/
structure Wf (m : Memory L T V) : Prop where
  own : ∀ a ∈ m.accesses, (m.known a.thread).now.Knows a
  now : ∀ t, m.Within (m.known t).now
  pending : ∀ t, m.Within (m.known t).pending
  view : ∀ l, ∀ s ∈ m.stores l, m.Within s.view

variable [DecidableEq T] {t u : T}

section

variable {k : Known L T} (hknown : m'.known = Function.update m.known t k)
include hknown

/-- One thread learns something. -/
theorem Extends.of_update (hnow : (m.known t).now ≤ k.now)
    (hpending : (m.known t).pending ≤ k.pending) (hstores : ∀ l, m.stores l <+: m'.stores l) :
    m.Extends m' := by
  refine ⟨fun u => ?_, fun u => ?_, hstores⟩
  · rcases eq_or_ne u t with rfl | hne
    · rw [hknown, Function.update_self]
      exact hnow
    · rw [hknown, Function.update_of_ne hne]
  · rcases eq_or_ne u t with rfl | hne
    · rw [hknown, Function.update_self]
      exact hpending
    · rw [hknown, Function.update_of_ne hne]

/-- What one thread learns of stores that are there, and a store or an access of its own,
leave the memory well formed. -/
theorem Wf.of_update (h : m.Wf) (hext : m.Extends m') (hnow : m'.Within k.now)
    (hpending : m'.Within k.pending)
    (hown : ∀ a ∈ m'.accesses, a ∈ m.accesses ∨ a.thread = t ∧ k.now.Knows a)
    (hview : ∀ l, ∀ s ∈ m'.stores l, s ∈ m.stores l ∨ s.view = k.now) : m'.Wf := by
  refine ⟨fun a ha => ?_, fun u => ?_, fun u => ?_, fun l s hs => ?_⟩
  · rcases hown a ha with hold | ⟨hthread, hknows⟩
    · exact (h.own a hold).mono (hext.now _)
    · rw [hknown, hthread, Function.update_self]
      exact hknows
  · rcases eq_or_ne u t with rfl | hne
    · rw [hknown, Function.update_self]
      exact hnow
    · rw [hknown, Function.update_of_ne hne]
      exact (h.now u).extends hext
  · rcases eq_or_ne u t with rfl | hne
    · rw [hknown, Function.update_self]
      exact hpending
    · rw [hknown, Function.update_of_ne hne]
      exact (h.pending u).extends hext
  · rcases hview l s hs with hold | hnew
    · exact (h.view l s hold).extends hext
    · exact hnew ▸ hnow

end

/-! ## Fences and plain accesses -/

/-- `t` makes known to itself what its relaxed loads have put aside. -/
def acquireFence (m : Memory L T V) (t : T) : Memory L T V :=
  let k := m.known t
  { m with known := Function.update m.known t ⟨k.now ⊔ k.pending, k.pending⟩ }

theorem acquireFence_extends : m.Extends (m.acquireFence t) :=
  .of_update rfl le_sup_left le_rfl fun _ => List.prefix_rfl

theorem acquireFence_now :
    ((m.acquireFence t).known t).now = (m.known t).now ⊔ (m.known t).pending := by
  simp [acquireFence]

theorem acquireFence_known_ne (hne : u ≠ t) : (m.acquireFence t).known u = m.known u :=
  Function.update_of_ne hne _ _

theorem Wf.acquireFence (h : m.Wf) : (m.acquireFence t).Wf :=
  h.of_update rfl acquireFence_extends ((h.now t).sup (h.pending t)) (h.pending t)
    (fun _ ha => .inl ha) fun _ _ hs => .inl hs

/-- `t` takes over a view that it is handed by other means than a load. -/
def receive (m : Memory L T V) (t : T) (v : View L T) : Memory L T V :=
  let k := m.known t
  { m with known := Function.update m.known t ⟨k.now ⊔ v, k.pending⟩ }

theorem receive_extends {v : View L T} : m.Extends (m.receive t v) :=
  .of_update rfl le_sup_left le_rfl fun _ => List.prefix_rfl

theorem receive_now {v : View L T} : ((m.receive t v).known t).now = (m.known t).now ⊔ v := by
  simp [receive]

theorem receive_known_ne {v : View L T} (hne : u ≠ t) : (m.receive t v).known u = m.known u :=
  Function.update_of_ne hne _ _

theorem Wf.receive {v : View L T} (h : m.Wf) (hv : m.Within v) : (m.receive t v).Wf :=
  h.of_update rfl receive_extends ((h.now t).sup hv) (h.pending t) (fun _ ha => .inl ha)
    fun _ _ hs => .inl hs

/-- `t` reads or writes plain memory. -/
def access (m : Memory L T V) (t : T) (writes : Bool) (start length : Nat) : Memory L T V :=
  let k := m.known t
  { m with
    known := Function.update m.known t
      ⟨(k.now.1, Function.update k.now.2 t (k.now.2 t + 1)), k.pending⟩
    accesses := m.accesses ++ [⟨t, k.now.2 t, writes, start, length⟩]
    raced := m.raced || decide (m.Races t writes start length) }

section

variable {writes : Bool} {start length : Nat}

theorem access_extends : m.Extends (m.access t writes start length) := by
  refine .of_update rfl ⟨le_rfl, fun u => ?_⟩ le_rfl fun _ => List.prefix_rfl
  rcases eq_or_ne u t with rfl | hne
  · simp
  · simp [hne]

theorem access_known_ne (hne : u ≠ t) :
    (m.access t writes start length).known u = m.known u :=
  Function.update_of_ne hne _ _

theorem Wf.access (h : m.Wf) : (m.access t writes start length).Wf := by
  refine h.of_update rfl access_extends (h.now t) (h.pending t) (fun a ha => ?_)
    fun _ _ hs => .inl hs
  rcases List.mem_append.mp ha with hold | hnew
  · exact .inl hold
  · cases List.mem_singleton.mp hnew
    exact .inr ⟨rfl, by simp [View.Knows]⟩

/-- An access that only overlaps what its thread knows does not race. -/
theorem access_not_raced (hraced : m.raced = false)
    (hknows : ∀ a ∈ m.accesses, (a.writes || writes) = true → Overlap a.start a.length start length →
      (m.known t).now.Knows a) : (m.access t writes start length).raced = false := by
  have hraces : ¬ m.Races t writes start length := by
    rintro ⟨a, ha, hwrites, hoverlap, hle⟩
    exact Nat.not_lt_of_le hle (hknows a ha hwrites hoverlap)
  simp [Memory.access, hraced, hraces]

end

end Memory

/-! ## Loads and stores -/

section

variable [DecidableEq L]

/-- No more than the store `i` of `l`. -/
def View.only (l : L) (i : Nat) : View L T := (Function.update (fun _ => 0) l i, fun _ => 0)

/-- What a thread knows after it has loaded the store `i` of `l`, with this view. -/
def Known.loaded (k : Known L T) (l : L) (i : Nat) (order : LoadOrder) (view : View L T) :
    Known L T :=
  match order with
  | .relaxed => ⟨k.now ⊔ .only l i, k.pending ⊔ view⟩
  | .acquire => ⟨k.now ⊔ .only l i ⊔ view, k.pending⟩

variable (k : Known L T) (l : L) (i : Nat) (order : LoadOrder) (view : View L T)

theorem Known.le_loaded_now : k.now ⊔ .only l i ≤ (k.loaded l i order view).now := by
  cases order with
  | relaxed => exact le_rfl
  | acquire => exact le_sup_left

theorem Known.le_loaded_pending : k.pending ≤ (k.loaded l i order view).pending := by
  cases order with
  | relaxed => exact le_sup_left
  | acquire => exact le_rfl

/-- The view of the store is taken over or put aside. -/
theorem Known.view_le_loaded :
    view ≤ (k.loaded l i order view).now ⊔ (k.loaded l i order view).pending := by
  cases order with
  | relaxed => exact le_sup_right.trans le_sup_right
  | acquire => exact le_sup_right.trans le_sup_left

end

namespace Memory

variable {m m' : Memory L T V} [DecidableEq L] {l : L} {i : Nat} {order : LoadOrder} {value : V}

theorem Within.only {v : View L T} (h : m.Within v) (hi : i < (m.stores l).length) :
    m.Within (View.only l i) := by
  intro k
  rcases eq_or_ne k l with rfl | hne
  · simpa [View.only] using hi
  · simpa [View.only, hne] using Nat.lt_of_le_of_lt (Nat.zero_le _) (h k)

variable [DecidableEq T] {t u : T}

/-- Load the store `i` of `l`, when it is there and not too old for `t`. -/
def load (m : Memory L T V) (t : T) (l : L) (order : LoadOrder) (i : Nat) :
    Option (V × Memory L T V) :=
  match (m.stores l)[i]? with
  | none => none
  | some s =>
    if (m.known t).now.1 l ≤ i then
      some (s.value,
        { m with known := Function.update m.known t ((m.known t).loaded l i order s.view) })
    else none

/-- A load that returned has found its store, not older than one its thread knew of. -/
theorem load_some (h : m.load t l order i = some (value, m')) :
    ∃ s, (m.stores l)[i]? = some s ∧ s.value = value ∧ (m.known t).now.1 l ≤ i ∧
      m' = { m with known := Function.update m.known t ((m.known t).loaded l i order s.view) } := by
  unfold load at h
  split at h
  · cases h
  next s hs =>
    split at h
    · next hle =>
      cases h
      exact ⟨s, hs, rfl, hle, rfl⟩
    · cases h

/-- A store that is not too old can be loaded. -/
theorem exists_load (order : LoadOrder) {s : Store L T V} (hs : (m.stores l)[i]? = some s)
    (hle : (m.known t).now.1 l ≤ i) : ∃ m', m.load t l order i = some (s.value, m') := by
  unfold load
  rw [hs]
  exact ⟨_, if_pos hle⟩

theorem load_extends (h : m.load t l order i = some (value, m')) : m.Extends m' := by
  obtain ⟨s, _, _, _, rfl⟩ := load_some h
  refine .of_update rfl ?_ ?_ fun _ => List.prefix_rfl
  · exact le_sup_left.trans (Known.le_loaded_now _ _ _ _ _)
  · exact Known.le_loaded_pending _ _ _ _ _

theorem load_known_ne (h : m.load t l order i = some (value, m')) (hne : u ≠ t) :
    m'.known u = m.known u := by
  obtain ⟨s, _, _, _, rfl⟩ := load_some h
  exact Function.update_of_ne hne _ _

theorem Wf.load (h : m.Wf) (hload : m.load t l order i = some (value, m')) : m'.Wf := by
  have hext := load_extends hload
  obtain ⟨s, hs, _, _, rfl⟩ := load_some hload
  have hview := h.view l s (List.mem_of_getElem? hs)
  have honly := (h.now t).sup ((h.now t).only (List.getElem?_eq_some_iff.mp hs).1)
  refine h.of_update rfl hext ?_ ?_ (fun _ ha => .inl ha) fun _ _ hs => .inl hs
  · cases order with
    | relaxed => exact honly
    | acquire => exact honly.sup hview
  · cases order with
    | relaxed => exact (h.pending t).sup hview
    | acquire => exact h.pending t

/-- `t` stores to `l`, with all it knows. -/
def releaseStore (m : Memory L T V) (t : T) (l : L) (value : V) : Memory L T V :=
  let k := m.known t
  let now := k.now ⊔ .only l (m.stores l).length
  { m with
    stores := Function.update m.stores l (m.stores l ++ [⟨value, now⟩])
    known := Function.update m.known t ⟨now, k.pending⟩ }

/-- The store stands behind the others, with what its thread knows after it. -/
theorem releaseStore_stores : (m.releaseStore t l value).stores l =
    m.stores l ++ [⟨value, ((m.releaseStore t l value).known t).now⟩] := by
  simp [releaseStore]

/-- A thread knows of its own store. -/
theorem le_releaseStore_now :
    (m.stores l).length ≤ ((m.releaseStore t l value).known t).now.1 l := by
  simp [releaseStore, View.only]

theorem releaseStore_stores_ne {k : L} (hne : k ≠ l) :
    (m.releaseStore t l value).stores k = m.stores k := by
  simp [releaseStore, hne]

theorem releaseStore_known_ne (hne : u ≠ t) :
    (m.releaseStore t l value).known u = m.known u :=
  Function.update_of_ne hne _ _

theorem releaseStore_extends : m.Extends (m.releaseStore t l value) := by
  refine .of_update rfl le_sup_left le_rfl fun k => ?_
  rcases eq_or_ne k l with rfl | hne
  · rw [releaseStore_stores]
    exact List.prefix_append _ _
  · have heq : (m.releaseStore t l value).stores k = m.stores k := releaseStore_stores_ne hne
    exact heq ▸ List.prefix_rfl

theorem Wf.releaseStore (h : m.Wf) : (m.releaseStore t l value).Wf := by
  have hext : m.Extends (m.releaseStore t l value) := releaseStore_extends
  have hlast : (m.stores l).length < ((m.releaseStore t l value).stores l).length := by
    rw [releaseStore_stores, List.length_append]
    exact Nat.lt_succ_self _
  have hnow := (h.now t).extends hext
  refine h.of_update rfl hext (hnow.sup (hnow.only hlast)) ((h.pending t).extends hext)
    (fun _ ha => .inl ha) fun k s hs => ?_
  rcases eq_or_ne k l with rfl | hne
  · rw [releaseStore_stores, List.mem_append, List.mem_singleton] at hs
    rcases hs with hold | rfl
    · exact .inl hold
    · exact .inr (by simp [Memory.releaseStore])
  · rw [releaseStore_stores_ne hne] at hs
    exact .inl hs

/-! ## The start -/

/-- One store to each location, that every thread knows of. -/
def start (values : L → V) : Memory L T V where
  stores l := [⟨values l, (fun _ => 0, fun _ => 0)⟩]
  known _ := ⟨(fun _ => 0, fun _ => 0), (fun _ => 0, fun _ => 0)⟩
  accesses := []
  raced := false

omit [DecidableEq L] [DecidableEq T] in
theorem start_wf (values : L → V) : (start values : Memory L T V).Wf := by
  refine ⟨fun a ha => ?_, fun _ _ => Nat.one_pos, fun _ _ => Nat.one_pos, fun l s hs => ?_⟩
  · cases ha
  · cases List.mem_singleton.mp hs
    exact fun _ => Nat.one_pos

/-- Data behind a flag: read where the flag was seen by a relaxed load it races, behind a fence
it does not. -/
example :
    let m : Memory Unit Bool Nat :=
      ((start fun _ => 0).access true true 0 4).releaseStore true () 1
    (m.load false () .relaxed 1).map (fun (_, m) =>
      ((m.access false false 2 1).raced, ((m.acquireFence false).access false false 2 1).raced)) =
      some (true, false) := by
  decide

end Memory

end MicroRosDemos.Lib.Views
