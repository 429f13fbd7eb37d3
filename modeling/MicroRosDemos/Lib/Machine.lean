import Mathlib.Logic.Relation

/-!
# Machines with named actions

A machine takes at most one successor per state and action. The nondeterminism
of a concurrent system is the choice of the action: an interleaving is a list
of actions, and a property of every interleaving is a property of every run.

`Run ok` is the run whose every step meets the condition `ok` on the state
before it and the action taken; `Reach` is the run with no condition. The rules
below are the ones a development needs: an invariant is kept along a run, a list
of actions that executes is a run, and a machine that *projects* to another one
inherits its runs, so an invariant of a component holds inside a system built
from it; a *simulation* does the same along a relation. A history that a machine keeps grows by one entry at a time
(`getElem?_grown`), and what was once so in it and is no longer was so for a last
time (`exists_last`).
-/

namespace MicroRosDemos.Lib

/-- States, and at most one successor for each action. -/
structure Machine (σ α : Type*) where
  step : σ → α → Option σ

namespace Machine

variable {σ τ α β : Type*}

/-- A run of `m` whose every step is allowed by `ok` in the state it is taken. -/
inductive Run (m : Machine σ α) (ok : σ → α → Prop) (s : σ) : σ → Prop
  | refl : Run m ok s s
  | step {t u : σ} {a : α} : Run m ok s t → ok t a → m.step t a = some u → Run m ok s u

/-- A run with no condition on its steps. -/
abbrev Reach (m : Machine σ α) : σ → σ → Prop := m.Run fun _ _ => True

/-- Execute a list of actions, refusing when one of them is not enabled. -/
def exec (m : Machine σ α) : σ → List α → Option σ
  | s, [] => some s
  | s, a :: as =>
    match m.step s a with
    | some t => m.exec t as
    | none => none

variable {m : Machine σ α} {ok : σ → α → Prop}

theorem Run.trans {s t u : σ} (hst : m.Run ok s t) (htu : m.Run ok t u) : m.Run ok s u := by
  induction htu with
  | refl => exact hst
  | step _ hok hstep ih => exact .step ih hok hstep

/-- One step is a run. -/
theorem Run.single {s t : σ} {a : α} (hok : ok s a) (h : m.step s a = some t) : m.Run ok s t :=
  .step .refl hok h

/-- The invariant rule: what holds at the start and is kept by every allowed
step holds at the end of every run. -/
theorem Run.invariant {s t : σ} (h : m.Run ok s t) (inv : σ → Prop) (start : inv s)
    (keep : ∀ s a t, inv s → ok s a → m.step s a = some t → inv t) : inv t := by
  induction h with
  | refl => exact start
  | step _ hok hstep ih => exact keep _ _ _ ih hok hstep

/-- A run seen through a function that makes a run of each of its allowed steps. -/
theorem Run.map {n : Machine τ β} {ok' : τ → β → Prop} {f : σ → τ} {s t : σ} (h : m.Run ok s t)
    (along : ∀ s a t, ok s a → m.step s a = some t → n.Run ok' (f s) (f t)) :
    n.Run ok' (f s) (f t) := by
  induction h with
  | refl => exact .refl
  | step _ hok hstep ih => exact ih.trans (along _ _ _ hok hstep)

/-- A run under a condition is a run. -/
theorem Run.reach {s t : σ} (h : m.Run ok s t) : m.Reach s t :=
  Run.map (f := id) h fun _ _ _ _ hstep => .single trivial hstep

/-- An executed list of actions is a run, under any condition its actions meet. -/
theorem run_of_exec {s t : σ} (as : List α) (hok : ∀ s, ∀ a ∈ as, ok s a)
    (h : m.exec s as = some t) : m.Run ok s t := by
  induction as generalizing s with
  | nil =>
    cases h
    exact .refl
  | cons a as ih =>
    unfold exec at h
    split at h
    · next u hu =>
      have hrest := ih (fun s b hb => hok s b (List.mem_cons_of_mem _ hb)) h
      exact (Run.single (hok s a List.mem_cons_self) hu).trans hrest
    · cases h

theorem reach_of_exec {s t : σ} (as : List α) (h : m.exec s as = some t) : m.Reach s t :=
  run_of_exec as (fun _ _ _ => trivial) h

/-- A rank that no step raises, and that the actions `p` lower, bounds how often
these are taken. -/
theorem countP_le_rank {m : Machine σ α} (p : α → Bool) (rank : σ → Nat) (inv : σ → Prop)
    (keep : ∀ s a t, inv s → m.step s a = some t → inv t)
    (drop : ∀ s a t, inv s → m.step s a = some t → rank t + (if p a then 1 else 0) ≤ rank s)
    {s t : σ} {as : List α} (hs : inv s) (h : m.exec s as = some t) :
    as.countP p + rank t ≤ rank s := by
  induction as generalizing s with
  | nil =>
    cases h
    exact Nat.le_of_eq (Nat.zero_add _)
  | cons a as ih =>
    unfold exec at h
    split at h
    · next u hu =>
      have hrest := ih (keep s a u hs hu) h
      have hstep := drop s a u hs hu
      rw [List.countP_cons]
      omega
    · cases h

/-- A state with a decidable property is reached by executing a list of actions. -/
theorem exists_reach {P : σ → Prop} [DecidablePred P] {s : σ} (as : List α)
    (h : ((m.exec s as).any fun t => decide (P t)) = true) : ∃ t, m.Reach s t ∧ P t := by
  cases hexec : m.exec s as with
  | none =>
    rw [hexec] at h
    cases h
  | some t =>
    rw [hexec] at h
    exact ⟨t, reach_of_exec as hexec, of_decide_eq_true h⟩

/-- The machine that takes the steps of `m` that `ok` allows. -/
def restrict (m : Machine σ α) (ok : σ → α → Prop) [∀ s a, Decidable (ok s a)] : Machine σ α :=
  ⟨fun s a => if ok s a then m.step s a else none⟩

theorem restrict_step [∀ s a, Decidable (ok s a)] {s t : σ} {a : α} :
    (m.restrict ok).step s a = some t ↔ ok s a ∧ m.step s a = some t := by
  unfold restrict
  dsimp only
  split
  · next hok => exact ⟨fun h => ⟨hok, h⟩, fun h => h.2⟩
  · next hnot => exact ⟨fun h => (by cases h), fun h => absurd h.1 hnot⟩

/-- A run of the restricted machine is a run under the condition. -/
theorem run_of_restrict [∀ s a, Decidable (ok s a)] {s t : σ} (h : (m.restrict ok).Reach s t) :
    m.Run ok s t := by
  refine Run.map (f := id) h fun s a t _ hstep => ?_
  obtain ⟨hok, hstep⟩ := restrict_step.mp hstep
  exact .single hok hstep

/-- `m` projects to `n` along `f`, under `ok`, from the states `inv`: the images
of an allowed step of `m` are connected by a run of `n`. -/
def Projects (m : Machine σ α) (ok : σ → α → Prop) (n : Machine τ β) (f : σ → τ)
    (inv : σ → Prop) : Prop :=
  ∀ s a t, inv s → ok s a → m.step s a = some t → n.Reach (f s) (f t)

/-- Runs follow a projection. -/
theorem Run.project {n : Machine τ β} {f : σ → τ} {inv : σ → Prop}
    (proj : Projects m ok n f inv) {s t : σ} (h : m.Run ok s t) (start : inv s)
    (keep : ∀ s a t, inv s → ok s a → m.step s a = some t → inv t) :
    n.Reach (f s) (f t) := by
  have hboth : n.Reach (f s) (f t) ∧ inv t := by
    induction h with
    | refl => exact ⟨.refl, start⟩
    | step _ hok hstep ih =>
      exact ⟨ih.1.trans (proj _ _ _ ih.2 hok hstep), keep _ _ _ ih.2 hok hstep⟩
  exact hboth.1

/-- Runs follow a simulation: a relation that is kept when each step on one side is answered by
a run on the other. -/
theorem Run.simulate {n : Machine τ β} {R : σ → τ → Prop}
    (answer : ∀ s a s' t, R s t → ok s a → m.step s a = some s' → ∃ t', n.Reach t t' ∧ R s' t')
    {s s' : σ} (h : m.Run ok s s') {t : τ} (start : R s t) : ∃ t', n.Reach t t' ∧ R s' t' := by
  induction h with
  | refl => exact ⟨t, .refl, start⟩
  | step _ hok hstep ih =>
    obtain ⟨u, hreach, hu⟩ := ih
    obtain ⟨t', hnext, ht'⟩ := answer _ _ _ _ hu hok hstep
    exact ⟨t', hreach.trans hnext, ht'⟩

end Machine

/-- An entry of a history that has grown by one is an old one, or the new one at the end. -/
theorem getElem?_grown {α : Type*} {history : List α} {new x : α} {i : Nat}
    (h : (history ++ [new])[i]? = some x) :
    history[i]? = some x ∨ i = history.length ∧ x = new := by
  rcases Nat.lt_or_ge i history.length with hi | hi
  · rw [List.getElem?_append_left hi] at h
    exact .inl h
  · rw [List.getElem?_append_right hi, List.getElem?_singleton] at h
    split at h
    · next hlast =>
      cases h
      exact .inr ⟨by omega, rfl⟩
    · cases h

/-- What holds at one time and not at a later one holds for a last time between them. -/
theorem exists_last {p : Nat → Prop} {i j : Nat} (hij : i ≤ j) (hi : p i) (hj : ¬ p j) :
    ∃ k, i ≤ k ∧ k < j ∧ p k ∧ ∀ m, k < m → m ≤ j → ¬ p m := by
  induction hij with
  | refl => exact absurd hi hj
  | @step j hij ih =>
    by_cases hlast : p j
    · refine ⟨j, hij, Nat.lt_succ_self j, hlast, fun m hlo hhi => ?_⟩
      rwa [show m = j + 1 by omega]
    · obtain ⟨k, hik, hkj, hk, hlater⟩ := ih hlast
      refine ⟨k, hik, Nat.lt_succ_of_lt hkj, hk, fun m hlo hhi => ?_⟩
      rcases Nat.le_or_eq_of_le_succ hhi with hm | rfl
      · exact hlater m hlo hm
      · exact hj

/-- What holds of every entry still does when the new one has it too. -/
theorem forall_mem_grown {α : Type*} {history : List α} {new : α} {p : α → Prop} :
    (∀ x ∈ history ++ [new], p x) ↔ (∀ x ∈ history, p x) ∧ p new := by
  rw [List.forall_mem_append, List.forall_mem_singleton]

end MicroRosDemos.Lib
