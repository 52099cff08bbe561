import Mathlib.Data.Set.Lattice
import Mathlib.Logic.Function.Basic
import Mathlib.Order.CompletePartialOrder

/-! # Work handed out as jobs

Items of a type `α` are to be done by jobs named by `ι`; `jobs i` is the set of items the
outstanding job `i` works on, empty when there is no such job, and `done` is the set of finished
items.

* `Covers goal done jobs`: every item of the goal is done or some job works on it.
* `Exclusive done jobs`: no item is worked on twice, nor again once it is done.

A job is issued (`update jobs i s` at a free name), moved to another name, or settled (its items
are done and its name is free); the rules say what each of the three keeps. -/

namespace NoncesHeatmap.Jobs
open Function
set_option autoImplicit false

universe u v
variable {ι : Type u} {α : Type v}

def Covers (goal done : Set α) (jobs : ι → Set α) : Prop := ∀ a ∈ goal, a ∈ done ∨ ∃ i, a ∈ jobs i

structure Exclusive (done : Set α) (jobs : ι → Set α) : Prop where
  apart : ∀ i j, i ≠ j → Disjoint (jobs i) (jobs j)
  fresh : ∀ i, Disjoint (jobs i) done

theorem Covers.idle {goal done : Set α} {jobs : ι → Set α} (h : Covers goal done jobs)
    (idle : ∀ i, jobs i = ∅) : goal ⊆ done := by
  intro a ha
  rcases h a ha with hdone | ⟨i, hi⟩
  · exact hdone
  · rw [idle i] at hi
    exact absurd hi (Set.notMem_empty a)

theorem Covers.mono {goal goal' done : Set α} {jobs : ι → Set α} (h : Covers goal done jobs)
    (hgoal : goal' ⊆ goal) : Covers goal' done jobs :=
  fun a ha => h a (hgoal ha)

variable [DecidableEq ι]

theorem Covers.issue {goal done s : Set α} {jobs : ι → Set α} (h : Covers goal done jobs) {i : ι}
    (free : jobs i = ∅) : Covers (goal ∪ s) done (update jobs i s) := by
  intro a ha
  rcases ha with ha | ha
  · rcases h a ha with hdone | ⟨j, hj⟩
    · exact Or.inl hdone
    · have hne : j ≠ i := by
        rintro rfl
        rw [free] at hj
        exact hj
      exact Or.inr ⟨j, by rwa [update_of_ne hne]⟩
  · exact Or.inr ⟨i, by rwa [update_self]⟩

theorem Covers.move {goal done : Set α} {jobs : ι → Set α} (h : Covers goal done jobs) {i j : ι}
    (free : jobs j = ∅) (hij : i ≠ j) : Covers goal done (update (update jobs j (jobs i)) i ∅) := by
  intro a ha
  rcases h a ha with hdone | ⟨k, hk⟩
  · exact Or.inl hdone
  · by_cases hki : k = i
    · subst hki
      exact Or.inr ⟨j, by rwa [update_of_ne (Ne.symm hij), update_self]⟩
    · have hkj : k ≠ j := by
        rintro rfl
        rw [free] at hk
        exact hk
      exact Or.inr ⟨k, by rwa [update_of_ne hki, update_of_ne hkj]⟩

theorem Covers.settle {goal done done' : Set α} {jobs : ι → Set α} (h : Covers goal done jobs) {i : ι}
    (grows : done ⊆ done') (full : jobs i ⊆ done') : Covers goal done' (update jobs i ∅) := by
  intro a ha
  rcases h a ha with hdone | ⟨k, hk⟩
  · exact Or.inl (grows hdone)
  · by_cases hki : k = i
    · subst hki
      exact Or.inl (full hk)
    · exact Or.inr ⟨k, by rwa [update_of_ne hki]⟩

/-- A new job keeps the work exclusive exactly if nothing done or outstanding meets it. -/
theorem Exclusive.issue_iff {done s : Set α} {jobs : ι → Set α} (h : Exclusive done jobs) {i : ι}
    (free : jobs i = ∅) :
    Exclusive done (update jobs i s) ↔ Disjoint s done ∧ ∀ j, Disjoint s (jobs j) := by
  constructor
  · intro hx
    refine ⟨by simpa using hx.fresh i, fun j => ?_⟩
    by_cases hji : j = i
    · rw [hji, free]
      exact Set.disjoint_empty s
    · simpa [update_of_ne hji] using hx.apart i j (Ne.symm hji)
  · rintro ⟨hdone, hjobs⟩
    constructor
    · intro j k hjk
      by_cases hji : j = i
      · subst hji
        rw [update_self, update_of_ne (Ne.symm hjk)]
        exact hjobs k
      · rw [update_of_ne hji]
        by_cases hki : k = i
        · subst hki
          rw [update_self]
          exact (hjobs j).symm
        · rw [update_of_ne hki]
          exact h.apart j k hjk
    · intro j
      by_cases hji : j = i
      · subst hji
        rwa [update_self]
      · rw [update_of_ne hji]
        exact h.fresh j

/-- Freeing a name keeps the work exclusive, also when the items of its job have become done. -/
theorem Exclusive.settle {done done' : Set α} {jobs : ι → Set α} (h : Exclusive done jobs) {i : ι}
    (exact : done' ⊆ done ∪ jobs i) : Exclusive done' (update jobs i ∅) := by
  constructor
  · intro j k hjk
    by_cases hji : j = i
    · rw [hji, update_self]
      exact Set.empty_disjoint _
    · by_cases hki : k = i
      · rw [hki, update_self]
        exact Set.disjoint_empty _
      · rw [update_of_ne hji, update_of_ne hki]
        exact h.apart j k hjk
  · intro j
    by_cases hji : j = i
    · rw [hji, update_self]
      exact Set.empty_disjoint _
    · rw [update_of_ne hji]
      exact (Set.disjoint_union_right.mpr ⟨h.fresh j, h.apart j i hji⟩).mono_right exact

theorem Exclusive.move {done : Set α} {jobs : ι → Set α} (h : Exclusive done jobs) {i j : ι}
    (free : jobs j = ∅) (hij : i ≠ j) : Exclusive done (update (update jobs j (jobs i)) i ∅) := by
  have hfreed : Exclusive done (update jobs i ∅) := h.settle Set.subset_union_left
  have hfree : update jobs i ∅ j = ∅ := by rw [update_of_ne (Ne.symm hij), free]
  rw [update_comm (Ne.symm hij)]
  refine (hfreed.issue_iff hfree).mpr ⟨h.fresh i, fun k => ?_⟩
  by_cases hki : k = i
  · rw [hki, update_self]
    exact Set.disjoint_empty _
  · rw [update_of_ne hki]
    exact h.apart i k (Ne.symm hki)

end NoncesHeatmap.Jobs
