import Mathlib.Data.List.Basic
import Mathlib.Data.List.Nodup
import Mathlib.Data.List.ProdSigma
import Mathlib.Logic.Function.Basic
import Mathlib.Order.Bounds.Basic
import Mathlib.Order.Lattice

/-! # Accumulating into an array

A list of items, each a position and what is accumulated there, is worked off from left to right. What
ends up at a position is decided by the items of that position alone, in their order. A maximum that is
updated on the way is the greatest element of the array when accumulating never lowers an element. -/

namespace NoncesHeatmap.Scatter
open Function
set_option autoImplicit false

variable {ι V A : Type} [DecidableEq ι]

def scatter (f : A → V → A) (items : List (ι × V)) (a : ι → A) : ι → A :=
  items.foldl (fun a item => update a item.1 (f (a item.1) item.2)) a

/-- What is accumulated at a position, in order. -/
def landing (items : List (ι × V)) (j : ι) : List V := (items.filter fun item => decide (item.1 = j)).map Prod.snd

variable {f : A → V → A} {items : List (ι × V)} {a : ι → A} {j : ι} {v : V}

theorem landing_cons_self (j : ι) (v : V) (items : List (ι × V)) : landing ((j, v) :: items) j = v :: landing items j := by
  have hfilter := List.filter_cons_of_pos (p := fun item : ι × V => decide (item.1 = j)) (a := (j, v)) (l := items)
    (decide_eq_true rfl)
  rw [landing, hfilter, List.map_cons, landing]

theorem landing_cons_of_ne {item : ι × V} (h : item.1 ≠ j) (items : List (ι × V)) :
    landing (item :: items) j = landing items j := by
  rw [landing, List.filter_cons_of_neg (by simpa using h), landing]

theorem landing_append (before after : List (ι × V)) (j : ι) :
    landing (before ++ after) j = landing before j ++ landing after j := by
  rw [landing, List.filter_append, List.map_append, landing, landing]

theorem landing_of_notMem (h : ∀ v, (j, v) ∉ items) : landing items j = [] := by
  have hfilter : (items.filter fun item => decide (item.1 = j)) = [] := by
    rw [List.filter_eq_nil_iff]
    rintro ⟨i, v⟩ hmem hi
    obtain rfl : i = j := of_decide_eq_true hi
    exact h v hmem
  rw [landing, hfilter, List.map_nil]

/-- At a position that occurs once. -/
theorem landing_of_mem (hnodup : (items.map Prod.fst).Nodup) (h : (j, v) ∈ items) : landing items j = [v] := by
  induction items with
  | nil => cases h
  | cons item items ih =>
    rw [List.map_cons, List.nodup_cons] at hnodup
    obtain ⟨hnew, hnodup⟩ := hnodup
    obtain rfl | hmem := List.mem_cons.mp h
    · have hrest : landing items j = [] := landing_of_notMem fun w hw => hnew (List.mem_map.mpr ⟨(j, w), hw, rfl⟩)
      rw [landing_cons_self, hrest]
    · have hne : item.1 ≠ j := fun heq => hnew (heq ▸ List.mem_map.mpr ⟨(j, v), hmem, rfl⟩)
      rw [landing_cons_of_ne hne]
      exact ih hnodup hmem

/-- What ends up at a position. -/
theorem scatter_apply (f : A → V → A) (items : List (ι × V)) (a : ι → A) (j : ι) :
    scatter f items a j = (landing items j).foldl f (a j) := by
  induction items generalizing a with
  | nil => rfl
  | cons item items ih =>
    obtain ⟨i, v⟩ := item
    show scatter f items (update a i (f (a i) v)) j = _
    rw [ih]
    by_cases hj : i = j
    · subst hj
      rw [update_self, landing_cons_self, List.foldl_cons]
    · rw [update_of_ne (Ne.symm hj), landing_cons_of_ne hj]

theorem scatter_of_mem (hnodup : (items.map Prod.fst).Nodup) (h : (j, v) ∈ items) : scatter f items a j = f (a j) v := by
  rw [scatter_apply, landing_of_mem hnodup h, List.foldl_cons, List.foldl_nil]

/-- What accumulating keeps for an element is kept by the array. -/
theorem scatter_induction {P : A → Prop} (hf : ∀ item ∈ items, ∀ x, P x → P (f x item.2)) (ha : ∀ j, P (a j)) (j : ι) :
    P (scatter f items a j) := by
  induction items generalizing a with
  | nil => exact ha j
  | cons item items ih =>
    refine ih (fun other hother => hf other (List.mem_cons_of_mem _ hother)) fun i => ?_
    show P (update a item.1 (f (a item.1) item.2) i)
    by_cases hi : i = item.1
    · rw [hi, update_self]
      exact hf item List.mem_cons_self _ (ha _)
    · rw [update_of_ne hi]
      exact ha i

/-- Two nested loops are one over the pairs of their counters. -/
theorem foldl_product {α β γ : Type} (g : γ → α × β → γ) (as : List α) (bs : List β) (c : γ) :
    as.foldl (fun c a => bs.foldl (fun c b => g c (a, b)) c) c = (as ×ˢ bs).foldl g c := by
  induction as generalizing c with
  | nil => rfl
  | cons a as ih => rw [List.foldl_cons, ih, List.product_cons, List.foldl_append, List.foldl_map]

/-! ## The maximum -/

variable [LinearOrder A]

/-- The array and the maximum, which is raised to a new element that is above it. -/
def scatterMax (f : A → V → A) (items : List (ι × V)) (s : (ι → A) × A) : (ι → A) × A :=
  items.foldl (fun s item =>
    (update s.1 item.1 (f (s.1 item.1) item.2),
      if s.2 < f (s.1 item.1) item.2 then f (s.1 item.1) item.2 else s.2)) s

/-- One step: an element that is raised becomes the maximum exactly when it is above it. -/
theorem isGreatest_update {positions : Set ι} {m : A} (h : IsGreatest (a '' positions) m) {i : ι} (hi : i ∈ positions)
    {value : A} (hvalue : a i ≤ value) :
    IsGreatest (update a i value '' positions) (if m < value then value else m) := by
  obtain ⟨⟨top, htop, hm⟩, hbound⟩ := h
  have hle : ∀ j ∈ positions, a j ≤ m := fun j hj => hbound ⟨j, hj, rfl⟩
  constructor
  · split
    · exact ⟨i, hi, update_self i value a⟩
    · next hless =>
      by_cases heq : top = i
      · subst heq
        exact ⟨top, htop, by rw [update_self]; exact le_antisymm (not_lt.mp hless) (hm ▸ hvalue)⟩
      · exact ⟨top, htop, by rw [update_of_ne heq, hm]⟩
  · rintro _ ⟨j, hj, rfl⟩
    by_cases heq : j = i
    · subst heq
      rw [update_self]
      split
      · exact le_rfl
      · next hless => exact not_lt.mp hless
    · rw [update_of_ne heq]
      split
      · next hless => exact (hle j hj).trans hless.le
      · exact hle j hj

theorem isGreatest_scatterMax {positions : Set ι} (hitems : ∀ item ∈ items, item.1 ∈ positions)
    (hf : ∀ item ∈ items, ∀ x, x ≤ f x item.2) {m : A} (h : IsGreatest (a '' positions) m) :
    IsGreatest ((scatterMax f items (a, m)).1 '' positions) (scatterMax f items (a, m)).2 := by
  induction items generalizing a m with
  | nil => exact h
  | cons item items ih =>
    have hstep := isGreatest_update h (hitems item List.mem_cons_self) (hf item List.mem_cons_self (a item.1))
    exact ih (fun other hother => hitems other (List.mem_cons_of_mem _ hother))
      (fun other hother => hf other (List.mem_cons_of_mem _ hother)) hstep

end NoncesHeatmap.Scatter
