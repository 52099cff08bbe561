import Mathlib.Data.List.Basic
import Mathlib.Tactic.Tauto

/-! # Runs of a labelled machine

A `Machine` has states `σ` and labels `ℓ`; a label may be blocked in a state, and a label that is
not blocked has one successor. A run is a list of labels, each enabled where it occurs:

* `Machine.after s ls`: the state after the labels `ls`; `Machine.Run s ls`: they are all enabled.
* `Run.invariant`: what every step preserves, every run preserves.
* `Throughout P` / `EachStep C`: `P` in every state a run visits, `C` at every step it takes;
  `throughout_iff_eachStep` turns a one-step equivalence into an equivalence over runs.
* `Run.simulated`: runs carried from one machine to another by functions of the states and labels;
  `Run.refined` when a step of the one is a run of the other.
* `Within P n s`: whatever labels are taken from `s`, at most `n` of them lead to `P`, and the
  machine is never stuck on the way; `within_of_measure` derives it from a decreasing measure.
-/

namespace NoncesHeatmap.Runs
set_option autoImplicit false

universe u v

/-- A machine whose steps are named by labels: `enabled s l` lets `l` occur in `s`, and `next s l`
is the state it leads to. -/
structure Machine (σ : Type u) (ℓ : Type v) where
  enabled : σ → ℓ → Prop
  next : σ → ℓ → σ

namespace Machine
variable {σ : Type u} {ℓ : Type v} (M : Machine σ ℓ)

def restrict (allowed : σ → ℓ → Prop) : Machine σ ℓ where
  enabled s l := M.enabled s l ∧ allowed s l
  next := M.next

def after : σ → List ℓ → σ
  | s, [] => s
  | s, l :: ls => after (M.next s l) ls

def Run : σ → List ℓ → Prop
  | _, [] => True
  | s, l :: ls => M.enabled s l ∧ Run (M.next s l) ls

/-- `P` holds in every state that the labels visit, the first and the last included. -/
def Throughout (P : σ → Prop) : σ → List ℓ → Prop
  | s, [] => P s
  | s, l :: ls => P s ∧ Throughout P (M.next s l) ls

def EachStep (C : σ → ℓ → Prop) : σ → List ℓ → Prop
  | _, [] => True
  | s, l :: ls => C s l ∧ EachStep C (M.next s l) ls

@[simp] theorem after_nil (s : σ) : M.after s [] = s := rfl

@[simp] theorem after_cons (s : σ) (l : ℓ) (ls : List ℓ) :
    M.after s (l :: ls) = M.after (M.next s l) ls := rfl

@[simp] theorem run_nil (s : σ) : M.Run s [] := trivial

theorem after_append (s : σ) (ks ls : List ℓ) :
    M.after s (ks ++ ls) = M.after (M.after s ks) ls := by
  induction ks generalizing s with
  | nil => rfl
  | cons k ks ih => exact ih (M.next s k)

variable {M}

theorem run_cons {s : σ} {l : ℓ} {ls : List ℓ} :
    M.Run s (l :: ls) ↔ M.enabled s l ∧ M.Run (M.next s l) ls := Iff.rfl

theorem run_append {s : σ} {ks ls : List ℓ} :
    M.Run s (ks ++ ls) ↔ M.Run s ks ∧ M.Run (M.after s ks) ls := by
  induction ks generalizing s with
  | nil => simp
  | cons k ks ih => simp only [List.cons_append, run_cons, ih, after_cons, and_assoc]

theorem run_snoc {s : σ} {ls : List ℓ} {l : ℓ} :
    M.Run s (ls ++ [l]) ↔ M.Run s ls ∧ M.enabled (M.after s ls) l := by
  rw [run_append, run_cons]
  simp

instance decidableRun [∀ s l, Decidable (M.enabled s l)] : ∀ s ls, Decidable (M.Run s ls)
  | _, [] => isTrue trivial
  | s, l :: ls =>
    have := decidableRun (M.next s l) ls
    inferInstanceAs (Decidable (M.enabled s l ∧ M.Run (M.next s l) ls))

theorem Run.invariant {I : σ → Prop} (step : ∀ s l, I s → M.enabled s l → I (M.next s l))
    {s : σ} {ls : List ℓ} (start : I s) (run : M.Run s ls) : I (M.after s ls) := by
  induction ls generalizing s with
  | nil => exact start
  | cons l ls ih => exact ih (step s l start run.1) run.2

theorem Run.restrict_true {s : σ} {ls : List ℓ} (run : M.Run s ls) :
    (M.restrict fun _ _ => True).Run s ls := by
  induction ls generalizing s with
  | nil => trivial
  | cons l ls ih => exact ⟨⟨run.1, trivial⟩, ih run.2⟩

theorem after_restrict (allowed : σ → ℓ → Prop) (s : σ) (ls : List ℓ) :
    (M.restrict allowed).after s ls = M.after s ls := by
  induction ls generalizing s with
  | nil => rfl
  | cons l ls ih => exact ih (M.next s l)

theorem Throughout.first {P : σ → Prop} {s : σ} {ls : List ℓ} (h : M.Throughout P s ls) : P s := by
  cases ls with
  | nil => exact h
  | cons l ls => exact h.1

/-- When a step keeps `P` exactly if it meets `C`, a run keeps `P` throughout exactly if each of
its steps meets `C`. `I` is an invariant that the one-step equivalence may use. -/
theorem throughout_iff_eachStep {I P : σ → Prop} {C : σ → ℓ → Prop}
    (inv : ∀ s l, I s → M.enabled s l → I (M.next s l))
    (step : ∀ s l, I s → P s → M.enabled s l → (P (M.next s l) ↔ C s l))
    {s : σ} {ls : List ℓ} (start : I s) (hP : P s) (run : M.Run s ls) :
    M.Throughout P s ls ↔ M.EachStep C s ls := by
  induction ls generalizing s with
  | nil => simpa [Throughout, EachStep] using hP
  | cons l ls ih =>
    have hstep := step s l start hP run.1
    have hrest := fun hP' => ih (inv s l start run.1) hP' run.2
    simp only [Throughout, EachStep]
    constructor
    · rintro ⟨-, h⟩
      exact ⟨hstep.mp h.first, (hrest h.first).mp h⟩
    · rintro ⟨hC, h⟩
      exact ⟨hP, (hrest (hstep.mpr hC)).mpr h⟩

/-- What an invariant implies of every enabled step holds of every step of a run. -/
theorem Run.eachStep {I : σ → Prop} {C : σ → ℓ → Prop}
    (step : ∀ s l, I s → M.enabled s l → I (M.next s l) ∧ C s l)
    {s : σ} {ls : List ℓ} (start : I s) (run : M.Run s ls) : M.EachStep C s ls := by
  induction ls generalizing s with
  | nil => trivial
  | cons l ls ih =>
    obtain ⟨hI, hC⟩ := step s l start run.1
    exact ⟨hC, ih hI run.2⟩

theorem EachStep.last {C : σ → ℓ → Prop} {s : σ} {ls : List ℓ} {l : ℓ}
    (h : M.EachStep C s (ls ++ [l])) : C (M.after s ls) l := by
  induction ls generalizing s with
  | nil => exact h.1
  | cons k ks ih => exact ih h.2

theorem run_restrict_iff (allowed : σ → ℓ → Prop) (s : σ) (ls : List ℓ) :
    (M.restrict allowed).Run s ls ↔ M.Run s ls ∧ M.EachStep allowed s ls := by
  induction ls generalizing s with
  | nil => exact iff_of_true trivial ⟨trivial, trivial⟩
  | cons l ls ih =>
    have hrest := ih (M.next s l)
    constructor
    · rintro ⟨⟨hl, ha⟩, h⟩
      obtain ⟨hrun, heach⟩ := hrest.mp h
      exact ⟨⟨hl, hrun⟩, ⟨ha, heach⟩⟩
    · rintro ⟨⟨hl, hrun⟩, ⟨ha, heach⟩⟩
      exact ⟨⟨hl, ha⟩, hrest.mpr ⟨hrun, heach⟩⟩

theorem eachStep_restrict (allowed : σ → ℓ → Prop) (C : σ → ℓ → Prop) (s : σ) (ls : List ℓ) :
    (M.restrict allowed).EachStep C s ls ↔ M.EachStep C s ls := by
  induction ls generalizing s with
  | nil => exact Iff.rfl
  | cons l ls ih => exact and_congr_right fun _ => ih (M.next s l)

theorem throughout_restrict (allowed : σ → ℓ → Prop) (P : σ → Prop) (s : σ) (ls : List ℓ) :
    (M.restrict allowed).Throughout P s ls ↔ M.Throughout P s ls := by
  induction ls generalizing s with
  | nil => exact Iff.rfl
  | cons l ls ih => exact and_congr_right fun _ => ih (M.next s l)

/-- Functions of the states and of the labels that carry every step of `M` to one of `N` carry the runs. -/
theorem Run.simulated {τ : Type u} {κ : Type v} {N : Machine τ κ} {f : σ → τ} {g : ℓ → κ}
    (step : ∀ s l, M.enabled s l → N.enabled (f s) (g l) ∧ f (M.next s l) = N.next (f s) (g l))
    {s : σ} {ls : List ℓ} (run : M.Run s ls) :
    N.Run (f s) (ls.map g) ∧ f (M.after s ls) = N.after (f s) (ls.map g) := by
  induction ls generalizing s with
  | nil => exact ⟨trivial, rfl⟩
  | cons l ls ih =>
    obtain ⟨henabled, hnext⟩ := step s l run.1
    have hrest := ih run.2
    rw [hnext] at hrest
    exact ⟨⟨henabled, hrest.1⟩, hrest.2⟩

/-- When every step of `M` is some run of `N`, every run of `M` is a run of `N`. `I` is an invariant that the steps may use. -/
theorem Run.refined {τ : Type u} {κ : Type v} {N : Machine τ κ} {f : σ → τ} {I : σ → Prop}
    (step : ∀ s l, I s → M.enabled s l → I (M.next s l) ∧ ∃ ks, N.Run (f s) ks ∧ N.after (f s) ks = f (M.next s l))
    {s : σ} {ls : List ℓ} (start : I s) (run : M.Run s ls) :
    ∃ ks, N.Run (f s) ks ∧ N.after (f s) ks = f (M.after s ls) := by
  induction ls generalizing s with
  | nil => exact ⟨[], trivial, rfl⟩
  | cons l ls ih =>
    obtain ⟨hnext, ks, hrun, hafter⟩ := step s l start run.1
    obtain ⟨ks', hrun', hafter'⟩ := ih hnext run.2
    refine ⟨ks ++ ks', run_append.mpr ⟨hrun, ?_⟩, ?_⟩
    · rw [hafter]
      exact hrun'
    · rw [after_append, hafter]
      exact hafter'

variable (M)

/-- `P` is reached after at most `n` labels whichever of the allowed ones are taken, and until then
some label is always enabled. -/
inductive Within (allowed : σ → ℓ → Prop) (P : σ → Prop) : ℕ → σ → Prop
  | now {n : ℕ} {s : σ} : P s → Within allowed P n s
  | later {n : ℕ} {s : σ} : (∃ l, M.enabled s l) →
      (∀ l, M.enabled s l → allowed s l → Within allowed P n (M.next s l)) →
      Within allowed P (n + 1) s

variable {M}

theorem Within.mono {allowed : σ → ℓ → Prop} {P : σ → Prop} {m n : ℕ} {s : σ}
    (h : M.Within allowed P m s) (hmn : m ≤ n) : M.Within allowed P n s := by
  induction h generalizing n with
  | now hP => exact .now hP
  | later hex _ ih =>
    obtain ⟨n, rfl⟩ : ∃ k, n = k + 1 := ⟨n - 1, by omega⟩
    exact .later hex fun l hl ha => ih l hl ha (by omega)

/-- A measure that every allowed step away from `P` decreases bounds the number of labels to `P`. -/
theorem within_of_measure {allowed : σ → ℓ → Prop} {I P : σ → Prop} (μ : σ → ℕ)
    (live : ∀ s, I s → 0 < μ s ∧ ∃ l, M.enabled s l)
    (step : ∀ s l, I s → M.enabled s l → allowed s l →
      P (M.next s l) ∨ I (M.next s l) ∧ μ (M.next s l) < μ s)
    {s : σ} (start : I s) : M.Within allowed P (μ s) s := by
  induction hn : μ s using Nat.strongRecOn generalizing s with
  | ind n ih =>
    obtain ⟨hpos, hex⟩ := live s start
    obtain ⟨m, rfl⟩ : ∃ m, n = m + 1 := ⟨n - 1, by omega⟩
    refine .later hex fun l hl ha => ?_
    rcases step s l start hl ha with hP | ⟨hI, hlt⟩
    · exact .now hP
    · exact (ih _ (by omega) hI rfl).mono (by omega)

end Machine
end NoncesHeatmap.Runs
