import NoncesHeatmap.Heatmap.Render

/-! # The divisor of a nonce window

The step of `nonces_heatmap<true>` is the truncated quotient of the window and the height. It is 0 for a
window of fewer nonces than rows, and every nonce that passes the filter is then divided by 0. -/

namespace NoncesHeatmap
set_option autoImplicit false

variable {rows : Rows} {x height min max : ℕ} {slice : List ℕ}

/-- The loop is defined when the division of every accepted nonce is. -/
theorem calls_defined_iff (hx : 0 < x) (i : ℕ) :
    (∃ calls, rows.calls x slice i = some calls) ↔
      ∀ nonce ∈ slice, rows.accepts nonce = true → ∃ row, rows.row nonce = some row := by
  induction slice generalizing i with
  | nil => exact iff_of_true ⟨[], rfl⟩ fun _ hnonce => absurd hnonce List.not_mem_nil
  | cons nonce slice ih =>
    rw [List.forall_mem_cons, ← ih (i + 1), Rows.calls]
    by_cases haccept : rows.accepts nonce = true
    · rw [if_pos haccept, Rows.point, div?, if_neg hx.ne', Option.bind_some]
      cases hrow : rows.row nonce with
      | none => simp [haccept]
      | some row => simp [Option.map_eq_some_iff]
    · rw [if_neg haccept]
      exact (and_iff_right fun h => absurd h haccept).symm

theorem customRows_row_iff (hheight : 0 < height) (nonce : ℕ) :
    (∃ row, (customRows height min max).row nonce = some row) ↔ sub32 max min / height ≠ 0 := by
  show (∃ row, (div? (sub32 max min) height).bind _ = some row) ↔ _
  rw [div?, if_neg hheight.ne', Option.bind_some, div?]
  split <;> simp [*]

/-- Every evaluation of `(max - nonce) / (range / height)` has a divisor, and the loop has an outcome. -/
def WindowDefined {F : Type} [Add F] [LT F] [DecidableLT F] [Zero F] (shade : ℕ → ℕ → F) (job : Job) (s : Selection)
    (nonces : List ℕ) : Prop :=
  (∀ nonce ∈ s.slice nonces, (customRows job.height job.minNonce job.maxNonce).accepts nonce = true →
      sub32 job.maxNonce job.minNonce / job.height ≠ 0) ∧
    ∃ hm, noncesHeatmap shade job.rows (s.slice nonces) s.x job.height job.radius = some hm

/-- **The nonce windows without a division by zero.** -/
theorem window_defined_iff {F : Type} [Add F] [LT F] [DecidableLT F] [Zero F] (shade : ℕ → ℕ → F) (job : Job)
    (nonces : List ℕ) (s : Selection) (hselect : select job nonces.length = .ok s)
    (hwindow : job.minNonce ≤ job.maxNonce) (hset : ¬ (job.minNonce = 0 ∧ job.maxNonce = 0)) :
    WindowDefined shade job s nonces ↔
      job.height ≤ job.maxNonce - job.minNonce ∨
        ∀ nonce ∈ s.slice nonces, ¬ (job.minNonce ≤ nonce ∧ nonce ≤ job.maxNonce) := by
  have hheight := select_height_pos hselect
  have hrows : job.rows = customRows job.height job.minNonce job.maxNonce := if_neg hset
  have hstep : sub32 job.maxNonce job.minNonce / job.height ≠ 0 ↔ job.height ≤ job.maxNonce - job.minNonce := by
    rw [sub32_of_le hwindow job.maxNonce_lt, Nat.div_ne_zero_iff]
    exact and_iff_right hheight.ne'
  have hloop : (∃ hm, noncesHeatmap shade job.rows (s.slice nonces) s.x job.height job.radius = some hm) ↔
      ∀ nonce ∈ s.slice nonces, (customRows job.height job.minNonce job.maxNonce).accepts nonce = true →
        sub32 job.maxNonce job.minNonce / job.height ≠ 0 := by
    simp only [hrows, noncesHeatmap_eq, Option.map_eq_some_iff]
    rw [← forall₂_congr fun nonce _ => imp_congr_right fun _ => customRows_row_iff hheight nonce,
      ← calls_defined_iff (select_x_pos hselect) 0]
    exact ⟨fun ⟨_, calls, hcalls, _⟩ => ⟨calls, hcalls⟩, fun ⟨calls, hcalls⟩ => ⟨_, calls, hcalls, rfl⟩⟩
  rw [WindowDefined, hloop, and_self, hstep]
  constructor
  · intro h
    by_contra hcon
    push Not at hcon
    obtain ⟨hsmall, nonce, hnonce, hmin, hmax⟩ := hcon
    exact absurd (h nonce hnonce (decide_eq_true ⟨hmin, hmax⟩)) hsmall.not_ge
  · rintro (hlarge | hnone) nonce hnonce haccept
    · exact hlarge
    · exact absurd (of_decide_eq_true haccept) (hnone nonce hnonce)

/-- The settings of a job with a nonce window. -/
def Job.window (minNonce maxNonce : ℕ) (h : minNonce < 2 ^ 32) (h' : maxNonce < 2 ^ 32) : Job :=
  { Job.default (some "heatmap.png") with
    minNonce := minNonce
    maxNonce := maxNonce
    minNonce_lt := h
    maxNonce_lt := h' }

theorem window_defined_iff_8192 :
    WindowDefined (fun _ _ => (1 : ℕ)) (Job.window 100 8292 (by decide) (by decide)) ⟨0, 2, 2, 1, 2⟩ [50, 150] :=
  (window_defined_iff (fun _ _ => 1) (Job.window 100 8292 (by decide) (by decide)) [50, 150] ⟨0, 2, 2, 1, 2⟩
    (by decide +kernel) (by decide) (by decide)).mpr (Or.inl (by decide))

/-- A window of 101 nonces and 4096 rows. -/
theorem window_divides_by_zero :
    select (Job.window 100 200 (by decide) (by decide)) 1 = .ok ⟨0, 1, 1, 1, 1⟩ ∧
      ¬ WindowDefined (fun _ _ => (1 : ℕ)) (Job.window 100 200 (by decide) (by decide)) ⟨0, 1, 1, 1, 1⟩ [150] := by
  refine ⟨by decide +kernel, fun h => ?_⟩
  have hzero := h.1 150 (List.mem_singleton_self 150) (by decide)
  exact absurd hzero (by decide)

end NoncesHeatmap
