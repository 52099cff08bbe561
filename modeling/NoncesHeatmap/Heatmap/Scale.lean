import Mathlib.Order.Bounds.Basic
import NoncesHeatmap.Heatmap.Width

/-! # The automatic scale

Without an `x` in the job, `render()` takes the ceiling of `count / (height * 2)`. The product wraps for
heights from `2^31` on, and both the scale and the width that follows from it are quotients in single
precision. -/

namespace NoncesHeatmap
open Single (QuotientAtMost CeilingExact)
set_option autoImplicit false

variable {count height : ℕ}

/-- The quotient of an automatic scale has an even divisor, so it is converted below `2^32`. -/
theorem autoX_eq_iff (hcount : 0 < count) (hcount32 : count < 2 ^ 32) (hdiv : u32 (height * 2) ≠ 0) {x : ℕ}
    (hx : 0 < x) :
    autoX count height = x ↔
      QuotientAtMost count (u32 (height * 2)) x ∧ ¬ QuotientAtMost count (u32 (height * 2)) (x - 1) := by
  have heven : u32 (height * 2) ≠ 1 := by
    rw [u32]
    omega
  have hpos := Nat.pos_of_ne_zero hdiv
  have hzero : imageWidth count (u32 (height * 2)) ≠ 0 := by
    rw [Ne, imageWidth_eq_zero_iff hcount hcount32 hpos]
    exact fun h => heven h.1
  obtain ⟨hlt, hceil | ⟨h, -⟩⟩ := imageWidth_cases hcount hcount32 hpos
  · have hauto : autoX count height = imageWidth count (u32 (height * 2)) :=
      max_eq_left (Nat.pos_of_ne_zero hzero)
    rw [hauto, ← Single.ceil_div_eq_iff hcount hpos hx, hceil]
    omega
  · exact absurd h hzero

/-- The least scale with at most two columns for each row, in exact arithmetic. -/
theorem isLeast_scale (hcount : 0 < count) (hheight : 0 < height) :
    IsLeast {x | 1 ≤ x ∧ count ⌈/⌉ x ≤ 2 * height} (count ⌈/⌉ (2 * height)) := by
  have hdiv : 0 < 2 * height := by omega
  have hpos := Single.ceilDiv_pos hcount hdiv
  constructor
  · refine ⟨hpos, (ceilDiv_le_iff_le_mul hpos).mpr ?_⟩
    rw [Nat.mul_comm]
    exact (ceilDiv_le_iff_le_mul hdiv).mp le_rfl
  · rintro x ⟨hx, hwidth⟩
    have hle := (ceilDiv_le_iff_le_mul hx).mp hwidth
    refine (ceilDiv_le_iff_le_mul hdiv).mpr ?_
    rwa [Nat.mul_comm]

/-- The scale is found by a division by a nonzero number and is the least one that bounds the aspect, and
the width keeps the bound. -/
structure ScaleLeast (height : ℕ) (s : Selection) : Prop where
  divisor : u32 (height * 2) ≠ 0
  pos : 1 ≤ s.x
  least : IsLeast {x | 1 ≤ x ∧ s.count ⌈/⌉ x ≤ 2 * height} s.x
  width : s.width ≤ 2 * height

/-- The scale and the width are not moved over an integer by the roundings. A width of `2^32`, whose
conversion is undefined and gives 0, counts as within the bound. -/
def ScaleExact (count height : ℕ) : Prop :=
  height ≠ 2 ^ 31 ∧
    (QuotientAtMost count (u32 (height * 2)) (count ⌈/⌉ (2 * height)) ∧
      ¬ QuotientAtMost count (u32 (height * 2)) (count ⌈/⌉ (2 * height) - 1)) ∧
    (QuotientAtMost count (count ⌈/⌉ (2 * height)) (2 * height) ∨
      count ⌈/⌉ (2 * height) = 1 ∧ 2 ^ 32 - 128 ≤ count)

instance (count height : ℕ) : Decidable (ScaleExact count height) := inferInstanceAs (Decidable (_ ∧ _))

/-- Up to `2^24` nonces and below the wrap nothing is moved. -/
theorem scaleExact_of_le (hcount : 0 < count) (hcount24 : count ≤ 2 ^ 24) (hheight : 0 < height)
    (hheight31 : height < 2 ^ 31) : ScaleExact count height := by
  have hdiv : 0 < 2 * height := by omega
  have hproduct : u32 (height * 2) = 2 * height := by
    rw [Nat.mul_comm]
    exact u32_of_lt (by omega)
  have hpos := Single.ceilDiv_pos hcount hdiv
  have hbound := (isLeast_scale hcount hheight).1.2
  refine ⟨by omega, ?_, Or.inl ?_⟩
  · rw [hproduct]
    exact Single.ceilingExact_of_le hcount hdiv hcount24
  · have hceil := (Single.ceil_div_eq_ceilDiv_iff hcount hpos).mpr (Single.ceilingExact_of_le hcount hpos hcount24)
    rw [← Single.ceil_div_le_iff hcount hpos, hceil]
    exact_mod_cast hbound

/-- **The automatic scale.** -/
theorem scale_least_iff (job : Job) (first past : ℕ) (hfirst : first < past) (hpast : past < 2 ^ 32)
    (hheight : 1 ≤ job.height) (hx : job.x = 0) :
    (ScaleLeast job.height (scaled job first past) ↔ ScaleExact (past - first) job.height) ∧
      (past - first ≤ 2 ^ 24 → job.height < 2 ^ 31 → ScaleExact (past - first) job.height) := by
  have hcount : 0 < past - first := by omega
  have hcount32 : past - first < 2 ^ 32 := by omega
  have hdiv : 0 < 2 * job.height := by omega
  have hceil_pos := Single.ceilDiv_pos hcount hdiv
  have hscale := isLeast_scale hcount hheight
  have hscount : (scaled job first past).count = past - first := u32_of_lt hcount32
  have hsx : (scaled job first past).x = autoX (past - first) job.height := by
    show (if job.x ≠ 0 then job.x else autoX (u32 (past - first)) job.height) = _
    rw [if_neg (fun h => h hx), u32_of_lt hcount32]
  have hswidth : (scaled job first past).width = imageWidth (past - first) (scaled job first past).x := rfl
  have hproduct : u32 (job.height * 2) ≠ 0 ↔ job.height ≠ 2 ^ 31 := by
    have := job.height_lt
    rw [u32]
    omega
  refine ⟨?_, fun hle => scaleExact_of_le hcount hle hheight⟩
  constructor
  · intro h
    have hxeq : (scaled job first past).x = (past - first) ⌈/⌉ (2 * job.height) := by
      have hleast := h.least
      rw [hscount] at hleast
      exact hleast.unique hscale
    have hwidth := h.width
    rw [hswidth, hxeq, imageWidth_le_iff hcount hcount32 hceil_pos,
      imageWidth_eq_zero_iff hcount hcount32 hceil_pos] at hwidth
    rw [hsx, autoX_eq_iff hcount hcount32 h.divisor hceil_pos] at hxeq
    exact ⟨hproduct.mp h.divisor, hxeq, hwidth⟩
  · rintro ⟨hne, hexact, hwidth⟩
    have hdivisor := hproduct.mpr hne
    have hxeq : (scaled job first past).x = (past - first) ⌈/⌉ (2 * job.height) := by
      rw [hsx, autoX_eq_iff hcount hcount32 hdivisor hceil_pos]
      exact hexact
    refine ⟨hdivisor, ?_, ?_, ?_⟩
    · rw [hxeq]
      exact hceil_pos
    · rw [hscount, hxeq]
      exact hscale
    · rw [hswidth, hxeq, imageWidth_le_iff hcount hcount32 hceil_pos, imageWidth_eq_zero_iff hcount hcount32 hceil_pos]
      exact hwidth

/-- Ten thousand nonces and a height of 2. -/
theorem scale_least_iff_10000 :
    ScaleLeast 2 (scaled { Job.default none with height := 2, height_lt := by decide } 0 10000) := by
  obtain ⟨hiff, hsmall⟩ := scale_least_iff { Job.default none with height := 2, height_lt := by decide } 0 10000
    (by norm_num) (by norm_num) (by norm_num) rfl
  exact hiff.mpr (hsmall (by norm_num) (by norm_num))

/-- The width 29 for a height of 14, although the scale is right, and the divisor of the height `2^31`. -/
theorem scale_misses :
    ((scaled { Job.default none with height := 14, height_lt := by decide } 0 2741685382).width = 29 ∧
      ¬ ScaleLeast 14 (scaled { Job.default none with height := 14, height_lt := by decide } 0 2741685382)) ∧
      ¬ ScaleLeast (2 ^ 31) (scaled { Job.default none with height := 2 ^ 31, height_lt := by decide } 0 1) := by
  have hwidth : (scaled { Job.default none with height := 14, height_lt := by decide } 0 2741685382).width = 29 := by
    decide +kernel
  refine ⟨⟨hwidth, fun h => ?_⟩, fun h => ?_⟩
  · exact absurd h.width (by rw [hwidth]; decide)
  · exact absurd h.divisor (by decide)

end NoncesHeatmap
