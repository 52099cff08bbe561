import NoncesHeatmap.Heatmap.Render

/-! # The width of the image

The width is the ceiling of a quotient in single precision, the columns are integer quotients. They
agree up to `2^24` nonces; beyond, a width that is too small cuts the last columns off. -/

namespace NoncesHeatmap
open Single (QuotientAtMost CeilingExact)
set_option autoImplicit false

variable {count x : ℕ}

/-- The ceiling before it is converted. -/
theorem ceil_le_two_pow (hcount : 0 < count) (hcount32 : count < 2 ^ 32) (hx : 0 < x) :
    ⌈Single.div (Single.ofNat count) (Single.ofNat x)⌉ ≤ ((2 ^ 32 : ℕ) : ℤ) := by
  rw [Single.ceil_div_le_iff hcount hx]
  have hlog : Nat.log 2 count < 32 := Nat.log_lt_of_lt_pow' (by norm_num) hcount32
  have hnearest : Single.nearest count ≤ 2 ^ 32 :=
    (Single.nearest_le_two_pow count).trans (Nat.pow_le_pow_right (by norm_num) (by omega))
  have hpos := Single.nearest_pos hx
  have hbits : (2 * Single.significand (2 ^ 32) + 1) * 2 ^ Nat.log 2 (2 ^ 32) = (2 ^ 24 + 1) * 2 ^ 32 := by
    decide +kernel
  refine ⟨by norm_num, ?_⟩
  rw [hbits]
  nlinarith

/-- Below `2^32` the conversion keeps the ceiling; there it becomes 0. -/
theorem imageWidth_cases (hcount : 0 < count) (hcount32 : count < 2 ^ 32) (hx : 0 < x) :
    imageWidth count x < 2 ^ 32 ∧ (⌈Single.div (Single.ofNat count) (Single.ofNat x)⌉ = (imageWidth count x : ℤ) ∨
      imageWidth count x = 0 ∧ ⌈Single.div (Single.ofNat count) (Single.ofNat x)⌉ = ((2 ^ 32 : ℕ) : ℤ)) := by
  have hle := ceil_le_two_pow hcount hcount32 hx
  have hpos := Single.ceil_div_pos hcount hx
  unfold imageWidth u32
  generalize ⌈Single.div (Single.ofNat count) (Single.ofNat x)⌉ = c at hle hpos ⊢
  obtain ⟨c, rfl⟩ := Int.eq_ofNat_of_zero_le hpos.le
  rw [Int.toNat_natCast]
  omega

theorem imageWidth_eq_iff (hcount : 0 < count) (hcount32 : count < 2 ^ 32) (hx : 0 < x) :
    imageWidth count x = count ⌈/⌉ x ↔ CeilingExact count x := by
  rw [← Single.ceil_div_eq_ceilDiv_iff hcount hx]
  have hpos := Single.ceilDiv_pos hcount hx
  have hle : count ⌈/⌉ x ≤ count := (ceilDiv_le_iff_le_mul hx).mpr (Nat.le_mul_of_pos_left count hx)
  obtain ⟨hlt, hceil | ⟨hzero, hceil⟩⟩ := imageWidth_cases hcount hcount32 hx
  · rw [hceil]
    omega
  · rw [hceil, hzero]
    omega

/-- The quotient in terms of the width, which is 0 when the quotient is `2^32`. -/
theorem quotientAtMost_iff (hcount : 0 < count) (hcount32 : count < 2 ^ 32) (hx : 0 < x) (bound : ℕ) :
    QuotientAtMost count x bound ↔ imageWidth count x ≤ bound ∧ (imageWidth count x ≠ 0 ∨ 2 ^ 32 ≤ bound) := by
  rw [← Single.ceil_div_le_iff hcount hx]
  have hpos := Single.ceil_div_pos hcount hx
  obtain ⟨hlt, hceil | ⟨hzero, hceil⟩⟩ := imageWidth_cases hcount hcount32 hx
  · rw [hceil] at hpos ⊢
    omega
  · rw [hceil, hzero]
    omega

/-- A width within a bound that is not `2^32`, unless the conversion makes it 0. -/
theorem imageWidth_le_iff (hcount : 0 < count) (hcount32 : count < 2 ^ 32) (hx : 0 < x) (bound : ℕ) :
    imageWidth count x ≤ bound ↔ QuotientAtMost count x bound ∨ imageWidth count x = 0 := by
  rw [quotientAtMost_iff hcount hcount32 hx]
  omega

/-- The quotients of the conversion that is undefined. -/
theorem imageWidth_eq_zero_iff (hcount : 0 < count) (hcount32 : count < 2 ^ 32) (hx : 0 < x) :
    imageWidth count x = 0 ↔ x = 1 ∧ 2 ^ 32 - 128 ≤ count := by
  have hzero : imageWidth count x = 0 ↔ ¬ QuotientAtMost count x (2 ^ 32 - 1) := by
    have hlt := (imageWidth_cases hcount hcount32 hx).1
    rw [quotientAtMost_iff hcount hcount32 hx]
    omega
  have hbits : (2 * Single.significand (2 ^ 32 - 1) + 1) * 2 ^ Nat.log 2 (2 ^ 32 - 1) = (2 ^ 32 - 128) * 2 ^ 24 := by
    decide +kernel
  have hmost : QuotientAtMost count x (2 ^ 32 - 1) ↔
      Single.nearest count < (2 ^ 32 - 128) * Single.nearest x := by
    rw [QuotientAtMost, hbits]
    omega
  have hnearest := Single.nearest_lt_iff hcount32
  rw [hzero, hmost]
  rcases Nat.lt_or_ge x 2 with hone | htwo
  · obtain rfl : x = 1 := by omega
    rw [Single.nearest_of_le (n := 1) (by norm_num)]
    omega
  · have hx2 := Single.two_le_nearest htwo
    have hlog : Nat.log 2 count < 32 := Nat.log_lt_of_lt_pow' (by norm_num) hcount32
    have hle : Single.nearest count ≤ 2 ^ 32 :=
      (Single.nearest_le_two_pow count).trans (Nat.pow_le_pow_right (by norm_num) (by omega))
    omega

/-! ## The columns -/

variable {job : Job} {size : ℕ} {s : Selection}

/-- What the selection says of the count, the scale and the width. -/
theorem select_width (hsize : size < 2 ^ 32) (h : select job size = .ok s) :
    0 < s.count ∧ s.count < 2 ^ 32 ∧ s.count = s.past - s.first ∧ s.past ≤ size ∧ 0 < s.x ∧
      s.width = imageWidth s.count s.x := by
  obtain ⟨hbounds, hscaled, -⟩ := select_ok h
  obtain ⟨-, -, -, hlt, hle⟩ := sliceBounds_ok hbounds
  have hcount : s.count = s.past - s.first := by
    rw [hscaled]
    exact u32_of_lt (by omega)
  have hwidth : s.width = imageWidth (s.past - s.first) s.x := by
    rw [hscaled]
    rfl
  exact ⟨by omega, by omega, hcount, hle, select_x_pos h, by rw [hwidth, hcount]⟩

theorem calls_x (rows : Rows) {slice : List ℕ} {calls : List Point} {i : ℕ} (hcalls : rows.calls x slice i = some calls) :
    ∀ p ∈ calls, ∃ j < slice.length, p.x = u32 ((i + j) / x) := by
  induction slice generalizing i calls with
  | nil =>
    obtain rfl : [] = calls := Option.some.inj hcalls
    exact fun p hp => absurd hp List.not_mem_nil
  | cons nonce slice ih =>
    have hrest : ∀ calls, rows.calls x slice (i + 1) = some calls → ∀ p ∈ calls,
        ∃ j < (nonce :: slice).length, p.x = u32 ((i + j) / x) := by
      intro calls hcalls p hp
      obtain ⟨j, hj, hpx⟩ := ih hcalls p hp
      exact ⟨j + 1, Nat.succ_lt_succ hj, by rw [hpx, Nat.add_right_comm, Nat.add_assoc]⟩
    rw [Rows.calls] at hcalls
    split at hcalls
    · obtain ⟨q, hq, hcalls⟩ := Option.bind_eq_some_iff.mp hcalls
      obtain ⟨calls', hcalls', rfl⟩ := Option.map_eq_some_iff.mp hcalls
      obtain ⟨column, hcolumn, hq⟩ := Option.bind_eq_some_iff.mp hq
      obtain ⟨row, -, rfl⟩ := Option.map_eq_some_iff.mp hq
      have hdiv : i / x = column := by
        rw [div?] at hcolumn
        split at hcolumn
        · cases hcolumn
        · exact Option.some.inj hcolumn
      intro p hp
      obtain rfl | hp := List.mem_cons.mp hp
      · exact ⟨0, Nat.succ_pos _, by rw [Nat.add_zero, hdiv]⟩
      · exact hrest calls' hcalls' p hp
    · exact hrest calls hcalls

/-- The width is the integer ceiling, so that every selected nonce has its column in the image and every
column of the image has nonces. -/
structure WidthExact (s : Selection) : Prop where
  width : s.width = s.count ⌈/⌉ s.x
  kept : ∀ i < s.count, i / s.x < s.width
  drawn : ∀ (rows : Rows) (slice : List ℕ) calls, slice.length = s.count →
    rows.calls s.x slice 0 = some calls → ∀ p ∈ calls, p.x < s.width
  reached : ∀ column < s.width, ∃ i < s.count, i / s.x = column

/-- **The width of the image.** -/
theorem width_exact_iff (job : Job) (size : ℕ) (s : Selection) (hsize : size < 2 ^ 32) (hselect : select job size = .ok s) :
    (WidthExact s ↔ CeilingExact s.count s.x) ∧ (s.count ≤ 2 ^ 24 → CeilingExact s.count s.x) := by
  obtain ⟨hcount, hcount32, -, -, hx, hwidth⟩ := select_width hsize hselect
  refine ⟨⟨fun h => ?_, fun h => ?_⟩, fun hle => Single.ceilingExact_of_le hcount hx hle⟩
  · rw [← imageWidth_eq_iff hcount hcount32 hx, ← hwidth]
    exact h.width
  · have heq : s.width = s.count ⌈/⌉ s.x := hwidth.trans ((imageWidth_eq_iff hcount hcount32 hx).mpr h)
    have hceil : s.count ≤ s.x * s.width := by
      rw [heq]
      exact (ceilDiv_le_iff_le_mul hx).mp le_rfl
    have hkept : ∀ i < s.count, i / s.x < s.width := by
      intro i hi
      rw [Nat.div_lt_iff_lt_mul hx, Nat.mul_comm]
      omega
    refine ⟨heq, hkept, ?_, ?_⟩
    · intro rows slice calls hlength hcalls p hp
      obtain ⟨j, hj, hpx⟩ := calls_x rows hcalls p hp
      rw [Nat.zero_add] at hpx
      have hlt : j / s.x < 2 ^ 32 := lt_of_le_of_lt (Nat.div_le_self _ _) (by omega)
      rw [hpx, u32_of_lt hlt]
      exact hkept j (by omega)
    · intro column hcolumn
      refine ⟨column * s.x, ?_, Nat.mul_div_cancel _ hx⟩
      by_contra hge
      rw [Nat.mul_comm] at hge
      have hle := (ceilDiv_le_iff_le_mul hx).mpr (not_lt.mp hge)
      omega

/-- Three columns of 3000 nonces. -/
theorem width_exact_iff_3000 :
    WidthExact ⟨0, 8191, 8191, 3000, 3⟩ ∧ CeilingExact 8191 3000 := by
  obtain ⟨hiff, hsmall⟩ := width_exact_iff
    { Job.default none with x := 3000, x_lt := by decide } 8191 ⟨0, 8191, 8191, 3000, 3⟩ (by norm_num)
    (by decide +kernel)
  exact ⟨hiff.mpr (hsmall (by norm_num)), hsmall (by norm_num)⟩

/-- The settings of an image with one column for each nonce. -/
def Job.columns (height : ℕ) (h : height < 2 ^ 32) : Job :=
  { Job.default (some "heatmap.png") with
    x := 1
    height := height
    x_lt := by norm_num
    height_lt := h }

/-- The last of `2^24 + 1` nonces has no column. -/
theorem last_column_lost :
    select (Job.columns 32 (by decide)) (2 ^ 24 + 1) = .ok ⟨0, 2 ^ 24 + 1, 2 ^ 24 + 1, 1, 2 ^ 24⟩ ∧
      ¬ WidthExact ⟨0, 2 ^ 24 + 1, 2 ^ 24 + 1, 1, 2 ^ 24⟩ := by
  refine ⟨by decide +kernel, fun h => ?_⟩
  have hlast := h.kept (2 ^ 24) (by decide)
  exact absurd hlast (by decide)

end NoncesHeatmap
