import NoncesHeatmap.Heatmap.Pixels
import NoncesHeatmap.Library.Floats

/-! # The stamp of `heatmap_stamp_gen`

The brightness falls from 1 in the centre to 0 at the distance of the radius plus one, and in single
precision it does so for the right pixels as long as the square of that distance has 24 bits. -/

namespace NoncesHeatmap
open Single (Number sqrtf squareRoot)
set_option autoImplicit false

def linearDist (dist : Number) : Number := dist

def clampedDs (ds : Number) : Number := if 1 < ds then 1 else if ds < 0 then 0 else ds

/-- What the loop of `heatmap_stamp_gen_nonlinear` writes for the square of a distance. -/
def stampShade (distshape : Number → Number) (r square : ℕ) : Number :=
  1 - clampedDs (distshape (sqrtf (square : Number) / (u32 (r + 1) : ℕ)))

def heatmapStampGenNonlinear (r : ℕ) (distshape : Number → Number) : StampT Number :=
  heatmapStampGen (stampShade distshape) r

def heatmapStampGenLinear (r : ℕ) : StampT Number := heatmapStampGenNonlinear r linearDist

/-! ## All shapes -/

theorem clampedDs_bounds (ds : Number) : 0 ≤ clampedDs ds ∧ clampedDs ds ≤ 1 := by
  have hone : (0 : Number) ≤ 1 := by decide +kernel
  unfold clampedDs
  split
  · exact ⟨hone, le_rfl⟩
  · next hle =>
    split
    · exact ⟨le_rfl, hone⟩
    · next hge => exact ⟨not_lt.mp hge, not_lt.mp hle⟩

theorem clampedDs_mono {a b : Number} (h : a ≤ b) : clampedDs a ≤ clampedDs b := by
  have ha := clampedDs_bounds a
  have hb := clampedDs_bounds b
  by_cases hlarge : 1 < b
  · rw [clampedDs, clampedDs, if_pos hlarge, ← clampedDs]
    exact ha.2
  · have hsmall : ¬ 1 < a := fun hlt => hlarge (hlt.trans_le h)
    by_cases hneg : a < 0
    · have hzero : clampedDs a = 0 := by rw [clampedDs, if_neg hsmall, if_pos hneg]
      rw [hzero]
      exact hb.1
    · have hneg' : ¬ b < 0 := fun hlt => hneg (h.trans_lt hlt)
      rw [clampedDs, if_neg hsmall, if_neg hneg, clampedDs, if_neg hlarge, if_neg hneg']
      exact h

theorem clampedDs_of_mem {ds : Number} (h0 : 0 ≤ ds) (h1 : ds ≤ 1) : clampedDs ds = ds := by
  rw [clampedDs, if_neg h1.not_gt, if_neg h0.not_gt]

theorem one_sub_zero : (1 : Number) - 0 = 1 := by decide +kernel

theorem one_sub_one : (1 : Number) - 1 = 0 := by decide +kernel

theorem stampShade_bounds (distshape : Number → Number) (r square : ℕ) :
    0 ≤ stampShade distshape r square ∧ stampShade distshape r square ≤ 1 := by
  obtain ⟨hlow, hhigh⟩ := clampedDs_bounds (distshape (sqrtf (square : Number) / (u32 (r + 1) : ℕ)))
  have hle := Number.sub_antitone 1 hlow
  have hge := Number.sub_antitone 1 hhigh
  rw [one_sub_zero] at hle
  rw [one_sub_one] at hge
  exact ⟨hge, hle⟩

/-! ## The linear shape -/

variable {r square : ℕ}

theorem natCast_nonneg (n : ℕ) : (0 : Number) ≤ (n : Number) := by
  have hle := Number.natCast_mono (Nat.zero_le n)
  have hzero : ((0 : ℕ) : Number) = 0 := by decide +kernel
  rwa [hzero] at hle

theorem stampShade_antitone {square' : ℕ} (r : ℕ) (h : square ≤ square') :
    stampShade linearDist r square' ≤ stampShade linearDist r square :=
  Number.sub_antitone 1 (clampedDs_mono (Number.div_monotone
    (Single.sqrtf_mono (natCast_nonneg square) (Number.natCast_mono h)) (natCast_nonneg _)))

theorem stampShade_centre (r : ℕ) : stampShade linearDist r 0 = 1 := by
  have hroot : sqrtf ((0 : ℕ) : Number) = 0 := by
    have hsquare := Single.sqrtf_natCast_sq (n := 0) (by norm_num)
    rw [zero_pow two_ne_zero] at hsquare
    rw [hsquare]
    decide +kernel
  rw [stampShade, hroot, linearDist, Number.div_of_zero, clampedDs_of_mem le_rfl (by decide +kernel), one_sub_zero]

/-- The radius plus one is converted exactly. -/
theorem val_radius (hr : r < 2 ^ 24) : ((u32 (r + 1) : ℕ) : Number).val = r + 1 := by
  rw [u32_of_lt (by omega), Number.val_natCast_of_le (by omega)]
  push_cast
  rfl

/-- The least number that is subtracted from 1. -/
def lastUnit : Number := ⟨1 / 2 ^ 24, by decide +kernel⟩

def belowOne : Number := ⟨1 - 1 / 2 ^ 24, by decide +kernel⟩

theorem stampShade_lt_one (hr : r < 2 ^ 24) (hsquare : 0 < square) : stampShade linearDist r square < 1 := by
  have hroot : (1 : Number) ≤ sqrtf (square : Number) := by
    have hone := Single.sqrtf_natCast_sq (n := 1) (by norm_num)
    have hmono := Single.sqrtf_mono (natCast_nonneg (1 ^ 2)) (Number.natCast_mono (by omega : 1 ^ 2 ≤ square))
    have hcast : ((1 : ℕ) : Number) = 1 := by decide +kernel
    rwa [hone, hcast] at hmono
  have hunit : lastUnit ≤ 1 / (u32 (r + 1) : ℕ) := by
    refine Number.le_round ?_
    have hr' : (r : ℚ) + 1 ≤ 2 ^ 24 := by exact_mod_cast hr
    rw [val_radius hr, Number.val_one]
    exact one_div_le_one_div_of_le (by positivity) hr'
  have hclamped := clampedDs_mono (hunit.trans (Number.div_monotone hroot (natCast_nonneg _)))
  rw [clampedDs_of_mem (by decide +kernel) (by decide +kernel)] at hclamped
  have hbelow : (1 : Number) - lastUnit = belowOne := by decide +kernel
  exact ((Number.sub_antitone 1 hclamped).trans hbelow.le).trans_lt (by decide +kernel)

/-- Outside of the circle the quotient is clamped. -/
theorem stampShade_outside (hr : r < 2 ^ 12) (h : (r + 1) ^ 2 ≤ square) : stampShade linearDist r square = 0 := by
  have hroot : ((r + 1 : ℕ) : Number) ≤ sqrtf (square : Number) := by
    rw [← Single.sqrtf_natCast_sq (n := r + 1) (by omega)]
    exact Single.sqrtf_mono (natCast_nonneg _) (Number.natCast_mono h)
  have hpos : (0 : Number) < ((r + 1 : ℕ) : Number) := by
    rw [Number.lt_def, Number.val_natCast_of_le (by omega)]
    exact Nat.cast_pos.mpr (Nat.succ_pos r)
  have hone : 1 ≤ linearDist (sqrtf (square : Number) / (u32 (r + 1) : ℕ)) := by
    rw [← Number.div_same hpos, u32_of_lt (by omega)]
    exact Number.div_monotone hroot hpos.le
  have hclamped := clampedDs_mono hone
  rw [clampedDs_of_mem (by decide +kernel) le_rfl] at hclamped
  rw [stampShade, le_antisymm (clampedDs_bounds _).2 hclamped, one_sub_one]

/-- The greatest single below the radius plus one, or one below it. -/
def belowEdge (r : ℕ) (hr : r < 2 ^ 12) : Number :=
  ⟨((r + 1) * 2 ^ 12 - 1 : ℤ) * 2 ^ (-12 : ℤ), Single.round_of_bits _ _ (by rw [abs_le]; constructor <;> omega)⟩

theorem sqrtf_le_belowEdge (hr : r < 2 ^ 12) (h : square < (r + 1) ^ 2) : sqrtf (square : Number) ≤ belowEdge r hr := by
  have hval : ((square : ℕ) : Number).val = square := by
    have hpow := Nat.pow_le_pow_left (by omega : r + 1 ≤ 2 ^ 12) 2
    exact Number.val_natCast_of_le (by omega)
  have hsquare : (square : ℚ) ≤ (r + 1) ^ 2 - 1 := by
    have hle : ((square + 1 : ℕ) : ℚ) ≤ ((r + 1) ^ 2 : ℕ) := Nat.cast_le.mpr h
    push_cast at hle
    linarith
  have hr' : (r : ℚ) + 1 ≤ 2 ^ 12 := by exact_mod_cast hr
  rcases Nat.lt_or_ge r (2 ^ 11) with hsmall | hlarge
  · -- the root is below the single itself
    have hr'' : (r : ℚ) + 1 ≤ 2 ^ 11 := by exact_mod_cast hsmall
    refine Single.sqrtf_le (k := ((r + 1) * 2 ^ 12 - 1) * 2 ^ 88) (natCast_nonneg _) ?_ ?_
    · rw [belowEdge]
      push_cast [Nat.cast_sub (by omega : 1 ≤ (r + 1) * 2 ^ 12)]
      norm_num
      ring
    · rw [hval, belowEdge]
      push_cast
      norm_num
      nlinarith
  · -- the root is below the middle between the single and the next one
    refine Single.round_le_of_lt_middle (-12) (by omega) (by omega) ?_
    have hmiddle : (((r + 1) * 2 ^ 12 - 1 : ℤ) + 1 / 2 : ℚ) * 2 ^ (-12 : ℤ) =
        (((r + 1) * 2 ^ 13 - 1) * 2 ^ 87 : ℕ) / 2 ^ 100 := by
      push_cast [Nat.cast_sub (by omega : 1 ≤ (r + 1) * 2 ^ 13)]
      norm_num
      ring
    rw [hmiddle, (Single.squareRoot_compare (natCast_nonneg square) _).2, hval, ← hmiddle]
    push_cast
    norm_num
    nlinarith

/-- Inside of the circle the quotient is at most one unit below 1. -/
theorem stampShade_inside (hr : r < 2 ^ 12) (h : square < (r + 1) ^ 2) : 0 < stampShade linearDist r square := by
  have hr' : (r : ℚ) + 1 ≤ 2 ^ 12 := by exact_mod_cast hr
  have hpos : (0 : ℚ) < r + 1 := by positivity
  have hquotient : belowEdge r hr / (u32 (r + 1) : ℕ) ≤ belowOne := by
    refine Number.round_le ?_
    rw [val_radius (by omega), div_le_iff₀ hpos, belowEdge, belowOne]
    push_cast
    norm_num
    linarith
  have hclamped := clampedDs_mono
    ((Number.div_monotone (sqrtf_le_belowEdge hr h) (natCast_nonneg _)).trans hquotient)
  have hself : clampedDs belowOne = belowOne := by decide +kernel
  rw [hself] at hclamped
  exact lt_of_lt_of_le (by decide +kernel : 0 < 1 - belowOne) (Number.sub_antitone 1 hclamped)

/-- The stamp as a function of the pixels: a disc whose brightness falls from its centre on. -/
structure Disc (r : ℕ) (brightness : ℕ → ℕ → Number) : Prop where
  bounds : ∀ x < 2 * r + 1, ∀ y < 2 * r + 1, 0 ≤ brightness x y ∧ brightness x y ≤ 1
  falls : ∀ x < 2 * r + 1, ∀ y < 2 * r + 1, ∀ x' < 2 * r + 1, ∀ y' < 2 * r + 1,
    squareDist ⟨r, r⟩ x y ≤ squareDist ⟨r, r⟩ x' y' → brightness x' y' ≤ brightness x y
  centre : ∀ x < 2 * r + 1, ∀ y < 2 * r + 1, brightness x y = 1 ↔ x = r ∧ y = r
  edge : ∀ x < 2 * r + 1, ∀ y < 2 * r + 1, 0 < brightness x y ↔ squareDist ⟨r, r⟩ x y < (r + 1) ^ 2

/-- **The stamp.** -/
theorem stamp_disc (r : ℕ) (hr : r < 2 ^ 12) :
    Disc r fun x y => (heatmapStampGenLinear r).buf.float (y * (2 * r + 1) + x) := by
  have hvalue : ∀ x < 2 * r + 1, ∀ y < 2 * r + 1,
      (heatmapStampGenLinear r).buf.float (y * (2 * r + 1) + x) = stampShade linearDist r (squareDist ⟨r, r⟩ x y) := by
    intro x hx y hy
    rw [squareDist, Nat.dist_comm r x, Nat.dist_comm r y]
    exact heatmapStampGen_float _ (by omega) hx hy
  constructor
  · intro x hx y hy
    rw [hvalue x hx y hy]
    exact stampShade_bounds _ _ _
  · intro x hx y hy x' hx' y' hy' h
    rw [hvalue x hx y hy, hvalue x' hx' y' hy']
    exact stampShade_antitone r h
  · intro x hx y hy
    have hzero : squareDist ⟨r, r⟩ x y = 0 ↔ x = r ∧ y = r := by
      rw [squareDist, Nat.add_eq_zero_iff, pow_eq_zero_iff two_ne_zero, pow_eq_zero_iff two_ne_zero]
      exact ⟨fun h => ⟨(Nat.eq_of_dist_eq_zero h.1).symm, (Nat.eq_of_dist_eq_zero h.2).symm⟩,
        fun h => ⟨Nat.dist_eq_zero h.1.symm, Nat.dist_eq_zero h.2.symm⟩⟩
    rw [hvalue x hx y hy, ← hzero]
    constructor
    · intro hone
      by_contra hne
      exact absurd hone (stampShade_lt_one (by omega) (Nat.pos_of_ne_zero hne)).ne
    · intro h
      rw [h]
      exact stampShade_centre r
  · intro x hx y hy
    rw [hvalue x hx y hy]
    constructor
    · intro hpos
      by_contra hout
      rw [stampShade_outside hr (not_lt.mp hout)] at hpos
      exact lt_irrefl _ hpos
    · exact stampShade_inside hr

/-- The stamp of the default radius. -/
theorem stamp_disc_five : Disc 5 fun x y => (heatmapStampGenLinear 5).buf.float (y * (2 * 5 + 1) + x) :=
  stamp_disc 5 (by decide)

/-- With the next radius the quotient is rounded up to 1 inside of the circle. -/
example : 4097 ^ 2 - 1 < (4096 + 1) ^ 2 ∧ stampShade linearDist 4096 (4097 ^ 2 - 1) = 0 := by decide +kernel

end NoncesHeatmap
