import Mathlib.Algebra.Order.Floor.Div
import Mathlib.Data.Int.Log
import Mathlib.Data.Nat.Prime.Basic
import Mathlib.Data.Rat.Floor
import Mathlib.GroupTheory.GroupAction.Ring
import Mathlib.Tactic.FieldSimp
import Mathlib.Tactic.Linarith
import Mathlib.Tactic.Positivity
import Mathlib.Tactic.Ring

/-! # Single precision over the rationals

The value of an IEEE operation in single precision is its exact value rounded to 24 significant bits,
ties to even. Overflow and subnormal numbers are left out: the values are 0 or of a magnitude between
`2^-126` and `2^128`.

* `round_le_iff`: rounding is at most an integer `b` exactly below the middle between the 24 leading
  bits of `b` and the next single.
* `ofNat_eq`: an integer is converted to the `nearest` multiple of its unit.
* `ceil_div_le_iff`: when the ceiling of a quotient of two integers is at most `b`, as an inequality of
  integers. A quotient of singles is never a middle between two singles (`div_ne_middle`).
* `CeilingExact`: the ceiling of a quotient is the one of the integers, as it is up to `2^24`. -/

namespace NoncesHeatmap.Single
set_option autoImplicit false

/-- The nearest integer, the even one of two. -/
def roundEven (q : ℚ) : ℤ :=
  if q - ⌊q⌋ < 1 / 2 then ⌊q⌋
  else if 1 / 2 < q - ⌊q⌋ then ⌊q⌋ + 1
  else if ⌊q⌋ % 2 = 0 then ⌊q⌋ else ⌊q⌋ + 1

/-- The unit in the last of 24 places. -/
def ulp (q : ℚ) : ℚ := 2 ^ (Int.log 2 |q| - 23)

def round (q : ℚ) : ℚ := if q = 0 then 0 else roundEven (q / ulp q) * ulp q

def ofNat (n : ℕ) : ℚ := round n

def div (a b : ℚ) : ℚ := round (a / b)

/-- The first integer that is not a single. -/
example : ofNat (2 ^ 24 + 1) = 2 ^ 24 := by decide +kernel

/-- A quotient that is rounded up to an integer. -/
example : div (ofNat (3 * 2 ^ 24 - 3)) (ofNat 3) = 2 ^ 24 - 1 ∧ div (ofNat 33554431) (ofNat 1) = 33554432 := by
  decide +kernel

/-! ## Rounding to an integer -/

variable {q : ℚ} {m : ℤ}

theorem roundEven_le (h : q < m + 1 / 2) : roundEven q ≤ m := by
  have hfloor := Int.floor_le q
  have hle : ⌊q⌋ ≤ m := by
    have hlt : (⌊q⌋ : ℚ) < ((m + 1 : ℤ) : ℚ) := by
      push_cast
      linarith
    have := Int.cast_lt.mp hlt
    omega
  by_cases hhalf : q - ⌊q⌋ < 1 / 2
  · rw [roundEven, if_pos hhalf]
    exact hle
  · have hlt : (⌊q⌋ : ℚ) < (m : ℚ) := by linarith
    have hstep : ⌊q⌋ + 1 ≤ m := Int.cast_lt.mp hlt
    rw [roundEven, if_neg hhalf]
    split
    · exact hstep
    · split
      · exact hle
      · exact hstep

theorem lt_roundEven (h : m + 1 / 2 < q) : m < roundEven q := by
  have hfloor : m ≤ ⌊q⌋ := Int.le_floor.mpr (by linarith)
  rcases hfloor.lt_or_eq with hlt | heq
  · have hle : ⌊q⌋ ≤ roundEven q := by
      unfold roundEven
      split
      · exact le_rfl
      · split
        · omega
        · split <;> omega
    omega
  · have hrest : 1 / 2 < q - ⌊q⌋ := by
      rw [← heq]
      linarith
    rw [roundEven, if_neg hrest.not_gt, if_pos hrest]
    omega

theorem roundEven_le_iff (hne : q ≠ m + 1 / 2) : roundEven q ≤ m ↔ q < m + 1 / 2 := by
  constructor
  · intro hle
    by_contra hge
    exact absurd (lt_roundEven (lt_of_le_of_ne (not_lt.mp hge) hne.symm)) (not_lt.mpr hle)
  · exact roundEven_le

theorem roundEven_intCast (n : ℤ) : roundEven n = n := by
  have hrest : (n : ℚ) - ⌊(n : ℚ)⌋ < 1 / 2 := by
    rw [Int.floor_intCast, sub_self]
    norm_num
  rw [roundEven, if_pos hrest, Int.floor_intCast]

/-! ## Rounding to 24 bits -/

theorem ulp_pos (q : ℚ) : 0 < ulp q := zpow_pos (by norm_num) _

theorem ulp_of_pos (hq : 0 < q) : ulp q = 2 ^ (Int.log 2 q - 23) := by rw [ulp, abs_of_pos hq]

theorem round_of_pos (hq : 0 < q) : round q = roundEven (q / ulp q) * ulp q := if_neg hq.ne'

/-- In units of its last place a number is between `2^23` and `2^24`. -/
theorem div_ulp_bounds (hq : 0 < q) : 2 ^ 23 ≤ q / ulp q ∧ q / ulp q < 2 ^ 24 := by
  have hlow := Int.zpow_log_le_self (b := 2) (by norm_num) hq
  have hhigh := Int.lt_zpow_succ_log_self (b := 2) (by norm_num) q
  have h23 : ((2 : ℕ) : ℚ) ^ Int.log 2 q = 2 ^ 23 * ulp q := by
    rw [ulp_of_pos hq, ← zpow_natCast (2 : ℚ) 23, ← zpow_add₀ (by norm_num : (2 : ℚ) ≠ 0)]
    norm_num
  have h24 : ((2 : ℕ) : ℚ) ^ (Int.log 2 q + 1) = 2 ^ 24 * ulp q := by
    rw [zpow_add_one₀ (by norm_num), h23]
    norm_num
    ring
  rw [h23] at hlow
  rw [h24] at hhigh
  exact ⟨(le_div_iff₀ (ulp_pos q)).mpr hlow, (div_lt_iff₀ (ulp_pos q)).mpr hhigh⟩

theorem round_bounds (hq : 0 < q) : 2 ^ 23 * ulp q ≤ round q ∧ round q ≤ 2 ^ 24 * ulp q := by
  obtain ⟨hlow, hhigh⟩ := div_ulp_bounds hq
  have hlow' : ((2 ^ 23 : ℤ) - 1 : ℤ) < roundEven (q / ulp q) := lt_roundEven (by push_cast; linarith)
  have hhigh' : roundEven (q / ulp q) ≤ 2 ^ 24 := roundEven_le (by push_cast; linarith)
  have hlow'' : ((2 ^ 23 : ℤ) : ℚ) ≤ roundEven (q / ulp q) := Int.cast_le.mpr (by omega)
  have hhigh'' : (roundEven (q / ulp q) : ℚ) ≤ ((2 ^ 24 : ℤ) : ℚ) := Int.cast_le.mpr hhigh'
  push_cast at hlow'' hhigh''
  rw [round_of_pos hq]
  exact ⟨mul_le_mul_of_nonneg_right hlow'' (ulp_pos q).le, mul_le_mul_of_nonneg_right hhigh'' (ulp_pos q).le⟩

theorem round_pos (hq : 0 < q) : 0 < round q :=
  lt_of_lt_of_le (mul_pos (by norm_num) (ulp_pos q)) (round_bounds hq).1

/-! ## Rounding and an integer bound -/

/-- The 24 leading bits of an integer. -/
def significand (b : ℕ) : ℕ := b * 2 ^ 23 / 2 ^ Nat.log 2 b

/-- The middle between the 24 leading bits of `b` and the next single. -/
def middle (b : ℕ) : ℚ := (significand b + 1 / 2) * (2 ^ Nat.log 2 b / 2 ^ 23)

variable {b : ℕ}

theorem significand_bounds (hb : 0 < b) : 2 ^ 23 ≤ significand b ∧ significand b < 2 ^ 24 := by
  have hpow : 0 < 2 ^ Nat.log 2 b := Nat.two_pow_pos _
  have hlow : 2 ^ Nat.log 2 b ≤ b := Nat.pow_log_le_self 2 hb.ne'
  have hhigh : b < 2 ^ Nat.log 2 b * 2 := by
    rw [← pow_succ]
    exact Nat.lt_pow_succ_log_self (by norm_num) b
  constructor
  · rw [significand, Nat.le_div_iff_mul_le hpow]
    omega
  · rw [significand, Nat.div_lt_iff_lt_mul hpow]
    omega

/-- `b` is between its leading bits and the next single. -/
theorem significand_spec (b : ℕ) :
    (significand b : ℚ) * (2 ^ Nat.log 2 b / 2 ^ 23) ≤ b ∧
      (b : ℚ) < (significand b + 1) * (2 ^ Nat.log 2 b / 2 ^ 23) := by
  have hpow : 0 < 2 ^ Nat.log 2 b := Nat.two_pow_pos _
  have hlow : significand b * 2 ^ Nat.log 2 b ≤ b * 2 ^ 23 := Nat.div_mul_le_self _ _
  have hhigh : b * 2 ^ 23 < (significand b + 1) * 2 ^ Nat.log 2 b := by
    rw [Nat.add_mul, Nat.one_mul, significand]
    exact Nat.lt_div_mul_add hpow
  have hlow' : (significand b : ℚ) * 2 ^ Nat.log 2 b ≤ b * 2 ^ 23 := by exact_mod_cast hlow
  have hhigh' : (b : ℚ) * 2 ^ 23 < (significand b + 1) * 2 ^ Nat.log 2 b := by exact_mod_cast hhigh
  rw [← mul_div_assoc, ← mul_div_assoc]
  exact ⟨(div_le_iff₀ (by norm_num)).mpr hlow', (lt_div_iff₀ (by norm_num)).mpr hhigh'⟩

theorem ulp_scale (q : ℚ) : 2 ^ 23 * ulp q = 2 ^ Int.log 2 |q| := by
  rw [ulp, zpow_sub₀ (by norm_num)]
  norm_num
  ring

/-- An integer number of units is at most `b` when it is at most the leading bits of `b`. -/
theorem mul_unit_le_iff (k : ℤ) : (k : ℚ) * (2 ^ Nat.log 2 b / 2 ^ 23) ≤ b ↔ k ≤ significand b := by
  obtain ⟨hlow, hhigh⟩ := significand_spec b
  have hpos : (0 : ℚ) < 2 ^ Nat.log 2 b / 2 ^ 23 := by positivity
  constructor
  · intro hle
    have hlt : (k : ℚ) < ((significand b + 1 : ℤ) : ℚ) := by
      push_cast
      exact lt_of_mul_lt_mul_right (lt_of_le_of_lt hle hhigh) hpos.le
    have := Int.cast_lt.mp hlt
    omega
  · intro hle
    have hle' : (k : ℚ) ≤ significand b := by exact_mod_cast hle
    exact (mul_le_mul_of_nonneg_right hle' hpos.le).trans hlow

/-- Rounding and an integer bound in the same binade. -/
theorem round_le_iff_of_log_eq (hq : 0 < q) (heq : Int.log 2 q = Nat.log 2 b) (hne : q ≠ middle b) :
    round q ≤ b ↔ q < middle b := by
  have hpos : (0 : ℚ) < 2 ^ Nat.log 2 b / 2 ^ 23 := by positivity
  have hulp : ulp q = 2 ^ Nat.log 2 b / 2 ^ 23 := by
    rw [ulp_of_pos hq, heq, zpow_sub₀ (by norm_num), zpow_natCast]
    norm_num
  have hne' : q / ulp q ≠ ((significand b : ℤ) : ℚ) + 1 / 2 := by
    intro h
    rw [hulp, div_eq_iff hpos.ne'] at h
    exact hne h
  rw [round_of_pos hq, hulp, mul_unit_le_iff, ← hulp, roundEven_le_iff hne', hulp, div_lt_iff₀ hpos]
  exact Iff.rfl

/-- Rounding and an integer bound, for a number that is not the middle above the bound. -/
theorem round_le_iff (hq : 0 < q) (hb : 0 < b) (hne : q ≠ middle b) : round q ≤ b ↔ q < middle b := by
  obtain ⟨hround, hround'⟩ := round_bounds hq
  obtain ⟨hscale, hscale'⟩ := div_ulp_bounds hq
  obtain ⟨hspec, hspec'⟩ := significand_spec b
  have hulp := ulp_pos q
  have hulp23 : 2 ^ 23 * ulp q = 2 ^ Int.log 2 q := by rw [ulp_scale, abs_of_pos hq]
  have hunit23 : 2 ^ 23 * ((2 : ℚ) ^ Nat.log 2 b / 2 ^ 23) = 2 ^ (Nat.log 2 b : ℤ) := by
    rw [zpow_natCast]
    field_simp
  have hbits : (2 ^ 23 : ℚ) ≤ significand b := by exact_mod_cast (significand_bounds hb).1
  have hbits' : (significand b : ℚ) + 1 ≤ 2 ^ 24 := by exact_mod_cast (significand_bounds hb).2
  have hpos : (0 : ℚ) < 2 ^ Nat.log 2 b / 2 ^ 23 := by positivity
  have hleast := mul_le_mul_of_nonneg_right hbits hpos.le
  have hmost := mul_le_mul_of_nonneg_right hbits' hpos.le
  rw [le_div_iff₀ hulp] at hscale
  rw [div_lt_iff₀ hulp] at hscale'
  rcases lt_trichotomy (Int.log 2 q) (Nat.log 2 b) with hlt | heq | hgt
  · have hstep : (2 : ℚ) ^ (Int.log 2 q + 1) ≤ 2 ^ (Nat.log 2 b : ℤ) :=
      zpow_le_zpow_right₀ (by norm_num) (by omega)
    rw [zpow_add_one₀ (by norm_num), ← hulp23, ← hunit23] at hstep
    refine iff_of_true (by linarith) ?_
    show q < (significand b + 1 / 2) * (2 ^ Nat.log 2 b / 2 ^ 23)
    linarith
  · exact round_le_iff_of_log_eq hq heq hne
  · have hstep : (2 : ℚ) ^ ((Nat.log 2 b : ℤ) + 1) ≤ 2 ^ Int.log 2 q :=
      zpow_le_zpow_right₀ (by norm_num) (by omega)
    rw [zpow_add_one₀ (by norm_num), ← hulp23, ← hunit23] at hstep
    refine iff_of_false (by linarith) ?_
    show ¬ q < (significand b + 1 / 2) * (2 ^ Nat.log 2 b / 2 ^ 23)
    linarith

/-! ## Conversion of an integer -/

/-- The unit of the last of 24 bits of an integer. -/
def unit (n : ℕ) : ℕ := 2 ^ (Nat.log 2 n - 23)

/-- The nearest integer of 24 significant bits, the even one of two. -/
def nearest (n : ℕ) : ℕ :=
  if 2 * (n % unit n) < unit n ∨ 2 * (n % unit n) = unit n ∧ n / unit n % 2 = 0 then n / unit n * unit n
  else (n / unit n + 1) * unit n

theorem roundEven_div (n : ℕ) {u : ℕ} (hu : 0 < u) :
    roundEven ((n : ℚ) / u) =
      ((if 2 * (n % u) < u ∨ 2 * (n % u) = u ∧ n / u % 2 = 0 then n / u else n / u + 1 : ℕ) : ℤ) := by
  have hfloor : ⌊(n : ℚ) / u⌋ = ((n / u : ℕ) : ℤ) := Rat.floor_intCast_div_natCast n u
  have hu' : (0 : ℚ) < u := by exact_mod_cast hu
  have hrest : (n : ℚ) / u - ((n / u : ℕ) : ℤ) = ((n % u : ℕ) : ℚ) / u := by
    have hsplit : (u : ℚ) * (n / u : ℕ) + (n % u : ℕ) = n := by exact_mod_cast Nat.div_add_mod n u
    rw [Int.cast_natCast, ← hsplit]
    field_simp
    ring
  have hless : ((n % u : ℕ) : ℚ) / u < 1 / 2 ↔ 2 * (n % u) < u := by
    rw [div_lt_div_iff₀ hu' (by norm_num), one_mul, mul_comm]
    exact_mod_cast Iff.rfl
  have hmore : (1 : ℚ) / 2 < ((n % u : ℕ) : ℚ) / u ↔ u < 2 * (n % u) := by
    rw [div_lt_div_iff₀ (by norm_num) hu', one_mul, mul_comm]
    exact_mod_cast Iff.rfl
  have heven : ((n / u : ℕ) : ℤ) % 2 = 0 ↔ n / u % 2 = 0 := by omega
  unfold roundEven
  rw [hfloor, hrest]
  simp only [hless, hmore, heven]
  split_ifs <;> push_cast <;> omega

theorem ofNat_eq (n : ℕ) : ofNat n = nearest n := by
  rcases Nat.eq_zero_or_pos n with rfl | hn
  · have hzero : nearest 0 = 0 := by decide +kernel
    rw [hzero, Nat.cast_zero, ofNat, Nat.cast_zero, round, if_pos rfl]
  · have hn' : (0 : ℚ) < n := by exact_mod_cast hn
    have hulp : ulp n = 2 ^ ((Nat.log 2 n : ℤ) - 23) := by rw [ulp_of_pos hn', Int.log_natCast]
    rw [ofNat, round_of_pos hn']
    rcases Nat.le_total 23 (Nat.log 2 n) with hle | hle
    · have hunit : ulp n = unit n := by
        rw [hulp, unit]
        push_cast
        rw [← zpow_natCast]
        congr 1
        omega
      have hpos : 0 < unit n := Nat.two_pow_pos _
      rw [hunit, roundEven_div n hpos, nearest]
      split_ifs <;> push_cast <;> rfl
    · -- the number is a whole number of units below 1
      have hunit : unit n = 1 := by
        rw [unit, Nat.sub_eq_zero_of_le hle, pow_zero]
      have hwhole : (n : ℚ) / ulp n = ((n * 2 ^ (23 - Nat.log 2 n) : ℕ) : ℤ) := by
        have hsub : (Nat.log 2 n : ℤ) - 23 = -((23 - Nat.log 2 n : ℕ) : ℤ) := by omega
        rw [hulp, hsub, zpow_neg, div_inv_eq_mul, zpow_natCast]
        push_cast
        rfl
      rw [hwhole, roundEven_intCast, ← hwhole, div_mul_cancel₀ _ (ulp_pos _).ne', nearest, hunit]
      simp [Nat.mod_one]

theorem nearest_of_le {n : ℕ} (h : n ≤ 2 ^ 24) : nearest n = n := by
  rcases h.lt_or_eq with hlt | rfl
  · have hlog : Nat.log 2 n < 24 := Nat.log_lt_of_lt_pow' (by norm_num) hlt
    have hunit : unit n = 1 := by
      rw [unit, Nat.sub_eq_zero_of_le (by omega), pow_zero]
    rw [nearest, hunit]
    simp [Nat.mod_one]
  · decide +kernel

/-- A converted integer has at most 24 bits before its zeros. -/
theorem nearest_bits {n : ℕ} (hn : 0 < n) :
    ∃ f i, nearest n = f * 2 ^ i ∧ 0 < f ∧ f ≤ 2 ^ 24 ∧ 2 ^ Nat.log 2 n ≤ f * 2 ^ i := by
  have hpos : 0 < unit n := Nat.two_pow_pos _
  have hlow : 2 ^ Nat.log 2 n ≤ n := Nat.pow_log_le_self 2 hn.ne'
  have hhigh : n < 2 ^ 24 * unit n := by
    refine lt_of_lt_of_le (Nat.lt_pow_succ_log_self (b := 2) (by norm_num) n) ?_
    rw [unit, ← pow_add]
    exact Nat.pow_le_pow_right (by norm_num) (by omega)
  have hquotient : n / unit n < 2 ^ 24 := Nat.div_lt_of_lt_mul (by rwa [Nat.mul_comm])
  have hdvd : unit n ∣ 2 ^ Nat.log 2 n := Nat.pow_dvd_pow 2 (Nat.sub_le _ _)
  have hle : 2 ^ Nat.log 2 n ≤ n / unit n * unit n := by
    obtain ⟨k, hk⟩ := hdvd
    rw [hk, Nat.mul_comm]
    refine Nat.mul_le_mul_right _ ?_
    rw [Nat.le_div_iff_mul_le hpos, Nat.mul_comm, ← hk]
    exact hlow
  have hquotient_pos : 0 < n / unit n :=
    Nat.pos_of_mul_pos_right (lt_of_lt_of_le (Nat.two_pow_pos _) hle)
  rw [nearest]
  split
  · exact ⟨n / unit n, _, rfl, hquotient_pos, hquotient.le, hle⟩
  · exact ⟨n / unit n + 1, _, rfl, Nat.succ_pos _, hquotient, hle.trans (Nat.mul_le_mul_right _ (Nat.le_succ _))⟩

theorem nearest_le_two_pow (n : ℕ) : nearest n ≤ 2 ^ (Nat.log 2 n + 1) := by
  rcases Nat.lt_or_ge n (2 ^ 24) with hlt | hge
  · rw [nearest_of_le hlt.le]
    exact (Nat.lt_pow_succ_log_self (by norm_num) n).le
  · have hlog : 24 ≤ Nat.log 2 n := Nat.le_log_of_pow_le (by norm_num) hge
    have hunit : 2 ^ (Nat.log 2 n + 1) = 2 ^ 24 * unit n := by
      rw [unit, ← pow_add]
      congr 1
      omega
    have hless : n / unit n + 1 ≤ 2 ^ 24 := by
      refine Nat.div_lt_of_lt_mul ?_
      rw [Nat.mul_comm, ← hunit]
      exact Nat.lt_pow_succ_log_self (by norm_num) n
    rw [hunit, nearest]
    split
    · exact Nat.mul_le_mul_right _ (by omega)
    · exact Nat.mul_le_mul_right _ hless

theorem nearest_pos {n : ℕ} (hn : 0 < n) : 0 < nearest n := by
  obtain ⟨f, i, hbits, hf, -, -⟩ := nearest_bits hn
  rw [hbits]
  exact Nat.mul_pos hf (Nat.two_pow_pos i)

theorem two_pow_le_nearest {n : ℕ} (h : 2 ^ 24 ≤ n) : 2 ^ 24 ≤ nearest n := by
  obtain ⟨f, i, hbits, -, -, hle⟩ := nearest_bits (lt_of_lt_of_le (by norm_num) h)
  have hlog : 24 ≤ Nat.log 2 n := Nat.le_log_of_pow_le (by norm_num) h
  rw [hbits]
  exact (Nat.pow_le_pow_right (by norm_num) hlog).trans hle

theorem two_le_nearest {n : ℕ} (h : 2 ≤ n) : 2 ≤ nearest n := by
  rcases Nat.le_total n (2 ^ 24) with hle | hge
  · rwa [nearest_of_le hle]
  · exact le_trans (by norm_num) (two_pow_le_nearest hge)

/-- The 32-bit integers that are converted to `2^32`. -/
theorem nearest_lt_iff {n : ℕ} (h : n < 2 ^ 32) : nearest n < 2 ^ 32 - 128 ↔ n < 2 ^ 32 - 128 := by
  rcases Nat.lt_or_ge n (2 ^ 31) with hlt | hge
  · have hlog : Nat.log 2 n < 31 := Nat.log_lt_of_lt_pow' (by norm_num) hlt
    have hnearest : nearest n ≤ 2 ^ 31 :=
      (nearest_le_two_pow n).trans (Nat.pow_le_pow_right (by norm_num) (by omega))
    omega
  · have hlog : Nat.log 2 n = 31 := Nat.log_eq_of_pow_le_of_lt_pow hge h
    have hunit : unit n = 256 := by
      rw [unit, hlog]
      rfl
    rw [nearest, hunit]
    split_ifs <;> omega

/-! ## The ceiling of a quotient -/

/-- The quotient of two converted integers is below the middle above `b`. -/
def QuotientAtMost (a d b : ℕ) : Prop :=
  0 < b ∧ nearest a * 2 ^ 24 < (2 * significand b + 1) * 2 ^ Nat.log 2 b * nearest d

instance (a d b : ℕ) : Decidable (QuotientAtMost a d b) := inferInstanceAs (Decidable (_ ∧ _))

variable {a d : ℕ}

theorem middle_eq (b : ℕ) : middle b = ((2 * significand b + 1) * 2 ^ Nat.log 2 b : ℕ) / 2 ^ 24 := by
  rw [middle]
  push_cast
  field_simp

/-- A quotient of singles has no 25th bit alone: the odd factor of the middle does not fit 24 bits. -/
theorem div_ne_middle (ha : 0 < a) (hd : 0 < d) (hb : 0 < b) : (nearest a : ℚ) / nearest d ≠ middle b := by
  intro h
  have hd' : (0 : ℚ) < nearest d := by exact_mod_cast nearest_pos hd
  obtain ⟨f, i, hbits, hf, hf24, -⟩ := nearest_bits ha
  rw [middle_eq, div_eq_div_iff hd'.ne' (by norm_num), hbits] at h
  have hmul : f * 2 ^ i * 2 ^ 24 = (2 * significand b + 1) * 2 ^ Nat.log 2 b * nearest d := by exact_mod_cast h
  have hcoprime : Nat.Coprime (2 * significand b + 1) (2 ^ i * 2 ^ 24) := by
    rw [← pow_add]
    exact Nat.Coprime.pow_right _ (odd_two_mul_add_one _).coprime_two_right
  have hdvd : 2 * significand b + 1 ∣ f * (2 ^ i * 2 ^ 24) :=
    ⟨2 ^ Nat.log 2 b * nearest d, by rw [← Nat.mul_assoc, hmul, Nat.mul_assoc]⟩
  have hle := Nat.le_of_dvd hf (hcoprime.dvd_of_dvd_mul_right hdvd)
  have := (significand_bounds hb).1
  omega

/-- **The ceiling of a quotient.** -/
theorem ceil_div_le_iff (ha : 0 < a) (hd : 0 < d) :
    ⌈div (ofNat a) (ofNat d)⌉ ≤ (b : ℤ) ↔ QuotientAtMost a d b := by
  have ha' : (0 : ℚ) < nearest a := by exact_mod_cast nearest_pos ha
  have hd' : (0 : ℚ) < nearest d := by exact_mod_cast nearest_pos hd
  have hq : (0 : ℚ) < nearest a / nearest d := div_pos ha' hd'
  rw [Int.ceil_le, div, ofNat_eq, ofNat_eq, Int.cast_natCast]
  rcases Nat.eq_zero_or_pos b with rfl | hb
  · refine iff_of_false ?_ fun h => absurd h.1 (lt_irrefl 0)
    rw [Nat.cast_zero, not_le]
    exact round_pos hq
  · rw [round_le_iff hq hb (div_ne_middle ha hd hb), middle_eq, div_lt_div_iff₀ hd' (by norm_num)]
    constructor
    · intro h
      exact ⟨hb, by exact_mod_cast h⟩
    · intro h
      exact_mod_cast h.2

theorem ceil_div_eq_iff (ha : 0 < a) (hd : 0 < d) (hb : 0 < b) :
    ⌈div (ofNat a) (ofNat d)⌉ = (b : ℤ) ↔ QuotientAtMost a d b ∧ ¬ QuotientAtMost a d (b - 1) := by
  rw [← ceil_div_le_iff ha hd, ← ceil_div_le_iff ha hd]
  omega

theorem significand_mul (hb : b ≤ 2 ^ 24) : significand b * 2 ^ Nat.log 2 b = b * 2 ^ 23 := by
  refine Nat.div_mul_cancel ?_
  rcases hb.lt_or_eq with hlt | rfl
  · have hlog : Nat.log 2 b < 24 := Nat.log_lt_of_lt_pow' (by norm_num) hlt
    exact Dvd.dvd.mul_left (Nat.pow_dvd_pow 2 (by omega)) b
  · rw [Nat.log_pow (by norm_num)]
    exact Dvd.intro _ rfl

/-- Up to 24 bits the bound is off by the last place of `b` only. -/
theorem quotientAtMost_iff (hb : 0 < b) (hb24 : b ≤ 2 ^ 24) :
    QuotientAtMost a d b ↔ nearest a * 2 ^ 24 < (b * 2 ^ 24 + 2 ^ Nat.log 2 b) * nearest d := by
  have hbits : (2 * significand b + 1) * 2 ^ Nat.log 2 b = b * 2 ^ 24 + 2 ^ Nat.log 2 b := by
    have := significand_mul hb24
    rw [Nat.add_mul, Nat.mul_assoc, this]
    ring
  rw [QuotientAtMost, hbits]
  exact and_iff_right hb

/-- The ceiling of the quotient is the one of the integers: no integer is crossed by the roundings. -/
def CeilingExact (a d : ℕ) : Prop := QuotientAtMost a d (a ⌈/⌉ d) ∧ ¬ QuotientAtMost a d (a ⌈/⌉ d - 1)

instance (a d : ℕ) : Decidable (CeilingExact a d) := inferInstanceAs (Decidable (_ ∧ _))

theorem ceilDiv_pos (ha : 0 < a) (hd : 0 < d) : 0 < a ⌈/⌉ d :=
  Nat.pos_of_mul_pos_left (lt_of_lt_of_le ha ((ceilDiv_le_iff_le_mul hd).mp le_rfl))

theorem ceil_div_eq_ceilDiv_iff (ha : 0 < a) (hd : 0 < d) :
    ⌈div (ofNat a) (ofNat d)⌉ = ((a ⌈/⌉ d : ℕ) : ℤ) ↔ CeilingExact a d :=
  ceil_div_eq_iff ha hd (ceilDiv_pos ha hd)

theorem ceil_div_pos (ha : 0 < a) (hd : 0 < d) : 0 < ⌈div (ofNat a) (ofNat d)⌉ := by
  by_contra hle
  exact absurd ((ceil_div_le_iff (b := 0) ha hd).mp (not_lt.mp hle)).1 (lt_irrefl 0)

/-- Up to `2^24` nothing is crossed. -/
theorem ceilingExact_of_le (ha : 0 < a) (hd : 0 < d) (ha24 : a ≤ 2 ^ 24) : CeilingExact a d := by
  have hceil : a ≤ d * (a ⌈/⌉ d) := (ceilDiv_le_iff_le_mul hd).mp le_rfl
  have hpos : 0 < a ⌈/⌉ d := ceilDiv_pos ha hd
  have hceil24 : a ⌈/⌉ d ≤ 2 ^ 24 := ((ceilDiv_le_iff_le_mul hd).mpr (Nat.le_mul_of_pos_left a hd)).trans ha24
  have hbelow : d * (a ⌈/⌉ d - 1) < a := by
    by_contra hge
    have := (ceilDiv_le_iff_le_mul hd).mpr (not_lt.mp hge)
    omega
  rw [CeilingExact, quotientAtMost_iff hpos hceil24, nearest_of_le ha24]
  rcases Nat.le_total d (2 ^ 24) with hd24 | hd24
  · rw [nearest_of_le hd24]
    constructor
    · have hlast : 0 < 2 ^ Nat.log 2 (a ⌈/⌉ d) * d := Nat.mul_pos (Nat.two_pow_pos _) hd
      nlinarith
    · intro hless
      have hpos' := hless.1
      rw [quotientAtMost_iff hpos' ((Nat.sub_le _ _).trans hceil24), nearest_of_le ha24, nearest_of_le hd24] at hless
      have hlast : 2 ^ Nat.log 2 (a ⌈/⌉ d - 1) * d ≤ 2 ^ 24 := by
        have := Nat.mul_le_mul_right d (Nat.pow_log_le_self 2 hpos'.ne')
        rw [Nat.mul_comm d] at hbelow
        omega
      nlinarith
  · have hone : a ⌈/⌉ d = 1 := by
      have := (ceilDiv_le_iff_le_mul (b := a) (c := 1) hd).mpr (by omega)
      omega
    rw [hone]
    have hnearest := two_pow_le_nearest hd24
    exact ⟨by norm_num; omega, fun h => absurd h.1 (by norm_num)⟩

end NoncesHeatmap.Single
