import Mathlib.Algebra.Order.Round
import Mathlib.Data.Nat.Sqrt
import Mathlib.Order.Lattice
import NoncesHeatmap.Library.Single

/-! # Arithmetic on singles

Rounding is monotone and leaves what is already rounded alone, so the numbers that it leaves are a type
with a linear order and with the operations of the machine. Adding what is not negative never lowers a
number, not even when it is absorbed.

A square root is rounded from the integer square root at a scale at which every single and every middle
between two singles is an integer: what lies between two integers is replaced by their middle. -/

namespace NoncesHeatmap.Single
set_option autoImplicit false

/-! ## Rounding is monotone -/

variable {p q : ℚ}

theorem roundEven_mono (h : p ≤ q) : roundEven p ≤ roundEven q := by
  by_contra hgt
  have hmiddle : q ≤ roundEven q + 1 / 2 := by
    by_contra hlt
    exact lt_irrefl _ (lt_roundEven (not_le.mp hlt))
  have hmiddle' : ¬ p < roundEven q + 1 / 2 := fun hlt => hgt (roundEven_le hlt)
  have heq : p = q := le_antisymm h (hmiddle.trans (not_lt.mp hmiddle'))
  rw [heq] at hgt
  exact hgt le_rfl

theorem roundEven_neg (q : ℚ) : roundEven (-q) = -roundEven q := by
  by_cases hint : (⌊q⌋ : ℚ) = q
  · rw [← hint, ← Int.cast_neg, roundEven_intCast, roundEven_intCast]
  · have hlow := lt_of_le_of_ne (Int.floor_le q) hint
    have hhigh := Int.lt_floor_add_one q
    have hfloor : ⌊-q⌋ = -⌊q⌋ - 1 := by
      rw [Int.floor_eq_iff]
      push_cast
      constructor <;> linarith
    have hparity : (-⌊q⌋ - 1) % 2 = 0 ↔ ¬ ⌊q⌋ % 2 = 0 := by omega
    have hless : -q - ((-⌊q⌋ - 1 : ℤ) : ℚ) < 1 / 2 ↔ 1 / 2 < q - ⌊q⌋ := by
      push_cast
      constructor <;> intro h <;> linarith
    have hmore : 1 / 2 < -q - ((-⌊q⌋ - 1 : ℤ) : ℚ) ↔ q - ⌊q⌋ < 1 / 2 := by
      push_cast
      constructor <;> intro h <;> linarith
    unfold roundEven
    simp only [hfloor, hless, hmore, hparity]
    split_ifs <;> first | omega | (exfalso; linarith)

theorem ulp_neg (q : ℚ) : ulp (-q) = ulp q := by rw [ulp, ulp, abs_neg]

theorem round_neg (q : ℚ) : round (-q) = -round q := by
  rw [round, round]
  by_cases hq : q = 0
  · rw [if_pos hq, if_pos (neg_eq_zero.mpr hq), neg_zero]
  · rw [if_neg hq, if_neg (mt neg_eq_zero.mp hq), ulp_neg, neg_div, roundEven_neg]
    push_cast
    ring

theorem round_zero : round 0 = 0 := if_pos rfl

/-- Two positive numbers of one binade, or of two. -/
theorem round_mono_of_pos (hp : 0 < p) (h : p ≤ q) : round p ≤ round q := by
  have hq := hp.trans_le h
  rcases (Int.log_mono_right (b := 2) hp h).lt_or_eq with hlt | heq
  · have hstep : 2 ^ 24 * ulp p ≤ 2 ^ 23 * ulp q := by
      have hpow : (2 : ℚ) ^ (Int.log 2 p - 23 + 1) ≤ 2 ^ (Int.log 2 q - 23) :=
        zpow_le_zpow_right₀ (by norm_num) (by omega)
      rw [zpow_add_one₀ (by norm_num), ← ulp_of_pos hp, ← ulp_of_pos hq] at hpow
      linarith
    exact (round_bounds hp).2.trans (hstep.trans (round_bounds hq).1)
  · have hulp : ulp p = ulp q := by rw [ulp_of_pos hp, ulp_of_pos hq, heq]
    have hpos := ulp_pos q
    have hle : roundEven (p / ulp q) ≤ roundEven (q / ulp q) := roundEven_mono ((div_le_div_iff_of_pos_right hpos).mpr h)
    rw [round_of_pos hp, round_of_pos hq, hulp]
    exact mul_le_mul_of_nonneg_right (Int.cast_le.mpr hle) hpos.le

theorem round_mono (h : p ≤ q) : round p ≤ round q := by
  rcases lt_trichotomy p 0 with hp | rfl | hp
  · rcases lt_or_ge q 0 with hq | hq
    · have hneg := round_mono_of_pos (neg_pos.mpr hq) (neg_le_neg h)
      rw [round_neg, round_neg] at hneg
      exact neg_le_neg_iff.mp hneg
    · have hneg := round_pos (neg_pos.mpr hp)
      rw [round_neg] at hneg
      have hq' : 0 ≤ round q := by
        rcases hq.lt_or_eq with hq | rfl
        · exact (round_pos hq).le
        · exact round_zero.ge
      linarith
  · rw [round_zero]
    rcases h.lt_or_eq with hq | rfl
    · exact (round_pos hq).le
    · exact round_zero.ge
  · exact round_mono_of_pos hp h

/-! ## What is already rounded -/

theorem round_of_units {m : ℤ} (h : q = m * ulp q) : round q = q := by
  rw [round]
  split
  · next hzero => exact hzero.symm
  · have hunits : q / ulp q = m := (div_eq_iff (ulp_pos q).ne').mpr h
    rw [hunits, roundEven_intCast, ← h]

/-- A number of less than 24 bits at any scale is a number of its own units. -/
theorem round_of_bits_lt (k e : ℤ) (hk : |k| < 2 ^ 24) : round (k * 2 ^ e) = k * 2 ^ e := by
  rcases eq_or_ne k 0 with rfl | hk0
  · rw [Int.cast_zero, zero_mul, round_zero]
  have hpow : (0 : ℚ) < 2 ^ e := zpow_pos (by norm_num) _
  have hsize : |(k * 2 ^ e : ℚ)| < 2 ^ (e + 24) := by
    have hk' : |(k : ℚ)| < 2 ^ 24 := by exact_mod_cast hk
    rw [abs_mul, abs_of_pos hpow, zpow_add₀ (by norm_num), mul_comm]
    exact mul_lt_mul_of_pos_left (by exact_mod_cast hk') hpow
  have hlog : Int.log 2 |(k * 2 ^ e : ℚ)| < e + 24 :=
    (Int.lt_zpow_iff_log_lt (by norm_num) (abs_pos.mpr (mul_ne_zero (Int.cast_ne_zero.mpr hk0) hpow.ne'))).mp
      (by exact_mod_cast hsize)
  obtain ⟨n, hn⟩ : ∃ n : ℕ, e = (n : ℤ) + (Int.log 2 |(k * 2 ^ e : ℚ)| - 23) :=
    ⟨(e + 23 - Int.log 2 |(k * 2 ^ e : ℚ)|).toNat, by omega⟩
  refine round_of_units (m := k * 2 ^ n) ?_
  have hscale : (2 : ℚ) ^ e = 2 ^ n * ulp (k * 2 ^ e) := by
    rw [ulp, ← zpow_natCast, ← zpow_add₀ (by norm_num), ← hn]
  push_cast
  rw [mul_assoc, ← hscale]

theorem round_of_bits (k e : ℤ) (hk : |k| ≤ 2 ^ 24) : round (k * 2 ^ e) = k * 2 ^ e := by
  rcases hk.lt_or_eq with hlt | heq
  · exact round_of_bits_lt k e hlt
  · obtain ⟨j, hj, rfl⟩ : ∃ j : ℤ, |j| < 2 ^ 24 ∧ k = j * 2 ^ 23 * 2 := by
      rcases abs_eq_abs.mp (heq.trans (by norm_num : (2 ^ 24 : ℤ) = |2 ^ 24|)) with rfl | rfl
      · exact ⟨1, by norm_num, by norm_num⟩
      · exact ⟨-1, by norm_num, by norm_num⟩
    have hshift : ((j * 2 ^ 23 * 2 : ℤ) : ℚ) * 2 ^ e = j * 2 ^ (e + 24) := by
      rw [zpow_add₀ (by norm_num)]
      push_cast
      ring
    rw [hshift]
    exact round_of_bits_lt j _ hj

/-- Below the middle between two singles of a binade rounding goes to the lower one. -/
theorem round_le_of_lt_middle {k : ℤ} (e : ℤ) (hlow : 2 ^ 23 ≤ k) (hhigh : k < 2 ^ 24) (h : q < (k + 1 / 2) * 2 ^ e) :
    round q ≤ k * 2 ^ e := by
  have hpow : (0 : ℚ) < 2 ^ e := zpow_pos (by norm_num) _
  have hk : (2 : ℚ) ^ 23 ≤ k := by exact_mod_cast hlow
  have hk' : (k : ℚ) + 1 ≤ 2 ^ 24 := by exact_mod_cast hhigh
  rcases le_or_gt q (k * 2 ^ e) with hle | hlt
  · have hbits := round_of_bits k e (by rw [abs_of_pos (by omega)]; exact hhigh.le)
    exact (round_mono hle).trans hbits.le
  · have hq : 0 < q := (mul_pos (by linarith) hpow).trans hlt
    have hlog : Int.log 2 q = e + 23 := by
      refine le_antisymm ?_ ?_
      · have hnext : q < ((2 : ℕ) : ℚ) ^ (e + 24) := by
          rw [zpow_add₀ (by norm_num), Nat.cast_ofNat, mul_comm]
          exact h.trans_le (mul_le_mul_of_nonneg_right (by norm_num at hk' ⊢; linarith) hpow.le)
        have := (Int.lt_zpow_iff_log_lt (by norm_num) hq).mp hnext
        omega
      · refine (Int.zpow_le_iff_le_log (by norm_num) hq).mp ?_
        rw [zpow_add₀ (by norm_num), Nat.cast_ofNat, mul_comm]
        exact (mul_le_mul_of_nonneg_right (by exact_mod_cast hk) hpow.le).trans hlt.le
    have hulp : ulp q = 2 ^ e := by rw [ulp_of_pos hq, hlog, add_sub_cancel_right]
    rw [round_of_pos hq, hulp]
    exact mul_le_mul_of_nonneg_right (Int.cast_le.mpr (roundEven_le ((div_lt_iff₀ hpow).mpr h))) hpow.le

theorem round_intCast (k : ℤ) (hk : |k| ≤ 2 ^ 24) : round k = k := by
  simpa using round_of_bits k 0 hk

/-- Rounding leaves at most 24 bits. -/
theorem round_round (q : ℚ) : round (round q) = round q := by
  rcases eq_or_ne q 0 with rfl | hq
  · rw [round_zero, round_zero]
  have hbits : |q / ulp q| < 2 ^ 24 := by
    have hlast := (div_ulp_bounds (abs_pos.mpr hq)).2
    rwa [ulp, abs_abs, ← ulp, ← abs_of_pos (ulp_pos q), ← abs_div] at hlast
  rw [abs_lt] at hbits
  have hhigh : roundEven (q / ulp q) ≤ 2 ^ 24 := roundEven_le (by push_cast; linarith)
  have hlow : -2 ^ 24 - 1 < roundEven (q / ulp q) := lt_roundEven (by push_cast; linarith)
  have hround : round q = roundEven (q / ulp q) * 2 ^ (Int.log 2 |q| - 23) := if_neg hq
  rw [hround]
  exact round_of_bits _ _ (abs_le.mpr ⟨by omega, hhigh⟩)

/-! ## The numbers -/

structure Number where
  val : ℚ
  single : round val = val
deriving DecidableEq

namespace Number

theorem ext_val {a b : Number} (h : a.val = b.val) : a = b := by
  obtain ⟨p, hp⟩ := a
  obtain ⟨q, hq⟩ := b
  obtain rfl : p = q := h
  rfl

instance : LinearOrder Number := LinearOrder.lift' val fun _ _ => ext_val

protected def round (q : ℚ) : Number := ⟨Single.round q, round_round q⟩

instance : Zero Number := ⟨⟨0, round_zero⟩⟩
instance : One Number := ⟨⟨1, by decide +kernel⟩⟩
instance : Add Number := ⟨fun a b => .round (a.val + b.val)⟩
instance : Sub Number := ⟨fun a b => .round (a.val - b.val)⟩
instance : Mul Number := ⟨fun a b => .round (a.val * b.val)⟩
instance : Div Number := ⟨fun a b => .round (a.val / b.val)⟩
instance : NatCast Number := ⟨fun n => .round n⟩

variable {a b c : Number}

theorem le_def : a ≤ b ↔ a.val ≤ b.val := Iff.rfl
theorem lt_def : a < b ↔ a.val < b.val := Iff.rfl
@[simp] theorem val_zero : (0 : Number).val = 0 := rfl
@[simp] theorem val_one : (1 : Number).val = 1 := rfl
theorem val_add : (a + b).val = round (a.val + b.val) := rfl
theorem val_mul : (a * b).val = round (a.val * b.val) := rfl
theorem val_div : (a / b).val = round (a.val / b.val) := rfl

theorem val_natCast_of_le {n : ℕ} (h : n ≤ 2 ^ 24) : (n : Number).val = n := by
  exact_mod_cast round_intCast n (by rw [Nat.abs_cast]; exact_mod_cast h)

theorem natCast_mono {m n : ℕ} (h : m ≤ n) : (m : Number) ≤ n := round_mono (Nat.cast_le.mpr h)

/-- A bound that is a single bounds what is rounded. -/
theorem round_le {q : ℚ} (h : q ≤ b.val) : Number.round q ≤ b := (round_mono h).trans b.single.le

theorem le_round {q : ℚ} (h : a.val ≤ q) : a ≤ Number.round q := a.single.ge.trans (round_mono h)

theorem add_monotone (h : a ≤ b) (c : Number) : a + c ≤ b + c := round_mono (add_le_add_left (le_def.mp h) c.val)

theorem le_add (h : 0 ≤ b) : a ≤ a + b := le_round (le_add_of_nonneg_right h)

theorem sum_nonneg (ha : 0 ≤ a) (hb : 0 ≤ b) : 0 ≤ a + b := ha.trans (le_add hb)

theorem zero_add_zero : (0 : Number) + 0 = 0 := by decide +kernel

theorem sum_pos_iff (ha : 0 ≤ a) (hb : 0 ≤ b) : 0 < a + b ↔ 0 < a ∨ 0 < b := by
  constructor
  · intro h
    by_contra hcon
    push Not at hcon
    rw [le_antisymm hcon.1 ha, le_antisymm hcon.2 hb, zero_add_zero] at h
    exact lt_irrefl _ h
  · rintro (hpos | hpos)
    · exact hpos.trans_le (le_add hb)
    · exact hpos.trans_le (le_round (le_add_of_nonneg_left ha))

theorem foldl_pos_iff {values : List Number} (hvalues : ∀ v ∈ values, 0 ≤ v) (ha : 0 ≤ a) :
    0 < values.foldl (· + ·) a ↔ 0 < a ∨ ∃ v ∈ values, 0 < v := by
  induction values generalizing a with
  | nil => exact ⟨Or.inl, fun h => h.resolve_right fun ⟨v, hv, _⟩ => List.not_mem_nil hv⟩
  | cons v values ih =>
    have hv := hvalues v List.mem_cons_self
    rw [List.foldl_cons, ih (fun other hother => hvalues other (List.mem_cons_of_mem _ hother)) (sum_nonneg ha hv),
      sum_pos_iff ha hv, or_assoc, List.exists_mem_cons_iff]

theorem sub_antitone (c : Number) (h : a ≤ b) : c - b ≤ c - a := round_mono (sub_le_sub_left (le_def.mp h) c.val)

theorem div_monotone (h : a ≤ b) (hc : 0 ≤ c) : a / c ≤ b / c := round_mono (div_le_div_of_nonneg_right h hc)

theorem mul_monotone (h : a ≤ b) (hc : 0 ≤ c) : c * a ≤ c * b := round_mono (mul_le_mul_of_nonneg_left h hc)

theorem div_same (ha : 0 < a) : a / a = 1 := by
  have hval : a.val / a.val = 1 := div_self (ne_of_gt (lt_def.mp ha))
  refine ext_val ?_
  rw [val_div, hval]
  exact (1 : Number).single

theorem div_of_zero (a : Number) : 0 / a = 0 := by
  refine ext_val ?_
  rw [val_div, val_zero, zero_div, round_zero]

/-- What is added one by one stops at the first number that absorbs it. -/
theorem add_le_two_pow (ha : a.val ≤ 2 ^ 24) (hb : b.val ≤ 1) : (a + b).val ≤ 2 ^ 24 := by
  have habsorbed : round (2 ^ 24 + 1) = 2 ^ 24 := by decide +kernel
  exact (round_mono (add_le_add ha hb)).trans habsorbed.le

end Number

/-! ## The square root -/

/-- The square root if it is an integer of the scale, and else the middle between the two integers
around it. -/
def squareRoot (q : ℚ) : ℚ :=
  let t := Nat.sqrt ⌊q * 4 ^ 100⌋₊
  if (t : ℚ) ^ 2 = q * 4 ^ 100 then t / 2 ^ 100 else (t + 1 / 2) / 2 ^ 100

theorem sqrt_floor_bounds {x : ℚ} (hx : 0 ≤ x) : (Nat.sqrt ⌊x⌋₊ : ℚ) ^ 2 ≤ x ∧ x < ((Nat.sqrt ⌊x⌋₊ + 1 : ℕ) : ℚ) ^ 2 := by
  have hlow : ((Nat.sqrt ⌊x⌋₊ ^ 2 : ℕ) : ℚ) ≤ ⌊x⌋₊ := Nat.cast_le.mpr (Nat.sqrt_le' _)
  have hhigh : ((⌊x⌋₊ + 1 : ℕ) : ℚ) ≤ ((Nat.sqrt ⌊x⌋₊ + 1) ^ 2 : ℕ) := Nat.cast_le.mpr (Nat.succ_le_succ_sqrt' _)
  have hfloor := Nat.floor_le hx
  have hfloor' := Nat.lt_floor_add_one x
  push_cast at hlow hhigh ⊢
  exact ⟨hlow.trans hfloor, hfloor'.trans_le hhigh⟩

/-- What is rounded compares with every integer of the scale as the square root does. -/
theorem squareRoot_compare (hq : 0 ≤ q) (k : ℕ) :
    ((k : ℚ) / 2 ^ 100 < squareRoot q ↔ ((k : ℚ) / 2 ^ 100) ^ 2 < q) ∧
      (squareRoot q < (k : ℚ) / 2 ^ 100 ↔ q < ((k : ℚ) / 2 ^ 100) ^ 2) := by
  have hscale : (0 : ℚ) < 2 ^ 100 := by norm_num
  have hsquare : ((k : ℚ) / 2 ^ 100) ^ 2 = (k : ℚ) ^ 2 / 4 ^ 100 := by
    rw [div_pow, ← pow_mul, mul_comm, pow_mul]
    norm_num
  obtain ⟨hlow, hhigh⟩ := sqrt_floor_bounds (mul_nonneg hq (by norm_num : (0 : ℚ) ≤ 4 ^ 100))
  have hfour : (0 : ℚ) < 4 ^ 100 := by norm_num
  rw [hsquare, div_lt_iff₀ hfour, lt_div_iff₀ hfour, squareRoot]
  generalize q * 4 ^ 100 = x at hlow hhigh ⊢
  generalize Nat.sqrt ⌊x⌋₊ = t at hlow hhigh ⊢
  split
  · next heq =>
    rw [← heq, div_lt_div_iff_of_pos_right hscale, div_lt_div_iff_of_pos_right hscale,
      pow_lt_pow_iff_left₀ (Nat.cast_nonneg k) (Nat.cast_nonneg t) two_ne_zero,
      pow_lt_pow_iff_left₀ (Nat.cast_nonneg t) (Nat.cast_nonneg k) two_ne_zero]
    exact ⟨Iff.rfl, Iff.rfl⟩
  · next hne =>
    have hstrict := lt_of_le_of_ne hlow hne
    rw [div_lt_div_iff_of_pos_right hscale, div_lt_div_iff_of_pos_right hscale]
    rcases Nat.lt_or_ge t k with hlt | hge
    · have hcast : (t : ℚ) + 1 ≤ k := by exact_mod_cast hlt
      have habove : x < (k : ℚ) ^ 2 := by
        refine hhigh.trans_le ?_
        push_cast
        exact pow_le_pow_left₀ (by positivity) hcast 2
      exact ⟨iff_of_false (by linarith) habove.not_gt, iff_of_true (by linarith) habove⟩
    · have hcast : (k : ℚ) ≤ t := by exact_mod_cast hge
      have hbelow : (k : ℚ) ^ 2 < x := (pow_le_pow_left₀ (Nat.cast_nonneg k) hcast 2).trans_lt hstrict
      exact ⟨iff_of_true (by linarith) hbelow, iff_of_false (by linarith) hbelow.not_gt⟩

theorem squareRoot_mono (hp : 0 ≤ p) (h : p ≤ q) : squareRoot p ≤ squareRoot q := by
  have hscale : (0 : ℚ) < 2 ^ 100 := by norm_num
  have hle : p * 4 ^ 100 ≤ q * 4 ^ 100 := mul_le_mul_of_nonneg_right h (by norm_num)
  have hlow := (sqrt_floor_bounds (mul_nonneg hp (by norm_num : (0 : ℚ) ≤ 4 ^ 100))).1
  rw [squareRoot, squareRoot]
  generalize p * 4 ^ 100 = x at hle hlow ⊢
  generalize q * 4 ^ 100 = y at hle ⊢
  rcases (Nat.sqrt_le_sqrt (Nat.floor_mono hle)).lt_or_eq with hlt | heq
  · -- the integer below the greater root is above the middle
    have hcast : (Nat.sqrt ⌊x⌋₊ : ℚ) + 1 ≤ Nat.sqrt ⌊y⌋₊ := by exact_mod_cast hlt
    split <;> split <;> exact (div_le_div_iff_of_pos_right hscale).mpr (by linarith)
  · rw [← heq]
    generalize Nat.sqrt ⌊x⌋₊ = t at hlow ⊢
    by_cases hx : (t : ℚ) ^ 2 = x
    · rw [if_pos hx]
      split
      · exact le_rfl
      · exact (div_le_div_iff_of_pos_right hscale).mpr (by linarith)
    · have hy : (t : ℚ) ^ 2 ≠ y := fun h => hx (le_antisymm hlow (h ▸ hle))
      rw [if_neg hx, if_neg hy]

def sqrtf (a : Number) : Number := .round (squareRoot a.val)

variable {a b : Number}

theorem sqrtf_mono (ha : 0 ≤ a) (h : a ≤ b) : sqrtf a ≤ sqrtf b := round_mono (squareRoot_mono ha h)

theorem sqrtf_le (ha : 0 ≤ a) {k : ℕ} (hb : b.val = k / 2 ^ 100) (h : a.val ≤ b.val ^ 2) : sqrtf a ≤ b := by
  refine Number.round_le (not_lt.mp fun hlt => ?_)
  rw [hb] at h hlt
  exact absurd (((squareRoot_compare ha k).1).mp hlt) (not_lt.mpr h)

theorem le_sqrtf (ha : 0 ≤ a) {k : ℕ} (hb : b.val = k / 2 ^ 100) (h : b.val ^ 2 ≤ a.val) : b ≤ sqrtf a := by
  refine Number.le_round (not_lt.mp fun hlt => ?_)
  rw [hb] at h hlt
  exact absurd (((squareRoot_compare ha k).2).mp hlt) (not_lt.mpr h)

theorem sqrtf_natCast_sq {n : ℕ} (h : n ≤ 2 ^ 12) : sqrtf ((n ^ 2 : ℕ) : Number) = n := by
  have hsquare : n ^ 2 ≤ 2 ^ 24 := by
    have hpow := Nat.pow_le_pow_left h 2
    omega
  have hroot : (n : Number).val = ((n * 2 ^ 100 : ℕ) : ℚ) / 2 ^ 100 := by
    rw [Number.val_natCast_of_le (by omega)]
    rw [Nat.cast_mul, Nat.cast_pow, Nat.cast_ofNat, mul_div_cancel_right₀ _ (pow_ne_zero 100 two_ne_zero)]
  have hval : ((n ^ 2 : ℕ) : Number).val = (n : Number).val ^ 2 := by
    rw [Number.val_natCast_of_le hsquare, Number.val_natCast_of_le (by omega)]
    push_cast
    rfl
  have hpos : (0 : Number) ≤ ((n ^ 2 : ℕ) : Number) := by
    rw [Number.le_def, hval]
    exact sq_nonneg _
  exact le_antisymm (sqrtf_le hpos hroot hval.le) (le_sqrtf hpos hroot hval.ge)

end NoncesHeatmap.Single
