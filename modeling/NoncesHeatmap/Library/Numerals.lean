import Mathlib.Data.List.TakeWhile
import Mathlib.Tactic.NormNum
import Mathlib.Tactic.Ring

/-! # Decimal numerals

`value n ds` reads the digits `ds` after digits that stand for `n`. `shown n w` writes the last `w` digits
of `n` and leaves out those before the first one that is not 0, but for the last. -/

namespace NoncesHeatmap.Numerals
set_option autoImplicit false

def isDigit (c : UInt8) : Bool := 48 ≤ c && c ≤ 57

def digit (c : UInt8) : ℕ := c.toNat - 48

def char (d : ℕ) : UInt8 := UInt8.ofNat (48 + d)

def value (n : ℕ) (ds : List UInt8) : ℕ := ds.foldl (fun n c => n * 10 + digit c) n

/-- Digits without leading zeros. -/
structure Numeral (ds : List UInt8) : Prop where
  ne_nil : ds ≠ []
  digits : ∀ c ∈ ds, isDigit c
  plain : ds.head? = some 48 → ds = [48]

/-- The digit of `n` at the `k`-th place from the right. -/
def digitAt (n k : ℕ) : ℕ := n / 10 ^ k % 10

def fixed (n : ℕ) : ℕ → List UInt8
  | 0 => []
  | k + 1 => char (digitAt n k) :: fixed n k

def shown (n : ℕ) : ℕ → List UInt8
  | 0 => []
  | k + 1 => if 10 ^ k ≤ n ∨ k = 0 then char (digitAt n k) :: shown n k else shown n k

variable {n m k w : ℕ} {c : UInt8} {ds es : List UInt8}

/-- What holds of the 256 bytes. -/
theorem forall_byte {P : UInt8 → Prop} (h : ∀ n : Fin 256, P (UInt8.ofNat n)) (c : UInt8) : P c := by
  have hc := h ⟨c.toNat, c.toNat_lt⟩
  rwa [UInt8.ofNat_toNat] at hc

@[simp] theorem value_nil : value n [] = n := rfl

@[simp] theorem value_cons : value n (c :: ds) = value (n * 10 + digit c) ds := by
  rw [value, value, List.foldl_cons]

theorem value_append : value n (ds ++ es) = value (value n ds) es := by
  rw [value, value, value, List.foldl_append]

theorem le_value : n ≤ value n ds := by
  induction ds generalizing n with
  | nil => exact le_rfl
  | cons c ds ih =>
    rw [value_cons]
    exact le_trans (by omega) ih

theorem isDigit_iff : isDigit c = true ↔ 48 ≤ c.toNat ∧ c.toNat ≤ 57 := by
  rw [isDigit, Bool.and_eq_true, decide_eq_true_eq, decide_eq_true_eq, UInt8.le_iff_toNat_le, UInt8.le_iff_toNat_le]
  exact Iff.rfl

theorem digit_lt (h : isDigit c) : digit c < 10 := by
  rw [isDigit_iff] at h
  rw [digit]
  omega

theorem toNat_char (h : k < 10) : (char k).toNat = 48 + k := by
  have hmod : (48 + k) % 256 = 48 + k := Nat.mod_eq_of_lt (by omega)
  exact hmod

theorem digit_char (h : k < 10) : digit (char k) = k := by
  rw [digit, toNat_char h]
  omega

theorem isDigit_char (h : k < 10) : isDigit (char k) := by
  rw [isDigit_iff, toNat_char h]
  omega

/-- Negation of a machine word, as `~n + 1`. -/
theorem not_add_one (bits : ℕ) (n : ℤ) : ~~~BitVec.ofInt bits n + 1 = BitVec.ofInt bits (-n) := by
  rw [BitVec.ofInt_neg]
  exact (BitVec.neg_eq_not_add _).symm

theorem digitAt_lt : digitAt n k < 10 := Nat.mod_lt _ (by decide)

/-! ## What is shown of a number -/

theorem fixed_digits : ∀ c ∈ fixed n w, isDigit c := by
  induction w with
  | zero => exact fun c hc => absurd hc List.not_mem_nil
  | succ k ih => exact List.forall_mem_cons.mpr ⟨isDigit_char digitAt_lt, ih⟩

theorem value_fixed : value m (fixed n w) = m * 10 ^ w + n % 10 ^ w := by
  induction w generalizing m with
  | zero => simp [fixed, Nat.mod_one]
  | succ k ih =>
    rw [fixed, value_cons, digit_char digitAt_lt, ih, digitAt, Nat.mod_pow_succ, Nat.pow_succ]
    ring

/-- Once a digit is shown, all that follow are. -/
theorem shown_eq_fixed (h : 10 ^ w ≤ n) : shown n w = fixed n w := by
  induction w with
  | zero => rfl
  | succ k ih =>
    have hk : 10 ^ k ≤ n := le_trans (Nat.pow_le_pow_right (by decide) k.le_succ) h
    rw [shown, if_pos (Or.inl hk), ih hk, fixed]

theorem shown_of_lt (h : n < 10 ^ k) (hk : 0 < k) (hw : k ≤ w) : shown n w = shown n k := by
  induction w, hw using Nat.le_induction with
  | base => rfl
  | succ w hw ih =>
    have hpow : n < 10 ^ w := lt_of_lt_of_le h (Nat.pow_le_pow_right (by decide) hw)
    rw [shown, if_neg (by omega), ih]

theorem fixed_mod : fixed (n % 10 ^ w) w = fixed n w := by
  have hle : ∀ k, k ≤ w → fixed (n % 10 ^ w) k = fixed n k := by
    intro k hk
    induction k with
    | zero => rfl
    | succ k ih =>
      rw [fixed, fixed, ih (by omega), digitAt, digitAt]
      congr 2
      rw [← Nat.add_sub_of_le hk, Nat.add_assoc, Nat.pow_add, Nat.mod_mul_right_div_self, Nat.pow_add,
        Nat.pow_one, Nat.mod_mul_right_mod]
  exact hle w le_rfl

theorem fixed_add : fixed n (k + w) = fixed (n / 10 ^ w) k ++ fixed n w := by
  induction k with
  | zero => rw [Nat.zero_add, fixed, List.nil_append]
  | succ k ih =>
    rw [Nat.succ_add, fixed, fixed, ih, List.cons_append, digitAt, digitAt, Nat.div_div_eq_div_mul, ← Nat.pow_add,
      Nat.add_comm w k]

/-- The digits from the `w`-th place on are those of the quotient. -/
theorem shown_add (h : 10 ^ w ≤ n) : shown n (k + w) = shown (n / 10 ^ w) k ++ fixed n w := by
  induction k with
  | zero => rw [Nat.zero_add, shown_eq_fixed h, shown, List.nil_append]
  | succ k ih =>
    have hiff : 10 ^ (k + w) ≤ n ∨ k + w = 0 ↔ 10 ^ k ≤ n / 10 ^ w ∨ k = 0 := by
      rw [Nat.le_div_iff_mul_le (by positivity), ← Nat.pow_add]
      constructor
      · rintro (hle | hzero)
        · exact Or.inl hle
        · exact Or.inr (by omega)
      · rintro (hle | rfl)
        · exact Or.inl hle
        · exact Or.inl (by rwa [Nat.zero_add])
    have hdigit : digitAt n (k + w) = digitAt (n / 10 ^ w) k := by
      rw [digitAt, digitAt, Nat.div_div_eq_div_mul, ← Nat.pow_add, Nat.add_comm w k]
    rw [Nat.succ_add, shown, shown, ih, hdigit]
    by_cases hk : 10 ^ k ≤ n / 10 ^ w ∨ k = 0
    · rw [if_pos hk, if_pos (hiff.mpr hk), List.cons_append]
    · rw [if_neg hk, if_neg (mt hiff.mp hk)]

/-- What is shown begins with the first digit that is not 0, or is the one digit of 0. -/
theorem shown_cases (h : n < 10 ^ w) (hw : 0 < w) :
    (n = 0 ∧ shown n w = [48]) ∨ ∃ k, 10 ^ k ≤ n ∧ n < 10 ^ (k + 1) ∧ shown n w = fixed n (k + 1) := by
  induction w with
  | zero => exact absurd hw (lt_irrefl 0)
  | succ k ih =>
    by_cases hk : 10 ^ k ≤ n
    · exact Or.inr ⟨k, hk, h, by rw [shown, if_pos (Or.inl hk), shown_eq_fixed hk, fixed]⟩
    · rw [not_le] at hk
      by_cases hzero : k = 0
      · subst hzero
        have hn : n = 0 := Nat.lt_one_iff.mp hk
        subst hn
        exact Or.inl ⟨rfl, rfl⟩
      · rw [shown, if_neg (by omega)]
        exact ih hk (by omega)

theorem value_shown (h : n < 10 ^ w) (hw : 0 < w) : value 0 (shown n w) = n := by
  obtain ⟨rfl, hshown⟩ | ⟨k, -, hk, hshown⟩ := shown_cases h hw
  · rw [hshown]
    rfl
  · rw [hshown, value_fixed, Nat.mod_eq_of_lt hk, Nat.zero_mul, Nat.zero_add]

theorem shown_numeral (h : n < 10 ^ w) (hw : 0 < w) : Numeral (shown n w) := by
  obtain ⟨rfl, hshown⟩ | ⟨k, hle, hk, hshown⟩ := shown_cases h hw
  · rw [hshown]
    exact ⟨List.cons_ne_nil _ _, List.forall_mem_singleton.mpr rfl, fun _ => rfl⟩
  · rw [hshown]
    refine ⟨List.cons_ne_nil _ _, fixed_digits, fun hhead => ?_⟩
    have hfirst : 1 ≤ digitAt n k ∧ digitAt n k < 10 := by
      have hdiv : n / 10 ^ k < 10 := Nat.div_lt_of_lt_mul (by rwa [Nat.pow_succ] at hk)
      rw [digitAt, Nat.mod_eq_of_lt hdiv]
      exact ⟨(Nat.one_le_div_iff (by positivity)).mpr hle, hdiv⟩
    have hchar : char (digitAt n k) = 48 := Option.some.inj hhead
    have hnat := toNat_char hfirst.2
    rw [hchar] at hnat
    have h48 : (48 : UInt8).toNat = 48 := rfl
    omega

end NoncesHeatmap.Numerals
