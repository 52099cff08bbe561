import NoncesHeatmap.Json.Grammar

/-! # Integers as text

The functions of `rapidjson/internal/itoa.h` take two digits at a time from a table of the pairs from 00 to
99. What they write is the numeral of the number without leading zeros. -/

namespace NoncesHeatmap.Json
open Numerals
set_option autoImplicit false

def cDigitsLut : Bytes := ascii
  ("00010203040506070809" ++ "10111213141516171819" ++ "20212223242526272829" ++ "30313233343536373839" ++
   "40414243444546474849" ++ "50515253545556575859" ++ "60616263646566676869" ++ "70717273747576777879" ++
   "80818283848586878889" ++ "90919293949596979899")

def lut (i : ℕ) : UInt8 := cDigitsLut.getD i 0

/-- `if (written) *buffer++ = c` -/
def put (written : Prop) [Decidable written] (c : UInt8) : Bytes := if written then [c] else []

/-- The code for `value = bbbbcccc` where all eight digits are written. -/
def eight (value : ℕ) : Bytes :=
  let b := value / 10000
  let c := value % 10000
  let d1 := (b / 100) <<< 1
  let d2 := (b % 100) <<< 1
  let d3 := (c / 100) <<< 1
  let d4 := (c % 100) <<< 1
  [lut d1, lut (d1 + 1), lut d2, lut (d2 + 1), lut d3, lut (d3 + 1), lut d4, lut (d4 + 1)]

/-- The first two branches of `u32toa`, which are also those of `u64toa`. -/
def belowTen8 (value : ℕ) : Bytes :=
  if value < 10000 then
    let d1 := (value / 100) <<< 1
    let d2 := (value % 100) <<< 1
    put (1000 ≤ value) (lut d1) ++ put (100 ≤ value) (lut (d1 + 1)) ++ put (10 ≤ value) (lut d2) ++ [lut (d2 + 1)]
  else
    let b := value / 10000
    let c := value % 10000
    let d1 := (b / 100) <<< 1
    let d2 := (b % 100) <<< 1
    let d3 := (c / 100) <<< 1
    let d4 := (c % 100) <<< 1
    put (10000000 ≤ value) (lut d1) ++ put (1000000 ≤ value) (lut (d1 + 1)) ++ put (100000 ≤ value) (lut d2) ++
      [lut (d2 + 1), lut d3, lut (d3 + 1), lut d4, lut (d4 + 1)]

def u32toa (value : ℕ) : Bytes :=
  if value < 100000000 then belowTen8 value
  else
    let a := value / 100000000
    (if 10 ≤ a then
      let i := a <<< 1
      [lut i, lut (i + 1)]
    else [char a]) ++ eight (value % 100000000)

def u64toa (value : ℕ) : Bytes :=
  let kTen8 := 100000000
  let kTen16 := kTen8 * kTen8
  if value < kTen8 then belowTen8 (u32 value)
  else if value < kTen16 then
    let v0 := u32 (value / kTen8)
    let v1 := u32 (value % kTen8)
    let b0 := v0 / 10000
    let c0 := v0 % 10000
    let d1 := (b0 / 100) <<< 1
    let d2 := (b0 % 100) <<< 1
    let d3 := (c0 / 100) <<< 1
    let d4 := (c0 % 100) <<< 1
    put (kTen8 * 10000000 ≤ value) (lut d1) ++ put (kTen8 * 1000000 ≤ value) (lut (d1 + 1)) ++
      put (kTen8 * 100000 ≤ value) (lut d2) ++ put (kTen8 * 10000 ≤ value) (lut (d2 + 1)) ++
      put (kTen8 * 1000 ≤ value) (lut d3) ++ put (kTen8 * 100 ≤ value) (lut (d3 + 1)) ++
      put (kTen8 * 10 ≤ value) (lut d4) ++ [lut (d4 + 1)] ++ eight v1
  else
    let a := u32 (value / kTen16)
    let value := value % kTen16
    (if a < 10 then [char a]
    else if a < 100 then
      let i := a <<< 1
      [lut i, lut (i + 1)]
    else if a < 1000 then
      let i := (a % 100) <<< 1
      [char (a / 100), lut i, lut (i + 1)]
    else
      let i := (a / 100) <<< 1
      let j := (a % 100) <<< 1
      [lut i, lut (i + 1), lut j, lut (j + 1)]) ++
      eight (u32 (value / kTen8)) ++ eight (u32 (value % kTen8))

/-- `i64toa`, and with 32 bits `i32toa`: the sign, and the number negated in unsigned arithmetic. -/
def signedToa (bits : ℕ) (toa : ℕ → Bytes) (value : ℤ) : Bytes :=
  let u := BitVec.ofInt bits value
  if value < 0 then minus :: toa (~~~u + 1).toNat else toa u.toNat

def i32toa (value : ℤ) : Bytes := signedToa 32 u32toa value

def i64toa (value : ℤ) : Bytes := signedToa 64 u64toa value

/-! ## The digits -/

theorem lut_pair {k : ℕ} (h : k < 100) : lut (k <<< 1) = char (k / 10) ∧ lut (k <<< 1 + 1) = char (k % 10) := by
  have hall : ∀ k : Fin 100, lut (k.val <<< 1) = char (k.val / 10) ∧ lut (k.val <<< 1 + 1) = char (k.val % 10) := by
    decide +kernel
  exact hall ⟨k, h⟩

/-- The eight characters that the table has for a number of eight digits. -/
theorem lut_digits {value : ℕ} (h : value < 10 ^ 8) :
    (lut ((value / 10000 / 100) <<< 1) = char (digitAt value 7) ∧
      lut ((value / 10000 / 100) <<< 1 + 1) = char (digitAt value 6)) ∧
    (lut ((value / 10000 % 100) <<< 1) = char (digitAt value 5) ∧
      lut ((value / 10000 % 100) <<< 1 + 1) = char (digitAt value 4)) ∧
    (lut ((value % 10000 / 100) <<< 1) = char (digitAt value 3) ∧
      lut ((value % 10000 / 100) <<< 1 + 1) = char (digitAt value 2)) ∧
    lut ((value % 10000 % 100) <<< 1) = char (digitAt value 1) ∧
      lut ((value % 10000 % 100) <<< 1 + 1) = char (digitAt value 0) := by
  have h1 := lut_pair (k := value / 10000 / 100) (by omega)
  have h2 := lut_pair (k := value / 10000 % 100) (by omega)
  have h3 := lut_pair (k := value % 10000 / 100) (by omega)
  have h4 := lut_pair (k := value % 10000 % 100) (by omega)
  rw [h1.1, h1.2, h2.1, h2.2, h3.1, h3.2, h4.1, h4.2]
  refine ⟨⟨?_, ?_⟩, ⟨?_, ?_⟩, ⟨?_, ?_⟩, ?_, ?_⟩ <;> rw [digitAt] <;> congr 1 <;> omega

theorem eight_eq {value : ℕ} (h : value < 10 ^ 8) : eight value = fixed value 8 := by
  obtain ⟨⟨h7, h6⟩, ⟨h5, h4⟩, ⟨h3, h2⟩, h1, h0⟩ := lut_digits h
  simp only [eight, fixed, h7, h6, h5, h4, h3, h2, h1, h0]

theorem put_pos {p : Prop} [Decidable p] (h : p) (c : UInt8) : put p c = [c] := if_pos h

theorem put_neg {p : Prop} [Decidable p] (h : ¬ p) (c : UInt8) : put p c = [] := if_neg h

theorem put_congr {p q : Prop} [Decidable p] [Decidable q] (h : p ↔ q) (c : UInt8) : put p c = put q c := by
  rw [put, put]
  exact if_congr h rfl rfl

theorem shown_put (n : ℕ) {k p : ℕ} (hk : k ≠ 0) (hp : 10 ^ k = p) :
    shown n (k + 1) = put (p ≤ n) (char (digitAt n k)) ++ shown n k := by
  subst hp
  by_cases hle : 10 ^ k ≤ n
  · rw [shown, if_pos (Or.inl hle), put_pos hle, List.singleton_append]
  · rw [shown, if_neg (not_or.mpr ⟨hle, hk⟩), put_neg hle, List.nil_append]

theorem shown_one (n : ℕ) : shown n 1 = [char (digitAt n 0)] := if_pos (Or.inr rfl)

/-- The leading group of a number of at most eight digits. -/
theorem shown_eight {value : ℕ} (h : value < 10 ^ 8) :
    shown value 8 = put (10000000 ≤ value) (lut ((value / 10000 / 100) <<< 1)) ++
      (put (1000000 ≤ value) (lut ((value / 10000 / 100) <<< 1 + 1)) ++
      (put (100000 ≤ value) (lut ((value / 10000 % 100) <<< 1)) ++
      (put (10000 ≤ value) (lut ((value / 10000 % 100) <<< 1 + 1)) ++
      (put (1000 ≤ value) (lut ((value % 10000 / 100) <<< 1)) ++
      (put (100 ≤ value) (lut ((value % 10000 / 100) <<< 1 + 1)) ++
      (put (10 ≤ value) (lut ((value % 10000 % 100) <<< 1)) ++ [lut ((value % 10000 % 100) <<< 1 + 1)])))))) := by
  obtain ⟨⟨h7, h6⟩, ⟨h5, h4⟩, ⟨h3, h2⟩, h1, h0⟩ := lut_digits h
  rw [h7, h6, h5, h4, h3, h2, h1, h0]
  rw [shown_put value (k := 7) (p := 10000000) (by decide) rfl, shown_put value (k := 6) (p := 1000000) (by decide) rfl,
    shown_put value (k := 5) (p := 100000) (by decide) rfl, shown_put value (k := 4) (p := 10000) (by decide) rfl,
    shown_put value (k := 3) (p := 1000) (by decide) rfl, shown_put value (k := 2) (p := 100) (by decide) rfl,
    shown_put value (k := 1) (p := 10) (by decide) rfl, shown_one]

theorem belowTen8_eq {value : ℕ} (h : value < 10 ^ 8) : belowTen8 value = shown value 8 := by
  rw [shown_eight h, belowTen8]
  split
  · next hsmall =>
    have hdiv : value / 10000 = 0 := Nat.div_eq_of_lt hsmall
    have hmod : value % 10000 = value := Nat.mod_eq_of_lt hsmall
    rw [put_neg (by omega), put_neg (by omega), put_neg (by omega), put_neg (by omega), hmod]
    simp only [List.nil_append, List.append_assoc]
  · next hlarge =>
    rw [put_pos (p := 10000 ≤ value) (by omega), put_pos (p := 1000 ≤ value) (by omega),
      put_pos (p := 100 ≤ value) (by omega), put_pos (p := 10 ≤ value) (by omega)]
    simp only [List.append_assoc, List.cons_append, List.nil_append]

theorem eight_mod (value : ℕ) : eight (value % 100000000) = fixed value 8 := by
  have hmod : fixed (value % 100000000) 8 = fixed value 8 := fixed_mod (w := 8)
  exact (eight_eq (Nat.mod_lt _ (by decide))).trans hmod

/-- The code for the one or two digits before a group of eight. -/
theorem shown_two {a : ℕ} (h : a < 100) :
    (if 10 ≤ a then [lut (a <<< 1), lut (a <<< 1 + 1)] else [char a]) = shown a 2 := by
  have hzero : digitAt a 0 = a % 10 := by rw [digitAt, Nat.pow_zero, Nat.div_one]
  rw [shown_put _ (k := 1) (p := 10) (by decide) rfl, shown_one, hzero]
  by_cases hten : 10 ≤ a
  · have hone : digitAt a 1 = a / 10 := by rw [digitAt, Nat.pow_one, Nat.mod_eq_of_lt (by omega)]
    rw [put_pos hten, if_pos hten, (lut_pair h).1, (lut_pair h).2, hone, List.singleton_append]
  · rw [put_neg hten, if_neg hten, List.nil_append, Nat.mod_eq_of_lt (by omega)]

theorem u32toa_eq {value : ℕ} (h : value < 2 ^ 32) : u32toa value = shown value 20 := by
  rw [u32toa]
  split
  · next hsmall =>
    have hten8 : value < 10 ^ 8 := hsmall
    rw [belowTen8_eq hten8, shown_of_lt (w := 20) hten8 (by decide) (by decide)]
  · next hlarge =>
    have hten10 : value < 10 ^ (2 + 8) := by omega
    rw [shown_of_lt hten10 (by decide) (by decide), shown_add (k := 2) (w := 8) (by omega)]
    exact congrArg₂ (· ++ ·) (shown_two (by omega)) (eight_mod value)

/-- The code for the one to four digits before two groups of eight. -/
theorem shown_four {a : ℕ} (hpos : 0 < a) (h : a < 10000) :
    (if a < 10 then [char a]
    else if a < 100 then [lut (a <<< 1), lut (a <<< 1 + 1)]
    else if a < 1000 then [char (a / 100), lut ((a % 100) <<< 1), lut ((a % 100) <<< 1 + 1)]
    else [lut ((a / 100) <<< 1), lut ((a / 100) <<< 1 + 1), lut ((a % 100) <<< 1), lut ((a % 100) <<< 1 + 1)]) =
      shown a 4 := by
  have hlow := lut_pair (k := a % 100) (by omega)
  by_cases hten : a < 10
  · rw [if_pos hten, shown_of_lt (k := 1) hten (by decide) (by decide), shown_one, digitAt, Nat.pow_zero, Nat.div_one,
      Nat.mod_eq_of_lt hten]
  · rw [if_neg hten]
    by_cases hhundred : a < 100
    · rw [if_pos hhundred, shown_of_lt (k := 2) hhundred (by decide) (by decide), ← shown_two hhundred, if_pos (by omega)]
    · rw [if_neg hhundred]
      have hsplit : shown a 4 = shown (a / 10 ^ 2) 2 ++ fixed a 2 := shown_add (k := 2) (w := 2) (by omega)
      have hfixed : fixed a 2 = [lut ((a % 100) <<< 1), lut ((a % 100) <<< 1 + 1)] := by
        rw [hlow.1, hlow.2, fixed, fixed, fixed, digitAt, digitAt]
        congr 3 <;> omega
      rw [hsplit, hfixed, ← shown_two (by omega)]
      by_cases hthousand : a < 1000
      · rw [if_pos hthousand, if_neg (by omega)]
        rfl
      · rw [if_neg hthousand, if_pos (by omega)]
        rfl

theorem u64toa_eq {value : ℕ} (h : value < 2 ^ 64) : u64toa value = shown value 20 := by
  have hlow : eight (u32 (value % 100000000)) = fixed value 8 := by
    rw [u32_of_lt (by omega), eight_mod]
  rw [u64toa]
  split
  · next hsmall =>
    have hten8 : value < 10 ^ 8 := hsmall
    rw [u32_of_lt (by omega), belowTen8_eq hten8, shown_of_lt (w := 20) hten8 (by decide) (by decide)]
  · next hlarge =>
    split
    · next hmiddle =>
      have hten16 : value < 10 ^ (8 + 8) := hmiddle
      have hput : ∀ (p : ℕ) (c : UInt8), put (100000000 * p ≤ value) c = put (p ≤ value / 10 ^ 8) c :=
        fun p c => put_congr (by omega) c
      have hv0 : u32 (value / 100000000) = value / 10 ^ 8 := u32_of_lt (by omega)
      rw [shown_of_lt hten16 (by decide) (by decide), shown_add (k := 8) (w := 8) (by omega), shown_eight (by omega)]
      simp only [hput, hv0, hlow, List.append_assoc]
    · next hhuge =>
      have hten20 : value < 10 ^ (4 + 16) := by omega
      have ha : u32 (value / (100000000 * 100000000)) = value / 10 ^ 16 := u32_of_lt (by omega)
      have hhigh : eight (u32 (value % (100000000 * 100000000) / 100000000)) = fixed (value / 10 ^ 8) 8 := by
        have hdiv : value % (100000000 * 100000000) / 100000000 = value / 10 ^ 8 % 100000000 := by omega
        rw [u32_of_lt (by omega), hdiv, eight_mod]
      have hlow16 : eight (u32 (value % (100000000 * 100000000) % 100000000)) = fixed value 8 := by
        have hmod : value % (100000000 * 100000000) % 100000000 = value % 100000000 := by omega
        rw [hmod, hlow]
      have hfixed : fixed value 16 = fixed (value / 10 ^ 8) 8 ++ fixed value 8 := fixed_add (k := 8) (w := 8)
      rw [shown_add (k := 4) (w := 16) (by omega), hfixed, ← shown_four (by omega) (by omega)]
      simp only [ha, hhigh, hlow16, List.append_assoc]

/-- A number and its negation in unsigned arithmetic. -/
theorem toNat_ofInt_of_nonneg {bits : ℕ} {value : ℤ} (h : 0 ≤ value) (hlt : value < 2 ^ bits) :
    (BitVec.ofInt bits value).toNat = value.natAbs := by
  rw [BitVec.toNat_ofInt, Int.emod_eq_of_lt h (by exact_mod_cast hlt)]
  omega

theorem toNat_not_add_one {bits : ℕ} {value : ℤ} (h : value < 0) (hlow : -2 ^ bits < value) :
    (~~~BitVec.ofInt bits value + 1).toNat = value.natAbs := by
  rw [not_add_one]
  exact (toNat_ofInt_of_nonneg (by omega) (by omega)).trans (Int.natAbs_neg value)

theorem signedToa_eq {bits : ℕ} {toa : ℕ → Bytes} (htoa : ∀ u, u < 2 ^ bits → toa u = shown u 20) {value : ℤ}
    (hlow : -2 ^ bits < value) (hhigh : value < 2 ^ bits) :
    signedToa bits toa value = (if value < 0 then [minus] else []) ++ shown value.natAbs 20 := by
  have habs : value.natAbs < 2 ^ bits := by
    have hcast : ((2 ^ bits : ℕ) : ℤ) = 2 ^ bits := by norm_num
    omega
  rw [signedToa]
  by_cases hneg : value < 0
  · rw [if_pos hneg, if_pos hneg, toNat_not_add_one hneg hlow, htoa _ habs, List.singleton_append]
  · rw [if_neg hneg, if_neg hneg, toNat_ofInt_of_nonneg (by omega) hhigh, htoa _ habs, List.nil_append]

/-- **Integers as text.** What is written of a number is its sign and a numeral without leading zeros that has
its value; with the sign, the numbers are those of 32 or 64 bits of either kind. -/
theorem itoa_numeral :
    (∀ n < 2 ^ 32, Numeral (u32toa n) ∧ value 0 (u32toa n) = n) ∧
      (∀ n < 2 ^ 64, Numeral (u64toa n) ∧ value 0 (u64toa n) = n) ∧
      (∀ n : ℤ, -2 ^ 31 ≤ n → n < 2 ^ 31 → ∃ ds, i32toa n = (if n < 0 then [minus] else []) ++ ds ∧ Numeral ds ∧
        value 0 ds = n.natAbs) ∧
      ∀ n : ℤ, -2 ^ 63 ≤ n → n < 2 ^ 63 → ∃ ds, i64toa n = (if n < 0 then [minus] else []) ++ ds ∧ Numeral ds ∧
        value 0 ds = n.natAbs := by
  have hshown : ∀ n < 10 ^ 20, Numeral (shown n 20) ∧ value 0 (shown n 20) = n :=
    fun n hn => ⟨shown_numeral hn (by decide), value_shown hn (by decide)⟩
  refine ⟨fun n hn => ?_, fun n hn => ?_, fun n hlow hhigh => ?_, fun n hlow hhigh => ?_⟩
  · rw [u32toa_eq hn]
    exact hshown n (by omega)
  · rw [u64toa_eq hn]
    exact hshown n (by omega)
  · exact ⟨_, signedToa_eq (fun u => u32toa_eq) (by omega) (by omega), hshown _ (by omega)⟩
  · exact ⟨_, signedToa_eq (fun u => u64toa_eq) (by omega) (by omega), hshown _ (by omega)⟩

theorem itoa_numeral_four :
    (Numeral (u32toa 4294967295) ∧ value 0 (u32toa 4294967295) = 4294967295) ∧
      (Numeral (u64toa 18446744073709551615) ∧ value 0 (u64toa 18446744073709551615) = 18446744073709551615) ∧
      (∃ ds, i32toa (-2147483648) = [minus] ++ ds ∧ Numeral ds ∧ value 0 ds = 2147483648) ∧
      ∃ ds, i64toa 9223372036854775807 = [] ++ ds ∧ Numeral ds ∧ value 0 ds = 9223372036854775807 :=
  ⟨itoa_numeral.1 _ (by decide), itoa_numeral.2.1 _ (by decide), itoa_numeral.2.2.1 (-2147483648) (by decide) (by decide),
    itoa_numeral.2.2.2 9223372036854775807 (by decide) (by decide)⟩

end NoncesHeatmap.Json
