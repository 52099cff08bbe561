import NoncesHeatmap.Json.Scanner

/-! # Numbers

`ParseNumber` reads the longest number that the text begins with. The integer loops stop at the first digit
that does not fit; the rest of the digits then belong to a double. -/

namespace NoncesHeatmap.Json
open Numerals
set_option autoImplicit false

variable {c : UInt8} {s r ds : Bytes} {negative : Bool} {i : ℕ} {tooBig : Bytes → Bool}

/-- The text does not go on with a number. -/
structure Stops (s : Bytes) : Prop where
  digit : isDigit (peek s) = false
  point : peek s ≠ point
  exponent : peek s ≠ 101 ∧ peek s ≠ 69

/-! ## Runs of digits -/

theorem dropWhile_digits (hds : ∀ c ∈ ds, isDigit c) (h : isDigit (peek s) = false) :
    (ds ++ s).takeWhile isDigit = ds ∧ (ds ++ s).dropWhile isDigit = s := by
  have hs : s.takeWhile isDigit = [] ∧ s.dropWhile isDigit = s := by
    cases s with
    | nil => exact ⟨rfl, rfl⟩
    | cons c s =>
      rw [peek_cons] at h
      exact ⟨List.takeWhile_cons_of_neg (by rw [h]; decide), List.dropWhile_cons_of_neg (by rw [h]; decide)⟩
  rw [List.takeWhile_append_of_pos hds, List.dropWhile_append_of_pos hds, hs.1, hs.2, List.append_nil]
  exact ⟨rfl, rfl⟩

theorem takeWhile_digits (s : Bytes) : ∀ c ∈ s.takeWhile isDigit, isDigit c :=
  fun _ hc => List.mem_takeWhile_imp hc

theorem digits_split (s : Bytes) : s = s.takeWhile isDigit ++ s.dropWhile isDigit :=
  List.takeWhile_append_dropWhile.symm

/-- What a loop over digits leaves: it stops at the end of the digits, or at a digit that makes the number
greater than `most`. -/
structure Capped (most i : ℕ) (s : Bytes) (out : ℕ × Bool × Bytes) (ds : Bytes) : Prop where
  split : s = ds ++ out.2.2
  digits : ∀ c ∈ ds, isDigit c
  total : out.1 = value i ds
  le : i ≤ most → out.1 ≤ most
  stop : out.2.1 = false → isDigit (peek out.2.2) = false
  full : out.2.1 = true → isDigit (peek out.2.2) = true ∧ most < out.1 * 10 + digit (peek out.2.2)

theorem capped_parseDigits {limit most : ℕ} {last : UInt8} (hlast : isDigit last) (hmost : limit * 10 + digit last = most)
    (i : ℕ) (s : Bytes) : ∃ ds, Capped most i s (parseDigits limit last i s) ds := by
  induction s generalizing i with
  | nil => exact ⟨[], rfl, fun c hc => absurd hc List.not_mem_nil, rfl, id, fun _ => rfl, fun h => Bool.noConfusion h⟩
  | cons c s ih =>
    rw [parseDigits]
    split
    · next hc =>
      have hlast' := isDigit_iff.mp hlast
      have hc' := isDigit_iff.mp hc
      have hless : last < c ↔ digit last < digit c := by
        rw [UInt8.lt_iff_toNat_lt, digit, digit]
        omega
      have hten := digit_lt hlast
      have hten' := digit_lt hc
      split
      · next hfull =>
        refine ⟨[], rfl, fun c hc => absurd hc List.not_mem_nil, rfl, id, fun h => Bool.noConfusion h, fun _ => ⟨hc, ?_⟩⟩
        rw [hless] at hfull
        rw [peek_cons]
        omega
      · next hfits =>
        obtain ⟨ds, h⟩ := ih (i * 10 + digit c)
        rw [hless] at hfits
        refine ⟨c :: ds, congrArg (c :: ·) h.split, List.forall_mem_cons.mpr ⟨hc, h.digits⟩, ?_, fun _ => h.le (by omega),
          h.stop, h.full⟩
        rw [value_cons, h.total]
    · next hc =>
      refine ⟨[], rfl, fun c hc => absurd hc List.not_mem_nil, rfl, id, fun _ => ?_, fun h => Bool.noConfusion h⟩
      rw [peek_cons, Bool.eq_false_of_not_eq_true hc]

/-- The largest number that the loop with 32 bits takes. -/
def maxNarrow (negative : Bool) : ℕ := if negative then 2 ^ 31 else 2 ^ 32 - 1

theorem capped_narrow (negative : Bool) (i : ℕ) (s : Bytes) :
    ∃ ds, Capped (maxNarrow negative) i s (parseNarrow negative i s) ds := by
  cases negative with
  | true => exact capped_parseDigits (by decide) (by decide) i s
  | false => exact capped_parseDigits (by decide) (by decide) i s

theorem capped_wide (negative : Bool) (i : ℕ) (s : Bytes) :
    ∃ ds, Capped (maxInt negative) i s (parseWide negative i s) ds := by
  cases negative with
  | true => exact capped_parseDigits (by decide) (by decide) i s
  | false => exact capped_parseDigits (by decide) (by decide) i s

/-- What is read of an integer whose digits are `ds`, before `rest`. -/
structure ReadsInt (negative : Bool) (ds rest : Bytes) (n : Significand) : Prop where
  rest : (if n.useDouble then n.rest.dropWhile isDigit else n.rest) = rest
  fits : n.useDouble = false ↔ value 0 ds ≤ maxInt negative
  number : n.useDouble = false → n.i = value 0 ds
  narrow : n.use64bit = false → n.i ≤ maxNarrow negative

theorem Capped.takeWhile {most : ℕ} {out : ℕ × Bool × Bytes} (h : Capped most i s out ds) (hstop : out.2.1 = false) :
    ds = s.takeWhile isDigit ∧ out.2.2 = s.dropWhile isDigit := by
  obtain ⟨htake, hdrop⟩ := dropWhile_digits h.digits (h.stop hstop)
  rw [← h.split] at htake hdrop
  exact ⟨htake.symm, hdrop.symm⟩

/-- A number that stopped the loop is too large with its next digit. -/
theorem Capped.lt {most : ℕ} {out : ℕ × Bool × Bytes} (h : Capped most i s out ds) (hfull : out.2.1 = true) :
    most < value i (s.takeWhile isDigit) := by
  obtain ⟨hdigit, hlt⟩ := h.full hfull
  cases hrest : out.2.2 with
  | nil =>
    rw [hrest] at hdigit
    exact absurd hdigit (by decide)
  | cons c rest =>
    rw [hrest, peek_cons] at hdigit hlt
    rw [h.split, hrest, List.takeWhile_append_of_pos h.digits, List.takeWhile_cons_of_pos hdigit, value_append, value_cons,
      ← h.total]
    exact lt_of_lt_of_le hlt le_value

/-- A loop that goes on from where another one stopped. -/
theorem Capped.trans {most most' : ℕ} {out out' : ℕ × Bool × Bytes} {ds' : Bytes} (h : Capped most i s out ds)
    (h' : Capped most' out.1 out.2.2 out' ds') (hi : i ≤ most) (hle : most ≤ most') : Capped most' i s out' (ds ++ ds') where
  split := by rw [List.append_assoc, ← h'.split, ← h.split]
  digits := List.forall_mem_append.mpr ⟨h.digits, h'.digits⟩
  total := by rw [value_append, ← h.total, h'.total]
  le _ := h'.le (le_trans (h.le hi) hle)
  stop := h'.stop
  full := h'.full

theorem parseInt_reads (negative : Bool) {d : UInt8} (hd : isDigit d) (s : Bytes) :
    ReadsInt negative (d :: s.takeWhile isDigit) (s.dropWhile isDigit) (parseInt negative (digit d) s) := by
  have hfirst : value 0 (d :: s.takeWhile isDigit) = value (digit d) (s.takeWhile isDigit) := by
    rw [value_cons, Nat.zero_mul, Nat.zero_add]
  have hle : maxNarrow negative ≤ maxInt negative := by cases negative <;> decide
  have hten : digit d ≤ maxNarrow negative := by
    have hlt := digit_lt hd
    have hmin : 10 ≤ maxNarrow negative := by cases negative <;> decide
    omega
  obtain ⟨ds, h⟩ := capped_narrow negative (digit d) s
  cases hnarrow : (parseNarrow negative (digit d) s).2.1 with
  | true =>
    obtain ⟨ds', h'⟩ := capped_wide negative (parseNarrow negative (digit d) s).1 (parseNarrow negative (digit d) s).2.2
    have hwhole := h.trans h' hten hle
    rw [parseInt, if_pos hnarrow]
    refine ⟨?_, ?_, fun hfits => ?_, fun h => Bool.noConfusion h⟩
    · split
      · conv_rhs => rw [hwhole.split, List.dropWhile_append_of_pos hwhole.digits]
      · next hfits => exact (hwhole.takeWhile (Bool.eq_false_of_not_eq_true hfits)).2
    · rw [hfirst]
      constructor
      · intro hfits
        rw [← (hwhole.takeWhile hfits).1, ← hwhole.total]
        exact hwhole.le (le_trans hten hle)
      · exact fun hfits => Bool.eq_false_of_not_eq_true fun hfull => absurd hfits (not_le.mpr (hwhole.lt hfull))
    · rw [hfirst, ← (hwhole.takeWhile hfits).1]
      exact hwhole.total
  | false =>
    have htotal := h.total
    rw [(h.takeWhile hnarrow).1, ← hfirst] at htotal
    rw [parseInt, if_neg (by rw [hnarrow]; decide)]
    refine ⟨(h.takeWhile hnarrow).2, iff_of_true rfl ?_, fun _ => htotal, fun _ => h.le hten⟩
    rw [← htotal]
    exact le_trans (h.le hten) hle

theorem negated_eq {use64bit : Bool} (hnarrow : use64bit = false → i ≤ 2 ^ 31) (hwide : i ≤ 2 ^ 63) :
    negated use64bit i = -i := by
  have hneg : ∀ w : ℕ, 0 < w → i ≤ 2 ^ (w - 1) → (~~~BitVec.ofNat w i + 1).toInt = -i := by
    intro w hw hle
    have hcast : (i : ℤ) ≤ 2 ^ (w - 1) := by exact_mod_cast hle
    have hpos : (0 : ℤ) < 2 ^ (w - 1) := by positivity
    rw [← BitVec.ofInt_natCast, not_add_one, BitVec.toInt_ofInt_eq_self hw (by omega) (by omega)]
  rw [negated]
  split
  · exact hneg 64 (by decide) hwide
  · next h => exact hneg 32 (by decide) (hnarrow (Bool.eq_false_of_not_eq_true h))

/-! ## The rest of a number -/

theorem digits_takeWhile (h : isDigit (peek s) = true) : Digits (s.takeWhile isDigit) := by
  refine ⟨?_, takeWhile_digits s⟩
  cases s with
  | nil => exact absurd h (by decide)
  | cons c s =>
    rw [peek_cons] at h
    rw [List.takeWhile_cons_of_pos h]
    exact List.cons_ne_nil _ _

theorem peek_digits (h : Digits ds) (r : Bytes) : isDigit (peek (ds ++ r)) = true := by
  cases ds with
  | nil => exact absurd rfl h.1
  | cons c ds => exact h.2 c List.mem_cons_self

theorem ne_of_isDigit {d : UInt8} (hc : isDigit c = true) (hd : isDigit d = false) : c ≠ d := by
  rintro rfl
  rw [hc] at hd
  cases hd

theorem parseFraction_sound (h : parseFraction s = .ok r) : ∃ f, s = f ++ r ∧ Fraction f := by
  rw [parseFraction] at h
  split at h
  · next t hpoint =>
    rw [consume_eq_some (by decide)] at hpoint
    split at h
    · next hdigit =>
      obtain rfl := Except.ok.inj h
      exact ⟨point :: t.takeWhile isDigit, by rw [hpoint, List.cons_append, ← digits_split], .some (digits_takeWhile hdigit)⟩
    · cases h
  · obtain rfl := Except.ok.inj h
    exact ⟨[], rfl, .none⟩

theorem parseFraction_complete {f : Bytes} (hf : Fraction f) (hdigit : isDigit (peek r) = false) (hpoint : peek r ≠ point) :
    parseFraction (f ++ r) = .ok r := by
  cases hf with
  | none => rw [List.nil_append, parseFraction, consume_eq_none.mpr hpoint]
  | @some ds hds =>
    rw [List.cons_append, parseFraction, consume_cons]
    dsimp only
    rw [if_pos (peek_digits hds r), (dropWhile_digits hds.2 hdigit).2]

theorem consume_or {d : UInt8} {t : Bytes} (hc : c ≠ 0) (hd : d ≠ 0) :
    (consume c s).or (consume d s) = some t → s = c :: t ∨ s = d :: t := by
  intro h
  cases hfirst : consume c s with
  | none =>
    rw [hfirst, Option.none_or, consume_eq_some hd] at h
    exact Or.inr h
  | some t' =>
    rw [hfirst, Option.some_or, Option.some.injEq] at h
    exact Or.inl ((consume_eq_some hc).mp (h ▸ hfirst))

/-- The optional sign of an exponent. -/
theorem sign_cases (s : Bytes) : ∃ sign, (sign = [] ∨ sign = [plus] ∨ sign = [minus]) ∧
    s = sign ++ ((consume plus s).or (consume minus s)).getD s := by
  cases hsign : (consume plus s).or (consume minus s) with
  | none => exact ⟨[], Or.inl rfl, rfl⟩
  | some t =>
    rcases consume_or (by decide) (by decide) hsign with hs | hs
    · exact ⟨[plus], Or.inr (Or.inl rfl), hs⟩
    · exact ⟨[minus], Or.inr (Or.inr rfl), hs⟩

theorem sign_append {sign : Bytes} (hsign : sign = [] ∨ sign = [plus] ∨ sign = [minus]) (hs : isDigit (peek s) = true) :
    ((consume plus (sign ++ s)).or (consume minus (sign ++ s))).getD (sign ++ s) = s := by
  rcases hsign with rfl | rfl | rfl
  · rw [List.nil_append, consume_eq_none.mpr (ne_of_isDigit hs (by decide)),
      consume_eq_none.mpr (ne_of_isDigit hs (by decide)), Option.none_or, Option.getD_none]
  · rw [List.singleton_append, consume_cons, Option.some_or, Option.getD_some]
  · rw [List.singleton_append, consume_cons, consume_ne (by decide), Option.none_or, Option.getD_some]

theorem parseExponent_sound (h : parseExponent s = .ok r) : ∃ e, s = e ++ r ∧ Exponent e := by
  rw [parseExponent] at h
  split at h
  · next t hletter =>
    dsimp only at h
    split at h
    · next hdigit =>
      obtain rfl := Except.ok.inj h
      obtain ⟨sign, hsign, ht⟩ := sign_cases t
      have hexponent : ∀ e : UInt8, e = 101 ∨ e = 69 → s = e :: t → ∃ e, s = e ++
          (((consume plus t).or (consume minus t)).getD t).dropWhile isDigit ∧ Exponent e := by
        intro e he hs
        refine ⟨e :: (sign ++ (((consume plus t).or (consume minus t)).getD t).takeWhile isDigit), ?_,
          .some he hsign (digits_takeWhile hdigit)⟩
        rw [hs, List.cons_append, List.append_assoc, ← digits_split, ← ht]
      rcases consume_or (by decide) (by decide) hletter with hs | hs
      · exact hexponent 101 (Or.inl rfl) hs
      · exact hexponent 69 (Or.inr rfl) hs
    · cases h
  · obtain rfl := Except.ok.inj h
    exact ⟨[], rfl, .none⟩

theorem parseExponent_complete {e : Bytes} (he : Exponent e) (hr : Stops r) : parseExponent (e ++ r) = .ok r := by
  cases he with
  | none =>
    rw [List.nil_append, parseExponent, consume_eq_none.mpr hr.exponent.1, consume_eq_none.mpr hr.exponent.2, Option.none_or]
  | @some e sign ds he hsign hds =>
    have hletter : ∀ t, (consume 101 (e :: t)).or (consume 69 (e :: t)) = some t := by
      intro t
      rcases he with rfl | rfl
      · rw [consume_cons, Option.some_or]
      · rw [consume_cons, consume_ne (by decide), Option.none_or]
    rw [List.cons_append, List.append_assoc, parseExponent, hletter]
    dsimp only
    rw [sign_append hsign (peek_digits hds r), if_pos (peek_digits hds r), (dropWhile_digits hds.2 hr.digit).2]

/-! ## The whole number -/

theorem ReadsInt.signed {rest : Bytes} {n : Significand} (h : ReadsInt negative ds rest n) (hfits : n.useDouble = false) :
    (if negative then negated n.use64bit n.i else (n.i : ℤ)) = signed negative (value 0 ds) := by
  have hmost := h.fits.mp hfits
  rw [← h.number hfits] at hmost ⊢
  cases negative with
  | true => exact negated_eq h.narrow hmost
  | false => rfl

theorem length_lt_append {a : Bytes} : s.length < (a ++ s).length ↔ a ≠ [] := by
  rw [List.length_append, ← List.length_pos_iff]
  omega

/-- What `ParseNumber` gives for the parts of a number. -/
theorem parseTail_eq {rest f e : Bytes} {n : Significand} (h : ReadsInt negative ds rest n)
    (hrest : rest = f ++ (e ++ r)) (hf : parseFraction rest = .ok (e ++ r)) (he : parseExponent (e ++ r) = .ok r) :
    parseTail tooBig (signText negative ++ (ds ++ rest)) negative n =
      if value 0 ds ≤ maxInt negative ∧ f = [] ∧ e = [] then .ok (.int (signed negative (value 0 ds)), r)
      else if tooBig (signText negative ++ (ds ++ (f ++ e))) then
        .error ⟨.numberTooBig, signText negative ++ (ds ++ rest)⟩
      else .ok (.double (text (signText negative ++ (ds ++ (f ++ e)))), r) := by
  have hliteral : (signText negative ++ (ds ++ rest)).take ((signText negative ++ (ds ++ rest)).length - r.length) =
      signText negative ++ (ds ++ (f ++ e)) := by
    have hsplit : signText negative ++ (ds ++ rest) = (signText negative ++ (ds ++ (f ++ e))) ++ r := by
      rw [hrest, List.append_assoc, List.append_assoc, List.append_assoc]
    rw [hsplit, List.length_append, Nat.add_sub_cancel, List.take_left]
  have hflength : (e ++ r).length < rest.length ↔ f ≠ [] := by rw [hrest, length_lt_append]
  have helength : r.length < (e ++ r).length ↔ e ≠ [] := length_lt_append
  rw [parseTail, h.rest, hf]
  simp only [bind, Except.bind, he, hliteral, hflength, helength]
  by_cases hint : value 0 ds ≤ maxInt negative ∧ f = [] ∧ e = []
  · have hfits := h.fits.mpr hint.1
    rw [if_pos hint, if_neg (by rw [hfits]; simp [hint.2]), h.signed hfits]
  · have hdouble : n.useDouble = true ∨ f ≠ [] ∨ e ≠ [] := by
      by_contra hnone
      push Not at hnone
      exact hint ⟨h.fits.mp (Bool.eq_false_of_not_eq_true hnone.1), hnone.2⟩
    rw [if_neg hint, if_pos hdouble]

theorem parseTail_sound {rest : Bytes} {n : Significand} {v : Value} (hds : Numeral ds) (h : ReadsInt negative ds rest n)
    (hok : parseTail tooBig (signText negative ++ (ds ++ rest)) negative n = .ok (v, r)) :
    ∃ t, signText negative ++ (ds ++ rest) = t ++ r ∧ NumberText tooBig t v := by
  have hsteps := hok
  rw [parseTail, h.rest] at hsteps
  obtain ⟨fraction, hfraction, hsteps⟩ := bind_eq_ok.mp hsteps
  obtain ⟨r', hexponent, -⟩ := bind_eq_ok.mp hsteps
  obtain ⟨f, hrest, hf⟩ := parseFraction_sound hfraction
  obtain ⟨e, rfl, he⟩ := parseExponent_sound hexponent
  rw [parseTail_eq h hrest hfraction hexponent] at hok
  split at hok
  · next hint =>
    obtain ⟨rfl, rfl⟩ := Prod.mk.inj (Except.ok.inj hok)
    refine ⟨signText negative ++ ds, ?_, .int negative hds hint.1⟩
    rw [hrest, hint.2.1, hint.2.2, List.nil_append, List.nil_append, List.append_assoc]
  · next hint =>
    split at hok
    · cases hok
    · next hbig =>
      obtain ⟨rfl, rfl⟩ := Prod.mk.inj (Except.ok.inj hok)
      refine ⟨signText negative ++ (ds ++ (f ++ e)), ?_, .double negative hds hf he (fun hf he => ?_)
        (Bool.eq_false_of_not_eq_true hbig)⟩
      · rw [hrest, List.append_assoc, List.append_assoc, List.append_assoc]
      · exact not_le.mp fun hle => hint ⟨hle, hf, he⟩

/-- The integer that a number begins with. -/
theorem parseNumber_sound {v : Value} (h : parseNumber tooBig s = .ok (v, r)) :
    ∃ t, s = t ++ r ∧ NumberText tooBig t v := by
  obtain ⟨t, ht⟩ : ∃ t, s = signText (consume minus s).isSome ++ t ∧ t = (consume minus s).getD s := by
    cases hminus : consume minus s with
    | none => exact ⟨s, rfl, rfl⟩
    | some t => exact ⟨t, (consume_eq_some (by decide)).mp hminus, rfl⟩
  rw [parseNumber] at h
  simp only [← ht.2] at h
  generalize (consume minus s).isSome = negative at ht h
  obtain ⟨rfl, -⟩ := ht
  split at h
  · next hzero =>
    obtain ⟨t, rfl⟩ : ∃ t', t = 48 :: t' := ⟨_, eq_cons_of_peek (by decide) hzero⟩
    have hread : ReadsInt negative [48] t ⟨0, false, false, t⟩ :=
      ⟨rfl, iff_of_true rfl (Nat.zero_le _), fun _ => rfl, fun _ => Nat.zero_le _⟩
    exact parseTail_sound ⟨List.cons_ne_nil _ _, List.forall_mem_singleton.mpr rfl, fun _ => rfl⟩ hread h
  · next hzero =>
    split at h
    · next hdigit =>
      obtain ⟨d, t, rfl⟩ : ∃ d t', t = d :: t' := ⟨_, _, eq_cons_of_peek (fun h0 => by rw [h0] at hdigit; cases hdigit) rfl⟩
      rw [peek_cons] at hzero hdigit h
      have hnumeral : Numeral (d :: t.takeWhile isDigit) :=
        ⟨List.cons_ne_nil _ _, List.forall_mem_cons.mpr ⟨hdigit, takeWhile_digits t⟩, fun hhead => absurd (Option.some.inj hhead) hzero⟩
      have hsplit : d :: t = (d :: t.takeWhile isDigit) ++ t.dropWhile isDigit := by
        rw [List.cons_append, ← digits_split]
      rw [List.tail_cons, hsplit] at h
      rw [hsplit]
      exact parseTail_sound hnumeral (parseInt_reads negative hdigit t) h
    · cases h

theorem Numeral.cases (h : Numeral ds) : ds = [48] ∨ ∃ d ds', ds = d :: ds' ∧ d ≠ 48 ∧ isDigit d ∧ ∀ c ∈ ds', isDigit c := by
  cases ds with
  | nil => exact absurd rfl h.ne_nil
  | cons d ds =>
    by_cases hzero : d = 48
    · exact Or.inl (h.plain (congrArg some hzero))
    · exact Or.inr ⟨d, ds, rfl, hzero, List.forall_mem_cons.mp h.digits⟩

theorem parseNumber_numeral (tooBig : Bytes → Bool) (negative : Bool) (hds : Numeral ds) {rest : Bytes} (hrest : isDigit (peek rest) = false) :
    ∃ n, ReadsInt negative ds rest n ∧ parseNumber tooBig (signText negative ++ (ds ++ rest)) =
      parseTail tooBig (signText negative ++ (ds ++ rest)) negative n := by
  have hdigit : isDigit (peek (ds ++ rest)) = true := peek_digits ⟨hds.ne_nil, hds.digits⟩ rest
  have hsign : (consume minus (signText negative ++ (ds ++ rest))).isSome = negative ∧
      (consume minus (signText negative ++ (ds ++ rest))).getD (signText negative ++ (ds ++ rest)) = ds ++ rest := by
    cases negative with
    | true => exact ⟨rfl, rfl⟩
    | false =>
      have hnone : consume minus (ds ++ rest) = none := consume_eq_none.mpr (ne_of_isDigit hdigit (by decide))
      rw [signText, if_neg (by decide), List.nil_append, hnone]
      exact ⟨rfl, rfl⟩
  rw [parseNumber]
  simp only [hsign.1, hsign.2]
  obtain rfl | ⟨d, ds, rfl, hzero, hd, hds⟩ := Numeral.cases hds
  · exact ⟨⟨0, false, false, rest⟩, ⟨rfl, iff_of_true rfl (Nat.zero_le _), fun _ => rfl, fun _ => Nat.zero_le _⟩, if_pos rfl⟩
  · have hread := parseInt_reads negative hd (ds ++ rest)
    rw [(dropWhile_digits hds hrest).1, (dropWhile_digits hds hrest).2] at hread
    refine ⟨_, hread, ?_⟩
    rw [List.cons_append, peek_cons, if_neg hzero, if_pos hd, List.tail_cons]

theorem Exponent.stops {e : Bytes} (he : Exponent e) (hr : Stops r) :
    isDigit (peek (e ++ r)) = false ∧ peek (e ++ r) ≠ point := by
  cases he with
  | none => exact ⟨hr.digit, hr.point⟩
  | some he => rcases he with rfl | rfl <;> exact ⟨by rw [List.cons_append, peek_cons]; decide, by rw [List.cons_append, peek_cons]; decide⟩

theorem parseNumber_complete {t : Bytes} {v : Value} (h : NumberText tooBig t v) (hr : Stops r) :
    parseNumber tooBig (t ++ r) = .ok (v, r) := by
  cases h with
  | @int negative ds hds hle =>
    obtain ⟨n, hread, hnumber⟩ := parseNumber_numeral tooBig negative hds hr.digit
    rw [List.append_assoc, hnumber, parseTail_eq (f := []) (e := []) hread rfl
      (parseFraction_complete .none hr.digit hr.point) (parseExponent_complete .none hr), if_pos ⟨hle, rfl, rfl⟩]
  | @double negative ds f e hds hf he hdouble hbig =>
    obtain ⟨hdigit, hpoint⟩ := he.stops hr
    have hstop : isDigit (peek (f ++ (e ++ r))) = false := by
      cases hf with
      | none => exact hdigit
      | some => rw [List.cons_append, peek_cons]; decide
    obtain ⟨n, hread, hnumber⟩ := parseNumber_numeral tooBig negative hds hstop
    have hint : ¬ (value 0 ds ≤ maxInt negative ∧ f = [] ∧ e = []) :=
      fun h => absurd h.1 (not_le.mpr (hdouble h.2.1 h.2.2))
    rw [List.append_assoc, List.append_assoc, List.append_assoc, hnumber, parseTail_eq hread rfl
      (parseFraction_complete hf hdigit hpoint) (parseExponent_complete he hr), if_neg hint, if_neg (by rw [hbig]; decide)]

end NoncesHeatmap.Json
