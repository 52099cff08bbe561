import NoncesHeatmap.Json.Parser

/-! # The errors of the reader

Whatever phrase the reader is at, it goes on or stops in the text that it was given: what is left of it is an
end of that text, and so is what is left at the offset of an error. The fuel lasts, so that every error has a
code of the source. -/

namespace NoncesHeatmap.Json
open Numerals
set_option autoImplicit false

variable {flags : ParseFlags} {tooBig : Bytes → Bool} {s t r : Bytes} {c : UInt8} {fuel : ℕ} {α β : Type} {left : α → Bytes}

/-- A phrase that reads from `s`: `left` is the text that is left of it. -/
def Reads (s : Bytes) (left : α → Bytes) : ParseResult α → Prop
  | .ok a => left a <:+ s
  | .error e => e.code ≠ .none ∧ e.rest <:+ s

theorem Reads.mono {x : ParseResult α} (h : Reads t left x) (hs : t <:+ s) : Reads s left x := by
  cases x with
  | ok a => exact List.IsSuffix.trans h hs
  | error e => exact ⟨h.1, h.2.trans hs⟩

/-- One phrase after another. -/
theorem Reads.bind {left' : β → Bytes} {x : ParseResult α} {f : α → ParseResult β} (hx : Reads s left x)
    (hf : ∀ a, x = .ok a → Reads (left a) left' (f a)) : Reads s left' (x >>= f) := by
  cases x with
  | ok a => exact (hf a rfl).mono hx
  | error e => exact hx

theorem Reads.error {code : ParseErrorCode} (hcode : code ≠ .none) (h : r <:+ s) :
    Reads s left (.error ⟨code, r⟩) := ⟨hcode, h⟩

theorem tail_suffix (s : Bytes) : s.tail <:+ s := List.tail_suffix s

theorem consume_suffix (h : consume c s = some r) : r <:+ s := by
  rw [consume] at h
  split at h
  · obtain rfl := Option.some.inj h
    exact tail_suffix s
  · cases h

theorem getD_consume_suffix (c : UInt8) (s : Bytes) : (consume c s).getD s <:+ s := by
  cases h : consume c s with
  | none => exact List.suffix_refl s
  | some r => exact consume_suffix h

/-! ## White space and comments -/

theorem skipWhitespace_suffix (s : Bytes) : skipWhitespace s <:+ s := List.dropWhile_suffix _

theorem skipBlock_reads (s : Bytes) : Reads s id (skipBlock s) := by
  induction s with
  | nil => exact .error (by decide) (List.suffix_refl _)
  | cons c s ih =>
    rw [skipBlock]
    split
    · exact .error (by decide) (List.suffix_refl _)
    · split
      · cases hclose : consume slash s with
        | none => exact ih.mono (List.suffix_cons c s)
        | some r => exact (consume_suffix hclose).trans (List.suffix_cons c s)
      · exact ih.mono (List.suffix_cons c s)

theorem skipLine_suffix (s : Bytes) : skipLine s <:+ s := by
  induction s with
  | nil => exact List.suffix_refl _
  | cons c s ih =>
    rw [skipLine]
    split
    · exact List.suffix_refl _
    · split
      · exact List.suffix_cons c s
      · exact ih.trans (List.suffix_cons c s)

theorem skipComments_reads (hfuel : s.length < fuel) : Reads s id (skipComments fuel s) := by
  induction fuel generalizing s with
  | zero => exact absurd hfuel (Nat.not_lt_zero _)
  | succ fuel ih =>
    have hskipped : ∀ {t r : Bytes}, s = slash :: t → r <:+ t → Reads r id (skipComments fuel (skipWhitespace r)) := by
      rintro t r rfl hr
      have hlength := ((skipWhitespace_suffix r).trans hr).length_le
      rw [List.length_cons] at hfuel
      exact (ih (by omega)).mono (skipWhitespace_suffix r)
    rw [skipComments]
    cases hslash : consume slash s with
    | none => exact List.suffix_refl s
    | some t =>
      have hs := (consume_eq_some (by decide)).mp hslash
      dsimp only
      cases hblock : consume star t with
      | some r =>
        have hr := consume_suffix hblock
        refine Reads.bind ((skipBlock_reads r).mono (hr.trans (consume_suffix hslash))) fun u hu => ?_
        have hread := skipBlock_reads r
        rw [hu] at hread
        exact hskipped hs (hread.trans hr)
      | none =>
        dsimp only
        cases hline : consume slash t with
        | some r =>
          have hr := (skipLine_suffix r).trans (consume_suffix hline)
          exact (hskipped hs hr).mono (hr.trans (consume_suffix hslash))
        | none => exact .error (by decide) (consume_suffix hslash)

theorem skip_reads (flags : ParseFlags) (s : Bytes) : Reads s id (skipWhitespaceAndComments flags s) := by
  have hlength := (skipWhitespace_suffix s).length_le
  rw [skipWhitespaceAndComments]
  split
  · exact (skipComments_reads (by omega)).mono (skipWhitespace_suffix s)
  · exact skipWhitespace_suffix s

/-- The text after a skip is an end of the text before it. -/
theorem skip_suffix (h : skipWhitespaceAndComments flags s = .ok r) : r <:+ s := by
  have hreads := skip_reads flags s
  rwa [h] at hreads

/-- A skip and what is read after it. -/
theorem Reads.skip {f : Bytes → ParseResult α} (hf : ∀ t, t <:+ s → Reads t left (f t)) :
    Reads s left (skipWhitespaceAndComments flags s >>= f) :=
  Reads.bind (skip_reads flags s) fun t ht => hf t (skip_suffix ht)

/-! ## Literals, strings and numbers -/

theorem parseLiteral_reads (v : Value) (letters s : Bytes) : Reads s Prod.snd (parseLiteral v letters s) := by
  induction letters generalizing s with
  | nil => exact List.suffix_refl s
  | cons letter letters ih =>
    rw [parseLiteral]
    cases hletter : consume letter s with
    | some r => exact (ih r).mono (consume_suffix hletter)
    | none => exact .error (by decide) (List.suffix_refl s)

theorem parseHex4_reads {offset : Bytes} (i n : ℕ) (hs : s <:+ offset) : Reads offset Prod.snd (parseHex4 offset i n s) := by
  induction i generalizing n s with
  | zero => exact hs
  | succ i ih =>
    have htail : s.tail <:+ offset := (tail_suffix s).trans hs
    rw [parseHex4]
    split
    · exact ih _ htail
    · split
      · exact ih _ htail
      · split
        · exact ih _ htail
        · exact .error (by decide) (List.suffix_refl _)

theorem parseEscape_reads (s : Bytes) : Reads s Prod.snd (parseEscape s) := by
  have htail : s.tail.tail <:+ s := (tail_suffix _).trans (tail_suffix s)
  -- the digits are read against the offset of the escape, so the rule for sequences starts from it
  have hex : ∀ {β : Type} {left : β → Bytes} {f : ℕ × Bytes → ParseResult β} {r : Bytes}, r <:+ s →
      (∀ a, a.2 <:+ s → Reads s left (f a)) → Reads s left (parseHex4 s 4 0 r >>= f) := by
    intro β left f r hr hf
    have hreads := parseHex4_reads 4 0 hr
    cases hhex : parseHex4 s 4 0 r with
    | ok a =>
      rw [hhex] at hreads
      exact hf a hreads
    | error e =>
      rw [hhex] at hreads
      exact hreads
  rw [parseEscape]
  dsimp only
  split
  · exact htail
  · split
    · refine hex htail fun a ha => ?_
      obtain ⟨codepoint, u⟩ := a
      dsimp only
      split
      · cases hpair : (consume backslash u).bind (consume letterU) with
        | none => exact .error (by decide) (List.suffix_refl s)
        | some w =>
          obtain ⟨u', hu', hw⟩ := Option.bind_eq_some_iff.mp hpair
          have hrest := ((consume_suffix hw).trans (consume_suffix hu')).trans ha
          refine hex hrest fun b hb => ?_
          split
          · exact .error (by decide) (List.suffix_refl s)
          · exact hb
      · exact ha
    · exact .error (by decide) (List.suffix_refl s)

theorem parseChars_reads (hfuel : s.length < fuel) : Reads s Prod.snd (parseChars fuel s) := by
  induction fuel generalizing s with
  | zero => exact absurd hfuel (Nat.not_lt_zero _)
  | succ fuel ih =>
    rw [parseChars]
    dsimp only
    split
    · next hback =>
      refine Reads.bind (parseEscape_reads s) fun a ha => ?_
      have hlength := (parseEscape_sound hback ha).head.2
      refine Reads.bind (ih (by omega)) fun b _ => ?_
      exact List.suffix_refl b.2
    · split
      · exact tail_suffix s
      · next hquote =>
        split
        · split
          · exact .error (by decide) (List.suffix_refl s)
          · exact .error (by decide) (List.suffix_refl s)
        · next hlow =>
          have hpeek : peek s ≠ 0 := fun h0 => hlow (by rw [h0]; decide)
          have hs := congrArg List.length (eq_cons_of_peek hpeek rfl)
          rw [List.length_cons] at hs
          have hrest : Reads s.tail Prod.snd (parseChars fuel s.tail) := ih (by omega)
          refine Reads.bind (hrest.mono (tail_suffix s)) fun b _ => ?_
          exact List.suffix_refl b.2

theorem parseString_reads (h : peek s = quote) : Reads s Prod.snd (parseString s) := by
  have hs := eq_cons_of_peek (by decide) h
  rw [hs, parseString, List.tail_cons]
  exact (parseChars_reads (Nat.lt_succ_self _)).mono (List.suffix_cons _ _)

theorem parseDigits_suffix (limit : ℕ) (last : UInt8) (i : ℕ) (s : Bytes) : (parseDigits limit last i s).2.2 <:+ s := by
  induction s generalizing i with
  | nil => exact List.suffix_refl _
  | cons c s ih =>
    rw [parseDigits]
    split
    · split
      · exact List.suffix_refl _
      · exact (ih _).trans (List.suffix_cons c s)
    · exact List.suffix_refl _

theorem parseNarrow_suffix (negative : Bool) (i : ℕ) (s : Bytes) : (parseNarrow negative i s).2.2 <:+ s := by
  rw [parseNarrow]
  split <;> exact parseDigits_suffix _ _ _ _

theorem parseWide_suffix (negative : Bool) (i : ℕ) (s : Bytes) : (parseWide negative i s).2.2 <:+ s := by
  rw [parseWide]
  split <;> exact parseDigits_suffix _ _ _ _

theorem parseInt_suffix (negative : Bool) (i : ℕ) (s : Bytes) : (parseInt negative i s).rest <:+ s := by
  rw [parseInt]
  dsimp only
  split
  · exact (parseWide_suffix _ _ _).trans (parseNarrow_suffix _ _ _)
  · exact parseNarrow_suffix _ _ _

theorem parseFraction_reads (s : Bytes) : Reads s id (parseFraction s) := by
  rw [parseFraction]
  cases hpoint : consume point s with
  | none => exact List.suffix_refl s
  | some t =>
    dsimp only
    split
    · exact (List.dropWhile_suffix _).trans (consume_suffix hpoint)
    · exact .error (by decide) (consume_suffix hpoint)

theorem consume_or_suffix {d : UInt8} (h : (consume c s).or (consume d s) = some r) : r <:+ s := by
  rcases Option.or_eq_some_iff.mp h with hc | ⟨-, hd⟩
  · exact consume_suffix hc
  · exact consume_suffix hd

theorem parseExponent_reads (s : Bytes) : Reads s id (parseExponent s) := by
  rw [parseExponent]
  cases hletter : (consume 101 s).or (consume 69 s) with
  | none => exact List.suffix_refl s
  | some t =>
    have hsign : ((consume plus t).or (consume minus t)).getD t <:+ s := by
      refine List.IsSuffix.trans ?_ (consume_or_suffix hletter)
      cases hor : (consume plus t).or (consume minus t) with
      | none => exact List.suffix_refl t
      | some u => exact consume_or_suffix hor
    dsimp only
    split
    · exact (List.dropWhile_suffix _).trans hsign
    · exact .error (by decide) hsign

theorem parseTail_reads (tooBig : Bytes → Bool) {start : Bytes} (negative : Bool) {n : Significand} (hn : n.rest <:+ start) :
    Reads start Prod.snd (parseTail tooBig start negative n) := by
  have hdigits : (if n.useDouble then n.rest.dropWhile isDigit else n.rest) <:+ start := by
    split
    · exact (List.dropWhile_suffix _).trans hn
    · exact hn
  rw [parseTail]
  dsimp only
  revert hdigits
  generalize (if n.useDouble then n.rest.dropWhile isDigit else n.rest) = s
  intro hdigits
  -- an error of a number that is too big is at its start, so both phrases are taken from there
  have hfraction := parseFraction_reads s
  cases hf : parseFraction s with
  | error e =>
    rw [hf] at hfraction
    exact ⟨hfraction.1, hfraction.2.trans hdigits⟩
  | ok fraction =>
    rw [hf] at hfraction
    have hexponent := parseExponent_reads fraction
    cases he : parseExponent fraction with
    | error e =>
      rw [he] at hexponent
      simp only [bind, Except.bind, he]
      exact ⟨hexponent.1, (hexponent.2.trans hfraction).trans hdigits⟩
    | ok r =>
      rw [he] at hexponent
      have hr : r <:+ start := (hexponent.trans hfraction).trans hdigits
      simp only [bind, Except.bind, he]
      split
      · split
        · exact .error (by decide) (List.suffix_refl _)
        · exact hr
      · exact hr

theorem parseNumber_reads (tooBig : Bytes → Bool) (s : Bytes) : Reads s Prod.snd (parseNumber tooBig s) := by
  have hsign := getD_consume_suffix minus s
  rw [parseNumber]
  split
  · exact parseTail_reads tooBig _ ((tail_suffix _).trans hsign)
  · split
    · exact parseTail_reads tooBig _ (((parseInt_suffix _ _ _).trans (tail_suffix _)).trans hsign)
    · exact .error (by decide) hsign

/-! ## Values -/

mutual

theorem parseValue_reads (fuel : ℕ) {s : Bytes} (hfuel : 3 * s.length + 1 ≤ fuel) :
    Reads s Prod.snd (parseValue flags tooBig fuel s) := by
  match fuel with
  | 0 => exact absurd hfuel (Nat.not_succ_le_zero _)
  | fuel + 1 =>
    have hopen : ∀ {c : UInt8}, c ≠ 0 → peek s = c → 3 * s.tail.length + 3 ≤ fuel := by
      intro c hc hpeek
      have hs := congrArg List.length (eq_cons_of_peek hc hpeek)
      rw [List.length_cons] at hs
      omega
    rw [parseValue]
    split
    · exact (parseLiteral_reads _ _ _).mono (tail_suffix s)
    · split
      · exact (parseLiteral_reads _ _ _).mono (tail_suffix s)
      · split
        · exact (parseLiteral_reads _ _ _).mono (tail_suffix s)
        · split
          · next hquote => exact Reads.bind (parseString_reads hquote) fun a _ => List.suffix_refl a.2
          · split
            · next hbrace => exact (parseObject_reads fuel (hopen (by decide) hbrace)).mono (tail_suffix s)
            · split
              · next hbracket => exact (parseArray_reads fuel (hopen (by decide) hbracket)).mono (tail_suffix s)
              · exact parseNumber_reads tooBig s

theorem parseArray_reads (fuel : ℕ) {s : Bytes} (hfuel : 3 * s.length + 3 ≤ fuel) :
    Reads s Prod.snd (parseArray flags tooBig fuel s) := by
  match fuel with
  | 0 => exact absurd hfuel (Nat.not_succ_le_zero _)
  | fuel + 1 =>
    rw [parseArray]
    refine Reads.skip fun t ht => ?_
    have hlength := ht.length_le
    cases hclose : consume rightBracket t with
    | some r => exact consume_suffix hclose
    | none =>
      exact Reads.bind (parseElements_reads fuel (by omega)) fun a _ => List.suffix_refl a.2

theorem parseElements_reads (fuel : ℕ) {s : Bytes} (hfuel : 3 * s.length + 2 ≤ fuel) :
    Reads s Prod.snd (parseElements flags tooBig fuel s) := by
  match fuel with
  | 0 => exact absurd hfuel (Nat.not_succ_le_zero _)
  | fuel + 1 =>
    rw [parseElements]
    refine Reads.bind (parseValue_reads fuel (by omega)) fun a ha => ?_
    obtain ⟨v, s1⟩ := a
    have hvalue := (parseValue_sound fuel ha).length
    refine Reads.skip fun s2 hs2 => ?_
    have hskip : s2.length ≤ s1.length := hs2.length_le
    cases hcomma : consume comma s2 with
    | some s3 =>
      have hs3 := (consume_suffix hcomma).length_le
      refine Reads.mono (Reads.skip fun s4 hs4 => ?_) (consume_suffix hcomma)
      have hnext := hs4.length_le
      split
      · exact tail_suffix s4
      · exact Reads.bind (parseElements_reads fuel (by omega)) fun b _ => List.suffix_refl b.2
    | none =>
      dsimp only
      cases hclose : consume rightBracket s2 with
      | some s3 => exact consume_suffix hclose
      | none => exact .error (by decide) (List.suffix_refl s2)

theorem parseObject_reads (fuel : ℕ) {s : Bytes} (hfuel : 3 * s.length + 3 ≤ fuel) :
    Reads s Prod.snd (parseObject flags tooBig fuel s) := by
  match fuel with
  | 0 => exact absurd hfuel (Nat.not_succ_le_zero _)
  | fuel + 1 =>
    rw [parseObject]
    refine Reads.skip fun t ht => ?_
    have hlength := ht.length_le
    cases hclose : consume rightBrace t with
    | some r => exact consume_suffix hclose
    | none =>
      exact Reads.bind (parseMembers_reads fuel (by omega)) fun a _ => List.suffix_refl a.2

theorem parseMembers_reads (fuel : ℕ) {s : Bytes} (hfuel : 3 * s.length + 2 ≤ fuel) :
    Reads s Prod.snd (parseMembers flags tooBig fuel s) := by
  match fuel with
  | 0 => exact absurd hfuel (Nat.not_succ_le_zero _)
  | fuel + 1 =>
    rw [parseMembers]
    split
    · exact .error (by decide) (List.suffix_refl s)
    · next hquote =>
      rw [not_not] at hquote
      refine Reads.bind (parseString_reads hquote) fun a ha => ?_
      obtain ⟨name, s1⟩ := a
      rw [eq_cons_of_peek (by decide) hquote] at ha
      have hname := (parseString_eq_ok.mp ha).length
      rw [List.length_tail] at hname
      refine Reads.skip fun s2 hs2 => ?_
      have hafter : s2.length ≤ s1.length := hs2.length_le
      cases hcolon : consume colon s2 with
      | none => exact .error (by decide) (List.suffix_refl s2)
      | some s3 =>
        have hs3 := (consume_suffix hcolon).length_le
        refine Reads.mono (Reads.skip fun s4 hs4 => ?_) (consume_suffix hcolon)
        have hbefore := hs4.length_le
        refine Reads.bind (parseValue_reads fuel (by omega)) fun b hb => ?_
        obtain ⟨v, s5⟩ := b
        have hvalue := (parseValue_sound fuel hb).length
        refine Reads.skip fun s6 hs6 => ?_
        have hskip : s6.length ≤ s5.length := hs6.length_le
        split
        · refine Reads.mono (Reads.skip fun s7 hs7 => ?_) (tail_suffix s6)
          have hnext := (hs7.trans (tail_suffix s6)).length_le
          split
          · exact tail_suffix s7
          · exact Reads.bind (parseMembers_reads fuel (by omega)) fun d _ => List.suffix_refl d.2
        · split
          · exact tail_suffix s6
          · exact .error (by decide) (List.suffix_refl s6)

end

/-- An error has a code, and its offset is in the text or at its end. -/
theorem parse_error {e : ParseError} (h : parse flags tooBig s = .error e) : e.code ≠ .none ∧ e.rest <:+ s := by
  have hreads : Reads s (fun _ => s) (parse flags tooBig s) := by
    rw [parse]
    have hskip := skip_reads flags s
    cases hs1 : skipWhitespaceAndComments flags s with
    | error e =>
      rw [hs1] at hskip
      exact hskip
    | ok s1 =>
      have hsuffix := skip_suffix hs1
      simp only [bind, Except.bind]
      split
      · exact .error (by decide) hsuffix
      · have hvalue : Reads s1 Prod.snd (parseValue flags tooBig (3 * s1.length + 1) s1) := parseValue_reads _ le_rfl
        cases hv : parseValue flags tooBig (3 * s1.length + 1) s1 with
        | error e =>
          rw [hv] at hvalue
          exact ⟨hvalue.1, hvalue.2.trans hsuffix⟩
        | ok a =>
          rw [hv] at hvalue
          have hafter := skip_reads flags a.2
          dsimp only
          cases hs3 : skipWhitespaceAndComments flags a.2 with
          | error e =>
            rw [hs3] at hafter
            exact ⟨hafter.1, (hafter.2.trans hvalue).trans hsuffix⟩
          | ok s3 =>
            rw [hs3] at hafter
            dsimp only
            split
            · exact .error (by decide) ((hafter.trans hvalue).trans hsuffix)
            · exact List.suffix_refl s
  rw [h] at hreads
  exact hreads

end NoncesHeatmap.Json
