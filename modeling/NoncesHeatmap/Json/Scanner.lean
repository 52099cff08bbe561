import Mathlib.Data.List.Infix
import NoncesHeatmap.Json.Reader

/-! # The scanner and the grammar

White space, comments and strings are read exactly as the grammar derives them. A skip goes as far as it
can, so that what it leaves is `Solid`. -/

namespace NoncesHeatmap.Json
open Numerals
set_option autoImplicit false

variable {c : UInt8} {s r : Bytes} {fuel : ℕ}

theorem bind_eq_ok {ε α β : Type} {x : Except ε α} {f : α → Except ε β} {b : β} :
    (x >>= f) = .ok b ↔ ∃ a, x = .ok a ∧ f a = .ok b := by
  cases x with
  | error e => exact iff_of_false (fun h => nomatch h) (fun ⟨_, h, _⟩ => nomatch h)
  | ok a => exact ⟨fun h => ⟨a, rfl, h⟩, fun ⟨_, ha, h⟩ => Except.ok.inj ha ▸ h⟩

/-! ## One byte -/

@[simp] theorem peek_cons (c : UInt8) (s : Bytes) : peek (c :: s) = c := rfl

theorem bind_of_ok {ε α β : Type} {x : Except ε α} {f : α → Except ε β} {a : α} (h : x = .ok a) : (x >>= f) = f a := by
  subst h
  rfl

theorem eq_cons_of_peek (hc : c ≠ 0) (h : peek s = c) : s = c :: s.tail := by
  cases s with
  | nil => exact absurd h.symm hc
  | cons d s => rw [← h, peek_cons, List.tail_cons]

@[simp] theorem consume_cons (c : UInt8) (s : Bytes) : consume c (c :: s) = some s := if_pos rfl

theorem consume_eq_some (hc : c ≠ 0) : consume c s = some r ↔ s = c :: r := by
  constructor
  · intro h
    rw [consume] at h
    split at h
    · next hpeek => rw [eq_cons_of_peek hc hpeek, Option.some.inj h]
    · cases h
  · rintro rfl
    exact consume_cons c r

theorem consume_eq_none : consume c s = none ↔ peek s ≠ c := by
  rw [consume]
  split
  · next h => exact iff_of_false (Option.some_ne_none _) (not_not_intro h)
  · next h => exact iff_of_true rfl h

/-! ## White space and comments -/

/-- The text does not begin with something to skip. -/
def Solid (comments : Bool) (s : Bytes) : Prop := isSpace (peek s) = false ∧ (comments = true → peek s ≠ slash)

theorem skipWhitespace_solid (h : isSpace (peek s) = false) : skipWhitespace s = s := by
  cases s with
  | nil => rfl
  | cons c s => exact List.dropWhile_cons_of_neg (by rw [peek_cons] at h; rw [h]; decide)

theorem skipWhitespace_space (h : isSpace c = true) (s : Bytes) : skipWhitespace (c :: s) = skipWhitespace s :=
  List.dropWhile_cons_of_pos h

theorem skipWhitespace_slash (s : Bytes) : skipWhitespace (slash :: s) = slash :: s :=
  List.dropWhile_cons_of_neg (by decide)

theorem consume_ne {d : UInt8} (h : c ≠ d) (s : Bytes) : consume d (c :: s) = none := if_neg h

theorem blank_skipWhitespace {comments : Bool} (h : Blank comments (skipWhitespace s) r) : Blank comments s r := by
  induction s with
  | nil => exact h
  | cons c s ih =>
    by_cases hc : isSpace c = true
    · rw [skipWhitespace_space hc] at h
      exact .space hc (ih h)
    · rwa [skipWhitespace, List.dropWhile_cons_of_neg hc] at h

theorem isSpace_skipWhitespace (s : Bytes) : isSpace (peek (skipWhitespace s)) = false := by
  induction s with
  | nil => rfl
  | cons c s ih =>
    by_cases hc : isSpace c = true
    · rwa [skipWhitespace_space hc]
    · rw [skipWhitespace, List.dropWhile_cons_of_neg hc, peek_cons, Bool.eq_false_of_not_eq_true hc]

theorem infix_cons_iff {t : Bytes} :
    [star, slash] <:+: c :: t ↔ c = star ∧ peek t = slash ∨ [star, slash] <:+: t := by
  have hhead : [slash] <+: t ↔ peek t = slash := by
    cases t with
    | nil => exact iff_of_false (by simp) (by decide)
    | cons d t => rw [List.cons_prefix_cons, peek_cons, and_iff_left (List.nil_prefix), eq_comm]
  rw [List.infix_cons_iff, List.cons_prefix_cons, hhead, eq_comm (a := star)]

theorem peek_append {body rest : Bytes} : peek (body ++ star :: rest) = peek (body ++ [star]) := by
  cases body <;> rfl

theorem skipBlock_sound (h : skipBlock s = .ok r) :
    ∃ body, s = body ++ star :: slash :: r ∧ 0 ∉ body ∧ ¬ [star, slash] <:+: body ++ [star] := by
  induction s with
  | nil => cases h
  | cons c s ih =>
    have hnext : ∀ body, s = body ++ star :: slash :: r ∧ 0 ∉ body ∧ ¬ [star, slash] <:+: body ++ [star] → c ≠ 0 →
        ¬ (c = star ∧ peek s = slash) →
        ∃ body, c :: s = body ++ star :: slash :: r ∧ 0 ∉ body ∧ ¬ [star, slash] <:+: body ++ [star] := by
      rintro body ⟨rfl, hzero, hinside⟩ hc hopen
      rw [peek_append] at hopen
      exact ⟨c :: body, rfl, fun hmem => (List.mem_cons.mp hmem).elim (fun h0 => hc h0.symm) hzero,
        fun hin => (infix_cons_iff.mp hin).elim hopen hinside⟩
    rw [skipBlock] at h
    split at h
    · cases h
    · next hc =>
      split at h
      · next hstar =>
        split at h
        · next rest hclose =>
          obtain rfl := Except.ok.inj h
          have hs := (consume_eq_some (by decide)).mp hclose
          exact ⟨[], by rw [hstar, hs, List.nil_append], List.not_mem_nil, by decide⟩
        · next hopen =>
          obtain ⟨body, hbody⟩ := ih h
          exact hnext body hbody hc fun hboth => consume_eq_none.mp hopen hboth.2
      · next hstar =>
        obtain ⟨body, hbody⟩ := ih h
        exact hnext body hbody hc fun hboth => hstar hboth.1

theorem skipBlock_complete {body : Bytes} (hzero : 0 ∉ body) (hinside : ¬ [star, slash] <:+: body ++ [star]) (r : Bytes) :
    skipBlock (body ++ star :: slash :: r) = .ok r := by
  induction body with
  | nil => rw [List.nil_append, skipBlock, if_neg (by decide), if_pos rfl, consume_cons]
  | cons c body ih =>
    rw [List.cons_append, infix_cons_iff, not_or] at hinside
    have hc : c ≠ 0 := fun h0 => hzero (h0 ▸ List.mem_cons_self)
    have hrest := ih (fun hmem => hzero (List.mem_cons_of_mem _ hmem)) hinside.2
    rw [List.cons_append, skipBlock, if_neg hc]
    by_cases hstar : c = star
    · have hopen : consume slash (body ++ star :: slash :: r) = none := by
        rw [consume_eq_none, peek_append]
        exact fun hslash => hinside.1 ⟨hstar, hslash⟩
      rw [if_pos hstar, hopen]
      exact hrest
    · rw [if_neg hstar]
      exact hrest

/-- A line comment ends with its line, or with the text. -/
theorem skipLine_cases (s : Bytes) :
    ∃ body, 0 ∉ body ∧ newline ∉ body ∧
      (s = body ++ newline :: skipLine s ∨ s = body ++ skipLine s ∧ peek (skipLine s) = 0) := by
  induction s with
  | nil => exact ⟨[], List.not_mem_nil, List.not_mem_nil, Or.inr ⟨rfl, rfl⟩⟩
  | cons c s ih =>
    rw [skipLine]
    split
    · next hc => exact ⟨[], List.not_mem_nil, List.not_mem_nil, Or.inr ⟨rfl, hc⟩⟩
    · next hc =>
      split
      · next hline => exact ⟨[], List.not_mem_nil, List.not_mem_nil, Or.inl (by rw [hline, List.nil_append])⟩
      · next hline =>
        obtain ⟨body, hzero, hfree, hbody⟩ := ih
        refine ⟨c :: body, fun hmem => (List.mem_cons.mp hmem).elim (fun h0 => hc h0.symm) hzero,
          fun hmem => (List.mem_cons.mp hmem).elim (fun h0 => hline h0.symm) hfree, ?_⟩
        rw [List.cons_append, List.cons_append, List.cons.injEq, List.cons.injEq]
        exact hbody.imp (fun h => ⟨rfl, h⟩) fun h => ⟨⟨rfl, h.1⟩, h.2⟩

theorem skipLine_append {body : Bytes} (hzero : 0 ∉ body) (hfree : newline ∉ body) (s : Bytes) :
    skipLine (body ++ s) = skipLine s := by
  induction body with
  | nil => rfl
  | cons c body ih =>
    rw [List.mem_cons, not_or] at hzero hfree
    rw [List.cons_append, skipLine, if_neg (Ne.symm hzero.1), if_neg (Ne.symm hfree.1), ih hzero.2 hfree.2]

theorem skipLine_newline (s : Bytes) : skipLine (newline :: s) = s := by
  rw [skipLine, if_neg (by decide), if_pos rfl]

theorem skipLine_ends (h : peek s = 0) : skipLine s = s := by
  cases s with
  | nil => rfl
  | cons c s => exact if_pos h

/-- What a skip that succeeds has passed over: blank text, or blank text and a comment that the text cuts off. -/
def Skipped (comments : Bool) (s r : Bytes) : Prop :=
  Blank comments s r ∨ peek r = 0 ∧ ∃ body, comments = true ∧ Blank comments s (slash :: slash :: (body ++ r)) ∧
    0 ∉ body ∧ newline ∉ body

/-- `SkipWhitespaceAndComments` with any fuel. -/
def skipFrom (comments : Bool) (fuel : ℕ) (s : Bytes) : ParseResult Bytes :=
  if comments then skipComments fuel (skipWhitespace s) else .ok (skipWhitespace s)

theorem skipped_step {comments : Bool} {s1 : Bytes} (hstep : ∀ t, Blank comments s1 t → Blank comments s t)
    (h : Skipped comments s1 r) : Skipped comments s r := by
  rcases h with h | ⟨hends, body, hcomments, h, hfree⟩
  · exact Or.inl (hstep _ h)
  · exact Or.inr ⟨hends, body, hcomments, hstep _ h, hfree⟩

theorem skipComments_ends (hends : peek s = 0) (h : skipComments fuel (skipWhitespace s) = .ok r) : s = r := by
  cases fuel with
  | zero => cases h
  | succ fuel =>
    have hnone : consume slash s = none := consume_eq_none.mpr (by rw [hends]; decide)
    rw [skipWhitespace_solid (by rw [hends]; rfl), skipComments, hnone] at h
    exact Except.ok.inj h

theorem skipComments_sound (h : skipComments fuel (skipWhitespace s) = .ok r) :
    Skipped true s r ∧ Solid true r := by
  induction fuel generalizing s with
  | zero => cases h
  | succ fuel ih =>
    rw [skipComments] at h
    split at h
    · next hnone =>
      obtain rfl := Except.ok.inj h
      exact ⟨Or.inl (blank_skipWhitespace (.nil _)), isSpace_skipWhitespace s, fun _ => consume_eq_none.mp hnone⟩
    · next s1 hslash =>
      rw [consume_eq_some (by decide)] at hslash
      have hblank : ∀ {t}, Blank true (slash :: s1) t → Blank true s t := fun ht => blank_skipWhitespace (hslash ▸ ht)
      split at h
      · next s2 hstar =>
        rw [consume_eq_some (by decide)] at hstar
        cases hskip : skipBlock s2 with
        | error e =>
          rw [hskip] at h
          cases h
        | ok s3 =>
          rw [hskip] at h
          obtain ⟨body, rfl, hzero, hinside⟩ := skipBlock_sound hskip
          obtain ⟨hskipped, hsolid⟩ := ih h
          refine ⟨skipped_step (fun t ht => hblank ?_) hskipped, hsolid⟩
          rw [hstar]
          exact .block rfl hzero hinside ht
      · split at h
        · next s2 hline =>
          rw [consume_eq_some (by decide)] at hline
          obtain ⟨hskipped, hsolid⟩ := ih h
          refine ⟨?_, hsolid⟩
          obtain ⟨body, hzero, hfree, hbody | ⟨hbody, hends⟩⟩ := skipLine_cases s2
          · refine skipped_step (fun t ht => hblank ?_) hskipped
            rw [hline, hbody]
            exact .line rfl hzero hfree ht
          · obtain rfl := skipComments_ends hends h
            refine Or.inr ⟨hends, body, rfl, hblank ?_, hzero, hfree⟩
            rw [hline, ← hbody]
            exact .nil _
        · cases h

theorem skip_sound {flags : ParseFlags} (h : skipWhitespaceAndComments flags s = .ok r) :
    Skipped flags.comments s r ∧ Solid flags.comments r := by
  rw [skipWhitespaceAndComments] at h
  split at h
  · next hcomments =>
    rw [hcomments]
    exact skipComments_sound h
  · next hcomments =>
    obtain rfl := Except.ok.inj h
    exact ⟨Or.inl (blank_skipWhitespace (.nil _)), isSpace_skipWhitespace s, fun h => absurd h hcomments⟩

/-- Within a document a skip passes over blank text. -/
theorem skip_blank {flags : ParseFlags} (h : skipWhitespaceAndComments flags s = .ok r) (hr : peek r ≠ 0) :
    Blank flags.comments s r :=
  (skip_sound h).1.resolve_right fun hends => hr hends.1

theorem skip_closing {flags : ParseFlags} (h : skipWhitespaceAndComments flags s = .ok r) (hr : peek r = 0) :
    Closing flags.comments s := by
  rcases (skip_sound h).1 with hblank | ⟨hends, body, hcomments, hblank, hzero, hfree⟩
  · exact .blank hblank hr
  · exact .line hcomments hblank hzero hfree hends

/-- Past blank text a skip goes on from where the text ends. -/
theorem skipFrom_blank {comments : Bool} {s1 : Bytes} (h : Blank comments s s1) (hfuel : s.length < fuel) :
    ∃ fuel', s1.length < fuel' ∧ skipFrom comments fuel s = skipFrom comments fuel' s1 := by
  induction h generalizing fuel with
  | nil s => exact ⟨fuel, hfuel, rfl⟩
  | @space c s r hc h ih =>
    rw [List.length_cons] at hfuel
    obtain ⟨fuel', hfuel', hskip⟩ := ih (show s.length < fuel by omega)
    exact ⟨fuel', hfuel', by rw [← hskip, skipFrom, skipFrom, skipWhitespace_space hc]⟩
  | @block body s r hcomments hzero hinside h ih =>
    obtain ⟨fuel, rfl⟩ := Nat.exists_eq_add_one_of_ne_zero (Nat.ne_zero_of_lt hfuel)
    simp only [List.length_cons, List.length_append] at hfuel
    obtain ⟨fuel', hfuel', hskip⟩ := ih (show s.length < fuel by omega)
    refine ⟨fuel', hfuel', ?_⟩
    rw [← hskip, skipFrom, skipFrom, if_pos hcomments, if_pos hcomments, skipWhitespace_slash, skipComments,
      consume_cons]
    simp only [consume_cons, skipBlock_complete hzero hinside]
    rfl
  | @line body s r hcomments hzero hfree h ih =>
    obtain ⟨fuel, rfl⟩ := Nat.exists_eq_add_one_of_ne_zero (Nat.ne_zero_of_lt hfuel)
    simp only [List.length_cons, List.length_append] at hfuel
    obtain ⟨fuel', hfuel', hskip⟩ := ih (show s.length < fuel by omega)
    refine ⟨fuel', hfuel', ?_⟩
    rw [← hskip, skipFrom, skipFrom, if_pos hcomments, if_pos hcomments, skipWhitespace_slash, skipComments,
      consume_cons]
    simp only [consume_ne (show slash ≠ star by decide), consume_cons, skipLine_append hzero hfree, skipLine_newline]

theorem skipFrom_solid {comments : Bool} (h : Solid comments s) (hfuel : s.length < fuel) :
    skipFrom comments fuel s = .ok s := by
  obtain ⟨fuel, rfl⟩ := Nat.exists_eq_add_one_of_ne_zero (Nat.ne_zero_of_lt hfuel)
  rw [skipFrom, skipWhitespace_solid h.1]
  split
  · next hcomments => rw [skipComments, consume_eq_none.mpr (h.2 hcomments)]
  · rfl

theorem skip_complete {flags : ParseFlags} (h : Blank flags.comments s r) (hr : Solid flags.comments r) :
    skipWhitespaceAndComments flags s = .ok r := by
  obtain ⟨fuel, hfuel, hskip⟩ := skipFrom_blank h (Nat.lt_succ_self _)
  exact hskip.trans (skipFrom_solid hr hfuel)

theorem solid_of_ends {comments : Bool} (h : peek s = 0) : Solid comments s := by
  rw [Solid, h]
  exact ⟨rfl, fun _ => by decide⟩

theorem skip_ends {flags : ParseFlags} (h : Closing flags.comments s) :
    ∃ r, skipWhitespaceAndComments flags s = .ok r ∧ peek r = 0 := by
  cases h with
  | @blank r hblank hends => exact ⟨r, skip_complete hblank (solid_of_ends hends), hends⟩
  | @line body r hcomments hblank hzero hfree hends =>
    obtain ⟨fuel, hfuel, hskip⟩ := skipFrom_blank hblank (Nat.lt_succ_self _)
    obtain ⟨fuel, rfl⟩ := Nat.exists_eq_add_one_of_ne_zero (Nat.ne_zero_of_lt hfuel)
    simp only [List.length_cons, List.length_append] at hfuel
    have hpeek : peek r = 0 := hends
    refine ⟨r, hskip.trans ?_, hpeek⟩
    rw [skipFrom, if_pos hcomments, skipWhitespace_slash, skipComments, consume_cons]
    simp only [consume_ne (show slash ≠ star by decide), consume_cons, skipLine_append hzero hfree, skipLine_ends hpeek]
    have hsolid : skipFrom true fuel r = .ok r := skipFrom_solid (solid_of_ends hpeek) (by omega)
    rwa [skipFrom, if_pos rfl] at hsolid

/-! ## Strings -/

theorem hexDigit_lt {d : ℕ} (h : hexDigit c = some d) : d < 16 := by
  have hc := c.toNat_lt
  rw [hexDigit] at h
  split at h
  · next hdigit =>
    obtain rfl := Option.some.inj h
    exact lt_trans (digit_lt hdigit) (by decide)
  · split at h
    · next hupper =>
      rw [UInt8.le_iff_toNat_le, UInt8.le_iff_toNat_le] at hupper
      have h70 : (70 : UInt8).toNat = 70 := rfl
      have hd := Option.some.inj h
      omega
    · split at h
      · next hlower =>
        rw [UInt8.le_iff_toNat_le, UInt8.le_iff_toNat_le] at hlower
        have h102 : (102 : UInt8).toNat = 102 := rfl
        have hd := Option.some.inj h
        omega
      · cases h

/-- One digit of `ParseHex4`. -/
theorem parseHex4_succ (offset : Bytes) (i n : ℕ) (s : Bytes) :
    parseHex4 offset (i + 1) n s =
      match hexDigit (peek s) with
      | some d => parseHex4 offset i (n * 16 + d) s.tail
      | none => .error ⟨.stringUnicodeEscapeInvalidHex, offset⟩ := by
  have hshift : n <<< 4 = n * 16 := Nat.shiftLeft_eq n 4
  have hdigit : isDigit (peek s) = true ↔ 48 ≤ peek s ∧ peek s ≤ 57 := by
    rw [isDigit, Bool.and_eq_true, decide_eq_true_eq, decide_eq_true_eq]
  rw [parseHex4, hexDigit, hshift, digit, if_congr hdigit rfl rfl]
  split
  · next h =>
    rw [UInt8.le_iff_toNat_le, UInt8.le_iff_toNat_le] at h
    have h48 : (48 : UInt8).toNat = 48 := rfl
    congr 1
    omega
  · split
    · next h =>
      rw [UInt8.le_iff_toNat_le, UInt8.le_iff_toNat_le] at h
      have h65 : (65 : UInt8).toNat = 65 := rfl
      congr 1
      omega
    · split
      · next h =>
        rw [UInt8.le_iff_toNat_le, UInt8.le_iff_toNat_le] at h
        have h97 : (97 : UInt8).toNat = 97 := rfl
        congr 1
        omega
      · rfl

theorem parseHex4_succ_eq_ok {offset : Bytes} {i n m : ℕ} :
    parseHex4 offset (i + 1) n s = .ok (m, r) ↔
      ∃ c d t, s = c :: t ∧ hexDigit c = some d ∧ parseHex4 offset i (n * 16 + d) t = .ok (m, r) := by
  rw [parseHex4_succ]
  constructor
  · intro h
    split at h
    · next d hd =>
      cases s with
      | nil =>
        have hnone : hexDigit (peek []) = none := by decide
        rw [hnone] at hd
        cases hd
      | cons c s => exact ⟨c, d, s, rfl, hd, h⟩
    · cases h
  · rintro ⟨c, d, t, rfl, hd, h⟩
    rw [peek_cons, hd]
    exact h

theorem parseHex4_eq_ok {offset : Bytes} {n : ℕ} :
    parseHex4 offset 4 0 s = .ok (n, r) ↔ ∃ ds, s = ds ++ r ∧ Hex4 ds n := by
  constructor
  · intro h
    obtain ⟨c1, d1, s, rfl, h1, h⟩ := parseHex4_succ_eq_ok.mp h
    obtain ⟨c2, d2, s, rfl, h2, h⟩ := parseHex4_succ_eq_ok.mp h
    obtain ⟨c3, d3, s, rfl, h3, h⟩ := parseHex4_succ_eq_ok.mp h
    obtain ⟨c4, d4, s, rfl, h4, h⟩ := parseHex4_succ_eq_ok.mp h
    obtain ⟨rfl, rfl⟩ := Prod.mk.inj (Except.ok.inj h)
    rw [Nat.zero_mul, Nat.zero_add]
    exact ⟨[c1, c2, c3, c4], rfl, .mk h1 h2 h3 h4⟩
  · rintro ⟨ds, rfl, @⟨c1, c2, c3, c4, d1, d2, d3, d4, h1, h2, h3, h4⟩⟩
    refine parseHex4_succ_eq_ok.mpr ⟨c1, d1, _, rfl, h1, parseHex4_succ_eq_ok.mpr ⟨c2, d2, _, rfl, h2,
      parseHex4_succ_eq_ok.mpr ⟨c3, d3, _, rfl, h3, parseHex4_succ_eq_ok.mpr ⟨c4, d4, _, rfl, h4, ?_⟩⟩⟩⟩
    rw [Nat.zero_mul, Nat.zero_add]
    rfl

theorem parseHex4_append (offset : Bytes) {ds : Bytes} {n : ℕ} (h : Hex4 ds n) (r : Bytes) :
    parseHex4 offset 4 0 (ds ++ r) = .ok (n, r) :=
  parseHex4_eq_ok.mpr ⟨ds, rfl, h⟩

theorem Hex4.lt {ds : Bytes} {n : ℕ} (h : Hex4 ds n) : n < 2 ^ 16 := by
  cases h with
  | mk h1 h2 h3 h4 =>
    have hd1 := hexDigit_lt h1
    have hd2 := hexDigit_lt h2
    have hd3 := hexDigit_lt h3
    have hd4 := hexDigit_lt h4
    omega

theorem encode_eq {n : ℕ} (h : n < 0x110000) : encode n = utf8 n := by
  have hlow : ∀ x : ℕ, 0x80 ||| (x &&& 0x3F) = 0x80 + x % 2 ^ 6 := by
    intro x
    have hmask : x &&& 0x3F = x % 2 ^ 6 := Nat.and_two_pow_sub_one_eq_mod x 6
    have hor : ∀ y : Fin 64, 0x80 ||| y.val = 0x80 + y.val := by decide
    rw [hmask]
    exact hor ⟨x % 2 ^ 6, Nat.mod_lt _ (by decide)⟩
  have htwo : ∀ x : ℕ, x < 2 ^ 5 → 0xC0 ||| (x &&& 0xFF) = 0xC0 + x := by
    intro x hx
    have hor : ∀ y : Fin 32, 0xC0 ||| (y.val &&& 0xFF) = 0xC0 + y.val := by decide
    exact hor ⟨x, hx⟩
  have hthree : ∀ x : ℕ, x < 2 ^ 4 → 0xE0 ||| (x &&& 0xFF) = 0xE0 + x := by
    intro x hx
    have hor : ∀ y : Fin 16, 0xE0 ||| (y.val &&& 0xFF) = 0xE0 + y.val := by decide
    exact hor ⟨x, hx⟩
  have hfour : ∀ x : ℕ, x < 2 ^ 3 → 0xF0 ||| (x &&& 0xFF) = 0xF0 + x := by
    intro x hx
    have hor : ∀ y : Fin 8, 0xF0 ||| (y.val &&& 0xFF) = 0xF0 + y.val := by decide
    exact hor ⟨x, hx⟩
  simp only [encode, utf8, Nat.shiftRight_eq_div_pow, hlow]
  by_cases h7 : n < 2 ^ 7
  · have hmask : n &&& 0xFF = n := by
      rw [Nat.and_two_pow_sub_one_eq_mod n 8]
      exact Nat.mod_eq_of_lt (by omega)
    rw [if_pos (show n ≤ 0x7F by omega), if_pos h7, hmask]
  · rw [if_neg (show ¬ n ≤ 0x7F by omega), if_neg h7]
    by_cases h11 : n < 2 ^ 11
    · rw [if_pos (show n ≤ 0x7FF by omega), if_pos h11, htwo _ (by omega)]
    · rw [if_neg (show ¬ n ≤ 0x7FF by omega), if_neg h11]
      by_cases h16 : n < 2 ^ 16
      · rw [if_pos (show n ≤ 0xFFFF by omega), if_pos h16, hthree _ (by omega)]
      · rw [if_neg (show ¬ n ≤ 0xFFFF by omega), if_neg h16, hfour _ (by omega)]

theorem pair_eq_encode {n m : ℕ} (hlead : IsLead n) (htrail : IsTrail m) :
    encode (((n - 0xD800) <<< 10 ||| (m - 0xDC00)) + 0x10000) = utf8 ((n - 0xD800) * 2 ^ 10 + (m - 0xDC00) + 0x10000) := by
  rw [IsLead] at hlead
  rw [IsTrail] at htrail
  rw [← Nat.shiftLeft_add_eq_or_of_lt (by omega), Nat.shiftLeft_eq, encode_eq (by omega)]

theorem mem_escaped {e c : UInt8} : (e, c) ∈ escaped ↔ escape e ≠ 0 ∧ escape e = c := by
  constructor
  · intro hmem
    have hall : escaped.all (fun pair => escape pair.1 != 0 && escape pair.1 == pair.2) = true := by decide +kernel
    have hpair := List.all_eq_true.mp hall (e, c) hmem
    rwa [Bool.and_eq_true, bne_iff_ne, beq_iff_eq] at hpair
  · rintro ⟨hne, rfl⟩
    rw [escape] at hne ⊢
    cases hlookup : escaped.lookup e with
    | none =>
      rw [hlookup] at hne
      exact absurd rfl hne
    | some c =>
      obtain ⟨l, l', hsplit, -⟩ := List.lookup_eq_some_iff.mp hlookup
      rw [hsplit]
      exact List.mem_append_right _ List.mem_cons_self

/-- The branch for a backslash reads one escape of the grammar. -/
theorem parseEscape_sound {bytes : Bytes} (hs : peek s = backslash) (h : parseEscape s = .ok (bytes, r)) :
    Escape s bytes r := by
  obtain ⟨s, rfl⟩ : ∃ s', s = backslash :: s' := ⟨_, eq_cons_of_peek (by decide) hs⟩
  rw [parseEscape, List.tail_cons] at h
  split at h
  · next hescape =>
    obtain ⟨rfl, rfl⟩ := Prod.mk.inj (Except.ok.inj h)
    have hpeek : peek s ≠ 0 := fun h0 => hescape (by rw [h0]; decide)
    rw [eq_cons_of_peek hpeek rfl]
    exact .letter (mem_escaped.mpr ⟨hescape, rfl⟩)
  · split at h
    · next hunicode =>
      obtain ⟨⟨n, s1⟩, hhex, h⟩ := bind_eq_ok.mp h
      obtain ⟨ds, hds, hn⟩ := parseHex4_eq_ok.mp hhex
      rw [eq_cons_of_peek (by decide) hunicode, hds]
      dsimp only at h
      split at h
      · next hlead =>
        split at h
        · cases h
        · next s2 hconsume =>
          obtain ⟨s3, hback, hu⟩ := Option.bind_eq_some_iff.mp hconsume
          rw [consume_eq_some (by decide)] at hback hu
          obtain ⟨⟨m, s4⟩, hhex', h⟩ := bind_eq_ok.mp h
          obtain ⟨es, hes, hm⟩ := parseHex4_eq_ok.mp hhex'
          dsimp only at h
          split at h
          · cases h
          · next htrail =>
            obtain ⟨rfl, rfl⟩ := Prod.mk.inj (Except.ok.inj h)
            have htrail' : IsTrail m := by
              rw [IsTrail]
              omega
            rw [hback, hu, hes, pair_eq_encode hlead htrail']
            exact .pair hn hlead hm htrail'
      · next hlead =>
        obtain ⟨rfl, rfl⟩ := Prod.mk.inj (Except.ok.inj h)
        rw [encode_eq (lt_trans hn.lt (by decide))]
        exact .unicode hn hlead
    · cases h

theorem parseEscape_complete {bytes : Bytes} (h : Escape s bytes r) : parseEscape s = .ok (bytes, r) := by
  have hnone : ¬ escape letterU ≠ 0 := by decide
  cases h with
  | letter hmem =>
    obtain ⟨hne, rfl⟩ := mem_escaped.mp hmem
    exact if_pos hne
  | @unicode ds s n hn hlead =>
    rw [parseEscape, List.tail_cons, peek_cons, if_neg hnone, if_pos rfl, List.tail_cons, parseHex4_append _ hn,
      ← encode_eq (lt_trans hn.lt (by decide))]
    exact if_neg hlead
  | @pair ds es s n m hn hlead hm htrail =>
    have htrail' : ¬ (m < 0xDC00 ∨ 0xDFFF < m) := by
      rw [IsTrail] at htrail
      omega
    rw [parseEscape, List.tail_cons, peek_cons, if_neg hnone, if_pos rfl, List.tail_cons, parseHex4_append _ hn,
      ← pair_eq_encode hlead htrail]
    refine (if_pos hlead).trans ?_
    rw [consume_cons, Option.bind_some, consume_cons]
    dsimp only
    rw [parseHex4_append _ hm]
    exact if_neg htrail'

theorem parseChars_sound {str : Bytes} (h : parseChars fuel s = .ok (str, r)) : Chars s str r := by
  induction fuel generalizing s str with
  | zero => cases h
  | succ fuel ih =>
    rw [parseChars] at h
    split at h
    · next hback =>
      obtain ⟨⟨bytes, s1⟩, hescape, h⟩ := bind_eq_ok.mp h
      obtain ⟨⟨str, s2⟩, hrest, h⟩ := bind_eq_ok.mp h
      obtain ⟨rfl, rfl⟩ := Prod.mk.inj (Except.ok.inj h)
      exact .escape (parseEscape_sound hback hescape) (ih hrest)
    · next hback =>
      split at h
      · next hquote =>
        obtain ⟨rfl, rfl⟩ := Prod.mk.inj (Except.ok.inj h)
        rw [eq_cons_of_peek (by decide) hquote]
        exact .close _
      · next hquote =>
        split at h
        · split at h <;> cases h
        · next hplain =>
          obtain ⟨⟨str, s1⟩, hrest, h⟩ := bind_eq_ok.mp h
          obtain ⟨rfl, rfl⟩ := Prod.mk.inj (Except.ok.inj h)
          have hpeek : peek s ≠ 0 := fun h0 => hplain (by rw [h0]; decide)
          have hs := eq_cons_of_peek hpeek rfl
          rw [UInt8.not_lt] at hplain
          have hchars := Chars.plain hplain hquote hback (ih hrest)
          rwa [← hs] at hchars

theorem Escape.head {bytes : Bytes} (h : Escape s bytes r) : peek s = backslash ∧ r.length < s.length := by
  cases h <;> simp only [peek_cons, List.length_cons, List.length_append, true_and] <;> omega

theorem parseChars_complete {str : Bytes} (h : Chars s str r) (hfuel : s.length ≤ fuel) :
    parseChars fuel s = .ok (str, r) := by
  induction h generalizing fuel with
  | close s =>
    obtain ⟨fuel, rfl⟩ := Nat.exists_eq_add_one_of_ne_zero (Nat.ne_zero_of_lt hfuel)
    rw [parseChars, peek_cons, if_neg (by decide), if_pos rfl, List.tail_cons]
  | @plain c s str r hplain hquote hback h ih =>
    obtain ⟨fuel, rfl⟩ := Nat.exists_eq_add_one_of_ne_zero (Nat.ne_zero_of_lt hfuel)
    rw [List.length_cons, Nat.add_le_add_iff_right] at hfuel
    rw [parseChars, peek_cons, if_neg hback, if_neg hquote, if_neg (UInt8.not_lt.mpr hplain), List.tail_cons, ih hfuel]
    rfl
  | @escape s bytes s1 str r hescape h ih =>
    obtain ⟨hback, hlength⟩ := hescape.head
    obtain ⟨fuel, rfl⟩ := Nat.exists_eq_add_one_of_ne_zero (Nat.ne_zero_of_lt (lt_of_lt_of_le hlength hfuel))
    rw [parseChars, if_pos hback, parseEscape_complete hescape]
    refine bind_eq_ok.mpr ⟨(bytes, s1), rfl, ?_⟩
    dsimp only
    rw [ih (by omega)]
    rfl

theorem Chars.length {str : Bytes} (h : Chars s str r) : r.length < s.length := by
  induction h with
  | close s => exact Nat.lt_succ_self _
  | plain _ _ _ _ ih => exact lt_trans ih (Nat.lt_succ_self _)
  | escape hescape _ ih => exact lt_trans ih hescape.head.2

/-- `ParseString`, whose text begins with a quotation mark. -/
theorem parseString_eq_ok {str : Bytes} : parseString (quote :: s) = .ok (str, r) ↔ Chars s str r :=
  ⟨parseChars_sound, fun h => parseChars_complete h (Nat.le_succ _)⟩

end NoncesHeatmap.Json
