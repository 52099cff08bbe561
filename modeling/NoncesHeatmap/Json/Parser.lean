import NoncesHeatmap.Json.Number

/-! # The reader and the grammar

The reader accepts a text as a value exactly if the grammar derives the value from the text. One direction is
an induction on the fuel, the other one on the derivation, whose length bounds the fuel that it needs. -/

namespace NoncesHeatmap.Json
open Numerals
set_option autoImplicit false

variable {flags : ParseFlags} {tooBig : Bytes → Bool} {s s1 s2 s3 r : Bytes} {v : Value} {fuel : ℕ}

/-! ## The first byte -/

/-- The bytes that a value begins with. -/
def starts (c : UInt8) : Bool :=
  c == 110 || c == 116 || c == 102 || c == quote || c == leftBrace || c == leftBracket || c == minus || isDigit c

/-- A byte that ends a token: no blank is skipped before it, and no number goes on with it. -/
structure Delimits (c : UInt8) : Prop where
  ne_zero : c ≠ 0
  solid : isSpace c = false ∧ c ≠ slash
  stops : isDigit c = false ∧ c ≠ point ∧ c ≠ 101 ∧ c ≠ 69

theorem delimits_comma : Delimits comma := ⟨by decide, by decide, by decide⟩
theorem delimits_colon : Delimits colon := ⟨by decide, by decide, by decide⟩
theorem delimits_bracket : Delimits rightBracket := ⟨by decide, by decide, by decide⟩
theorem delimits_brace : Delimits rightBrace := ⟨by decide, by decide, by decide⟩

theorem Delimits.solid_cons {c : UInt8} (h : Delimits c) (comments : Bool) (s : Bytes) : Solid comments (c :: s) :=
  ⟨h.solid.1, fun _ => h.solid.2⟩

theorem Delimits.stops_cons {c : UInt8} (h : Delimits c) (s : Bytes) : Stops (c :: s) :=
  ⟨h.stops.1, h.stops.2.1, h.stops.2.2⟩

theorem starts_spec {c : UInt8} (h : starts c = true) :
    c ≠ 0 ∧ isSpace c = false ∧ c ≠ slash ∧ c ≠ rightBracket ∧ c ≠ rightBrace := by
  have hall : ∀ c, starts c = true → c ≠ 0 ∧ isSpace c = false ∧ c ≠ slash ∧ c ≠ rightBracket ∧ c ≠ rightBrace :=
    forall_byte (by decide +kernel)
  exact hall c h

theorem solid_of_starts (h : starts (peek s) = true) : Solid flags.comments s :=
  ⟨(starts_spec h).2.1, fun _ => (starts_spec h).2.2.1⟩

theorem number_head {t : Bytes} (h : NumberText tooBig t v) (r : Bytes) :
    peek (t ++ r) = minus ∨ isDigit (peek (t ++ r)) = true := by
  have hnumeral : ∀ (negative : Bool) {ds : Bytes}, Numeral ds → ∀ rest,
      peek (signText negative ++ (ds ++ rest)) = minus ∨ isDigit (peek (signText negative ++ (ds ++ rest))) = true := by
    intro negative ds hds rest
    cases negative with
    | true => exact Or.inl rfl
    | false => exact Or.inr (peek_digits ⟨hds.ne_nil, hds.digits⟩ rest)
  cases h with
  | int negative hds _ =>
    rw [List.append_assoc]
    exact hnumeral negative hds r
  | double negative hds _ _ _ _ =>
    rw [List.append_assoc, List.append_assoc]
    exact hnumeral negative hds _

theorem number_ne {t : Bytes} (h : NumberText tooBig t v) (r : Bytes) {c : UInt8} (hc : isDigit c = false ∧ c ≠ minus) :
    peek (t ++ r) ≠ c := by
  intro heq
  rcases number_head h r with hminus | hdigit
  · exact hc.2 (heq.symm.trans hminus)
  · exact ne_of_isDigit hdigit hc.1 heq

theorem starts_number {t : Bytes} (h : NumberText tooBig t v) (r : Bytes) : starts (peek (t ++ r)) = true := by
  rcases number_head h r with hminus | hdigit
  · rw [hminus]
    rfl
  · rw [starts, hdigit, Bool.or_true]

theorem Derives.starts (h : Derives flags tooBig s v r) : starts (peek s) = true := by
  cases h with
  | number ht => exact starts_number ht r
  | bool b => cases b <;> rfl
  | _ => rfl

theorem Member.starts {m : String × Value} (h : Member flags tooBig s m r) : peek s = quote := by
  cases h
  rfl

theorem Elements.starts {elements : List Value} (h : Elements flags tooBig s elements r) :
    Json.starts (peek s) = true := by
  cases h with
  | last hv _ => exact hv.starts
  | trailing _ hv _ _ => exact hv.starts
  | cons hv _ _ _ => exact hv.starts

theorem Members.starts {members : List (String × Value)} (h : Members flags tooBig s members r) : peek s = quote := by
  cases h with
  | last hm _ => exact hm.starts
  | trailing _ hm _ _ => exact hm.starts
  | cons hm _ _ _ => exact hm.starts

theorem starts_of_quote (h : peek s = quote) : starts (peek s) = true := by
  rw [h]
  rfl

/-! ## What follows a value -/

theorem stops_blank {comments : Bool} (h : Blank comments s r) (hr : Stops r) : Stops s := by
  cases h with
  | nil => exact hr
  | @space c s _ hc _ =>
    have hspace : ∀ c, isSpace c = true → isDigit c = false ∧ c ≠ point ∧ c ≠ 101 ∧ c ≠ 69 :=
      forall_byte (by decide +kernel)
    exact ⟨(hspace c hc).1, (hspace c hc).2.1, (hspace c hc).2.2⟩
  | block => exact ⟨rfl, by rw [peek_cons]; decide, by rw [peek_cons]; decide⟩
  | line => exact ⟨rfl, by rw [peek_cons]; decide, by rw [peek_cons]; decide⟩

theorem stops_closing {comments : Bool} (h : Closing comments s) : Stops s := by
  cases h with
  | blank hblank hends =>
    refine stops_blank hblank ⟨?_, ?_, ?_⟩ <;> rw [peek, hends] <;> decide
  | line _ hblank _ _ _ =>
    exact stops_blank hblank ⟨rfl, by rw [peek_cons]; decide, by rw [peek_cons]; decide⟩

/-! ## Soundness -/

theorem ne_zero_of_quote (h : peek s = quote) : peek s ≠ 0 := by
  rw [h]
  decide

theorem parseLiteral_eq_ok {w : Value} {letters : Bytes} (hletters : 0 ∉ letters) :
    parseLiteral w letters s = .ok (v, r) ↔ s = letters ++ r ∧ v = w := by
  induction letters generalizing s with
  | nil =>
    rw [parseLiteral, List.nil_append, Except.ok.injEq, Prod.mk.injEq, eq_comm (a := w), and_comm]
  | cons letter letters ih =>
    rw [List.mem_cons, not_or] at hletters
    rw [parseLiteral, List.cons_append]
    constructor
    · intro h
      split at h
      · next t hconsume =>
        obtain ⟨rfl, rfl⟩ := (ih hletters.2).mp h
        exact ⟨(consume_eq_some (Ne.symm hletters.1)).mp hconsume, rfl⟩
      · cases h
    · rintro ⟨rfl, rfl⟩
      rw [consume_cons]
      exact (ih hletters.2).mpr ⟨rfl, rfl⟩

/-- A skip to a byte that ends a token. -/
theorem skip_delimiter (h : skipWhitespaceAndComments flags s = .ok s1) {c : UInt8} (hc : Delimits c) (hs : peek s1 = c) :
    Blank flags.comments s (c :: s1.tail) := by
  rw [← eq_cons_of_peek hc.ne_zero hs]
  exact skip_blank h (by rw [hs]; exact hc.ne_zero)

theorem skip_consume (h : skipWhitespaceAndComments flags s = .ok s1) {c : UInt8} (hc : Delimits c)
    (hs : consume c s1 = some s2) : Blank flags.comments s (c :: s2) := by
  rw [consume_eq_some hc.ne_zero] at hs
  have hblank := skip_delimiter h hc (by rw [hs, peek_cons])
  rwa [hs, List.tail_cons] at hblank

mutual

theorem parseValue_sound (fuel : ℕ) {s r : Bytes} {v : Value} (h : parseValue flags tooBig fuel s = .ok (v, r)) :
    Derives flags tooBig s v r := by
  match fuel with
  | 0 => cases h
  | fuel + 1 =>
    rw [parseValue] at h
    split at h
    · next hpeek =>
      obtain ⟨hs, rfl⟩ := (parseLiteral_eq_ok (by decide)).mp h
      rw [eq_cons_of_peek (by decide) hpeek, hs]
      exact .null r
    · split at h
      · next hpeek =>
        obtain ⟨hs, rfl⟩ := (parseLiteral_eq_ok (by decide)).mp h
        rw [eq_cons_of_peek (by decide) hpeek, hs]
        exact .bool true r
      · split at h
        · next hpeek =>
          obtain ⟨hs, rfl⟩ := (parseLiteral_eq_ok (by decide)).mp h
          rw [eq_cons_of_peek (by decide) hpeek, hs]
          exact .bool false r
        · split at h
          · next hpeek =>
            obtain ⟨⟨str, t⟩, hstring, h⟩ := bind_eq_ok.mp h
            obtain ⟨rfl, rfl⟩ := Prod.mk.inj (Except.ok.inj h)
            rw [eq_cons_of_peek (by decide) hpeek] at hstring ⊢
            exact .string (parseString_eq_ok.mp hstring)
          · split at h
            · next hpeek =>
              rw [eq_cons_of_peek (by decide) hpeek]
              exact parseObject_sound fuel h
            · split at h
              · next hpeek =>
                rw [eq_cons_of_peek (by decide) hpeek]
                exact parseArray_sound fuel h
              · obtain ⟨t, rfl, ht⟩ := parseNumber_sound h
                exact .number ht

theorem parseArray_sound (fuel : ℕ) {s r : Bytes} {v : Value} (h : parseArray flags tooBig fuel s = .ok (v, r)) :
    Derives flags tooBig (leftBracket :: s) v r := by
  match fuel with
  | 0 => cases h
  | fuel + 1 =>
    rw [parseArray] at h
    obtain ⟨s1, hskip, h⟩ := bind_eq_ok.mp h
    split at h
    · next t hclose =>
      obtain ⟨rfl, rfl⟩ := Prod.mk.inj (Except.ok.inj h)
      exact .emptyArray (skip_consume hskip delimits_bracket hclose)
    · obtain ⟨⟨elements, t⟩, helements, h⟩ := bind_eq_ok.mp h
      obtain ⟨rfl, rfl⟩ := Prod.mk.inj (Except.ok.inj h)
      have hderives := parseElements_sound fuel helements
      exact .array (skip_blank hskip (starts_spec hderives.starts).1) hderives

theorem parseElements_sound (fuel : ℕ) {s r : Bytes} {elements : List Value}
    (h : parseElements flags tooBig fuel s = .ok (elements, r)) : Elements flags tooBig s elements r := by
  match fuel with
  | 0 => cases h
  | fuel + 1 =>
    rw [parseElements] at h
    obtain ⟨⟨v, s1⟩, hvalue, h⟩ := bind_eq_ok.mp h
    obtain ⟨s2, hskip, h⟩ := bind_eq_ok.mp h
    have hv := parseValue_sound fuel hvalue
    split at h
    · next t hcomma =>
      obtain ⟨s3, hnext, h⟩ := bind_eq_ok.mp h
      have hblank := skip_consume hskip delimits_comma hcomma
      split at h
      · next htrailing =>
        obtain ⟨rfl, rfl⟩ := Prod.mk.inj (Except.ok.inj h)
        exact .trailing htrailing.1 hv hblank (skip_delimiter hnext delimits_bracket htrailing.2)
      · obtain ⟨⟨elements, t'⟩, helements, h⟩ := bind_eq_ok.mp h
        obtain ⟨rfl, rfl⟩ := Prod.mk.inj (Except.ok.inj h)
        have hderives := parseElements_sound fuel helements
        exact .cons hv hblank (skip_blank hnext (starts_spec hderives.starts).1) hderives
    · split at h
      · next t hclose =>
        obtain ⟨rfl, rfl⟩ := Prod.mk.inj (Except.ok.inj h)
        exact .last hv (skip_consume hskip delimits_bracket hclose)
      · cases h

theorem parseObject_sound (fuel : ℕ) {s r : Bytes} {v : Value} (h : parseObject flags tooBig fuel s = .ok (v, r)) :
    Derives flags tooBig (leftBrace :: s) v r := by
  match fuel with
  | 0 => cases h
  | fuel + 1 =>
    rw [parseObject] at h
    obtain ⟨s1, hskip, h⟩ := bind_eq_ok.mp h
    split at h
    · next t hclose =>
      obtain ⟨rfl, rfl⟩ := Prod.mk.inj (Except.ok.inj h)
      exact .emptyObject (skip_consume hskip delimits_brace hclose)
    · obtain ⟨⟨members, t⟩, hmembers, h⟩ := bind_eq_ok.mp h
      obtain ⟨rfl, rfl⟩ := Prod.mk.inj (Except.ok.inj h)
      have hderives := parseMembers_sound fuel hmembers
      exact .object (skip_blank hskip (ne_zero_of_quote hderives.starts)) hderives

theorem parseMembers_sound (fuel : ℕ) {s r : Bytes} {members : List (String × Value)}
    (h : parseMembers flags tooBig fuel s = .ok (members, r)) : Members flags tooBig s members r := by
  match fuel with
  | 0 => cases h
  | fuel + 1 =>
    rw [parseMembers] at h
    split at h
    · cases h
    · next hquote =>
      rw [not_not] at hquote
      obtain ⟨⟨name, s1⟩, hname, h⟩ := bind_eq_ok.mp h
      obtain ⟨s2, hskip, h⟩ := bind_eq_ok.mp h
      rw [eq_cons_of_peek (by decide) hquote] at hname ⊢
      split at h
      · cases h
      · next s3 hcolon =>
        obtain ⟨s4, hbefore, h⟩ := bind_eq_ok.mp h
        obtain ⟨⟨v, s5⟩, hvalue, h⟩ := bind_eq_ok.mp h
        obtain ⟨s6, hafter, h⟩ := bind_eq_ok.mp h
        have hv := parseValue_sound fuel hvalue
        have hmember : Member flags tooBig (quote :: s.tail) (text name, v) s5 :=
          .mk (parseString_eq_ok.mp hname) (skip_consume hskip delimits_colon hcolon)
            (skip_blank hbefore (starts_spec hv.starts).1) hv
        dsimp only at h
        split at h
        · next hcomma =>
          obtain ⟨s7, hnext, h⟩ := bind_eq_ok.mp h
          have hblank := skip_delimiter hafter delimits_comma hcomma
          split at h
          · next htrailing =>
            obtain ⟨rfl, rfl⟩ := Prod.mk.inj (Except.ok.inj h)
            exact .trailing htrailing.1 hmember hblank (skip_delimiter hnext delimits_brace htrailing.2)
          · obtain ⟨⟨members, t'⟩, hmembers, h⟩ := bind_eq_ok.mp h
            obtain ⟨rfl, rfl⟩ := Prod.mk.inj (Except.ok.inj h)
            have hderives := parseMembers_sound fuel hmembers
            exact .cons hmember hblank (skip_blank hnext (ne_zero_of_quote hderives.starts)) hderives
        · split at h
          · next hclose =>
            obtain ⟨rfl, rfl⟩ := Prod.mk.inj (Except.ok.inj h)
            exact .last hmember (skip_delimiter hafter delimits_brace hclose)
          · cases h

end

/-! ## Completeness -/

theorem Blank.length {comments : Bool} (h : Blank comments s r) : r.length ≤ s.length := by
  induction h with
  | nil => exact le_rfl
  | space _ _ ih => exact le_trans ih (Nat.le_succ _)
  | block _ _ _ _ ih => simp only [List.length_cons, List.length_append]; omega
  | line _ _ _ _ ih => simp only [List.length_cons, List.length_append]; omega

theorem NumberText.ne_nil {t : Bytes} (h : NumberText tooBig t v) : t ≠ [] := by
  cases h with
  | int negative hds _ => exact List.append_ne_nil_of_right_ne_nil _ hds.ne_nil
  | double negative hds _ _ _ _ =>
    exact List.append_ne_nil_of_right_ne_nil _ (List.append_ne_nil_of_left_ne_nil hds.ne_nil _)

mutual

theorem Derives.length : ∀ {s r : Bytes} {v : Value}, Derives flags tooBig s v r → r.length < s.length
  | _, _, _, .null r => length_lt_append.mpr (by decide)
  | _, _, _, .bool b r => length_lt_append.mpr (by cases b <;> decide)
  | _, _, _, .string h => lt_trans h.length (Nat.lt_succ_self _)
  | _, _, _, .number h => length_lt_append.mpr h.ne_nil
  | _, _, _, .emptyArray h => by
    have hblank := h.length
    simp only [List.length_cons] at hblank ⊢
    omega
  | _, _, _, .array h helements => lt_of_lt_of_le (helements.length) (le_trans h.length (Nat.le_succ _))
  | _, _, _, .emptyObject h => by
    have hblank := h.length
    simp only [List.length_cons] at hblank ⊢
    omega
  | _, _, _, .object h hmembers => lt_of_lt_of_le (hmembers.length) (le_trans h.length (Nat.le_succ _))

theorem Elements.length : ∀ {s r : Bytes} {elements : List Value}, Elements flags tooBig s elements r → r.length < s.length
  | _, _, _, .last hv h => by
    have hvalue := hv.length
    have hblank := h.length
    simp only [List.length_cons] at hblank
    omega
  | _, _, _, .trailing _ hv h h' => by
    have hvalue := hv.length
    have hblank := h.length
    have hblank' := h'.length
    simp only [List.length_cons] at hblank hblank'
    omega
  | _, _, _, .cons hv h h' helements => by
    have hvalue := hv.length
    have hblank := h.length
    have hblank' := h'.length
    have hrest := helements.length
    simp only [List.length_cons] at hblank
    omega

theorem Member.length : ∀ {s r : Bytes} {m : String × Value}, Member flags tooBig s m r → r.length < s.length
  | _, _, _, .mk hname h h' hv => by
    have hchars := hname.length
    have hblank := h.length
    have hblank' := h'.length
    have hvalue := hv.length
    simp only [List.length_cons] at hblank ⊢
    omega

theorem Members.length : ∀ {s r : Bytes} {members : List (String × Value)}, Members flags tooBig s members r →
    r.length < s.length
  | _, _, _, .last hm h => by
    have hmember := hm.length
    have hblank := h.length
    simp only [List.length_cons] at hblank
    omega
  | _, _, _, .trailing _ hm h h' => by
    have hmember := hm.length
    have hblank := h.length
    have hblank' := h'.length
    simp only [List.length_cons] at hblank hblank'
    omega
  | _, _, _, .cons hm h h' hmembers => by
    have hmember := hm.length
    have hblank := h.length
    have hblank' := h'.length
    have hrest := hmembers.length
    simp only [List.length_cons] at hblank
    omega

end

/-- A skip to a byte that ends a token, from blank text. -/
theorem skip_to {c : UInt8} (hc : Delimits c) (h : Blank flags.comments s (c :: r)) :
    skipWhitespaceAndComments flags s = .ok (c :: r) :=
  skip_complete h (hc.solid_cons _ _)

theorem stops_to {c : UInt8} (hc : Delimits c) (h : Blank flags.comments s (c :: r)) : Stops s :=
  stops_blank h (hc.stops_cons _)

/-- What the reader needs to know of the text after a value: only a number could go on with it. -/
def Follows (v : Value) (r : Bytes) : Prop := v.isObject = true ∨ v.isArray = true ∨ Stops r

theorem Follows.stops {t : Bytes} (h : Follows v r) (ht : NumberText tooBig t v) : Stops r := by
  cases ht with
  | int => exact (h.resolve_left Bool.false_ne_true).resolve_left Bool.false_ne_true
  | double => exact (h.resolve_left Bool.false_ne_true).resolve_left Bool.false_ne_true

theorem follows_to {c : UInt8} (hc : Delimits c) (h : Blank flags.comments s (c :: r)) : Follows v s :=
  Or.inr (Or.inr (stops_to hc h))

theorem parseElements_step {v : Value} (hv : parseValue flags tooBig fuel s = .ok (v, s1))
    (hskip : skipWhitespaceAndComments flags s1 = .ok s2) :
    parseElements flags tooBig (fuel + 1) s =
      match consume comma s2 with
      | some s => do
        let s ← skipWhitespaceAndComments flags s
        if flags.trailingCommas ∧ peek s = rightBracket then .ok ([v], s.tail)
        else do
          let (elements, s) ← parseElements flags tooBig fuel s
          .ok (v :: elements, s)
      | none =>
        match consume rightBracket s2 with
        | some s => .ok ([v], s)
        | none => .error ⟨.arrayMissCommaOrSquareBracket, s2⟩ := by
  rw [parseElements, bind_of_ok hv]
  exact bind_of_ok hskip

theorem parseMembers_step {name : Bytes} {v : Value} (hname : Chars s name s1)
    (hcolon : Blank flags.comments s1 (colon :: s2)) (hblank : Blank flags.comments s2 s3)
    (hstarts : starts (peek s3) = true) {s4 s5 : Bytes} (hv : parseValue flags tooBig fuel s3 = .ok (v, s4))
    (hskip : skipWhitespaceAndComments flags s4 = .ok s5) :
    parseMembers flags tooBig (fuel + 1) (quote :: s) =
      if peek s5 = comma then do
        let s ← skipWhitespaceAndComments flags s5.tail
        if flags.trailingCommas ∧ peek s = rightBrace then .ok ([(text name, v)], s.tail)
        else do
          let (members, s) ← parseMembers flags tooBig fuel s
          .ok ((text name, v) :: members, s)
      else if peek s5 = rightBrace then .ok ([(text name, v)], s5.tail)
      else .error ⟨.objectMissCommaOrCurlyBracket, s5⟩ := by
  rw [parseMembers, if_neg (not_not_intro (peek_cons _ _)), parseString_eq_ok.mpr hname]
  simp only [bind, Except.bind, skip_to delimits_colon hcolon, consume_cons, skip_complete hblank (solid_of_starts hstarts), hv,
    hskip]

theorem fuel_succ (hlt : r.length < s.length) (hfuel : 3 * s.length ≤ fuel + 2 + 3 * r.length) : ∃ n, fuel = n + 1 :=
  Nat.exists_eq_add_one_of_ne_zero (by omega)

mutual

theorem parseValue_complete : ∀ {s r : Bytes} {v : Value} {fuel : ℕ}, Derives flags tooBig s v r → Follows v r →
    3 * s.length ≤ fuel + 2 + 3 * r.length → parseValue flags tooBig fuel s = .ok (v, r)
  | _, _, _, fuel, .null r, hr, hfuel => by
    obtain ⟨fuel, rfl⟩ := fuel_succ (length_lt_append.mpr (by decide)) hfuel
    have hhead : ascii "null" ++ r = 110 :: (ascii "ull" ++ r) := rfl
    rw [hhead, parseValue, peek_cons, if_pos rfl]
    exact (parseLiteral_eq_ok (by decide)).mpr ⟨rfl, rfl⟩
  | _, _, _, fuel, .bool b r, hr, hfuel => by
    obtain ⟨fuel, rfl⟩ := fuel_succ (length_lt_append.mpr (by cases b <;> decide)) hfuel
    cases b with
    | true =>
      have hhead : ascii (if true then "true" else "false") ++ r = 116 :: (ascii "rue" ++ r) := rfl
      rw [hhead, parseValue, peek_cons, if_neg (by decide), if_pos rfl]
      exact (parseLiteral_eq_ok (by decide)).mpr ⟨rfl, rfl⟩
    | false =>
      have hhead : ascii (if false then "true" else "false") ++ r = 102 :: (ascii "alse" ++ r) := rfl
      rw [hhead, parseValue, peek_cons, if_neg (by decide), if_neg (by decide), if_pos rfl]
      exact (parseLiteral_eq_ok (by decide)).mpr ⟨rfl, rfl⟩
  | _, _, _, fuel, .string h, hr, hfuel => by
    obtain ⟨fuel, rfl⟩ := fuel_succ (lt_trans h.length (Nat.lt_succ_self _)) hfuel
    rw [parseValue, peek_cons, if_neg (by decide), if_neg (by decide), if_neg (by decide), if_pos rfl,
      parseString_eq_ok.mpr h]
    rfl
  | _, _, _, fuel, .number h, hr, hfuel => by
    obtain ⟨fuel, rfl⟩ := fuel_succ (length_lt_append.mpr h.ne_nil) hfuel
    rw [parseValue, if_neg (number_ne h _ (by decide)), if_neg (number_ne h _ (by decide)),
      if_neg (number_ne h _ (by decide)), if_neg (number_ne h _ (by decide)), if_neg (number_ne h _ (by decide)),
      if_neg (number_ne h _ (by decide)), parseNumber_complete h (hr.stops h)]
  | _, _, _, fuel, .emptyArray h, hr, hfuel => by
    have hlength := h.length
    simp only [List.length_cons] at hlength hfuel
    obtain ⟨fuel, rfl⟩ := Nat.exists_eq_add_of_le' (show 2 ≤ fuel by omega)
    rw [parseValue, peek_cons, if_neg (by decide), if_neg (by decide), if_neg (by decide), if_neg (by decide),
      if_neg (by decide), if_pos rfl, List.tail_cons, parseArray, skip_to delimits_bracket h]
    simp only [bind, Except.bind, consume_cons]
  | _, _, _, fuel, .array h helements, hr, hfuel => by
    have hlength := h.length
    have hrest := helements.length
    have hstarts := helements.starts
    simp only [List.length_cons] at hfuel
    obtain ⟨fuel, rfl⟩ := Nat.exists_eq_add_of_le' (show 2 ≤ fuel by omega)
    rw [parseValue, peek_cons, if_neg (by decide), if_neg (by decide), if_neg (by decide), if_neg (by decide),
      if_neg (by decide), if_pos rfl, List.tail_cons, parseArray, skip_complete h (solid_of_starts hstarts)]
    simp only [bind, Except.bind, consume_eq_none.mpr (starts_spec hstarts).2.2.2.1,
      parseElements_complete helements (show _ ≤ fuel + 1 + _ by omega)]
  | _, _, _, fuel, .emptyObject h, hr, hfuel => by
    have hlength := h.length
    simp only [List.length_cons] at hlength hfuel
    obtain ⟨fuel, rfl⟩ := Nat.exists_eq_add_of_le' (show 2 ≤ fuel by omega)
    rw [parseValue, peek_cons, if_neg (by decide), if_neg (by decide), if_neg (by decide), if_neg (by decide),
      if_pos rfl, List.tail_cons, parseObject, skip_to delimits_brace h]
    simp only [bind, Except.bind, consume_cons]
  | _, _, _, fuel, .object h hmembers, hr, hfuel => by
    have hlength := h.length
    have hrest := hmembers.length
    have hquote := hmembers.starts
    have hstarts := starts_of_quote hquote
    simp only [List.length_cons] at hfuel
    obtain ⟨fuel, rfl⟩ := Nat.exists_eq_add_of_le' (show 2 ≤ fuel by omega)
    rw [parseValue, peek_cons, if_neg (by decide), if_neg (by decide), if_neg (by decide), if_neg (by decide),
      if_pos rfl, List.tail_cons, parseObject, skip_complete h (solid_of_starts hstarts)]
    simp only [bind, Except.bind, consume_eq_none.mpr (starts_spec hstarts).2.2.2.2,
      parseMembers_complete hmembers (show _ ≤ fuel + 1 + _ by omega)]

theorem parseElements_complete : ∀ {s r : Bytes} {elements : List Value} {fuel : ℕ}, Elements flags tooBig s elements r →
    3 * s.length ≤ fuel + 1 + 3 * r.length → parseElements flags tooBig fuel s = .ok (elements, r)
  | _, _, _, fuel, .last hv h, hfuel => by
    have hvalue := hv.length
    have hlength := h.length
    simp only [List.length_cons] at hlength
    obtain ⟨fuel, rfl⟩ := Nat.exists_eq_add_one_of_ne_zero (show fuel ≠ 0 by omega)
    rw [parseElements_step (parseValue_complete hv (follows_to delimits_bracket h) (by omega)) (skip_to delimits_bracket h),
      consume_ne (by decide), consume_cons]
  | _, _, _, fuel, .trailing hflag hv h h', hfuel => by
    have hvalue := hv.length
    have hlength := h.length
    have hlength' := h'.length
    simp only [List.length_cons] at hlength hlength'
    obtain ⟨fuel, rfl⟩ := Nat.exists_eq_add_one_of_ne_zero (show fuel ≠ 0 by omega)
    rw [parseElements_step (parseValue_complete hv (follows_to delimits_comma h) (by omega)) (skip_to delimits_comma h),
      consume_cons]
    simp only [bind, Except.bind, skip_to delimits_bracket h']
    rw [if_pos ⟨hflag, peek_cons _ _⟩, List.tail_cons]
  | _, _, _, fuel, .cons hv h h' helements, hfuel => by
    have hvalue := hv.length
    have hlength := h.length
    have hlength' := h'.length
    have hrest := helements.length
    have hstarts := helements.starts
    simp only [List.length_cons] at hlength
    obtain ⟨fuel, rfl⟩ := Nat.exists_eq_add_one_of_ne_zero (show fuel ≠ 0 by omega)
    rw [parseElements_step (parseValue_complete hv (follows_to delimits_comma h) (by omega)) (skip_to delimits_comma h),
      consume_cons]
    simp only [bind, Except.bind, skip_complete h' (solid_of_starts hstarts)]
    rw [if_neg fun hclose => (starts_spec hstarts).2.2.2.1 hclose.2, parseElements_complete helements (by omega)]

theorem parseMembers_complete : ∀ {s r : Bytes} {members : List (String × Value)} {fuel : ℕ},
    Members flags tooBig s members r → 3 * s.length ≤ fuel + 1 + 3 * r.length →
    parseMembers flags tooBig fuel s = .ok (members, r)
  | _, _, _, fuel, .last (.mk hname hcolon hblank hv) h, hfuel => by
    have hmember := (Member.mk hname hcolon hblank hv).length
    have hchars := hname.length
    have hlength := h.length
    have hbefore := hcolon.length
    have hbefore' := hblank.length
    have hvalue := hv.length
    simp only [List.length_cons] at hlength hfuel hbefore
    obtain ⟨fuel, rfl⟩ := Nat.exists_eq_add_one_of_ne_zero (show fuel ≠ 0 by omega)
    rw [parseMembers_step hname hcolon hblank hv.starts (parseValue_complete hv (follows_to delimits_brace h) (by omega))
      (skip_to delimits_brace h), peek_cons, if_neg (by decide), if_pos rfl, List.tail_cons]
  | _, _, _, fuel, .trailing hflag (.mk hname hcolon hblank hv) h h', hfuel => by
    have hchars := hname.length
    have hlength := h.length
    have hlength' := h'.length
    have hbefore := hcolon.length
    have hbefore' := hblank.length
    have hvalue := hv.length
    simp only [List.length_cons] at hlength hlength' hfuel hbefore
    obtain ⟨fuel, rfl⟩ := Nat.exists_eq_add_one_of_ne_zero (show fuel ≠ 0 by omega)
    rw [parseMembers_step hname hcolon hblank hv.starts (parseValue_complete hv (follows_to delimits_comma h) (by omega))
      (skip_to delimits_comma h), peek_cons, if_pos rfl, List.tail_cons]
    simp only [bind, Except.bind, skip_to delimits_brace h']
    rw [if_pos ⟨hflag, peek_cons _ _⟩, List.tail_cons]
  | _, _, _, fuel, .cons (.mk hname hcolon hblank hv) h h' hmembers, hfuel => by
    have hchars := hname.length
    have hlength := h.length
    have hlength' := h'.length
    have hbefore := hcolon.length
    have hbefore' := hblank.length
    have hvalue := hv.length
    have hrest := hmembers.length
    have hquote := hmembers.starts
    have hstarts := starts_of_quote hquote
    simp only [List.length_cons] at hlength hfuel hbefore
    obtain ⟨fuel, rfl⟩ := Nat.exists_eq_add_one_of_ne_zero (show fuel ≠ 0 by omega)
    rw [parseMembers_step hname hcolon hblank hv.starts (parseValue_complete hv (follows_to delimits_comma h) (by omega))
      (skip_to delimits_comma h), peek_cons, if_pos rfl, List.tail_cons]
    simp only [bind, Except.bind, skip_complete h' (solid_of_starts hstarts)]
    rw [if_neg fun hclose => (starts_spec hstarts).2.2.2.2 hclose.2, parseMembers_complete hmembers (by omega)]

end

/-! ## Documents -/

theorem parse_sound (h : parse flags tooBig s = .ok v) : Document flags tooBig s v := by
  rw [parse] at h
  obtain ⟨s1, hskip, h⟩ := bind_eq_ok.mp h
  split at h
  · cases h
  · next hempty =>
    obtain ⟨⟨w, s2⟩, hvalue, h⟩ := bind_eq_ok.mp h
    obtain ⟨s3, hafter, h⟩ := bind_eq_ok.mp h
    split at h
    · cases h
    · next hend =>
      rw [not_not] at hend
      obtain rfl := Except.ok.inj h
      exact ⟨s1, s2, skip_blank hskip hempty, parseValue_sound _ hvalue, skip_closing hafter hend⟩

theorem parse_complete (h : Document flags tooBig s v) : parse flags tooBig s = .ok v := by
  obtain ⟨s1, s2, hblank, hderives, hclosing⟩ := h
  obtain ⟨r, hskip, hend⟩ := skip_ends hclosing
  have hvalue : parseValue flags tooBig (3 * s1.length + 1) s1 = .ok (v, s2) :=
    parseValue_complete hderives (Or.inr (Or.inr (stops_closing hclosing))) (by omega)
  rw [parse, skip_complete hblank (solid_of_starts hderives.starts)]
  simp only [bind, Except.bind]
  rw [if_neg (starts_spec hderives.starts).1, hvalue]
  simp only [hskip]
  exact if_neg (not_not_intro hend)

/-- **The reader accepts the language of the grammar.** With any flags, a text is read as a value exactly if it is
a document of that value; and then it is a document of no other value. -/
theorem parse_iff (flags : ParseFlags) (tooBig : Bytes → Bool) (s : Bytes) (v : Value) :
    (parse flags tooBig s = .ok v ↔ Document flags tooBig s v) ∧
      (Document flags tooBig s v → ∀ w, Document flags tooBig s w → w = v) := by
  refine ⟨⟨parse_sound, parse_complete⟩, fun hv w hw => ?_⟩
  have hboth := (parse_complete hw).symm.trans (parse_complete hv)
  exact Except.ok.inj hboth

end NoncesHeatmap.Json
