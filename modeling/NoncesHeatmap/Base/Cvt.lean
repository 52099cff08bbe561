import Mathlib.Data.UInt
import NoncesHeatmap.Base.Strings
import NoncesHeatmap.Library.Numerals

/-! # `Cvt`: hexadecimal text

Both directions work without branches on the digits: a comparison is a subtraction in a wider type, of
which the borrow is shifted into a mask. Only the calls of the program are modelled, without characters to
ignore and without the optional results. -/

namespace NoncesHeatmap.Cvt
set_option autoImplicit false

def SIZE_MAX : ℕ := 2 ^ 64 - 1

/-- `87U + c + (((c - 10U) >> 8) & ~38U)` -/
def digit (c : UInt32) : UInt8 := ((87 : UInt32) + c + (((c - 10) >>> 8) &&& ~~~(38 : UInt32))).toUInt8

/-- The two characters of a byte. -/
def pair (byte : UInt8) : Bytes :=
  let c := (byte &&& 0xf).toUInt32
  let b := (byte >>> 4).toUInt32
  let x := ((digit c).toUInt32 <<< 8) ||| (digit b).toUInt32
  [x.toUInt8, (x >>> 8).toUInt8]

def cvtBin2hex (hexMaxlen : ℕ) (bin : Bytes) : Option Bytes :=
  if SIZE_MAX / 2 ≤ bin.length ∨ hexMaxlen ≤ bin.length * 2 then none else some (bin.flatMap pair)

def toHex (bytes : Bytes) : Option Bytes := if bytes = [] then none else cvtBin2hex (bytes.length * 2 + 1) bytes

def cNum (c : UInt8) : UInt8 := c ^^^ 48

def cNum0 (c : UInt8) : UInt8 := (((cNum c).toUInt32 - 10) >>> 8).toUInt8

def cAlpha (c : UInt8) : UInt8 := ((c.toUInt32 &&& ~~~(32 : UInt32)) - 55).toUInt8

def cAlpha0 (c : UInt8) : UInt8 := ((((cAlpha c).toUInt32 - 10) ^^^ ((cAlpha c).toUInt32 - 16)) >>> 8).toUInt8

def cVal (c : UInt8) : UInt8 := (cNum0 c &&& cNum c) ||| (cAlpha0 c &&& cAlpha c)

/-- The state in which the loop of `cvt_hex2bin` is left. -/
structure Hex2bin where
  bin : Bytes
  cAcc : UInt8
  state : UInt8
  /-- What has not been read. -/
  rest : Bytes
  ret : ℤ

def hex2binLoop (binMaxlen : ℕ) : Bytes → Bytes → UInt8 → UInt8 → Hex2bin
  | [], bin, acc, state => ⟨bin, acc, state, [], 0⟩
  | c :: hex, bin, acc, state =>
    if cNum0 c ||| cAlpha0 c = 0 then ⟨bin, acc, state, c :: hex, 0⟩
    else if binMaxlen ≤ bin.length then ⟨bin, acc, state, c :: hex, -1⟩
    else if state = 0 then hex2binLoop binMaxlen hex bin (cVal c * 16) (~~~state)
    else hex2binLoop binMaxlen hex (bin ++ [acc ||| cVal c]) acc (~~~state)

/-- `cvt_hex2bin` returned 0 with these bytes. -/
def cvtHex2bin (binMaxlen : ℕ) (hex : Bytes) : Option Bytes :=
  let last := hex2binLoop binMaxlen hex [] 0 0
  if last.ret = 0 ∧ last.state = 0 ∧ last.rest = [] then some last.bin else none

def fromHex (hex : Bytes) : Option Bytes := if hex = [] then none else cvtHex2bin (hex.length / 2) hex

/-! ## Digits -/

/-- The value of a hexadecimal digit of either case. -/
def value (c : UInt8) : Option UInt8 :=
  if 48 ≤ c ∧ c ≤ 57 then some (c - 48)
  else if 65 ≤ c ∧ c ≤ 70 then some (c - 55)
  else if 97 ≤ c ∧ c ≤ 102 then some (c - 87)
  else none

/-- The masks of the loop decide whether a character is a digit. -/
theorem masks_eq_zero_iff (c : UInt8) : cNum0 c ||| cAlpha0 c = 0 ↔ value c = none := by
  revert c
  exact Numerals.forall_byte (by decide +kernel)

theorem cVal_eq (c : UInt8) : (value c).getD 0 = if value c = none then 0 else cVal c := by
  revert c
  exact Numerals.forall_byte (by decide +kernel)

theorem value_lt (c : UInt8) : (value c).getD 0 < 16 := by
  revert c
  exact Numerals.forall_byte (by decide +kernel)

/-- The text of a sequence of bytes, with digits of either case. -/
inductive Spells : Bytes → Bytes → Prop
  | nil : Spells [] []
  | cons {a b hi lo : UInt8} {hex bytes : Bytes} (ha : value a = some hi) (hb : value b = some lo) (h : Spells hex bytes) :
      Spells (a :: b :: hex) ((hi * 16 ||| lo) :: bytes)

/-- A byte is written as its two digits, in lower case. -/
theorem pair_eq (byte : UInt8) :
    ∃ a b, pair byte = [a, b] ∧ value a = some (byte / 16) ∧ value b = some (byte % 16) ∧
      byte / 16 * 16 ||| byte % 16 = byte ∧ ¬ (65 ≤ a ∧ a ≤ 70) ∧ ¬ (65 ≤ b ∧ b ≤ 70) := by
  have hall : ∀ byte : UInt8, pair byte = [(pair byte).headD 0, (pair byte).getD 1 0] ∧
      value ((pair byte).headD 0) = some (byte / 16) ∧ value ((pair byte).getD 1 0) = some (byte % 16) ∧
      byte / 16 * 16 ||| byte % 16 = byte ∧ ¬ (65 ≤ (pair byte).headD 0 ∧ (pair byte).headD 0 ≤ 70) ∧
      ¬ (65 ≤ (pair byte).getD 1 0 ∧ (pair byte).getD 1 0 ≤ 70) := Numerals.forall_byte (by decide +kernel)
  exact ⟨_, _, hall byte⟩

theorem spells_flatMap (bytes : Bytes) : Spells (bytes.flatMap pair) bytes := by
  induction bytes with
  | nil => exact .nil
  | cons byte bytes ih =>
    obtain ⟨a, b, hpair, ha, hb, hbyte, -, -⟩ := pair_eq byte
    rw [List.flatMap_cons, hpair]
    have hcons := Spells.cons ha hb ih
    rwa [hbyte] at hcons

/-! ## The loop -/

theorem cVal_of_value {c v : UInt8} (h : value c = some v) : cVal c = v := by
  have hc := cVal_eq c
  rw [h] at hc
  exact hc.symm

theorem masks_of_value {c v : UInt8} (h : value c = some v) : cNum0 c ||| cAlpha0 c ≠ 0 := by
  rw [Ne, masks_eq_zero_iff, h]
  exact Option.some_ne_none v

/-- The loop reads the text of as many bytes as fit. -/
theorem hex2binLoop_spells {hex bytes : Bytes} (h : Spells hex bytes) (maxlen : ℕ) (bin : Bytes) (acc : UInt8)
    (hroom : bin.length + bytes.length ≤ maxlen) :
    ∃ last, hex2binLoop maxlen hex bin acc 0 = ⟨bin ++ bytes, last, 0, [], 0⟩ := by
  induction h generalizing bin acc with
  | nil => exact ⟨acc, by rw [hex2binLoop, List.append_nil]⟩
  | @cons a b hi lo hex bytes ha hb h ih =>
    rw [List.length_cons] at hroom
    obtain ⟨last, hlast⟩ := ih (bin ++ [hi * 16 ||| lo]) (hi * 16) (by
      rw [List.length_append, List.length_singleton]
      omega)
    refine ⟨last, ?_⟩
    rw [hex2binLoop, if_neg (masks_of_value ha), if_neg (by omega), if_pos rfl, hex2binLoop, if_neg (masks_of_value hb),
      if_neg (by omega), if_neg (by decide), cVal_of_value ha, cVal_of_value hb]
    have hstate : ~~~(~~~(0 : UInt8)) = 0 := by decide
    rw [hstate, hlast, List.append_assoc, List.singleton_append]

/-- One digit of a loop that reads all of its text. -/
theorem hex2binLoop_cons {maxlen : ℕ} {c : UInt8} {hex bin : Bytes} {acc state : UInt8}
    (hret : (hex2binLoop maxlen (c :: hex) bin acc state).ret = 0)
    (hrest : (hex2binLoop maxlen (c :: hex) bin acc state).rest = []) :
    ∃ v, value c = some v ∧ hex2binLoop maxlen (c :: hex) bin acc state =
      if state = 0 then hex2binLoop maxlen hex bin (v * 16) (~~~state)
      else hex2binLoop maxlen hex (bin ++ [acc ||| v]) acc (~~~state) := by
  rw [hex2binLoop] at hret hrest ⊢
  by_cases hmask : cNum0 c ||| cAlpha0 c = 0
  · rw [if_pos hmask] at hrest
    cases hrest
  · rw [if_neg hmask] at hret ⊢
    obtain ⟨v, hv⟩ := Option.ne_none_iff_exists'.mp (mt (masks_eq_zero_iff c).mpr hmask)
    by_cases hroom : maxlen ≤ bin.length
    · rw [if_pos hroom] at hret
      cases hret
    · rw [if_neg hroom, cVal_of_value hv]
      exact ⟨v, hv, rfl⟩

/-- What the loop has read when it leaves without an error between two bytes. -/
theorem spells_of_hex2binLoop (maxlen : ℕ) : ∀ (hex bin : Bytes) (acc : UInt8),
    (hex2binLoop maxlen hex bin acc 0).ret = 0 → (hex2binLoop maxlen hex bin acc 0).state = 0 →
    (hex2binLoop maxlen hex bin acc 0).rest = [] →
    ∃ bytes, (hex2binLoop maxlen hex bin acc 0).bin = bin ++ bytes ∧ Spells hex bytes
  | [], bin, acc, _, _, _ => ⟨[], (List.append_nil bin).symm, .nil⟩
  | [a], bin, acc, hret, hstate, hrest => by
    obtain ⟨v, -, hstep⟩ := hex2binLoop_cons hret hrest
    rw [hstep, if_pos rfl] at hstate
    have hodd : ~~~(0 : UInt8) = 0 := hstate
    exact absurd hodd (by decide)
  | a :: b :: hex, bin, acc, hret, hstate, hrest => by
    obtain ⟨hi, ha, hstep⟩ := hex2binLoop_cons hret hrest
    rw [hstep, if_pos rfl] at hret hstate hrest ⊢
    obtain ⟨lo, hb, hstep'⟩ := hex2binLoop_cons hret hrest
    have hback : ~~~(~~~(0 : UInt8)) = 0 := by decide
    rw [hstep', if_neg (by decide), hback] at hret hstate hrest ⊢
    obtain ⟨bytes, hbin, hspells⟩ := spells_of_hex2binLoop maxlen hex _ _ hret hstate hrest
    exact ⟨(hi * 16 ||| lo) :: bytes, by rw [hbin, List.append_assoc, List.singleton_append], .cons ha hb hspells⟩

theorem Spells.length {hex bytes : Bytes} (h : Spells hex bytes) : hex.length = 2 * bytes.length := by
  induction h with
  | nil => rfl
  | cons _ _ _ ih =>
    simp only [List.length_cons, ih]
    omega

theorem fromHex_eq_some_iff {hex bytes : Bytes} : fromHex hex = some bytes ↔ hex ≠ [] ∧ Spells hex bytes := by
  rw [fromHex]
  split
  · next hnil => exact iff_of_false (Option.some_ne_none bytes).symm fun h => h.1 hnil
  · next hne =>
    rw [cvtHex2bin, and_iff_right hne]
    constructor
    · intro h
      split at h
      · next hlast =>
        obtain ⟨read, hbin, hspells⟩ := spells_of_hex2binLoop _ hex [] 0 hlast.1 hlast.2.1 hlast.2.2
        rw [List.nil_append] at hbin
        rwa [← Option.some.inj h, hbin]
      · cases h
    · intro h
      obtain ⟨last, hlast⟩ := hex2binLoop_spells h (hex.length / 2) [] 0 (by
        rw [h.length, List.length_nil]
        omega)
      rw [hlast, if_pos ⟨rfl, rfl, rfl⟩, List.nil_append]

/-! ## Both directions -/

def isUpper (c : UInt8) : Bool := decide (65 ≤ c ∧ c ≤ 70)

theorem forall_nibble {P : UInt8 → Prop} (h : ∀ n : Fin 16, P (UInt8.ofNat n)) {c : UInt8} (hc : c < 16) : P c := by
  have hn := h ⟨c.toNat, hc⟩
  rwa [UInt8.ofNat_toNat] at hn

theorem eq_digit {c v : UInt8} (h : value c = some v) (hlower : isUpper c = false) : c = digit v.toUInt32 := by
  have hall : ∀ c : UInt8, isUpper c = false → value c ≠ none → c = digit ((value c).getD 0).toUInt32 :=
    Numerals.forall_byte (by decide +kernel)
  have hc := hall c hlower (by rw [h]; exact Option.some_ne_none v)
  rwa [h] at hc

theorem pair_halves {hi lo : UInt8} (hhi : hi < 16) (hlo : lo < 16) :
    pair (hi * 16 ||| lo) = [digit hi.toUInt32, digit lo.toUInt32] := by
  revert lo
  refine forall_nibble (P := fun hi => ∀ {lo : UInt8}, lo < 16 → pair (hi * 16 ||| lo) = [digit hi.toUInt32, digit lo.toUInt32])
    (fun n => ?_) hhi
  intro lo hlo
  revert n
  exact forall_nibble (P := fun lo => ∀ n : Fin 16, pair (UInt8.ofNat n * 16 ||| lo) =
    [digit (UInt8.ofNat n).toUInt32, digit lo.toUInt32]) (by decide +kernel) hlo

theorem Spells.lower {hex bytes : Bytes} (h : Spells hex bytes) (hlower : ∀ c ∈ hex, isUpper c = false) :
    hex = bytes.flatMap pair := by
  induction h with
  | nil => rfl
  | @cons a b hi lo hex bytes ha hb h ih =>
    have hhi : hi < 16 := by
      have hlt := value_lt a
      rwa [ha] at hlt
    have hlo : lo < 16 := by
      have hlt := value_lt b
      rwa [hb] at hlt
    rw [List.flatMap_cons, pair_halves hhi hlo, ← ih fun c hc => hlower c (List.mem_cons_of_mem _ (List.mem_cons_of_mem _ hc)),
      eq_digit ha (hlower a List.mem_cons_self), eq_digit hb (hlower b (List.mem_cons_of_mem _ List.mem_cons_self))]
    rfl

theorem lower_flatMap (bytes : Bytes) : ∀ c ∈ bytes.flatMap pair, isUpper c = false := by
  intro c hc
  obtain ⟨byte, -, hmem⟩ := List.mem_flatMap.mp hc
  obtain ⟨a, b, hpair, -, -, -, ha, hb⟩ := pair_eq byte
  rw [hpair] at hmem
  obtain rfl | hmem := List.mem_cons.mp hmem
  · exact decide_eq_false ha
  · rw [List.mem_singleton.mp hmem]
    exact decide_eq_false hb

theorem toHex_eq {bytes : Bytes} (hne : bytes ≠ []) (hlength : bytes.length < 2 ^ 62) :
    toHex bytes = some (bytes.flatMap pair) := by
  rw [toHex, if_neg hne, cvtBin2hex, if_neg]
  rw [SIZE_MAX]
  omega

/-- **Hexadecimal text.** `fromHex` reads digits of either case, and `toHex` writes the one text of lower
case that it reads as the bytes. -/
theorem toHex_iff (bytes hex : Bytes) (hlength : bytes.length < 2 ^ 62) :
    (toHex bytes = some hex ↔ fromHex hex = some bytes ∧ ∀ c ∈ hex, isUpper c = false) ∧
      (fromHex hex = some bytes ↔ hex ≠ [] ∧ Spells hex bytes) := by
  refine ⟨?_, fromHex_eq_some_iff⟩
  rw [fromHex_eq_some_iff]
  by_cases hne : bytes = []
  · subst hne
    refine iff_of_false (fun h => ?_) ?_
    · rw [toHex, if_pos rfl] at h
      cases h
    · rintro ⟨⟨hhex, hspells⟩, -⟩
      exact hhex (List.eq_nil_of_length_eq_zero hspells.length)
  · rw [toHex_eq hne hlength, Option.some_inj]
    constructor
    · rintro rfl
      refine ⟨⟨fun hnil => hne ?_, spells_flatMap bytes⟩, lower_flatMap bytes⟩
      have hzero := (spells_flatMap bytes).length
      rw [hnil, List.length_nil] at hzero
      exact List.eq_nil_of_length_eq_zero (by omega)
    · rintro ⟨⟨-, hspells⟩, hlower⟩
      exact (hspells.lower hlower).symm

theorem toHex_iff_two : toHex [0x5f, 0xa0] = some (ascii "5fa0") ∧ fromHex (ascii "5FA0") = some [0x5f, 0xa0] :=
  ⟨(toHex_iff [0x5f, 0xa0] (ascii "5fa0") (by decide)).1.mpr ⟨by decide +kernel, by decide +kernel⟩, by decide +kernel⟩

end NoncesHeatmap.Cvt
