import NoncesHeatmap.Json.Itoa
import NoncesHeatmap.Json.Parser

/-! # The writers of rapidjson

`Writer` and `PrettyWriter` differ in the text that they put before a value and before a closing bracket. Each
keeps a stack of the open arrays and objects with the number of values in them. A failed assertion is `none`.
The text of a double is the parameter `dtoa`; nothing that the program writes holds one. -/

namespace NoncesHeatmap.Json
open Numerals
set_option autoImplicit false

structure Level where
  valueCount : ℕ
  inArray : Bool

/-- The members `indentChar_`, `indentCharCount_` and `formatOptions_` of a `PrettyWriter`. -/
structure PrettyFormat where
  indentChar : UInt8
  indentCharCount : ℕ
  singleLineArray : Bool
  -- the assertion of `SetIndent`
  isSpace_indentChar : isSpace indentChar = true

inductive Format where
  | compact
  | pretty (format : PrettyFormat)

structure Writer where
  levelStack : List Level
  hasRoot : Bool
  os : Bytes

namespace Writer

def fresh : Writer := ⟨[], false, []⟩

def put (w : Writer) (bytes : Bytes) : Writer := { w with os := w.os ++ bytes }

end Writer

def space : UInt8 := 32

/-- `WriteIndent` -/
def PrettyFormat.indent (format : PrettyFormat) (depth : ℕ) : Bytes :=
  List.replicate (depth * format.indentCharCount) format.indentChar

/-- What `Writer::Prefix` puts before a value. -/
def lead (level : Level) : Bytes :=
  if 0 < level.valueCount then
    if level.inArray then [comma] else [if level.valueCount % 2 = 0 then comma else colon]
  else []

/-- What `PrettyWriter::PrettyPrefix` puts before a value. -/
def PrettyFormat.lead (format : PrettyFormat) (depth : ℕ) (level : Level) : Bytes :=
  if level.inArray then
    (if 0 < level.valueCount then comma :: (if format.singleLineArray then [space] else []) else []) ++
      (if format.singleLineArray then [] else newline :: format.indent depth)
  else
    (if 0 < level.valueCount then
      if level.valueCount % 2 = 0 then [comma, newline] else [colon, space]
    else [newline]) ++
      (if level.valueCount % 2 = 0 then format.indent depth else [])

def Format.lead (format : Format) (depth : ℕ) (level : Level) : Bytes :=
  match format with
  | .compact => Json.lead level
  | .pretty format => format.lead depth level

/-- `Prefix` and `PrettyPrefix`: the name of a member has to be a string, and there is one root. -/
def enter (format : Format) (isString : Bool) (w : Writer) : Option Writer :=
  match w.levelStack with
  | [] => if w.hasRoot then none else some { w with hasRoot := true }
  | level :: levels =>
    if ¬ level.inArray ∧ level.valueCount % 2 = 0 ∧ ¬ isString then none
    else some { w with
      levelStack := { level with valueCount := level.valueCount + 1 } :: levels
      os := w.os ++ format.lead w.levelStack.length level }

/-- What `EndArray` and `EndObject` put before the bracket. -/
def Format.tail (format : Format) (depth : ℕ) (level : Level) : Bytes :=
  match format with
  | .compact => []
  | .pretty format =>
    if level.valueCount = 0 ∨ (level.inArray ∧ format.singleLineArray) then [] else newline :: format.indent depth

/-- `StartArray` and `StartObject` -/
def startLevel (format : Format) (inArray : Bool) (w : Writer) : Option Writer := do
  let w ← enter format false w
  some { w with
    levelStack := ⟨0, inArray⟩ :: w.levelStack
    os := w.os ++ [if inArray then leftBracket else leftBrace] }

/-- `EndArray` and `EndObject` -/
def endLevel (format : Format) (inArray : Bool) (w : Writer) : Option Writer :=
  match w.levelStack with
  | [] => none
  | level :: levels =>
    if level.inArray ≠ inArray ∨ (¬ inArray ∧ level.valueCount % 2 ≠ 0) then none
    else some { w with
      levelStack := levels
      os := w.os ++ format.tail levels.length level ++ [if inArray then rightBracket else rightBrace] }

/-- The table `escape[256]` of `WriteString`. -/
def writeEscape (c : UInt8) : UInt8 :=
  if c = 8 then 98
  else if c = 9 then 116
  else if c = 10 then 110
  else if c = 12 then 102
  else if c = 13 then 114
  else if c < 0x20 then letterU
  else if c = quote then quote
  else if c = backslash then backslash
  else 0

def hexDigits : Bytes := ascii "0123456789ABCDEF"

/-- One turn of the loop of `WriteString`. -/
def writeChar (c : UInt8) : Bytes :=
  if writeEscape c ≠ 0 then
    [backslash, writeEscape c] ++
      if writeEscape c = letterU then
        [48, 48, hexDigits.getD (c >>> 4).toNat 0, hexDigits.getD (c &&& 0xF).toNat 0]
      else []
  else [c]

def writeString (str : Bytes) : Bytes := quote :: (str.flatMap writeChar ++ [quote])

/-- The handlers `Int`, `Uint`, `Int64` and `Uint64`, in the order in which `Accept` tries them. -/
def writeNumber (n : ℤ) : Bytes :=
  if -2 ^ 31 ≤ n ∧ n < 2 ^ 31 then i32toa n
  else if 0 ≤ n ∧ n < 2 ^ 32 then u32toa n.toNat
  else if -2 ^ 63 ≤ n ∧ n < 2 ^ 63 then i64toa n
  else u64toa n.toNat

section
variable (dtoa : String → Bytes) (format : Format)

/-- A value that is not an array or object. -/
def putScalar (isString : Bool) (bytes : Bytes) (w : Writer) : Option Writer :=
  (enter format isString w).map (·.put bytes)

mutual

/-- `GenericValue::Accept` -/
def accept : Value → Writer → Option Writer
  | .null, w => putScalar format false (ascii "null") w
  | .bool b, w => putScalar format false (ascii (if b then "true" else "false")) w
  | .int n, w => putScalar format false (writeNumber n) w
  | .double literal, w => putScalar format false (dtoa literal) w
  | .string s, w => putScalar format true (writeString (ascii s)) w
  | .array elements, w => do
    let w ← startLevel format true w
    let w ← acceptElements elements w
    endLevel format true w
  | .object members, w => do
    let w ← startLevel format false w
    let w ← acceptMembers members w
    endLevel format false w

def acceptElements : List Value → Writer → Option Writer
  | [], w => some w
  | v :: elements, w => do
    let w ← accept v w
    acceptElements elements w

def acceptMembers : List (String × Value) → Writer → Option Writer
  | [], w => some w
  | (name, v) :: members, w => do
    let w ← putScalar format true (writeString (ascii name)) w
    let w ← accept v w
    acceptMembers members w

end

/-- The text of a document. -/
def written (doc : Value) : Option Bytes := (accept dtoa format doc .fresh).map (·.os)

end

/-! ## The text before and after a value -/

def Spaces (t : Bytes) : Prop := ∀ c ∈ t, isSpace c = true

theorem Spaces.blank {t : Bytes} (h : Spaces t) (comments : Bool) (r : Bytes) : Blank comments (t ++ r) r := by
  induction t with
  | nil => exact .nil r
  | cons c t ih =>
    exact .space (h c List.mem_cons_self) (ih fun d hd => h d (List.mem_cons_of_mem _ hd))

theorem Spaces.nil : Spaces [] := fun _ hc => absurd hc List.not_mem_nil

theorem Spaces.cons {c : UInt8} {t : Bytes} (hc : isSpace c = true) (h : Spaces t) : Spaces (c :: t) :=
  List.forall_mem_cons.mpr ⟨hc, h⟩

theorem PrettyFormat.spaces_indent (format : PrettyFormat) (depth : ℕ) : Spaces (format.indent depth) := by
  intro c hc
  rw [List.eq_of_mem_replicate hc]
  exact format.isSpace_indentChar

variable {format : Format} {depth k : ℕ}

/-- A comma before every element and every name but the first. -/
def commaAfter (k : ℕ) : Bytes := if 0 < k then [comma] else []

theorem lead_element (format : Format) (depth k : ℕ) :
    ∃ t, Spaces t ∧ format.lead depth ⟨k, true⟩ = commaAfter k ++ t := by
  cases format with
  | compact => exact ⟨[], .nil, (List.append_nil _).symm⟩
  | pretty format =>
    by_cases hk : 0 < k
    · cases hsingle : format.singleLineArray with
      | true => exact ⟨[space], .cons rfl .nil, by simp [Format.lead, PrettyFormat.lead, commaAfter, hk, hsingle]⟩
      | false =>
        exact ⟨newline :: format.indent depth, .cons rfl (format.spaces_indent depth), by
          simp [Format.lead, PrettyFormat.lead, commaAfter, hk, hsingle]⟩
    · cases hsingle : format.singleLineArray with
      | true => exact ⟨[], .nil, by simp [Format.lead, PrettyFormat.lead, commaAfter, hk, hsingle]⟩
      | false =>
        exact ⟨newline :: format.indent depth, .cons rfl (format.spaces_indent depth), by
          simp [Format.lead, PrettyFormat.lead, commaAfter, hk, hsingle]⟩

theorem lead_name (format : Format) (depth k : ℕ) :
    ∃ t, Spaces t ∧ format.lead depth ⟨2 * k, false⟩ = commaAfter k ++ t := by
  have heven : 2 * k % 2 = 0 := Nat.mul_mod_right 2 k
  cases format with
  | compact =>
    refine ⟨[], .nil, ?_⟩
    by_cases hk : 0 < k
    · simp [Format.lead, Json.lead, commaAfter, hk]
    · simp [Format.lead, Json.lead, commaAfter, hk]
  | pretty format =>
    refine ⟨newline :: format.indent depth, .cons rfl (format.spaces_indent depth), ?_⟩
    by_cases hk : 0 < k
    · simp [Format.lead, PrettyFormat.lead, commaAfter, hk]
    · simp [Format.lead, PrettyFormat.lead, commaAfter, hk]

theorem lead_member (format : Format) (depth k : ℕ) :
    ∃ t, Spaces t ∧ format.lead depth ⟨2 * k + 1, false⟩ = colon :: t := by
  cases format with
  | compact => exact ⟨[], .nil, by simp [Format.lead, Json.lead]⟩
  | pretty format => exact ⟨[space], .cons rfl .nil, by simp [Format.lead, PrettyFormat.lead]⟩

theorem spaces_tail (format : Format) (depth : ℕ) (level : Level) : Spaces (format.tail depth level) := by
  cases format with
  | compact => exact .nil
  | pretty format =>
    rw [Format.tail]
    split
    · exact .nil
    · exact .cons rfl (format.spaces_indent depth)

/-! ## Strings and numbers -/

theorem writeChar_cases (c : UInt8) :
    (32 ≤ c ∧ c ≠ quote ∧ c ≠ backslash ∧ writeChar c = [c]) ∨
      ((writeEscape c, c) ∈ escaped ∧ writeChar c = [backslash, writeEscape c]) ∨
      (c.toNat < 2 ^ 5 ∧ hexDigit (hexDigits.getD (c >>> 4).toNat 0) = some (c.toNat / 16) ∧
        hexDigit (hexDigits.getD (c &&& 0xF).toNat 0) = some (c.toNat % 16) ∧
        writeChar c = [backslash, letterU, 48, 48, hexDigits.getD (c >>> 4).toNat 0, hexDigits.getD (c &&& 0xF).toNat 0]) := by
  revert c
  exact forall_byte (by decide +kernel)

theorem chars_writeString (str r : Bytes) : Chars (str.flatMap writeChar ++ quote :: r) str r := by
  induction str with
  | nil => exact .close r
  | cons c str ih =>
    rw [List.flatMap_cons, List.append_assoc]
    rcases writeChar_cases c with ⟨hplain, hquote, hback, hchar⟩ | ⟨hmem, hchar⟩ | ⟨hlow, hhigh, hlow', hchar⟩
    · rw [hchar]
      exact .plain hplain hquote hback ih
    · rw [hchar]
      exact .escape (.letter hmem) ih
    · have hzero : hexDigit 48 = some 0 := rfl
      have hhex := Hex4.mk hzero hzero hhigh hlow'
      have hvalue : ((0 * 16 + 0) * 16 + c.toNat / 16) * 16 + c.toNat % 16 = c.toNat := by omega
      rw [hvalue] at hhex
      have hlead : ¬ IsLead c.toNat := by
        rw [IsLead]
        omega
      have hutf8 : utf8 c.toNat = [c] := by rw [utf8, if_pos (by omega), UInt8.ofNat_toNat]
      have hescape := Escape.unicode (s := str.flatMap writeChar ++ quote :: r) hhex hlead
      rw [hutf8] at hescape
      rw [hchar]
      exact .escape hescape ih

theorem writeNumber_eq {n : ℤ} (hlow : -2 ^ 63 ≤ n) (hhigh : n < 2 ^ 64) :
    writeNumber n = signText (decide (n < 0)) ++ shown n.natAbs 20 := by
  have hsigned : ∀ {bits : ℕ} {toa : ℕ → Bytes}, (∀ u, u < 2 ^ bits → toa u = shown u 20) → -2 ^ bits < n → n < 2 ^ bits →
      signedToa bits toa n = signText (decide (n < 0)) ++ shown n.natAbs 20 := by
    intro bits toa htoa hlow hhigh
    rw [signedToa_eq htoa hlow hhigh, signText]
    simp only [decide_eq_true_eq]
  have hunsigned : 0 ≤ n → signText (decide (n < 0)) ++ shown n.natAbs 20 = shown n.toNat 20 := by
    intro hn
    have habs : n.natAbs = n.toNat := by omega
    rw [signText, if_neg (by simpa using hn), habs, List.nil_append]
  rw [writeNumber]
  split
  · exact hsigned (fun u => u32toa_eq) (by omega) (by omega)
  · split
    · next h => rw [u32toa_eq (by omega), hunsigned h.1]
    · split
      · exact hsigned (fun u => u64toa_eq) (by omega) (by omega)
      · rw [u64toa_eq (by omega), hunsigned (by omega)]

theorem numberText_writeNumber {tooBig : Bytes → Bool} {n : ℤ} (hlow : -2 ^ 63 ≤ n) (hhigh : n < 2 ^ 64) :
    NumberText tooBig (writeNumber n) (.int n) := by
  have habs : n.natAbs < 10 ^ 20 := by omega
  have hvalue := value_shown habs (by decide)
  have hmost : n.natAbs ≤ maxInt (decide (n < 0)) ∧ signed (decide (n < 0)) n.natAbs = n := by
    by_cases hneg : n < 0
    · rw [decide_eq_true hneg]
      refine ⟨show n.natAbs ≤ 2 ^ 63 by omega, show -(n.natAbs : ℤ) = n by omega⟩
    · rw [decide_eq_false hneg]
      exact ⟨show n.natAbs ≤ 2 ^ 64 - 1 by omega, show (n.natAbs : ℤ) = n by omega⟩
  have hint : NumberText tooBig (signText (decide (n < 0)) ++ shown n.natAbs 20) _ :=
    .int (decide (n < 0)) (shown_numeral habs (by decide)) (hvalue.symm ▸ hmost.1)
  rwa [hvalue, hmost.2, ← writeNumber_eq hlow hhigh] at hint

/-! ## A value -/

mutual

/-- The values that can be written and read again: no double, integers of 64 bits, and strings of bytes. -/
def Writable : Value → Prop
  | .null => True
  | .bool _ => True
  | .int n => -2 ^ 63 ≤ n ∧ n < 2 ^ 64
  | .double _ => False
  | .string s => text (ascii s) = s
  | .array elements => WritableElements elements
  | .object members => WritableMembers members

def WritableElements : List Value → Prop
  | [] => True
  | v :: elements => Writable v ∧ WritableElements elements

def WritableMembers : List (String × Value) → Prop
  | [] => True
  | (name, v) :: members => text (ascii name) = name ∧ Writable v ∧ WritableMembers members

end

section
variable {flags : ParseFlags} {tooBig : Bytes → Bool} {s s1 r : Bytes} {v : Value} {dtoa : String → Bytes}

/-- The text from the place of the `k`-th element on. -/
def ElementsAfter (flags : ParseFlags) (tooBig : Bytes → Bool) (k : ℕ) (s : Bytes) (elements : List Value) (r : Bytes) : Prop :=
  match elements with
  | [] => Blank flags.comments s (rightBracket :: r)
  | _ :: _ => ∃ s1 s2, s = commaAfter k ++ s1 ∧ Blank flags.comments s1 s2 ∧ Elements flags tooBig s2 elements r

theorem ElementsAfter.stops {elements : List Value} (h : ElementsAfter flags tooBig (k + 1) s elements r) : Stops s := by
  cases elements with
  | nil => exact stops_to delimits_bracket h
  | cons v elements =>
    obtain ⟨s1, s2, rfl, -, -⟩ := h
    exact delimits_comma.stops_cons s1

theorem ElementsAfter.elements {elements : List Value} (hv : Derives flags tooBig s v s1)
    (h : ElementsAfter flags tooBig (k + 1) s1 elements r) : Elements flags tooBig s (v :: elements) r := by
  cases elements with
  | nil => exact .last hv h
  | cons v' elements =>
    obtain ⟨s2, s3, rfl, hblank, helements⟩ := h
    exact .cons hv (.nil _) hblank helements

/-- The text from the place of the `k`-th member on. -/
def MembersAfter (flags : ParseFlags) (tooBig : Bytes → Bool) (k : ℕ) (s : Bytes) (members : List (String × Value))
    (r : Bytes) : Prop :=
  match members with
  | [] => Blank flags.comments s (rightBrace :: r)
  | _ :: _ => ∃ s1 s2, s = commaAfter k ++ s1 ∧ Blank flags.comments s1 s2 ∧ Members flags tooBig s2 members r

theorem MembersAfter.stops {members : List (String × Value)} (h : MembersAfter flags tooBig (k + 1) s members r) :
    Stops s := by
  cases members with
  | nil => exact stops_to delimits_brace h
  | cons m members =>
    obtain ⟨s1, s2, rfl, -, -⟩ := h
    exact delimits_comma.stops_cons s1

theorem MembersAfter.members {m : String × Value} {members : List (String × Value)} (hm : Member flags tooBig s m s1)
    (h : MembersAfter flags tooBig (k + 1) s1 members r) : Members flags tooBig s (m :: members) r := by
  cases members with
  | nil => exact .last hm h
  | cons m' members =>
    obtain ⟨s2, s3, rfl, hblank, hmembers⟩ := h
    exact .cons hm (.nil _) hblank hmembers

theorem putScalar_eq {w w' : Writer} {isString : Bool} (h : enter format isString w = some w') (bytes : Bytes) :
    putScalar format isString bytes w = some (w'.put bytes) := by
  rw [putScalar, h, Option.map_some]

theorem enter_element (levels : List Level) (root : Bool) (os : Bytes) (isString : Bool) :
    enter format isString ⟨⟨k, true⟩ :: levels, root, os⟩ =
      some ⟨⟨k + 1, true⟩ :: levels, root, os ++ format.lead (levels.length + 1) ⟨k, true⟩⟩ := rfl

theorem enter_name (levels : List Level) (root : Bool) (os : Bytes) :
    enter format true ⟨⟨2 * k, false⟩ :: levels, root, os⟩ =
      some ⟨⟨2 * k + 1, false⟩ :: levels, root, os ++ format.lead (levels.length + 1) ⟨2 * k, false⟩⟩ :=
  if_neg fun h => h.2.2 rfl

theorem enter_member (levels : List Level) (root : Bool) (os : Bytes) (isString : Bool) :
    enter format isString ⟨⟨2 * k + 1, false⟩ :: levels, root, os⟩ =
      some ⟨⟨2 * (k + 1), false⟩ :: levels, root, os ++ format.lead (levels.length + 1) ⟨2 * k + 1, false⟩⟩ :=
  if_neg fun h => absurd h.2.1 (show ¬ (2 * k + 1) % 2 = 0 by omega)

/-- `StartArray` and `StartObject` after a prefix that can be put. -/
theorem startLevel_eq {w w' : Writer} (h : enter format false w = some w') (inArray : Bool) :
    startLevel format inArray w =
      some ⟨⟨0, inArray⟩ :: w'.levelStack, w'.hasRoot, w'.os ++ [if inArray then leftBracket else leftBrace]⟩ := by
  rw [startLevel, h]
  rfl

theorem endLevel_array (levels : List Level) (root : Bool) (os : Bytes) :
    endLevel format true ⟨⟨k, true⟩ :: levels, root, os⟩ =
      some ⟨levels, root, os ++ format.tail levels.length ⟨k, true⟩ ++ [rightBracket]⟩ := rfl

theorem endLevel_object (levels : List Level) (root : Bool) (os : Bytes) :
    endLevel format false ⟨⟨2 * k, false⟩ :: levels, root, os⟩ =
      some ⟨levels, root, os ++ format.tail levels.length ⟨2 * k, false⟩ ++ [rightBrace]⟩ := by
  rw [endLevel]
  exact if_neg fun h => h.elim (fun hne => hne rfl) fun hodd => hodd.2 (Nat.mul_mod_right 2 k)

mutual

/-- A value is put as a text that the grammar derives it from. -/
theorem accept_spec : ∀ {v : Value} {w w' : Writer}, Writable v → (∀ isString, enter format isString w = some w') →
    ∃ t, accept dtoa format v w = some (w'.put t) ∧ ∀ r, Stops r → Derives flags tooBig (t ++ r) v r
  | .null, w, w', _, h => ⟨ascii "null", putScalar_eq (h false) _, fun r _ => .null r⟩
  | .bool b, w, w', _, h => ⟨ascii (if b then "true" else "false"), putScalar_eq (h false) _, fun r _ => .bool b r⟩
  | .int n, w, w', hn, h =>
    ⟨writeNumber n, putScalar_eq (h false) _, fun r _ => .number (numberText_writeNumber hn.1 hn.2)⟩
  | .double literal, w, w', hno, h => hno.elim
  | .string s, w, w', hs, h => by
    refine ⟨writeString (ascii s), putScalar_eq (h true) _, fun r _ => ?_⟩
    have hchars : Derives flags tooBig (quote :: ((ascii s).flatMap writeChar ++ quote :: r)) _ r :=
      .string (chars_writeString (ascii s) r)
    rw [hs] at hchars
    rwa [writeString, List.cons_append, List.append_assoc, List.singleton_append]
  | .array elements, w, w', hw, h => by
    obtain ⟨t, haccept, hafter⟩ := acceptElements_spec (k := 0) w'.levelStack w'.hasRoot (w'.os ++ [leftBracket]) hw
    refine ⟨leftBracket :: (t ++ (format.tail w'.levelStack.length ⟨0 + elements.length, true⟩ ++ [rightBracket])), ?_,
      fun r _ => ?_⟩
    · rw [accept, startLevel_eq (h false)]
      simp only [bind, Option.bind, if_true, haccept, endLevel_array, Writer.put, List.append_assoc, List.cons_append,
        List.nil_append]
    · have hrest := hafter (format.tail w'.levelStack.length ⟨0 + elements.length, true⟩ ++ rightBracket :: r) r
        ((spaces_tail format _ _).blank _ _)
      rw [List.cons_append, List.append_assoc, List.append_assoc, List.singleton_append]
      cases elements with
      | nil => exact .emptyArray hrest
      | cons v elements =>
        obtain ⟨s1, s2, hs, hblank, helements⟩ := hrest
        rw [hs]
        exact .array hblank helements
  | .object members, w, w', hw, h => by
    obtain ⟨t, haccept, hafter⟩ := acceptMembers_spec (k := 0) w'.levelStack w'.hasRoot (w'.os ++ [leftBrace]) hw
    refine ⟨leftBrace :: (t ++ (format.tail w'.levelStack.length ⟨2 * (0 + members.length), false⟩ ++ [rightBrace])), ?_,
      fun r _ => ?_⟩
    · rw [accept, startLevel_eq (h false)]
      have haccept' := haccept
      rw [Nat.mul_zero] at haccept'
      simp only [bind, Option.bind, Bool.false_eq_true, if_false, haccept', endLevel_object, Writer.put, List.append_assoc,
        List.cons_append, List.nil_append]
    · have hrest := hafter (format.tail w'.levelStack.length ⟨2 * (0 + members.length), false⟩ ++ rightBrace :: r) r
        ((spaces_tail format _ _).blank _ _)
      rw [List.cons_append, List.append_assoc, List.append_assoc, List.singleton_append]
      cases members with
      | nil => exact .emptyObject hrest
      | cons m members =>
        obtain ⟨s1, s2, hs, hblank, hmembers⟩ := hrest
        rw [hs]
        exact .object hblank hmembers

theorem acceptElements_spec : ∀ {elements : List Value} {k : ℕ} (levels : List Level) (root : Bool) (os : Bytes),
    WritableElements elements →
    ∃ t, acceptElements dtoa format elements ⟨⟨k, true⟩ :: levels, root, os⟩ =
        some ⟨⟨k + elements.length, true⟩ :: levels, root, os ++ t⟩ ∧
      ∀ rest r, Blank flags.comments rest (rightBracket :: r) → ElementsAfter flags tooBig k (t ++ rest) elements r
  | [], k, levels, root, os, _ => ⟨[], by rw [List.append_nil]; rfl, fun rest r hrest => hrest⟩
  | v :: elements, k, levels, root, os, hw => by
    obtain ⟨sp, hsp, hlead⟩ := lead_element format (levels.length + 1) k
    obtain ⟨tv, hv, hderives⟩ := accept_spec (v := v) hw.1 (enter_element levels root os)
    obtain ⟨t, haccept, hafter⟩ := acceptElements_spec (k := k + 1) levels root
      (os ++ format.lead (levels.length + 1) ⟨k, true⟩ ++ tv) hw.2
    refine ⟨format.lead (levels.length + 1) ⟨k, true⟩ ++ (tv ++ t), ?_, fun rest r hrest => ?_⟩
    · rw [acceptElements, hv]
      refine haccept.trans ?_
      rw [List.length_cons, List.append_assoc, List.append_assoc, Nat.add_assoc, Nat.add_comm 1]
    · have hrest := hafter rest r hrest
      refine ⟨sp ++ (tv ++ (t ++ rest)), tv ++ (t ++ rest), ?_, hsp.blank _ _, ElementsAfter.elements (hderives _ hrest.stops) hrest⟩
      rw [hlead, List.append_assoc, List.append_assoc, List.append_assoc]

theorem acceptMembers_spec : ∀ {members : List (String × Value)} {k : ℕ} (levels : List Level) (root : Bool) (os : Bytes),
    WritableMembers members →
    ∃ t, acceptMembers dtoa format members ⟨⟨2 * k, false⟩ :: levels, root, os⟩ =
        some ⟨⟨2 * (k + members.length), false⟩ :: levels, root, os ++ t⟩ ∧
      ∀ rest r, Blank flags.comments rest (rightBrace :: r) → MembersAfter flags tooBig k (t ++ rest) members r
  | [], k, levels, root, os, _ => ⟨[], by rw [List.append_nil]; rfl, fun rest r hrest => hrest⟩
  | (name, v) :: members, k, levels, root, os, hw => by
    obtain ⟨sp, hsp, hname⟩ := lead_name format (levels.length + 1) k
    obtain ⟨sp', hsp', hmember⟩ := lead_member format (levels.length + 1) k
    obtain ⟨tv, hv, hderives⟩ := accept_spec (v := v) hw.2.1 (enter_member (k := k) levels root
      (os ++ format.lead (levels.length + 1) ⟨2 * k, false⟩ ++ writeString (ascii name)))
    obtain ⟨t, haccept, hafter⟩ := acceptMembers_spec (k := k + 1) levels root
      (os ++ format.lead (levels.length + 1) ⟨2 * k, false⟩ ++ writeString (ascii name) ++
        format.lead (levels.length + 1) ⟨2 * k + 1, false⟩ ++ tv) hw.2.2
    refine ⟨format.lead (levels.length + 1) ⟨2 * k, false⟩ ++ (writeString (ascii name) ++
      (format.lead (levels.length + 1) ⟨2 * k + 1, false⟩ ++ (tv ++ t))), ?_, fun rest r hrest => ?_⟩
    · rw [acceptMembers, putScalar_eq (enter_name levels root os)]
      simp only [bind, Option.bind, Writer.put, hv]
      refine haccept.trans ?_
      simp only [List.length_cons, List.append_assoc, Nat.add_assoc, Nat.add_comm 1]
    · have hrest := hafter rest r hrest
      have hm : Member flags tooBig (quote :: ((ascii name).flatMap writeChar ++ quote :: (colon :: (sp' ++ (tv ++ (t ++ rest))))))
          (text (ascii name), v) (t ++ rest) :=
        .mk (chars_writeString (ascii name) _) (.nil _) (hsp'.blank _ _) (hderives _ hrest.stops)
      rw [hw.1] at hm
      refine ⟨_, _, ?_, hsp.blank _ _, MembersAfter.members hm hrest⟩
      rw [hname, hmember, writeString]
      simp only [List.append_assoc, List.cons_append, List.nil_append]

end

/-- The text of a document, from which the grammar derives it. -/
theorem written_derives (flags : ParseFlags) (tooBig : Bytes → Bool) (dtoa : String → Bytes) (format : Format) {doc : Value} (h : Writable doc) :
    ∃ bytes, written dtoa format doc = some bytes ∧ Derives flags tooBig bytes doc [] := by
  have hroot : ∀ isString, enter format isString .fresh = some ⟨[], true, []⟩ := fun _ => rfl
  obtain ⟨t, haccept, hderives⟩ := accept_spec h hroot
  refine ⟨t, ?_, ?_⟩
  · rw [written, haccept]
    rfl
  · have hend : Stops [] := ⟨rfl, by decide, by decide⟩
    have hwhole := hderives [] hend
    rwa [List.append_nil] at hwhole

/-- **A document that is written is read again.** Whatever the format, no assertion of the writer fails, and a reader
with any flags gives the document back. -/
theorem parse_written (flags : ParseFlags) (tooBig : Bytes → Bool) (dtoa : String → Bytes) (format : Format) (doc : Value)
    (h : Writable doc) : ∃ bytes, written dtoa format doc = some bytes ∧ parse flags tooBig bytes = .ok doc := by
  obtain ⟨bytes, hwritten, hderives⟩ := written_derives flags tooBig dtoa format h
  exact ⟨bytes, hwritten, parse_complete ⟨bytes, [], .nil bytes, hderives, .blank (.nil []) rfl⟩⟩

/-- A control character, an escaped letter, a negative number and an empty object. -/
theorem parse_written_members :
    (∃ bytes, written (fun _ => []) (.pretty ⟨space, 4, true, by decide⟩)
        (.object [("a", .array [.int (-7), .string "\x01\n"]), ("b", .object [])]) = some bytes ∧
      parse ⟨false, false⟩ (fun _ => false) bytes = .ok (.object [("a", .array [.int (-7), .string "\x01\n"]), ("b", .object [])])) ∧
      written (fun _ => []) (.pretty ⟨space, 4, true, by decide⟩)
          (.object [("a", .array [.int (-7), .string "\x01\n"]), ("b", .object [])]) =
        some (ascii "\x7b\n    \"a\": [-7, \"\\u0001\\n\"],\n    \"b\": \x7b\x7d\n\x7d") :=
  ⟨parse_written ⟨false, false⟩ (fun _ => false) (fun _ => []) _ _
    ⟨by decide, ⟨⟨by decide, by decide⟩, rfl, trivial⟩, by decide, trivial, trivial⟩, by decide +kernel⟩

end

end NoncesHeatmap.Json
