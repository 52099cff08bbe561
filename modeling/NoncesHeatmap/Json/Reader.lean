import NoncesHeatmap.Json.Grammar

/-! # The reader of rapidjson

A stream is the text that is left of it. An error has its code and the text that is left at its offset. A
loop of the source, or a nesting of values, is a recursion on `fuel`, which is more than the length of the
text allows for; what would run out of it has the code of no error. The conversion of a number to a double is the parameter `tooBig`, the literals
that it reports as too big. -/

namespace NoncesHeatmap.Json
open Numerals
set_option autoImplicit false

inductive ParseErrorCode where
  | none
  | documentEmpty
  | documentRootNotSingular
  | valueInvalid
  | objectMissName
  | objectMissColon
  | objectMissCommaOrCurlyBracket
  | arrayMissCommaOrSquareBracket
  | stringUnicodeEscapeInvalidHex
  | stringUnicodeSurrogateInvalid
  | stringEscapeInvalid
  | stringMissQuotationMark
  | stringInvalidEncoding
  | numberTooBig
  | numberMissFraction
  | numberMissExponent
  | unspecificSyntaxError
  deriving DecidableEq

structure ParseError where
  code : ParseErrorCode
  rest : Bytes
  deriving DecidableEq

abbrev ParseResult (α : Type) := Except ParseError α

def peek (s : Bytes) : UInt8 := s.headD 0

def consume (expect : UInt8) (s : Bytes) : Option Bytes := if peek s = expect then some s.tail else none

/-! ## White space and comments -/

def skipWhitespace (s : Bytes) : Bytes := s.dropWhile isSpace

/-- The rest of a block comment. -/
def skipBlock : Bytes → ParseResult Bytes
  | [] => .error ⟨.unspecificSyntaxError, []⟩
  | c :: s =>
    if c = 0 then .error ⟨.unspecificSyntaxError, c :: s⟩
    else if c = star then
      match consume slash s with
      | some s => .ok s
      | none => skipBlock s
    else skipBlock s

/-- `while (is.Peek() != '\0' && is.Take() != '\n')` -/
def skipLine : Bytes → Bytes
  | [] => []
  | c :: s => if c = 0 then c :: s else if c = newline then s else skipLine s

def skipComments : ℕ → Bytes → ParseResult Bytes
  | 0, s => .error ⟨.none, s⟩
  | fuel + 1, s =>
    match consume slash s with
    | none => .ok s
    | some s =>
      match consume star s with
      | some s => do
        let s ← skipBlock s
        skipComments fuel (skipWhitespace s)
      | none =>
        match consume slash s with
        | some s => skipComments fuel (skipWhitespace (skipLine s))
        | none => .error ⟨.unspecificSyntaxError, s⟩

def skipWhitespaceAndComments (flags : ParseFlags) (s : Bytes) : ParseResult Bytes :=
  if flags.comments then skipComments (s.length + 1) (skipWhitespace s) else .ok (skipWhitespace s)

/-! ## Literals and strings -/

/-- The letters of a literal after the first one. -/
def parseLiteral (v : Value) : Bytes → Bytes → ParseResult (Value × Bytes)
  | [], s => .ok (v, s)
  | letter :: letters, s =>
    match consume letter s with
    | some s => parseLiteral v letters s
    | none => .error ⟨.valueInvalid, s⟩

def parseNull (s : Bytes) : ParseResult (Value × Bytes) := parseLiteral .null (ascii "ull") s.tail

def parseTrue (s : Bytes) : ParseResult (Value × Bytes) := parseLiteral (.bool true) (ascii "rue") s.tail

def parseFalse (s : Bytes) : ParseResult (Value × Bytes) := parseLiteral (.bool false) (ascii "alse") s.tail

/-- The table `escape[256]`; 0 for a letter without an entry. -/
def escape (e : UInt8) : UInt8 := (escaped.lookup e).getD 0

/-- The digits of `ParseHex4` that are left to read; an error is at the escape. -/
def parseHex4 (escapeOffset : Bytes) : ℕ → ℕ → Bytes → ParseResult (ℕ × Bytes)
  | 0, codepoint, s => .ok (codepoint, s)
  | i + 1, codepoint, s =>
    let c := peek s
    let codepoint := (codepoint <<< 4) + c.toNat
    if 48 ≤ c ∧ c ≤ 57 then parseHex4 escapeOffset i (codepoint - 48) s.tail
    else if 65 ≤ c ∧ c ≤ 70 then parseHex4 escapeOffset i (codepoint - (65 - 10)) s.tail
    else if 97 ≤ c ∧ c ≤ 102 then parseHex4 escapeOffset i (codepoint - (97 - 10)) s.tail
    else .error ⟨.stringUnicodeEscapeInvalidHex, escapeOffset⟩

/-- `UTF8::Encode` -/
def encode (codepoint : ℕ) : Bytes :=
  if codepoint ≤ 0x7F then [UInt8.ofNat (codepoint &&& 0xFF)]
  else if codepoint ≤ 0x7FF then
    [UInt8.ofNat (0xC0 ||| (codepoint >>> 6 &&& 0xFF)), UInt8.ofNat (0x80 ||| (codepoint &&& 0x3F))]
  else if codepoint ≤ 0xFFFF then
    [UInt8.ofNat (0xE0 ||| (codepoint >>> 12 &&& 0xFF)), UInt8.ofNat (0x80 ||| (codepoint >>> 6 &&& 0x3F)),
      UInt8.ofNat (0x80 ||| (codepoint &&& 0x3F))]
  else
    [UInt8.ofNat (0xF0 ||| (codepoint >>> 18 &&& 0xFF)), UInt8.ofNat (0x80 ||| (codepoint >>> 12 &&& 0x3F)),
      UInt8.ofNat (0x80 ||| (codepoint >>> 6 &&& 0x3F)), UInt8.ofNat (0x80 ||| (codepoint &&& 0x3F))]

/-- The branch of `ParseStringToStream` for a backslash. -/
def parseEscape (s : Bytes) : ParseResult (Bytes × Bytes) :=
  let e := peek s.tail
  if escape e ≠ 0 then .ok ([escape e], s.tail.tail)
  else if e = letterU then do
    let (codepoint, r) ← parseHex4 s 4 0 s.tail.tail
    if 0xD800 ≤ codepoint ∧ codepoint ≤ 0xDBFF then
      match (consume backslash r).bind (consume letterU) with
      | none => .error ⟨.stringUnicodeSurrogateInvalid, s⟩
      | some r => do
        let (codepoint2, r) ← parseHex4 s 4 0 r
        if codepoint2 < 0xDC00 ∨ 0xDFFF < codepoint2 then .error ⟨.stringUnicodeSurrogateInvalid, s⟩
        else .ok (encode (((codepoint - 0xD800) <<< 10 ||| (codepoint2 - 0xDC00)) + 0x10000), r)
    else .ok (encode codepoint, r)
  else .error ⟨.stringEscapeInvalid, s⟩

/-- The loop of `ParseStringToStream`. -/
def parseChars : ℕ → Bytes → ParseResult (Bytes × Bytes)
  | 0, s => .error ⟨.none, s⟩
  | fuel + 1, s =>
    let c := peek s
    if c = backslash then do
      let (bytes, r) ← parseEscape s
      let (str, r) ← parseChars fuel r
      .ok (bytes ++ str, r)
    else if c = quote then .ok ([], s.tail)
    else if c < 0x20 then
      if c = 0 then .error ⟨.stringMissQuotationMark, s⟩ else .error ⟨.stringInvalidEncoding, s⟩
    else do
      let (str, r) ← parseChars fuel s.tail
      .ok (c :: str, r)

def parseString (s : Bytes) : ParseResult (Bytes × Bytes) := parseChars s.length s.tail

/-! ## Numbers -/

/-- The loops over the digits of an integer: `limit` is a tenth of the largest number and `last` its last digit.
A digit that does not fit is left, and the flag set. -/
def parseDigits (limit : ℕ) (last : UInt8) (i : ℕ) : Bytes → ℕ × Bool × Bytes
  | [] => (i, false, [])
  | c :: s =>
    if isDigit c then
      if limit ≤ i ∧ (i ≠ limit ∨ last < c) then (i, true, c :: s)
      else parseDigits limit last (i * 10 + digit c) s
    else (i, false, c :: s)

/-- The loops with 32 bits. -/
def parseNarrow (negative : Bool) (i : ℕ) (s : Bytes) : ℕ × Bool × Bytes :=
  if negative then parseDigits 214748364 56 i s else parseDigits 429496729 53 i s

/-- The loops with 64 bits. -/
def parseWide (negative : Bool) (i : ℕ) (s : Bytes) : ℕ × Bool × Bytes :=
  if negative then parseDigits 0x0CCCCCCCCCCCCCCC 56 i s else parseDigits 0x1999999999999999 53 i s

/-- What the loops over the digits leave. -/
structure Significand where
  i : ℕ
  use64bit : Bool
  useDouble : Bool
  rest : Bytes

/-- The digits after the first one. -/
def parseInt (negative : Bool) (i : ℕ) (s : Bytes) : Significand :=
  let narrow := parseNarrow negative i s
  if narrow.2.1 then
    let wide := parseWide negative narrow.1 narrow.2.2
    ⟨wide.1, true, wide.2.1, wide.2.2⟩
  else ⟨narrow.1, false, false, narrow.2.2⟩

/-- `.` and one or more digits. -/
def parseFraction (s : Bytes) : ParseResult Bytes :=
  match consume point s with
  | some s => if isDigit (peek s) then .ok (s.dropWhile isDigit) else .error ⟨.numberMissFraction, s⟩
  | none => .ok s

/-- `e`, a sign and one or more digits. -/
def parseExponent (s : Bytes) : ParseResult Bytes :=
  match (consume 101 s).or (consume 69 s) with
  | some s =>
    let s := ((consume plus s).or (consume minus s)).getD s
    if isDigit (peek s) then .ok (s.dropWhile isDigit) else .error ⟨.numberMissExponent, s⟩
  | none => .ok s

/-- `static_cast<int64_t>(~i64 + 1)`, or the same with 32 bits. -/
def negated (use64bit : Bool) (i : ℕ) : ℤ :=
  if use64bit then (~~~BitVec.ofNat 64 i + 1).toInt else (~~~BitVec.ofNat 32 i + 1).toInt

/-- What `ParseNumber` does after the integer: `start` is the text from the number on. -/
def parseTail (tooBig : Bytes → Bool) (start : Bytes) (negative : Bool) (n : Significand) : ParseResult (Value × Bytes) := do
  let s := if n.useDouble then n.rest.dropWhile isDigit else n.rest
  let fraction ← parseFraction s
  let r ← parseExponent fraction
  let literal := start.take (start.length - r.length)
  if n.useDouble ∨ fraction.length < s.length ∨ r.length < fraction.length then
    if tooBig literal then .error ⟨.numberTooBig, start⟩ else .ok (.double (text literal), r)
  else .ok (.int (if negative then negated n.use64bit n.i else n.i), r)

def parseNumber (tooBig : Bytes → Bool) (start : Bytes) : ParseResult (Value × Bytes) :=
  let negative := (consume minus start).isSome
  let s := (consume minus start).getD start
  if peek s = 48 then parseTail tooBig start negative ⟨0, false, false, s.tail⟩
  else if isDigit (peek s) then parseTail tooBig start negative (parseInt negative (digit (peek s)) s.tail)
  else .error ⟨.valueInvalid, s⟩

/-! ## Values -/

section
variable (flags : ParseFlags) (tooBig : Bytes → Bool)

mutual

def parseValue : ℕ → Bytes → ParseResult (Value × Bytes)
  | 0, s => .error ⟨.none, s⟩
  | fuel + 1, s =>
    if peek s = 110 then parseNull s
    else if peek s = 116 then parseTrue s
    else if peek s = 102 then parseFalse s
    else if peek s = quote then do
      let (str, s) ← parseString s
      .ok (.string (text str), s)
    else if peek s = leftBrace then parseObject fuel s.tail
    else if peek s = leftBracket then parseArray fuel s.tail
    else parseNumber tooBig s

def parseArray : ℕ → Bytes → ParseResult (Value × Bytes)
  | 0, s => .error ⟨.none, s⟩
  | fuel + 1, s => do
    let s ← skipWhitespaceAndComments flags s
    match consume rightBracket s with
    | some s => .ok (.array [], s)
    | none => do
      let (elements, s) ← parseElements fuel s
      .ok (.array elements, s)

/-- The loop of `ParseArray`. -/
def parseElements : ℕ → Bytes → ParseResult (List Value × Bytes)
  | 0, s => .error ⟨.none, s⟩
  | fuel + 1, s => do
    let (v, s) ← parseValue fuel s
    let s ← skipWhitespaceAndComments flags s
    match consume comma s with
    | some s => do
      let s ← skipWhitespaceAndComments flags s
      if flags.trailingCommas ∧ peek s = rightBracket then .ok ([v], s.tail)
      else do
        let (elements, s) ← parseElements fuel s
        .ok (v :: elements, s)
    | none =>
      match consume rightBracket s with
      | some s => .ok ([v], s)
      | none => .error ⟨.arrayMissCommaOrSquareBracket, s⟩

def parseObject : ℕ → Bytes → ParseResult (Value × Bytes)
  | 0, s => .error ⟨.none, s⟩
  | fuel + 1, s => do
    let s ← skipWhitespaceAndComments flags s
    match consume rightBrace s with
    | some s => .ok (.object [], s)
    | none => do
      let (members, s) ← parseMembers fuel s
      .ok (.object members, s)

/-- The loop of `ParseObject`. -/
def parseMembers : ℕ → Bytes → ParseResult (List (String × Value) × Bytes)
  | 0, s => .error ⟨.none, s⟩
  | fuel + 1, s => do
    if peek s ≠ quote then .error ⟨.objectMissName, s⟩
    else do
      let (name, s) ← parseString s
      let s ← skipWhitespaceAndComments flags s
      match consume colon s with
      | none => .error ⟨.objectMissColon, s⟩
      | some s => do
        let s ← skipWhitespaceAndComments flags s
        let (v, s) ← parseValue fuel s
        let s ← skipWhitespaceAndComments flags s
        if peek s = comma then do
          let s ← skipWhitespaceAndComments flags s.tail
          if flags.trailingCommas ∧ peek s = rightBrace then .ok ([(text name, v)], s.tail)
          else do
            let (members, s) ← parseMembers fuel s
            .ok ((text name, v) :: members, s)
        else if peek s = rightBrace then .ok ([(text name, v)], s.tail)
        else .error ⟨.objectMissCommaOrCurlyBracket, s⟩

end

/-- `GenericReader::Parse` -/
def parse (s : Bytes) : ParseResult Value := do
  let s ← skipWhitespaceAndComments flags s
  if peek s = 0 then .error ⟨.documentEmpty, s⟩
  else do
    let (v, s) ← parseValue flags tooBig (3 * s.length + 1) s
    let s ← skipWhitespaceAndComments flags s
    if peek s ≠ 0 then .error ⟨.documentRootNotSingular, s⟩
    else .ok v

end

end NoncesHeatmap.Json
