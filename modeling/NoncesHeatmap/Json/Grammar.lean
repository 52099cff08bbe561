import NoncesHeatmap.Base.Json
import NoncesHeatmap.Http.Context
import NoncesHeatmap.Library.Numerals

/-! # The language of JSON documents

Every relation is between a text and what is left of it after one phrase. Two extensions are flags: comments
between the tokens, and a comma after the last element of an array or member of an object. A number that is
not an integer of 64 bits keeps its literal, and `tooBig` are the literals beyond the largest double. A
document ends with its text or with a NUL. -/

namespace NoncesHeatmap.Json
open Numerals
set_option autoImplicit false

def quote : UInt8 := 34
def plus : UInt8 := 43
def comma : UInt8 := 44
def minus : UInt8 := 45
def point : UInt8 := 46
def slash : UInt8 := 47
def star : UInt8 := 42
def colon : UInt8 := 58
def leftBracket : UInt8 := 91
def backslash : UInt8 := 92
def rightBracket : UInt8 := 93
def letterU : UInt8 := 117
def leftBrace : UInt8 := 123
def rightBrace : UInt8 := 125

structure ParseFlags where
  comments : Bool
  trailingCommas : Bool

def isSpace (c : UInt8) : Bool := c == 32 || c == 10 || c == 13 || c == 9

/-- White space and comments. -/
inductive Blank (comments : Bool) : Bytes → Bytes → Prop
  | nil (s : Bytes) : Blank comments s s
  | space {c : UInt8} {s r : Bytes} : isSpace c → Blank comments s r → Blank comments (c :: s) r
  | block {body s r : Bytes} : comments = true → 0 ∉ body → ¬ [star, slash] <:+: body ++ [star] →
      Blank comments s r → Blank comments (slash :: star :: (body ++ star :: slash :: s)) r
  | line {body s r : Bytes} : comments = true → 0 ∉ body → newline ∉ body →
      Blank comments s r → Blank comments (slash :: slash :: (body ++ newline :: s)) r

def Ends (s : Bytes) : Prop := s.headD 0 = 0

/-- What may follow the value of a document: the last comment needs no newline. -/
inductive Closing (comments : Bool) : Bytes → Prop
  | blank {s r : Bytes} : Blank comments s r → Ends r → Closing comments s
  | line {s body r : Bytes} : comments = true → Blank comments s (slash :: slash :: (body ++ r)) → 0 ∉ body →
      newline ∉ body → Ends r → Closing comments s

/-- What a letter after a backslash stands for. -/
def escaped : List (UInt8 × UInt8) :=
  [(quote, quote), (backslash, backslash), (slash, slash), (98, 8), (102, 12), (110, 10), (114, 13), (116, 9)]

def hexDigit (c : UInt8) : Option ℕ :=
  if isDigit c then some (digit c)
  else if 65 ≤ c ∧ c ≤ 70 then some (c.toNat - 55)
  else if 97 ≤ c ∧ c ≤ 102 then some (c.toNat - 87)
  else none

/-- Four hexadecimal digits. -/
inductive Hex4 : Bytes → ℕ → Prop
  | mk {c1 c2 c3 c4 : UInt8} {d1 d2 d3 d4 : ℕ} : hexDigit c1 = some d1 → hexDigit c2 = some d2 → hexDigit c3 = some d3 →
      hexDigit c4 = some d4 → Hex4 [c1, c2, c3, c4] (((d1 * 16 + d2) * 16 + d3) * 16 + d4)

def IsLead (n : ℕ) : Prop := 0xD800 ≤ n ∧ n ≤ 0xDBFF

def IsTrail (n : ℕ) : Prop := 0xDC00 ≤ n ∧ n ≤ 0xDFFF

instance (n : ℕ) : Decidable (IsLead n) := inferInstanceAs (Decidable (_ ∧ _))

instance (n : ℕ) : Decidable (IsTrail n) := inferInstanceAs (Decidable (_ ∧ _))

def utf8 (n : ℕ) : Bytes :=
  if n < 2 ^ 7 then [UInt8.ofNat n]
  else if n < 2 ^ 11 then [UInt8.ofNat (0xC0 + n / 2 ^ 6), UInt8.ofNat (0x80 + n % 2 ^ 6)]
  else if n < 2 ^ 16 then
    [UInt8.ofNat (0xE0 + n / 2 ^ 12), UInt8.ofNat (0x80 + n / 2 ^ 6 % 2 ^ 6), UInt8.ofNat (0x80 + n % 2 ^ 6)]
  else
    [UInt8.ofNat (0xF0 + n / 2 ^ 18), UInt8.ofNat (0x80 + n / 2 ^ 12 % 2 ^ 6), UInt8.ofNat (0x80 + n / 2 ^ 6 % 2 ^ 6),
      UInt8.ofNat (0x80 + n % 2 ^ 6)]

/-- A backslash with what follows it, and the bytes that it stands for. -/
inductive Escape : Bytes → Bytes → Bytes → Prop
  | letter {e c : UInt8} {s : Bytes} : (e, c) ∈ escaped → Escape (backslash :: e :: s) [c] s
  | unicode {ds s : Bytes} {n : ℕ} : Hex4 ds n → ¬ IsLead n → Escape (backslash :: letterU :: (ds ++ s)) (utf8 n) s
  | pair {ds es s : Bytes} {n m : ℕ} : Hex4 ds n → IsLead n → Hex4 es m → IsTrail m →
      Escape (backslash :: letterU :: (ds ++ backslash :: letterU :: (es ++ s)))
        (utf8 ((n - 0xD800) * 2 ^ 10 + (m - 0xDC00) + 0x10000)) s

/-- The characters of a string from after its opening quotation mark, and the bytes that they stand for. -/
inductive Chars : Bytes → Bytes → Bytes → Prop
  | close (s : Bytes) : Chars (quote :: s) [] s
  | plain {c : UInt8} {s str r : Bytes} : 32 ≤ c → c ≠ quote → c ≠ backslash → Chars s str r → Chars (c :: s) (c :: str) r
  | escape {s bytes s1 str r : Bytes} : Escape s bytes s1 → Chars s1 str r → Chars s (bytes ++ str) r

def Digits (ds : Bytes) : Prop := ds ≠ [] ∧ ∀ c ∈ ds, isDigit c

inductive Fraction : Bytes → Prop
  | none : Fraction []
  | some {ds : Bytes} : Digits ds → Fraction (point :: ds)

inductive Exponent : Bytes → Prop
  | none : Exponent []
  | some {e : UInt8} {sign ds : Bytes} : e = 101 ∨ e = 69 → sign = [] ∨ sign = [plus] ∨ sign = [minus] → Digits ds →
      Exponent (e :: (sign ++ ds))

def signText (negative : Bool) : Bytes := if negative then [minus] else []

def signed (negative : Bool) (n : ℕ) : ℤ := if negative then -n else n

def maxInt (negative : Bool) : ℕ := if negative then 2 ^ 63 else 2 ^ 64 - 1

inductive NumberText (tooBig : Bytes → Bool) : Bytes → Value → Prop
  | int (negative : Bool) {ds : Bytes} : Numeral ds → value 0 ds ≤ maxInt negative →
      NumberText tooBig (signText negative ++ ds) (.int (signed negative (value 0 ds)))
  | double (negative : Bool) {ds f e : Bytes} : Numeral ds → Fraction f → Exponent e →
      (f = [] → e = [] → maxInt negative < value 0 ds) → tooBig (signText negative ++ (ds ++ (f ++ e))) = false →
      NumberText tooBig (signText negative ++ (ds ++ (f ++ e))) (.double (text (signText negative ++ (ds ++ (f ++ e)))))

mutual

inductive Derives (flags : ParseFlags) (tooBig : Bytes → Bool) : Bytes → Value → Bytes → Prop
  | null (s : Bytes) : Derives flags tooBig (ascii "null" ++ s) .null s
  | bool (b : Bool) (s : Bytes) : Derives flags tooBig (ascii (if b then "true" else "false") ++ s) (.bool b) s
  | string {s str r : Bytes} : Chars s str r → Derives flags tooBig (quote :: s) (.string (text str)) r
  | number {t s : Bytes} {v : Value} : NumberText tooBig t v → Derives flags tooBig (t ++ s) v s
  | emptyArray {s r : Bytes} : Blank flags.comments s (rightBracket :: r) →
      Derives flags tooBig (leftBracket :: s) (.array []) r
  | array {s s1 r : Bytes} {elements : List Value} : Blank flags.comments s s1 → Elements flags tooBig s1 elements r →
      Derives flags tooBig (leftBracket :: s) (.array elements) r
  | emptyObject {s r : Bytes} : Blank flags.comments s (rightBrace :: r) → Derives flags tooBig (leftBrace :: s) (.object []) r
  | object {s s1 r : Bytes} {members : List (String × Value)} : Blank flags.comments s s1 →
      Members flags tooBig s1 members r → Derives flags tooBig (leftBrace :: s) (.object members) r

/-- The elements of an array and its closing bracket. -/
inductive Elements (flags : ParseFlags) (tooBig : Bytes → Bool) : Bytes → List Value → Bytes → Prop
  | last {s s1 r : Bytes} {v : Value} : Derives flags tooBig s v s1 → Blank flags.comments s1 (rightBracket :: r) →
      Elements flags tooBig s [v] r
  | trailing {s s1 s2 r : Bytes} {v : Value} : flags.trailingCommas = true → Derives flags tooBig s v s1 →
      Blank flags.comments s1 (comma :: s2) → Blank flags.comments s2 (rightBracket :: r) → Elements flags tooBig s [v] r
  | cons {s s1 s2 s3 r : Bytes} {v : Value} {elements : List Value} : Derives flags tooBig s v s1 →
      Blank flags.comments s1 (comma :: s2) → Blank flags.comments s2 s3 → Elements flags tooBig s3 elements r →
      Elements flags tooBig s (v :: elements) r

/-- A name, a colon and a value. -/
inductive Member (flags : ParseFlags) (tooBig : Bytes → Bool) : Bytes → String × Value → Bytes → Prop
  | mk {s name s1 s2 s3 r : Bytes} {v : Value} : Chars s name s1 → Blank flags.comments s1 (colon :: s2) →
      Blank flags.comments s2 s3 → Derives flags tooBig s3 v r → Member flags tooBig (quote :: s) (text name, v) r

/-- The members of an object and its closing brace. -/
inductive Members (flags : ParseFlags) (tooBig : Bytes → Bool) : Bytes → List (String × Value) → Bytes → Prop
  | last {s s1 r : Bytes} {m : String × Value} : Member flags tooBig s m s1 →
      Blank flags.comments s1 (rightBrace :: r) → Members flags tooBig s [m] r
  | trailing {s s1 s2 r : Bytes} {m : String × Value} : flags.trailingCommas = true → Member flags tooBig s m s1 →
      Blank flags.comments s1 (comma :: s2) → Blank flags.comments s2 (rightBrace :: r) → Members flags tooBig s [m] r
  | cons {s s1 s2 s3 r : Bytes} {m : String × Value} {members : List (String × Value)} : Member flags tooBig s m s1 →
      Blank flags.comments s1 (comma :: s2) → Blank flags.comments s2 s3 → Members flags tooBig s3 members r →
      Members flags tooBig s (m :: members) r

end

/-- A whole text. -/
def Document (flags : ParseFlags) (tooBig : Bytes → Bool) (s : Bytes) (v : Value) : Prop :=
  ∃ s1 s2, Blank flags.comments s s1 ∧ Derives flags tooBig s1 v s2 ∧ Closing flags.comments s2

end NoncesHeatmap.Json
