import NoncesHeatmap.Http.Context

/-! # Final HTTP/1.1 responses as byte streams

`Response` is a final response with all the choices its sender has: the reason, the header lines, and a
body delimited by `Content-Length`, by chunks or by the closing of the connection. `encode` writes it
down. `Documents` is what the README of `http_parser` says of a parser that is given such a stream
read by read, and of the zero-length `http_parser_execute` that tells it about the end of the stream. -/

namespace NoncesHeatmap
set_option autoImplicit false

def crlf : Bytes := [13, 10]

/-- The value of a numeral, most significant digit first. -/
def numeral (base : ℕ) (digit : UInt8 → Option ℕ) (bytes : Bytes) : Option ℕ :=
  if bytes = [] then none
  else bytes.foldlM (fun n b => (digit b).map fun d => base * n + d) 0

def decDigit (b : UInt8) : Option ℕ := if 48 ≤ b ∧ b ≤ 57 then some (b.toNat - 48) else none

def hexDigit (b : UInt8) : Option ℕ :=
  if 48 ≤ b ∧ b ≤ 57 then some (b.toNat - 48)
  else if 97 ≤ tolower b ∧ tolower b ≤ 102 then some ((tolower b).toNat - 87)
  else none

def IsLine (bytes : Bytes) : Prop := ∀ b ∈ bytes, b ≠ 13 ∧ b ≠ 10

instance (bytes : Bytes) : Decidable (IsLine bytes) :=
  inferInstanceAs (Decidable (∀ b ∈ bytes, b ≠ 13 ∧ b ≠ 10))

/-- A character of a header name: a letter, a digit or one of the special characters. -/
def isToken (b : UInt8) : Bool :=
  decide (b ∈ [33, 35, 36, 37, 38, 39, 42, 43, 45, 46, 94, 95, 96, 124, 126]) ||
    (decDigit b).isSome || decide (97 ≤ tolower b ∧ tolower b ≤ 122)

structure Field where
  name : Bytes
  blanks : Bytes
  value : Bytes
  name_ne : name ≠ []
  name_token : ∀ b ∈ name, isToken b = true
  blanks_eq : ∀ b ∈ blanks, b = 32 ∨ b = 9
  value_line : IsLine value
deriving DecidableEq

def Field.encode (f : Field) : Bytes := f.name ++ [58] ++ f.blanks ++ f.value ++ crlf

/-- A chunk: the digits of its size, an extension and the data. -/
structure Chunk where
  size : Bytes
  extension : Bytes
  data : Bytes
  size_eq : numeral 16 hexDigit size = some data.length
  data_ne : data ≠ []
  extension_line : extension = [] ∨ extension.head? = some 59 ∧ IsLine extension

def Chunk.encode (c : Chunk) : Bytes := c.size ++ c.extension ++ crlf ++ c.data ++ crlf

structure LastChunk where
  zeros : ℕ
  extension : Bytes
  trailers : List Field
  extension_line : extension = [] ∨ extension.head? = some 59 ∧ IsLine extension

def LastChunk.encode (c : LastChunk) : Bytes :=
  List.replicate (c.zeros + 1) 48 ++ c.extension ++ crlf ++ (c.trailers.map Field.encode).flatten ++ crlf

inductive Framing where
  | contentLength (body : Bytes)
  | chunked (chunks : List Chunk) (last : LastChunk)
  /-- The end of the body is the end of the connection. -/
  | untilClose (body : Bytes)

namespace Framing

def body : Framing → Bytes
  | contentLength body => body
  | chunked chunks _ => (chunks.map Chunk.data).flatten
  | untilClose body => body

def encode : Framing → Bytes
  | contentLength body => body
  | chunked chunks last => (chunks.map Chunk.encode).flatten ++ last.encode
  | untilClose body => body

def isUntilClose : Framing → Bool
  | untilClose _ => true
  | _ => false

end Framing

def fieldsNamed (fields : List Field) (name : String) : List Field :=
  fields.filter fun f => decide (f.name.map tolower = ascii name)

/-- The header lines announce the framing. A 204 or a 304 has no body that ends with the connection. -/
def Announces (fields : List Field) (status : ℕ) : Framing → Prop
  | .contentLength body =>
    (∃ f, fieldsNamed fields "content-length" = [f] ∧ numeral 10 decDigit f.value = some body.length) ∧
      fieldsNamed fields "transfer-encoding" = []
  | .chunked _ _ =>
    (∃ f, fieldsNamed fields "transfer-encoding" = [f] ∧ f.value.map tolower = ascii "chunked") ∧
      fieldsNamed fields "content-length" = []
  | .untilClose _ =>
    fieldsNamed fields "content-length" = [] ∧ fieldsNamed fields "transfer-encoding" = [] ∧ status ≠ 204 ∧
      status ≠ 304

structure Response where
  status : ℕ
  digits : Bytes
  reason : Bytes
  fields : List Field
  framing : Framing
  final : 200 ≤ status
  digits_eq : digits.length = 3 ∧ numeral 10 decDigit digits = some status
  reason_line : IsLine reason
  announces : Announces fields status framing

def Response.encode (r : Response) : Bytes :=
  ascii "HTTP/1.1 " ++ r.digits ++ ascii " " ++ r.reason ++ crlf ++
    (r.fields.map Field.encode).flatten ++ crlf ++ r.framing.encode

/-! ## The parser on such a stream -/

namespace HttpParser
variable (P : HttpParser)

/-- The callbacks of the non-empty reads. -/
def callbacks : P.State → List Bytes → List Callback
  | _, [] => []
  | s, bytes :: reads =>
    if bytes.length = 0 then callbacks s reads
    else (P.execute s bytes).callbacks ++ callbacks (P.execute s bytes).state reads

def feed : P.State → List Bytes → P.State
  | s, [] => s
  | s, bytes :: reads =>
    if bytes.length = 0 then feed s reads else feed (P.execute s bytes).state reads

def Consumes : P.State → List Bytes → Prop
  | _, [] => True
  | s, bytes :: reads =>
    if bytes.length = 0 then Consumes s reads
    else (P.execute s bytes).parsed = bytes.length ∧ Consumes (P.execute s bytes).state reads

end HttpParser

def Callback.isHeader : Callback → Bool
  | .headerField _ => true
  | .headerValue _ => true
  | _ => false

/-- What the README says of the stream of `r`, split into reads: all of it is parsed; the status is
known when the headers are complete; the callbacks for the body are given the decoded body piece by
piece; the message is complete with its last byte or, if the body ends with the connection, with the
zero-length call that stands for the end of the stream. -/
structure Documents (P : HttpParser) (r : Response) (reads : List Bytes) : Prop where
  stream : reads.flatten = r.encode
  consumed : P.Consumes P.init reads
  trace : ∃ (fields trailers : List Callback) (pieces : List Bytes),
    (∀ f ∈ fields ++ trailers, f.isHeader = true) ∧ pieces.flatten = r.framing.body ∧
    P.callbacks P.init reads =
      fields ++ [.headersComplete r.status] ++ pieces.map Callback.body ++ trailers ++
        if r.framing.isUntilClose then [] else [.messageComplete]
  eof : (P.execute (P.feed P.init reads) []).callbacks =
    if r.framing.isUntilClose then [.messageComplete] else []

end NoncesHeatmap
