import Mathlib.Data.List.Basic
import NoncesHeatmap.Base.Strings
import NoncesHeatmap.Http.Data

/-! # `HttpContext`: one exchange

A context reassembles the headers and the body of a response from the callbacks of `http_parser`.
The parser itself is a parameter, `HttpParser`: what one `http_parser_execute` reports and consumes,
with what its README says of errors and of reads it does not consume. A `std::string` that holds
wire data is a list of bytes; a header name and value become strings when they enter the map. -/

namespace NoncesHeatmap
set_option autoImplicit false

def text (bytes : Bytes) : String := String.ofList (bytes.map fun b => Char.ofNat b.toNat)

/-- `::tolower` in the C locale. -/
def tolower (b : UInt8) : UInt8 := if 65 ≤ b ∧ b ≤ 90 then b + 32 else b

/-- The callbacks that `HttpContext::attach` sets, as a response triggers them. -/
inductive Callback where
  | headerField (bytes : Bytes)
  | headerValue (bytes : Bytes)
  | headersComplete (statusCode : ℕ)
  | body (bytes : Bytes)
  | messageComplete
deriving DecidableEq

/-- The outcome of one `http_parser_execute`: its callbacks in order, the number of bytes parsed and
the state of the parser after it. -/
structure Parsed (State : Type) where
  callbacks : List Callback
  parsed : ℕ
  state : State

/-- A response parser. `failed` is an error other than `HPE_OK`: it stays, and no callback follows it.
A read that is not consumed to its end is an error or follows a complete message (an upgrade). -/
structure HttpParser where
  State : Type
  init : State
  execute : State → Bytes → Parsed State
  failed : State → Bool
  failed_silent : ∀ s bytes, failed s = true →
    (execute s bytes).callbacks = [] ∧ failed (execute s bytes).state = true
  short : ∀ s bytes, (execute s bytes).parsed < bytes.length →
    failed (execute s bytes).state = true ∨ .messageComplete ∈ (execute s bytes).callbacks

/-- A parser that answers one read after the other from a script and consumes all it gets. -/
def HttpParser.script (answers : List (List Callback)) : HttpParser where
  State := ℕ
  init := 0
  execute s bytes := ⟨answers.getD s [], bytes.length, s + 1⟩
  failed _ := false
  failed_silent := by
    intro s bytes hfailed
    cases hfailed
  short := by
    intro s bytes hless
    exact absurd hless (Nat.lt_irrefl _)

/-- What `fetch` is given: the request, the listener object and the two numbers handed back. -/
structure FetchRequest where
  headers : Headers
  body : Bytes
  tls : Bool
  listener : ℕ
  userType : ℕ
  rpcId : ℕ

/-- The members of an `HttpContext`. The weak pointer `m_listener` is the object `listener` until it
is reset. -/
structure HttpContext (P : HttpParser) where
  data : HttpData Bytes
  wasHeaderValue : Bool
  lastHeaderField : Bytes
  lastHeaderValue : Bytes
  parser : P.State
  tls : Bool
  listener : ℕ
  reset : Bool
  closing : Bool

namespace HttpContext
variable {P : HttpParser}

def create (P : HttpParser) (req : FetchRequest) : HttpContext P where
  data := ⟨0, req.userType, req.rpcId, req.headers, req.body⟩
  wasHeaderValue := false
  lastHeaderField := []
  lastHeaderValue := []
  parser := P.init
  tls := req.tls
  listener := req.listener
  reset := false
  closing := false

def setStatus (status : ℤ) (c : HttpContext P) : HttpContext P :=
  { c with data := { c.data with status := status } }

/-- `setHeader()`: the first value of a name stays. -/
def setHeader (c : HttpContext P) : HttpContext P :=
  { c with
    data := { c.data with
      headers := c.data.headers.insertIfNew (text (c.lastHeaderField.map tolower)) (text c.lastHeaderValue) }
    lastHeaderField := []
    lastHeaderValue := [] }

def onHeaderField (bytes : Bytes) (c : HttpContext P) : HttpContext P :=
  if c.wasHeaderValue then
    let c := if c.lastHeaderField = [] then c else setHeader c
    { c with lastHeaderField := bytes, wasHeaderValue := false }
  else { c with lastHeaderField := c.lastHeaderField ++ bytes }

def onHeaderValue (bytes : Bytes) (c : HttpContext P) : HttpContext P :=
  if !c.wasHeaderValue then { c with lastHeaderValue := bytes, wasHeaderValue := true }
  else { c with lastHeaderValue := c.lastHeaderValue ++ bytes }

def onHeadersComplete (statusCode : ℕ) (c : HttpContext P) : HttpContext P :=
  let c := setStatus statusCode c
  if c.lastHeaderField = [] then c else setHeader c

def onBody (bytes : Bytes) (c : HttpContext P) : HttpContext P :=
  { c with data := { c.data with body := c.data.body ++ bytes } }

/-- The callbacks other than `on_message_complete` change the context only. -/
def onCallback (callback : Callback) (c : HttpContext P) : HttpContext P :=
  match callback with
  | .headerField bytes => onHeaderField bytes c
  | .headerValue bytes => onHeaderValue bytes c
  | .headersComplete statusCode => onHeadersComplete statusCode c
  | .body bytes => onBody bytes c
  | .messageComplete => c

/-- The part of `handshake()` that changes members: the headers are cleared and the body is moved into
the request. -/
def handshake (c : HttpContext P) : HttpContext P :=
  { c with data := { c.data with headers := ∅, body := [] } }

theorem setHeader_listener (c : HttpContext P) :
    (setHeader c).listener = c.listener ∧ (setHeader c).reset = c.reset ∧
      (setHeader c).closing = c.closing ∧ (setHeader c).parser = c.parser := ⟨rfl, rfl, rfl, rfl⟩

/-- A callback leaves the listener, the handle and the parser alone. -/
theorem onCallback_listener (callback : Callback) (c : HttpContext P) :
    (onCallback callback c).listener = c.listener ∧ (onCallback callback c).reset = c.reset ∧
      (onCallback callback c).closing = c.closing ∧ (onCallback callback c).parser = c.parser := by
  cases callback with
  | headerField bytes =>
    simp only [onCallback, onHeaderField]
    split
    · split
      · exact ⟨rfl, rfl, rfl, rfl⟩
      · exact setHeader_listener c
    · exact ⟨rfl, rfl, rfl, rfl⟩
  | headerValue bytes =>
    simp only [onCallback, onHeaderValue]
    split <;> exact ⟨rfl, rfl, rfl, rfl⟩
  | headersComplete statusCode =>
    simp only [onCallback, onHeadersComplete]
    split
    · exact ⟨rfl, rfl, rfl, rfl⟩
    · exact setHeader_listener _
  | body bytes => exact ⟨rfl, rfl, rfl, rfl⟩
  | messageComplete => exact ⟨rfl, rfl, rfl, rfl⟩

end HttpContext
end NoncesHeatmap
