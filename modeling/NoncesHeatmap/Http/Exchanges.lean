import Mathlib.Data.Finset.Basic
import Mathlib.Logic.Function.Basic
import NoncesHeatmap.Http.Context
import NoncesHeatmap.Library.Runs

/-! # The exchanges of the HTTP client

All contexts of the program: the ones that exist, the ids in the static `storage`, and every call of a
listener's `onHttpData` with the context it was made for. A listener may start exchanges and destroy
listener objects while it is called: `react` says what it does after the calls made so far, and is
arbitrary. The events are the callbacks of libuv for one context. What OpenSSL makes of a read of an
`HttpsClient` is part of the event. -/

namespace NoncesHeatmap
open Runs Function
set_option autoImplicit false

def UV_EPROTO : ℤ := -71
def UV_ETIMEDOUT : ℤ := -110
def UV_ECANCELED : ℤ := -125
def UV_EOF : ℤ := -4095

structure Http (P : HttpParser) where
  sequence : ℕ
  storage : Finset ℕ
  contexts : ℕ → Option (HttpContext P)
  expired : Finset ℕ
  calls : List (ℕ × HttpData Bytes)

structure Reaction where
  fetches : List FetchRequest
  destroyed : List ℕ

abbrev Listeners := List (ℕ × HttpData Bytes) → Reaction

/-- What `HttpsClient::read` gets out of OpenSSL for one read. -/
inductive TlsRead where
  | pending
  | refused
  | ready
  /-- Decrypted pieces; `eof` when the last `SSL_read` returned 0. -/
  | decrypted (pieces : List Bytes) (eof : Bool)

namespace Http

/-- The callbacks of libuv for one context. -/
inductive Event where
  | resolved (status : ℤ)
  | connected (status : ℤ)
  | read (bytes : Bytes)
  | tlsRead (read : TlsRead)
  | readError (nread : ℤ)
  | timer
  /-- The callback of `uv_close`, which deletes the context. -/
  | closed

variable {P : HttpParser}

def fetch (h : Http P) (req : FetchRequest) : Http P :=
  { h with
    sequence := h.sequence + 1
    storage := insert h.sequence h.storage
    contexts := update h.contexts h.sequence (some (.create P req)) }

def httpListener (h : Http P) (c : HttpContext P) : Bool := !c.reset && decide (c.listener ∉ h.expired)

def set (id : ℕ) (c : HttpContext P) (h : Http P) : Http P :=
  { h with contexts := update h.contexts id (some c) }

/-- `listener->onHttpData(*ctx)`. -/
def invoke (react : Listeners) (id : ℕ) (c : HttpContext P) (h : Http P) : Http P :=
  let h := { h with calls := h.calls ++ [(id, c.data)] }
  let reaction := react h.calls
  let h := reaction.fetches.foldl fetch h
  { h with expired := h.expired ∪ reaction.destroyed.toFinset }

def close (react : Listeners) (status : ℤ) (id : ℕ) (c : HttpContext P) (h : Http P) :
    HttpContext P × Http P :=
  if id ∉ h.storage then (c, h)
  else
    let (c, h) :=
      if status < 0 ∧ httpListener h c then
        let c := HttpContext.setStatus status c
        (c, invoke react id c h)
      else (c, h)
    let h := { h with storage := h.storage.erase id }
    ({ c with closing := true }, h)

def onMessageComplete (react : Listeners) (id : ℕ) (c : HttpContext P) (h : Http P) :
    HttpContext P × Http P :=
  if httpListener h c then ({ c with reset := true }, invoke react id c h) else (c, h)

def runCallback (react : Listeners) (id : ℕ) (s : HttpContext P × Http P) (callback : Callback) :
    HttpContext P × Http P :=
  match callback with
  | .messageComplete => onMessageComplete react id s.1 s.2
  | callback => (HttpContext.onCallback callback s.1, s.2)

def parse (react : Listeners) (bytes : Bytes) (id : ℕ) (c : HttpContext P) (h : Http P) :
    ℕ × HttpContext P × Http P :=
  if bytes.length = 0 then (bytes.length, c, h)
  else
    let result := P.execute c.parser bytes
    let (c, h) := result.callbacks.foldl (runCallback react id) ({ c with parser := result.state }, h)
    (result.parsed, c, h)

/-- `HttpClient::read`. -/
def read (react : Listeners) (id : ℕ) (s : HttpContext P × Http P) (bytes : Bytes) :
    HttpContext P × Http P :=
  let (parsed, c, h) := parse react bytes id s.1 s.2
  if parsed < bytes.length then close react UV_EPROTO id c h else (c, h)

/-- `HttpsClient::read`. -/
def tlsRead (react : Listeners) (id : ℕ) (r : TlsRead) (c : HttpContext P) (h : Http P) :
    HttpContext P × Http P :=
  match r with
  | .pending => (c, h)
  | .refused => close react UV_EPROTO id c h
  | .ready => (c.handshake, h)
  | .decrypted pieces eof =>
    let (c, h) := pieces.foldl (read react id) (c, h)
    if eof then close react UV_EOF id c h else (c, h)

/-- `HttpClient::onConnect`. An `HttpsClient` sends its request after the TLS handshake. -/
def onConnect (react : Listeners) (status : ℤ) (id : ℕ) (c : HttpContext P) (h : Http P) :
    HttpContext P × Http P :=
  if status < 0 then
    let status := if status = UV_ECANCELED then UV_ETIMEDOUT else status
    close react status id c h
  else (if c.tls then c else c.handshake, h)

def onTimer (react : Listeners) (id : ℕ) (c : HttpContext P) (h : Http P) : HttpContext P × Http P :=
  close react UV_ETIMEDOUT id c h

def onEvent (react : Listeners) (e : Event) (id : ℕ) (c : HttpContext P) (h : Http P) :
    HttpContext P × Http P :=
  match e with
  | .resolved status => (HttpContext.setStatus status c, h)
  | .connected status => onConnect react status id c h
  | .read bytes => read react id (c, h) bytes
  | .tlsRead r => tlsRead react id r c h
  | .readError nread => close react nread id c h
  | .timer => onTimer react id c h
  | .closed => (c, h)

inductive Label where
  /-- An exchange that is started outside a call of a listener. -/
  | fetch (req : FetchRequest)
  /-- A listener object that is destroyed outside a call of a listener. -/
  | destroy (listener : ℕ)
  | event (id : ℕ) (e : Event)

/-- There is no read callback after `uv_close`, and `uv_close` has one callback. -/
def enabledEvent (c : HttpContext P) : Event → Bool
  | .resolved _ => true
  | .connected _ => true
  | .read _ => !c.closing && !c.tls
  | .tlsRead _ => !c.closing && c.tls
  | .readError nread => !c.closing && decide (nread < 0)
  | .timer => true
  | .closed => c.closing

def next (react : Listeners) (h : Http P) : Label → Http P
  | .fetch req => fetch h req
  | .destroy listener => { h with expired := insert listener h.expired }
  | .event id e =>
    match h.contexts id with
    | none => h
    | some c =>
      let (c, h) := onEvent react e id c h
      match e with
      | .closed => { h with contexts := update h.contexts id none }
      | _ => set id c h

def machine (P : HttpParser) (react : Listeners) : Machine (Http P) Label where
  enabled h
    | .fetch _ => True
    | .destroy _ => True
    | .event id e => ∃ c, h.contexts id = some c ∧ enabledEvent c e = true
  next := next react

def init (P : HttpParser) : Http P where
  sequence := 0
  storage := ∅
  contexts _ := none
  expired := ∅
  calls := []

/-! ## Callbacks and calls -/

theorem runCallback_context (react : Listeners) {id : ℕ} {s : HttpContext P × Http P} {callback : Callback}
    (hne : callback ≠ .messageComplete) :
    runCallback react id s callback = (HttpContext.onCallback callback s.1, s.2) := by
  cases callback with
  | messageComplete => exact absurd rfl hne
  | _ => rfl

theorem httpListener_onCallback (h : Http P) (callback : Callback) (c : HttpContext P) :
    httpListener h (HttpContext.onCallback callback c) = httpListener h c := by
  obtain ⟨hlistener, hreset, -, -⟩ := HttpContext.onCallback_listener callback c
  rw [httpListener, httpListener, hreset, hlistener]

theorem fetches_keep (h : Http P) (reqs : List FetchRequest) :
    h.storage ⊆ (reqs.foldl fetch h).storage ∧ (reqs.foldl fetch h).calls = h.calls := by
  induction reqs generalizing h with
  | nil => exact ⟨subset_rfl, rfl⟩
  | cons req reqs ih =>
    obtain ⟨hstorage, hcalls⟩ := ih (fetch h req)
    exact ⟨(Finset.subset_insert _ _).trans hstorage, hcalls⟩

/-- A call adds itself to the calls, and what the listener does meanwhile frees no id. -/
theorem invoke_keep (react : Listeners) (id : ℕ) (c : HttpContext P) (h : Http P) :
    h.storage ⊆ (invoke react id c h).storage ∧ (invoke react id c h).calls = h.calls ++ [(id, c.data)] :=
  fetches_keep { h with calls := h.calls ++ [(id, c.data)] } (react (h.calls ++ [(id, c.data)])).fetches

end Http
end NoncesHeatmap
