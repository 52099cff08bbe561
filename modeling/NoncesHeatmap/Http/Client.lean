import Mathlib.Data.Finset.Basic
import NoncesHeatmap.Library.Runs

/-! # The life of an `HttpClient`

A client has three sources of events that know nothing of each other: the resolver, the timer and the
queue of closed handles. Its parts keep three notions of being alive: the id in the storage of the
contexts (`listed`), the key in `Dns::m_storage` (`keys`), and the request of `uv_getaddrinfo` that the
resolver still holds (`pending`). What a step does to a part that is dead is recorded as a `Fault`. -/

namespace NoncesHeatmap
open Runs
set_option autoImplicit false

inductive Fault where
  /-- `uv_tcp_connect` on a handle that is closing. -/
  | connectClosing
  /-- `Storage::get` of a key that is not there, against its assertion. -/
  | releasedKey
  /-- The request of `uv_getaddrinfo` is deleted before its completion. -/
  | deletedPending
deriving DecidableEq

inductive Stream where
  | idle
  | connecting
  | reading
deriving DecidableEq

inductive AddressFamily where
  | inet
  | inet6
  | other
deriving DecidableEq

structure Client where
  listed : Bool
  closing : Bool
  deleted : Bool
  /-- The timer is running. -/
  timer : Bool
  pending : Bool
  stream : Stream
  /-- The keys of `Dns::m_storage`, those of other clients included. -/
  keys : Finset ℕ
  key : ℕ
  faults : List Fault

namespace Client

def UV_EAI_NONAME : ℤ := -3008

def fault (f : Fault) (c : Client) : Client := { c with faults := c.faults ++ [f] }

/-- The constructor and `connect()`, whose result `fetch` ignores: `resolves` is the success of
`uv_getaddrinfo`, which then completes once. -/
def create (keys : Finset ℕ) (counter timeout : ℕ) (resolves : Bool) : Client where
  listed := true
  closing := false
  deleted := false
  timer := decide (timeout ≠ 0)
  pending := resolves
  stream := .idle
  keys := insert counter keys
  key := counter
  faults := []

def close (c : Client) : Client := if c.listed then { c with listed := false, closing := true } else c

def onTimer (c : Client) : Client := close { c with timer := false }

/-- `HttpClient::onResolved`; `empty` is `dns.isEmpty()` and `connects` the success of `uv_tcp_connect`,
which is ignored. -/
def onResolved (connects : Bool) (status : ℤ) (empty : Bool) (c : Client) : Client :=
  if status < 0 ∧ empty then c
  else if c.closing then fault .connectClosing c
  else if connects then { c with stream := .connecting } else c

/-- The addresses that `Dns::onResolved` keeps. -/
def records (status : ℤ) (res : List AddressFamily) : List AddressFamily :=
  if status < 0 then [] else res.filter fun family => decide (family ≠ .other)

/-- `Dns::onResolved(int, addrinfo *)` -/
def dnsResolved (connects : Bool) (status : ℤ) (res : List AddressFamily) (c : Client) : Client :=
  let empty := (records status res).isEmpty
  onResolved connects (if status < 0 then status else if empty then UV_EAI_NONAME else status) empty c

/-- The completion of `uv_getaddrinfo`: the static `Dns::onResolved`. -/
def completed (connects : Bool) (status : ℤ) (res : List AddressFamily) (c : Client) : Client :=
  let c := { c with pending := false }
  if c.key ∈ c.keys then dnsResolved connects status res c else fault .releasedKey c

def onConnect (status : ℤ) (c : Client) : Client :=
  if status < 0 then close { c with stream := .idle } else { c with stream := .reading }

/-- `~HttpClient`, which deletes the timer and the `Dns`. -/
def destroy (c : Client) : Client :=
  let c := { c with deleted := true, timer := false, stream := .idle }
  let c := if c.key ∈ c.keys then { c with keys := c.keys.erase c.key } else fault .releasedKey c
  if c.pending then fault .deletedPending c else c

inductive Event where
  | resolved (status : ℤ) (res : List AddressFamily) (connects : Bool)
  | connected (status : ℤ)
  /-- A read; `refused` when the parser does not consume it. -/
  | read (refused : Bool)
  | readError (nread : ℤ)
  | timer
  | closed

/-- A closing handle has its connection request cancelled before its callback. The resolver keeps its
request whatever happens to the client. -/
def enabled (c : Client) : Event → Bool
  | .resolved _ _ _ => c.pending
  | .connected status => decide (c.stream = .connecting) && (!c.closing || decide (status < 0))
  | .read _ => decide (c.stream = .reading) && !c.closing
  | .readError nread => decide (c.stream = .reading) && !c.closing && decide (nread < 0)
  | .timer => c.timer
  | .closed => c.closing && !c.deleted && decide (c.stream ≠ .connecting)

def next (c : Client) : Event → Client
  | .resolved status res connects => completed connects status res c
  | .connected status => onConnect status c
  | .read refused => if refused then close c else c
  | .readError _ => close c
  | .timer => onTimer c
  | .closed => destroy c

def machine : Machine Client Event where
  enabled c e := enabled c e = true
  next := next

instance (c : Client) (e : Event) : Decidable (machine.enabled c e) := inferInstanceAs (Decidable (enabled c e = true))

end Client
end NoncesHeatmap
