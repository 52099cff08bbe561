import NoncesHeatmap.Base.Daemon
import NoncesHeatmap.Http.Data

/-! # `Network`: the sync with the daemon

The members of `Network` with the parts of its surroundings that one sync touches: the counter of
`JsonRequest`, the exchanges given to `fetch` and not yet delivered, and how the run has ended. The
listener's reaction to a report is not part of this model, so a function goes on after the call as
the source does.

`onHttpData` receives a body through `Document::Parse`: `none` is a parse error. The one exception
on these paths is the `std::out_of_range` of `m_data.at(i)` in `save()`; `Except.error` carries the
state in which it was thrown. Request ids are natural numbers: the 64-bit counter of `JsonRequest`
does not wrap within a run. Log lines and the timestamps printed there are left out. -/

namespace NoncesHeatmap
set_option autoImplicit false

structure Range where
  start : ℕ
  «end» : ℕ
deriving DecidableEq

namespace Range

/-- `Range(start, count, max)`: the sum is a `uint32_t`. -/
def of (start count max : ℕ) : Range := ⟨start, min (u32 (start + count)) max⟩

instance : Membership ℕ Range := ⟨fun r h => r.start ≤ h ∧ h ≤ r.end⟩

theorem mem_iff {r : Range} {h : ℕ} : h ∈ r ↔ r.start ≤ h ∧ h ≤ r.end := Iff.rfl

instance (h : ℕ) (r : Range) : Decidable (h ∈ r) := inferInstanceAs (Decidable (_ ∧ _))

end Range

inductive RequestType where
  | lastBlockHeader
  | blockHeadersRange
deriving DecidableEq

def RequestType.code : RequestType → ℕ
  | lastBlockHeader => 1
  | blockHeadersRange => 2

/-- A JSON RPC call given to `fetch`; `params` are the heights of a `getblockheadersrange`. -/
structure Exchange where
  rpcId : ℕ
  type : RequestType
  params : Option Range
deriving DecidableEq

/-- A report to the `INetworkListener`, or the exception of `save()` leaving `onHttpData`. -/
inductive Ending where
  | onFatalError
  | onSyncDone (modified : Bool)
  | outOfRange
deriving DecidableEq

structure Network where
  data : Std.TreeMap ℕ ℕ
  req : Std.TreeMap ℕ Range
  nonces : List ℕ
  timer : Bool
  height : ℕ
  pos : ℕ
  nextId : ℕ
  exchanges : List Exchange
  endings : List Ending

namespace Network

def onFatalError (w : Network) : Network := { w with endings := w.endings ++ [.onFatalError] }

def onSyncDone (modified : Bool) (w : Network) : Network :=
  { w with endings := w.endings ++ [.onSyncDone modified] }

def createRequest (w : Network) : ℕ × Network := (w.nextId + 1, { w with nextId := w.nextId + 1 })

def rpcSend (params : Option Range) (type : RequestType) (id : ℕ) (w : Network) : ℕ × Network :=
  (id, { w with exchanges := w.exchanges ++ [⟨id, type, params⟩] })

/-- `getBlockHeadersRange(const Range &)`. -/
def getBlockHeadersRangeOf (range : Range) (w : Network) : ℕ × Network :=
  let w := { w with pos := u32 (range.end + 1) }
  let (id, w) := createRequest w
  let (id, w) := rpcSend (some range) .blockHeadersRange id w
  (id, { w with req := w.req.insertIfNew id range })

def getBlockHeadersRange (d : Daemon) (w : Network) : ℕ × Network :=
  if w.pos > w.height then (0, w)
  else getBlockHeadersRangeOf (Range.of w.pos d.maxRange w.height) w

def getLastBlockHeader (w : Network) : ℕ × Network :=
  let (id, w) := createRequest w
  rpcSend none .lastBlockHeader id w

/-- The loop of `sync()` with `count` rounds left. -/
def requestLoop (d : Daemon) : ℕ → Network → Network
  | 0, w => w
  | count + 1, w => requestLoop d count (getBlockHeadersRange d w).2

def beginSync (d : Daemon) (w : Network) : Network :=
  { w with timer := w.timer || decide (d.printTime ≠ 0), pos := u32 w.nonces.length }

def sync (d : Daemon) (w : Network) : Network := requestLoop d d.concurrency (beginSync d w)

def emplaceNonce (w : Network) (i : ℕ) : Except Network Network :=
  match w.data[i]? with
  | none => .error w
  | some nonce => .ok { w with nonces := w.nonces ++ [nonce] }

def save (w : Network) : Except Network Network := do
  let w := { w with timer := false }
  let w ← (List.range' w.nonces.length (w.height + 1 - w.nonces.length)).foldlM emplaceNonce w
  return onSyncDone true { w with data := ∅ }

/-- `m_data.insert({ height, nonce })`: the first nonce of a height stays. -/
def insertHeader (data : Std.TreeMap ℕ ℕ) (header : Value) : Std.TreeMap ℕ ℕ :=
  data.insertIfNew (Json.getUint header "height" 0) (Json.getUint header "nonce" 0)

/-- The state once the headers of a reply are stored and its entry of `m_req` is erased. -/
def accept (id : ℕ) (headers : Value) (w : Network) : Network :=
  { w with data := headers.getArray.foldl insertHeader w.data, req := w.req.erase id }

def setBlockHeadersRange (d : Daemon) (id : ℕ) (headers : Value) (w : Network) :
    Except Network (Bool × Network) :=
  if !headers.isArray || headers.getArray.isEmpty then .ok (false, w)
  else match w.req[id]? with
    | none => .ok (false, w)
    | some _ =>
      let w := accept id headers w
      if w.req.isEmpty && decide (w.pos > w.height) then (save w).map fun w => (true, w)
      else if w.req.size < d.concurrency then .ok (true, (getBlockHeadersRange d w).2)
      else .ok (true, w)

def setLastBlockHeader (d : Daemon) (reader : Value) (w : Network) : Bool × Network :=
  let w := { w with height := Json.getUint reader "height" 0 }
  if w.height = 0 ∨ w.nonces.length > u32 (w.height + 1) then (false, w)
  else if w.nonces.length < u32 (w.height + 1) then (true, sync d w)
  else (true, onSyncDone false w)

def onRpcResponse (d : Daemon) (id : ℕ) (result error : Value) (type : ℕ) (w : Network) :
    Except Network Network :=
  if error.isObject then .ok (onFatalError w)
  else if !result.isObject then .ok (onFatalError w)
  else do
    let (done, w) :=
      if type = RequestType.lastBlockHeader.code then
        setLastBlockHeader d (Json.getObject result "block_header") w
      else (true, w)
    if !done then return onFatalError w
    let (done, w) ←
      if type = RequestType.blockHeadersRange.code then
        setBlockHeadersRange d id (Json.getArray result "headers") w
      else .ok (true, w)
    if !done then return onFatalError w
    return w

/-- The part of `onHttpData` after the retry branch. -/
def onJsonData (d : Daemon) (data : HttpData (Option Value)) (w : Network) : Except Network Network :=
  if !data.isJSON then .ok (onFatalError w)
  else match data.body with
    | none => .ok (onFatalError w)
    | some doc =>
      onRpcResponse d (Json.getUint64 doc "id" 0) (Json.getObject doc "result")
        (Json.getObject doc "error") data.userType w

def onHttpData (d : Daemon) (data : HttpData (Option Value)) (w : Network) : Except Network Network :=
  if data.status ≠ HttpData.statusOk ∧ data.userType = RequestType.blockHeadersRange.code ∧
      data.status < 0 then
    match w.req[data.rpcId]? with
    | some range =>
      -- the iterator stays valid: the new entry has another id
      let w := (getBlockHeadersRangeOf range w).2
      .ok { w with req := w.req.erase data.rpcId }
    | none => onJsonData d data w
  else onJsonData d data w

def init (nonces : List ℕ) : Network where
  data := ∅
  req := ∅
  nonces := nonces
  timer := false
  height := 0
  pos := 0
  nextId := 0
  exchanges := []
  endings := []

def connect (nonces : List ℕ) : Network := (getLastBlockHeader (init nonces)).2

end Network
end NoncesHeatmap
