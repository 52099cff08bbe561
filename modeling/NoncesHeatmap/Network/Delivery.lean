import NoncesHeatmap.Library.Runs
import NoncesHeatmap.Network.Model

/-! # One delivery to the `Network`

`machine d` runs a sync: a label delivers one outstanding exchange, as whatever the daemon and the
transport make of it, and no exchange is delivered after the run has ended. `deliver_eq` says once
what a delivery can do: `effect` decides between a retry, a fatal error and the two replies from
the delivered data, and `perform` carries the decision out. The lemmas after it give the outcome of
`save()` and of an accepted range reply. -/

namespace NoncesHeatmap.Network
open Runs
set_option autoImplicit false

/-- One exchange with what is delivered for it. The user type and the RPC id are those of the
exchange; everything else is up to the daemon and the transport. -/
structure Delivery where
  exchange : Exchange
  status : ℤ
  headers : Headers
  body : Option Value

def Delivery.data (δ : Delivery) : HttpData (Option Value) where
  status := δ.status
  userType := δ.exchange.type.code
  rpcId := δ.exchange.rpcId
  headers := δ.headers
  body := δ.body

def took (x : Exchange) (w : Network) : Network := { w with exchanges := w.exchanges.erase x }

/-- An exception that leaves `onHttpData` ends the run. -/
def settle : Except Network Network → Network
  | .ok w => w
  | .error w => { w with endings := w.endings ++ [.outOfRange] }

def deliver (d : Daemon) (w : Network) (δ : Delivery) : Network :=
  settle (onHttpData d δ.data (took δ.exchange w))

def machine (d : Daemon) : Machine Network Delivery where
  enabled w δ := w.endings = [] ∧ δ.exchange ∈ w.exchanges
  next := deliver d

theorem machine_next (d : Daemon) (w : Network) (δ : Delivery) : (machine d).next w δ = deliver d w δ :=
  rfl

instance (d : Daemon) (w : Network) (δ : Delivery) : Decidable ((machine d).enabled w δ) :=
  inferInstanceAs (Decidable (w.endings = [] ∧ δ.exchange ∈ w.exchanges))

/-! ## What a delivery does -/

inductive Effect where
  | retry (range : Range)
  | fatal
  | lastBlockHeader (reader : Value)
  | blockHeadersRange (id : ℕ) (headers : Value)

def retried (w : Network) (δ : Delivery) : Option Range :=
  if δ.exchange.type = .blockHeadersRange ∧ δ.status < 0 then w.req[δ.exchange.rpcId]? else none

/-- The document of a delivery that is not answered with `onFatalError()` before its type counts. -/
def Delivery.response (δ : Delivery) : Option Value :=
  if δ.data.isJSON then
    δ.body.filter fun doc =>
      !(Json.getObject doc "error").isObject && (Json.getObject doc "result").isObject
  else none

def effect (w : Network) (δ : Delivery) : Effect :=
  match retried w δ, δ.response with
  | some range, _ => .retry range
  | none, none => .fatal
  | none, some doc =>
    match δ.exchange.type with
    | .lastBlockHeader =>
      .lastBlockHeader (Json.getObject (Json.getObject doc "result") "block_header")
    | .blockHeadersRange =>
      .blockHeadersRange (Json.getUint64 doc "id" 0) (Json.getArray (Json.getObject doc "result") "headers")

def retry (id : ℕ) (range : Range) (w : Network) : Network :=
  { (getBlockHeadersRangeOf range w).2 with req := (getBlockHeadersRangeOf range w).2.req.erase id }

/-- What follows the storing of a reply: the end of the sync or the next request. -/
def advance (d : Daemon) (w : Network) : Network :=
  if w.req.isEmpty && decide (w.pos > w.height) then settle (save w)
  else if w.req.size < d.concurrency then (getBlockHeadersRange d w).2
  else w

/-- `headers` is a non-empty array and `id` a key of `m_req`. -/
def Accepted (w : Network) (id : ℕ) (headers : Value) : Prop :=
  headers.isArray ∧ headers.getArray ≠ [] ∧ id ∈ w.req

instance (w : Network) (id : ℕ) (headers : Value) : Decidable (Accepted w id headers) :=
  inferInstanceAs (Decidable (_ ∧ _ ∧ _))

def perform (d : Daemon) (rpcId : ℕ) (w : Network) : Effect → Network
  | .retry range => retry rpcId range w
  | .fatal => onFatalError w
  | .lastBlockHeader reader =>
    if (setLastBlockHeader d reader w).1 then (setLastBlockHeader d reader w).2
    else onFatalError (setLastBlockHeader d reader w).2
  | .blockHeadersRange id headers =>
    if Accepted w id headers then advance d (accept id headers w) else onFatalError w

theorem setBlockHeadersRange_accepted {d : Daemon} {w : Network} {id : ℕ} {headers : Value}
    (h : Accepted w id headers) :
    settle ((setBlockHeadersRange d id headers w).map Prod.snd) = advance d (accept id headers w) ∧
      ∀ r, setBlockHeadersRange d id headers w = .ok r → r.1 = true := by
  obtain ⟨harr, hne, hid⟩ := h
  obtain ⟨range, hrange⟩ : ∃ range, w.req[id]? = some range :=
    Option.isSome_iff_exists.mp (Std.TreeMap.mem_iff_isSome_getElem?.mp hid)
  have hnil : headers.getArray.isEmpty = false := by simpa using hne
  simp only [setBlockHeadersRange, harr, hnil, hrange, Bool.not_true, Bool.or_self, Bool.false_eq_true,
    if_false, advance]
  split
  · cases hs : save (accept id headers w) with
    | ok v => exact ⟨rfl, fun r hr => by cases hr; rfl⟩
    | error v => exact ⟨rfl, fun r hr => by cases hr⟩
  · split
    · exact ⟨rfl, fun r hr => by cases hr; rfl⟩
    · exact ⟨rfl, fun r hr => by cases hr; rfl⟩

theorem setBlockHeadersRange_rejected {d : Daemon} {w : Network} {id : ℕ} {headers : Value}
    (h : ¬ Accepted w id headers) : setBlockHeadersRange d id headers w = .ok (false, w) := by
  unfold setBlockHeadersRange
  split
  · rfl
  · next hcond =>
    rw [Bool.or_eq_true, not_or] at hcond
    cases hreq : w.req[id]? with
    | none => rfl
    | some range =>
      refine absurd ⟨by simpa using hcond.1, by simpa using hcond.2, ?_⟩ h
      rw [Std.TreeMap.mem_iff_isSome_getElem?, hreq]
      rfl

theorem onRpcResponse_range (d : Daemon) (id : ℕ) (result error : Value) (w : Network)
    (herr : error.isObject = false) (hres : result.isObject = true) :
    settle (onRpcResponse d id result error RequestType.blockHeadersRange.code w) =
      if Accepted w id (Json.getArray result "headers") then
        advance d (accept id (Json.getArray result "headers") w)
      else onFatalError w := by
  have htype : ¬ RequestType.blockHeadersRange.code = RequestType.lastBlockHeader.code := by decide
  simp only [onRpcResponse, herr, hres, htype, if_false, if_true, Bool.not_true, Bool.false_eq_true]
  split
  · next hacc =>
    obtain ⟨hsettle, hdone⟩ := setBlockHeadersRange_accepted (d := d) hacc
    rw [← hsettle]
    cases hs : setBlockHeadersRange d id (Json.getArray result "headers") w with
    | error v => rfl
    | ok r =>
      have hr := hdone r hs
      obtain ⟨done, v⟩ := r
      subst hr
      rfl
  · next hrej =>
    rw [setBlockHeadersRange_rejected hrej]
    rfl

theorem onRpcResponse_lastBlockHeader (d : Daemon) (id : ℕ) (result error : Value) (w : Network)
    (herr : error.isObject = false) (hres : result.isObject = true) :
    settle (onRpcResponse d id result error RequestType.lastBlockHeader.code w) =
      perform d id w (.lastBlockHeader (Json.getObject result "block_header")) := by
  have htype : ¬ RequestType.lastBlockHeader.code = RequestType.blockHeadersRange.code := by decide
  simp only [onRpcResponse, herr, hres, htype, if_false, if_true, Bool.not_true, Bool.false_eq_true,
    perform]
  obtain ⟨done, v⟩ := setLastBlockHeader d (Json.getObject result "block_header") w
  cases done <;> rfl

theorem onJsonData_eq (d : Daemon) (w : Network) (δ : Delivery) :
    settle (onJsonData d δ.data w) =
      match δ.response with
      | none => onFatalError w
      | some doc =>
        match δ.exchange.type with
        | .lastBlockHeader => perform d δ.exchange.rpcId w (.lastBlockHeader
            (Json.getObject (Json.getObject doc "result") "block_header"))
        | .blockHeadersRange => perform d δ.exchange.rpcId w (.blockHeadersRange
            (Json.getUint64 doc "id" 0) (Json.getArray (Json.getObject doc "result") "headers")) := by
  unfold onJsonData Delivery.response
  cases hjson : δ.data.isJSON with
  | false => rfl
  | true =>
    simp only [Bool.not_true, Bool.false_eq_true, if_false, if_true]
    have hbody : δ.data.body = δ.body := rfl
    rw [hbody]
    cases hb : δ.body with
    | none => rfl
    | some doc =>
      cases herr : (Json.getObject doc "error").isObject with
      | true => simp [onRpcResponse, herr, settle, Option.filter]
      | false =>
        cases hres : (Json.getObject doc "result").isObject with
        | false => simp [onRpcResponse, herr, hres, settle, Option.filter]
        | true =>
          simp only [Option.filter_some, herr, hres, Bool.not_false, Bool.and_self, if_true]
          cases htype : δ.exchange.type with
          | lastBlockHeader =>
            simp only [Delivery.data, htype]
            exact onRpcResponse_lastBlockHeader d _ _ _ w herr hres
          | blockHeadersRange =>
            simp only [Delivery.data, htype]
            exact onRpcResponse_range d _ _ _ w herr hres

theorem took_req (x : Exchange) (w : Network) : (took x w).req = w.req := rfl

theorem deliver_eq (d : Daemon) (w : Network) (δ : Delivery) :
    deliver d w δ = perform d δ.exchange.rpcId (took δ.exchange w) (effect w δ) := by
  unfold deliver onHttpData
  have hcode : δ.data.userType = RequestType.blockHeadersRange.code ↔
      δ.exchange.type = .blockHeadersRange := by
    simp only [Delivery.data]
    cases δ.exchange.type <;> decide
  have hrest : settle (onJsonData d δ.data (took δ.exchange w)) =
      perform d δ.exchange.rpcId (took δ.exchange w)
        (match δ.response with
        | none => .fatal
        | some doc =>
          match δ.exchange.type with
          | .lastBlockHeader =>
            .lastBlockHeader (Json.getObject (Json.getObject doc "result") "block_header")
          | .blockHeadersRange => .blockHeadersRange (Json.getUint64 doc "id" 0)
            (Json.getArray (Json.getObject doc "result") "headers")) := by
    rw [onJsonData_eq]
    cases δ.response with
    | none => rfl
    | some doc => cases δ.exchange.type <;> rfl
  by_cases hfail : δ.exchange.type = .blockHeadersRange ∧ δ.status < 0
  · have hstatus : δ.data.status ≠ HttpData.statusOk := by
      have : δ.data.status < 0 := hfail.2
      unfold HttpData.statusOk
      omega
    rw [if_pos ⟨hstatus, hcode.mpr hfail.1, hfail.2⟩]
    have hid : δ.data.rpcId = δ.exchange.rpcId := rfl
    rw [hid, took_req]
    cases hreq : w.req[δ.exchange.rpcId]? with
    | some range => simp only [effect, retried, hfail, and_self, if_true, hreq]; rfl
    | none =>
      simp only [effect, retried, hfail, and_self, if_true, hreq]
      rw [hrest, hfail.1]
      cases δ.response <;> rfl
  · have hcond : ¬ (δ.data.status ≠ HttpData.statusOk ∧
        δ.data.userType = RequestType.blockHeadersRange.code ∧ δ.data.status < 0) :=
      fun h => hfail ⟨hcode.mp h.2.1, h.2.2⟩
    rw [if_neg hcond]
    simp only [effect, retried, hfail, if_false]
    rw [hrest]
    cases δ.response <;> rfl

end NoncesHeatmap.Network
