import NoncesHeatmap.Json.Files
import NoncesHeatmap.Library.Messages
import NoncesHeatmap.Network.Answers
import NoncesHeatmap.Network.Phases

/-! # The requests on the wire

A call of the sync becomes a JSON document, the body of a `FetchRequest` and the bytes that `HttpClient` writes
once it is connected. `received` is the daemon's side: it takes one request off its stream and names the call.
Whatever the daemon has answered so far, every request in flight is received as the call that was made. -/

namespace NoncesHeatmap
open Numerals Messages
set_option autoImplicit false

/-! ## `FetchRequest` and `HttpClient` -/

/-- The methods of `http_method` up to `HTTP_PUT`. -/
inductive HttpMethod where
  | delete
  | get
  | head
  | post
  | put
deriving DecidableEq

/-- `http_method_str` -/
def HttpMethod.str : HttpMethod → String
  | delete => "DELETE"
  | get => "GET"
  | head => "HEAD"
  | post => "POST"
  | put => "PUT"

/-- The members of a `FetchRequest` that an `HttpClient` makes the bytes of. -/
structure HttpRequest where
  method : HttpMethod
  headers : Headers
  body : Bytes
  host : String
  path : String

namespace HttpRequest

def kContentType : String := "Content-Type"

/-- `setBody(const char *, size_t, const char *)` of a text. -/
def setBody (data : Bytes) (contentType : String) (req : HttpRequest) : HttpRequest :=
  if req.method = .get ∨ req.method = .head then req
  else { req with body := data, headers := req.headers.insertIfNew kContentType contentType }

/-- `FetchRequest` with a document, whose text is that of a compact `Writer`. -/
def ofValue (dtoa : String → Bytes) (method : HttpMethod) (host path : String) (value : Value) : Option HttpRequest :=
  (Json.written dtoa .compact value).map fun text =>
    setBody text HttpData.kApplicationJson ⟨method, ∅, [], host, path⟩

end HttpRequest

namespace HttpClient

def kCRLF : Bytes := ascii "\r\n"

/-- `std::to_string` -/
def toString (n : ℕ) : Bytes := shown n (n + 1)

/-- The headers that `handshake()` adds. -/
def headers (userAgent : String) (req : HttpRequest) : Headers :=
  let headers := req.headers.insertIfNew "Host" req.host
  let headers := headers.insertIfNew "Connection" "close"
  let headers := headers.insertIfNew "User-Agent" userAgent
  if req.body ≠ [] then headers.insertIfNew "Content-Length" (text (toString req.body.length)) else headers

/-- The bytes that `handshake()` writes. -/
def handshake (userAgent : String) (req : HttpRequest) : Bytes :=
  ascii req.method.str ++ ascii " " ++ ascii req.path ++ ascii " HTTP/1.1" ++ kCRLF ++
    (headers userAgent req).toList.flatMap (fun header => ascii header.1 ++ ascii ": " ++ ascii header.2 ++ kCRLF) ++
    kCRLF ++ req.body

end HttpClient

/-! ## The calls of the sync -/

/-- `JsonRequest::create` -/
def JsonRequest.create (id : ℕ) (method : String) (params : Value) : Value :=
  .object [("id", .int id), ("jsonrpc", .string "2.0"), ("method", .string method), ("params", params)]

def RequestType.method : RequestType → String
  | lastBlockHeader => "getlastblockheader"
  | blockHeadersRange => "getblockheadersrange"

namespace Exchange

/-- The parameters of `getBlockHeadersRange`, or of `getLastBlockHeader`. -/
def paramsJSON (x : Exchange) : Value :=
  match x.params with
  | some range => .object [("start_height", .int range.start), ("end_height", .int range.end)]
  | none => .null

def document (x : Exchange) : Value := JsonRequest.create x.rpcId x.type.method x.paramsJSON

/-- What `rpcSend` puts on the wire. -/
def sent (dtoa : String → Bytes) (userAgent : String) (d : Daemon) (x : Exchange) : Option Bytes :=
  (HttpRequest.ofValue dtoa .post (d.host.getD "") "/json_rpc" x.document).map (HttpClient.handshake userAgent)

/-! ## What the daemon receives -/

/-- The call that a document is. -/
def ofDocument (doc : Value) : Option Exchange := do
  let id ← (← doc.findMember "id").asUint64
  let version ← (← doc.findMember "jsonrpc").asString
  let method ← (← doc.findMember "method").asString
  let params ← doc.findMember "params"
  if version ≠ "2.0" then none
  else if method = RequestType.lastBlockHeader.method then some ⟨id, .lastBlockHeader, none⟩
  else if method = RequestType.blockHeadersRange.method then do
    let start ← (← params.findMember "start_height").asUint
    let last ← (← params.findMember "end_height").asUint
    some ⟨id, .blockHeadersRange, some ⟨start, last⟩⟩
  else none

/-- One request off the stream of the daemon, and the bytes behind it. -/
def received (tooBig : Bytes → Bool) (stream : Bytes) : Option (Exchange × Bytes) := do
  let (m, rest) ← Messages.read (ascii "Content-Length") stream
  if m.start ≠ ascii "POST /json_rpc HTTP/1.1" then none
  else if m.fields.lookup (ascii "Content-Type") ≠ some (ascii "application/json") then none
  else
    match Json.parse ⟨false, false⟩ tooBig m.body with
    | .ok doc => (ofDocument doc).map fun x => (x, rest)
    | .error _ => none

/-- The parameters that go with a type, with numbers of the widths of the source. -/
def Shaped (x : Exchange) : Prop :=
  x.type = .lastBlockHeader ∧ x.params = none ∨
    x.type = .blockHeadersRange ∧ ∃ range, x.params = some range ∧ range.start < 2 ^ 32 ∧ range.end < 2 ^ 32

structure Sendable (x : Exchange) : Prop where
  id : x.rpcId < 2 ^ 64
  params : Shaped x

variable {x : Exchange}

theorem bind_of_some {α β : Type} {a : Option α} {b : α} {f : α → Option β} (h : a = some b) : (a >>= f) = f b := by
  subst h
  rfl

theorem findMember_head (key : String) (v : Value) (members : List (String × Value)) :
    Value.findMember (.object ((key, v) :: members)) key = some v := List.lookup_cons_self

theorem findMember_tail {key name : String} (hne : key ≠ name) (v : Value) (members : List (String × Value)) :
    Value.findMember (.object ((name, v) :: members)) key = Value.findMember (.object members) key := by
  rw [Value.findMember, List.lookup_cons, beq_false_of_ne hne]
  rfl

theorem findMember_create (id : ℕ) (method : String) (params : Value) :
    (JsonRequest.create id method params).findMember "id" = some (.int id) ∧
      (JsonRequest.create id method params).findMember "jsonrpc" = some (.string "2.0") ∧
      (JsonRequest.create id method params).findMember "method" = some (.string method) ∧
      (JsonRequest.create id method params).findMember "params" = some params := by
  refine ⟨findMember_head _ _ _, ?_, ?_, ?_⟩
  · rw [JsonRequest.create, findMember_tail (by decide), findMember_head]
  · rw [JsonRequest.create, findMember_tail (by decide), findMember_tail (by decide), findMember_head]
  · rw [JsonRequest.create, findMember_tail (by decide), findMember_tail (by decide), findMember_tail (by decide),
      findMember_head]

theorem ofDocument_create {id : ℕ} (hid : id < 2 ^ 64) (method : String) (params : Value) :
    ofDocument (JsonRequest.create id method params) =
      if method = RequestType.lastBlockHeader.method then some ⟨id, .lastBlockHeader, none⟩
      else if method = RequestType.blockHeadersRange.method then do
        let start ← (← params.findMember "start_height").asUint
        let last ← (← params.findMember "end_height").asUint
        some ⟨id, .blockHeadersRange, some ⟨start, last⟩⟩
      else none := by
  obtain ⟨hfindId, hversion, hmethod, hparams⟩ := findMember_create id method params
  have hasId : (Value.int id).asUint64 = some id := Value.asUint64_nat hid
  have hasVersion : (Value.string "2.0").asString = some "2.0" := rfl
  have hasMethod : (Value.string method).asString = some method := rfl
  rw [ofDocument, bind_of_some hfindId, bind_of_some hasId, bind_of_some hversion, bind_of_some hasVersion,
    bind_of_some hmethod, bind_of_some hasMethod, bind_of_some hparams, if_neg (not_not_intro rfl)]

theorem ofDocument_document (h : Sendable x) : ofDocument x.document = some x := by
  obtain ⟨id, type, params⟩ := x
  rw [document, ofDocument_create h.id]
  obtain ⟨rfl, rfl⟩ | ⟨rfl, range, rfl, hstart, hend⟩ := h.params
  · exact if_pos rfl
  · have hfirst : Value.findMember (paramsJSON ⟨id, .blockHeadersRange, some range⟩) "start_height" = some (.int range.start) :=
      findMember_head _ _ _
    have hlast : Value.findMember (paramsJSON ⟨id, .blockHeadersRange, some range⟩) "end_height" = some (.int range.end) :=
      (findMember_tail (by decide) _ _).trans (findMember_head _ _ _)
    have hmethod : RequestType.blockHeadersRange.method ≠ RequestType.lastBlockHeader.method := by decide
    rw [if_neg hmethod, if_pos rfl, bind_of_some hfirst, bind_of_some (Value.asUint_nat hstart), bind_of_some hlast,
      bind_of_some (Value.asUint_nat hend)]

/-! ## The bytes of a request are a message -/

theorem written_document (tooBig : Bytes → Bool) (dtoa : String → Bytes) (h : Sendable x) :
    ∃ body, Json.written dtoa .compact x.document = some body ∧ body ≠ [] ∧
      Json.parse ⟨false, false⟩ tooBig body = .ok x.document := by
  have hmethod : text (ascii x.type.method) = x.type.method := by
    cases x.type <;> decide
  have hparams : Json.Writable x.paramsJSON := by
    rw [paramsJSON]
    obtain ⟨-, hnone⟩ | ⟨-, range, hsome, hstart, hend⟩ := h.params
    · rw [hnone]
      trivial
    · rw [hsome]
      exact ⟨by decide, ⟨by omega, by omega⟩, by decide, ⟨by omega, by omega⟩, trivial⟩
  have hid := h.id
  have hwritable : Json.Writable x.document :=
    ⟨by decide, ⟨by omega, by omega⟩, by decide, rfl, by decide, hmethod, by decide, hparams, trivial⟩
  obtain ⟨body, hwritten, hderives⟩ := Json.written_derives ⟨false, false⟩ tooBig dtoa .compact hwritable
  refine ⟨body, hwritten, ?_, Json.parse_complete ⟨body, [], .nil body, hderives, .blank (.nil []) rfl⟩⟩
  rintro rfl
  exact absurd hderives.length (Nat.not_lt_zero _)

/-- The message of a request with a body. -/
def message (userAgent host : String) (body : Bytes) : Message where
  start := ascii "POST /json_rpc HTTP/1.1"
  fields := [(ascii "Connection", ascii "close"), (ascii "Content-Length", HttpClient.toString body.length),
    (ascii "Content-Type", ascii "application/json"), (ascii "Host", ascii host), (ascii "User-Agent", ascii userAgent)]
  body := body

theorem sent_eq {dtoa : String → Bytes} {body : Bytes} (userAgent : String) (d : Daemon)
    (hwritten : Json.written dtoa .compact x.document = some body) (hne : body ≠ []) :
    x.sent dtoa userAgent d = some (Messages.render (message userAgent (d.host.getD "") body)) := by
  have hheaders : ∀ host length : String,
      ((((((∅ : Headers).insertIfNew HttpRequest.kContentType HttpData.kApplicationJson).insertIfNew "Host" host).insertIfNew
        "Connection" "close").insertIfNew "User-Agent" userAgent).insertIfNew "Content-Length" length).toList =
      [("Connection", "close"), ("Content-Length", length), ("Content-Type", "application/json"), ("Host", host),
        ("User-Agent", userAgent)] := fun _ _ => rfl
  have hstart : ascii "POST" ++ ascii " " ++ ascii "/json_rpc" ++ ascii " HTTP/1.1" = ascii "POST /json_rpc HTTP/1.1" := by
    decide
  have hcolon : ascii ": " = [58, 32] := by decide
  have hcrlf : HttpClient.kCRLF = Messages.crlf := by decide
  rw [sent, HttpRequest.ofValue, hwritten]
  simp only [Option.map_some, HttpRequest.setBody, reduceCtorEq, or_self, if_false, HttpClient.handshake, HttpClient.headers,
    if_pos hne, hheaders, HttpMethod.str, hstart, hcolon, hcrlf]
  simp only [Messages.render, message, renderField, List.flatMap_cons, List.flatMap_nil, Json.ascii_text, List.append_assoc,
    List.cons_append, List.nil_append]

theorem wellFormed_message {userAgent host : String} (hagent : 13 ∉ ascii userAgent) (hhost : 13 ∉ ascii host) (body : Bytes) :
    WellFormed (ascii "Content-Length") (message userAgent host body) where
  start := by
    show 13 ∉ ascii "POST /json_rpc HTTP/1.1"
    decide
  fields := by
    have hlt : body.length < 10 ^ (body.length + 1) :=
      lt_trans (Nat.lt_succ_self _) (Nat.lt_pow_self (by decide))
    have hdigits : 13 ∉ HttpClient.toString body.length := fun hmem =>
      absurd ((shown_numeral hlt (Nat.succ_pos _)).digits 13 hmem) (by decide)
    intro field hfield
    simp only [message, List.mem_cons, List.not_mem_nil, or_false] at hfield
    obtain rfl | rfl | rfl | rfl | rfl := hfield
    · exact ⟨by decide, by decide⟩
    · exact ⟨(by decide : 13 ∉ ascii "Content-Length" ∧ 58 ∉ ascii "Content-Length"), hdigits⟩
    · exact ⟨by decide, by decide⟩
    · exact ⟨(by decide : 13 ∉ ascii "Host" ∧ 58 ∉ ascii "Host"), hhost⟩
    · exact ⟨(by decide : 13 ∉ ascii "User-Agent" ∧ 58 ∉ ascii "User-Agent"), hagent⟩
  length := by
    have hlt : body.length < 10 ^ (body.length + 1) :=
      lt_trans (Nat.lt_succ_self _) (Nat.lt_pow_self (by decide))
    have hlookup : (message userAgent host body).fields.lookup (ascii "Content-Length") =
        some (HttpClient.toString body.length) := rfl
    rw [bodyLength, hlookup]
    exact value_shown hlt (Nat.succ_pos _)

/-- A call on the wire is received as that call, and nothing of what follows it is taken. -/
theorem received_sent (tooBig : Bytes → Bool) (dtoa : String → Bytes) {userAgent : String} {d : Daemon} (h : Sendable x)
    (hagent : 13 ∉ ascii userAgent) (hhost : 13 ∉ ascii (d.host.getD "")) :
    ∃ bytes, x.sent dtoa userAgent d = some bytes ∧ ∀ rest, received tooBig (bytes ++ rest) = some (x, rest) := by
  obtain ⟨body, hwritten, hne, hparse⟩ := written_document tooBig dtoa h
  refine ⟨_, sent_eq userAgent d hwritten hne, fun rest => ?_⟩
  have htype : (message userAgent (d.host.getD "") body).fields.lookup (ascii "Content-Type") =
      some (ascii "application/json") := rfl
  have hstart : (message userAgent (d.host.getD "") body).start = ascii "POST /json_rpc HTTP/1.1" := rfl
  have hbody : (message userAgent (d.host.getD "") body).body = body := rfl
  rw [received, bind_of_some (read_render (wellFormed_message hagent hhost body) rest)]
  dsimp only
  rw [hstart, if_neg (not_not_intro rfl), htype, if_neg (not_not_intro rfl), hbody, hparse]
  dsimp only
  rw [ofDocument_document h, Option.map_some]

end Exchange

/-! ## The requests of a sync -/

namespace Network

variable {d : Daemon} {w : Network}

/-- What is in flight, and what would be asked for again, has the shape of a call. -/
structure Bounded (w : Network) : Prop where
  exchanges : ∀ x ∈ w.exchanges, x.Shaped
  req : ∀ (id : ℕ) (range : Range), w.req[id]? = some range → range.start < 2 ^ 32 ∧ range.end < 2 ^ 32
  pos : w.pos < 2 ^ 32
  height : w.height < 2 ^ 32

theorem bounded_connect (nonces : List ℕ) : Bounded (connect nonces) where
  exchanges := by
    intro x hx
    obtain rfl := List.mem_singleton.mp hx
    exact Or.inl ⟨rfl, rfl⟩
  req id range hreq := by
    have hempty : (connect nonces).req[id]? = none := Std.TreeMap.getElem?_emptyc
    cases hempty.symm.trans hreq
  pos := by
    show 0 < 2 ^ 32
    decide
  height := by
    show 0 < 2 ^ 32
    decide

theorem bounded_getBlockHeadersRangeOf (h : Bounded w) {range : Range} (hrange : range.start < 2 ^ 32 ∧ range.end < 2 ^ 32) :
    Bounded (getBlockHeadersRangeOf range w).2 where
  exchanges := by
    intro x hx
    rcases List.mem_append.mp hx with hold | hnew
    · exact h.exchanges x hold
    · obtain rfl := List.mem_singleton.mp hnew
      exact Or.inr ⟨rfl, range, rfl, hrange⟩
  req id other hreq := by
    have hinsert : (w.req.insertIfNew (w.nextId + 1) range)[id]? = some other := hreq
    rw [Std.TreeMap.getElem?_insertIfNew] at hinsert
    split at hinsert
    · obtain rfl := Option.some.inj hinsert
      exact hrange
    · exact h.req id other hinsert
  pos := Nat.mod_lt _ (by decide)
  height := h.height

theorem bounded_erase (h : Bounded w) (id : ℕ) : Bounded { w with req := w.req.erase id } where
  exchanges := h.exchanges
  req other range hreq := by
    have herase : (w.req.erase id)[other]? = some range := hreq
    rw [Std.TreeMap.getElem?_erase] at herase
    split at herase
    · cases herase
    · exact h.req other range herase
  pos := h.pos
  height := h.height

theorem bounded_getBlockHeadersRange (h : Bounded w) : Bounded (getBlockHeadersRange d w).2 := by
  unfold getBlockHeadersRange
  split
  · exact h
  · refine bounded_getBlockHeadersRangeOf h ⟨h.pos, ?_⟩
    exact lt_of_le_of_lt (min_le_right _ _) h.height

theorem bounded_requestLoop (h : Bounded w) (count : ℕ) : Bounded (requestLoop d count w) := by
  induction count generalizing w with
  | zero => exact h
  | succ count ih => exact ih (bounded_getBlockHeadersRange h)

theorem bounded_setLastBlockHeader (h : Bounded w) (reader : Value) : Bounded (setLastBlockHeader d reader w).2 := by
  have hheight : Json.getUint reader "height" 0 < 2 ^ 32 := Json.getUint_lt (by decide)
  rcases setLastBlockHeader_cases d reader w with hset | ⟨-, -, hset⟩ | hset <;> rw [hset]
  · exact ⟨h.exchanges, h.req, h.pos, hheight⟩
  · have hbegin : Bounded (beginSync d { w with height := Json.getUint reader "height" 0 }) :=
      ⟨h.exchanges, h.req, Nat.mod_lt _ (by decide), hheight⟩
    exact bounded_requestLoop hbegin d.concurrency
  · exact ⟨h.exchanges, h.req, h.pos, hheight⟩

theorem bounded_save (h : Bounded w) : Bounded (settle (save w)) := by
  by_cases hall : ∀ i ∈ pending w, i ∈ w.data
  · rw [settle_save hall]
    exact ⟨h.exchanges, h.req, h.pos, h.height⟩
  · push Not at hall
    obtain ⟨part, hpart⟩ := settle_save_missing hall
    rw [hpart]
    exact ⟨h.exchanges, h.req, h.pos, h.height⟩

theorem bounded_advance (h : Bounded w) : Bounded (advance d w) := by
  unfold advance
  split
  · exact bounded_save h
  · split
    · exact bounded_getBlockHeadersRange h
    · exact h

theorem bounded_deliver (h : Bounded w) (δ : Delivery) : Bounded (deliver d w δ) := by
  have htook : Bounded (took δ.exchange w) :=
    ⟨fun x hx => h.exchanges x (List.mem_of_mem_erase hx), h.req, h.pos, h.height⟩
  rw [deliver_eq]
  cases heffect : effect w δ with
  | retry range =>
    have hretried : retried w δ = some range := by
      rw [effect] at heffect
      split at heffect
      · next found hfound =>
        obtain rfl := Effect.retry.inj heffect
        exact hfound
      · cases heffect
      · split at heffect <;> cases heffect
    have hagain := bounded_getBlockHeadersRangeOf htook (h.req _ range (retried_lookup hretried))
    exact bounded_erase hagain δ.exchange.rpcId
  | fatal => exact ⟨htook.exchanges, htook.req, htook.pos, htook.height⟩
  | lastBlockHeader reader =>
    have hset := bounded_setLastBlockHeader (d := d) htook reader
    rw [perform]
    split
    · exact hset
    · exact ⟨hset.exchanges, hset.req, hset.pos, hset.height⟩
  | blockHeadersRange id headers =>
    rw [perform]
    split
    · have haccept : Bounded { took δ.exchange w with
          data := headers.getArray.foldl insertHeader (took δ.exchange w).data } :=
        ⟨htook.exchanges, htook.req, htook.pos, htook.height⟩
      exact bounded_advance (bounded_erase haccept id)
    · exact ⟨htook.exchanges, htook.req, htook.pos, htook.height⟩

theorem bounded_after (h : Bounded w) (deliveries : List Delivery) : Bounded ((machine d).after w deliveries) := by
  induction deliveries generalizing w with
  | nil => exact h
  | cons δ deliveries ih => exact ih (bounded_deliver h δ)

/-- **The daemon receives the calls that are made.** Whatever was delivered before, the bytes of every call in flight
are received as that call, and nothing of what follows them is taken. -/
theorem requests_received (tooBig : Bytes → Bool) (dtoa : String → Bytes) (userAgent : String) (d : Daemon)
    (nonces : List ℕ) (deliveries : List Delivery) (hagent : 13 ∉ ascii userAgent) (hhost : 13 ∉ ascii (d.host.getD ""))
    (x : Exchange) (hx : x ∈ ((machine d).after (connect nonces) deliveries).exchanges) (hid : x.rpcId < 2 ^ 64) :
    ∃ bytes, x.sent dtoa userAgent d = some bytes ∧
      ∀ rest, Exchange.received tooBig (bytes ++ rest) = some (x, rest) :=
  Exchange.received_sent tooBig dtoa ⟨hid, (bounded_after (bounded_connect nonces) deliveries).exchanges x hx⟩ hagent hhost

/-- The call that repeats the second range after its failure. -/
theorem requests_received_again :
    (∃ bytes, Exchange.sent (fun _ => []) "nonces" (.default (some "127.0.0.1")) (rangeExchange 4 1001 1500) = some bytes ∧
      ∀ rest, Exchange.received (fun _ => false) (bytes ++ rest) = some (rangeExchange 4 1001 1500, rest)) ∧
      Exchange.sent (fun _ => []) "nonces" (.default (some "127.0.0.1")) (rangeExchange 4 1001 1500) =
        some (ascii "POST /json_rpc HTTP/1.1\r\nConnection: close\r\nContent-Length: 105\r\n" ++
          ascii "Content-Type: application/json\r\nHost: 127.0.0.1\r\nUser-Agent: nonces\r\n\r\n" ++
          ascii "\x7b\"id\":4,\"jsonrpc\":\"2.0\",\"method\":\"getblockheadersrange\"," ++
          ascii "\"params\":\x7b\"start_height\":1001,\"end_height\":1500\x7d\x7d") :=
  ⟨requests_received (fun _ => false) (fun _ => []) "nonces" (.default (some "127.0.0.1")) []
    [answer id 1500 headerExchange, failed (rangeExchange 3 1001 1500)] (by decide) (by decide) _
    (by decide +kernel) (by decide), by decide +kernel⟩

end Network
end NoncesHeatmap
