import NoncesHeatmap.Network.Delivery

/-! # Answers of a daemon

`Honest truth height` allows the deliveries of a daemon whose chain has the given height and the
nonces `truth`: a reply echoes the request id and carries exactly the headers asked for, or an RPC
error where the range is empty or exceeds the height; in place of a reply a range exchange may fail
in transport. `answer` is such a daemon as a function of the request. -/

namespace NoncesHeatmap
set_option autoImplicit false

def Range.list (range : Range) : List ℕ := List.range' range.start (range.end + 1 - range.start)

theorem Range.mem_list {range : Range} {h : ℕ} : h ∈ range.list ↔ h ∈ range := by
  rw [Range.list, List.mem_range'_1, Range.mem_iff]
  omega

namespace Network

variable {δ : Delivery} {truth : ℕ → ℕ} {height : ℕ}

/-! ## Honest deliveries -/

/-- A JSON reply of the document `doc` that echoes the request id. -/
structure Echoes (δ : Delivery) (doc : Value) : Prop where
  status : 0 ≤ δ.status
  json : δ.data.isJSON = true
  body : δ.body = some doc
  id : Json.getUint64 doc "id" 0 = δ.exchange.rpcId

def IsError (doc : Value) : Prop := (Json.getObject doc "error").isObject = true

def IsResult (doc : Value) : Prop :=
  (Json.getObject doc "error").isObject = false ∧ (Json.getObject doc "result").isObject = true

def headerOf (doc : Value) : Value := Json.getObject (Json.getObject doc "result") "block_header"

def headersOf (doc : Value) : Value := Json.getArray (Json.getObject doc "result") "headers"

/-- The height and the nonce that `setBlockHeadersRange` reads from a header. -/
def readHeader (header : Value) : ℕ × ℕ :=
  (Json.getUint header "height" 0, Json.getUint header "nonce" 0)

/-- The headers of a document are those of the range, in any order. -/
def Carries (truth : ℕ → ℕ) (range : Range) (doc : Value) : Prop :=
  IsResult doc ∧
    ((headersOf doc).getArray.map readHeader).Perm (range.list.map fun h => (h, truth h))

def Honest (truth : ℕ → ℕ) (height : ℕ) (δ : Delivery) : Prop :=
  match δ.exchange.type with
  | .lastBlockHeader =>
    ∃ doc, Echoes δ doc ∧ IsResult doc ∧ Json.getUint (headerOf doc) "height" 0 = height
  | .blockHeadersRange =>
    δ.status < 0 ∨ ∃ doc range, Echoes δ doc ∧ δ.exchange.params = some range ∧
      if range.start ≤ range.end ∧ range.end ≤ height then Carries truth range doc else IsError doc

theorem Echoes.response_some {doc : Value} (h : Echoes δ doc) (hres : IsResult doc) :
    δ.response = some doc := by
  simp [Delivery.response, h.json, h.body, hres.1, hres.2, Option.filter]

theorem Echoes.response_none {doc : Value} (h : Echoes δ doc) (herr : IsError doc) :
    δ.response = none := by
  have hobject : (Json.getObject doc "error").isObject = true := herr
  simp [Delivery.response, h.json, h.body, hobject, Option.filter]

/-! ## A daemon that answers -/

def jsonReply (x : Exchange) (doc : Value) : Delivery where
  exchange := x
  status := HttpData.statusOk
  headers := (∅ : Headers).insert HttpData.kContentTypeL HttpData.kApplicationJson
  body := some doc

def resultDoc (id : ℕ) (result : Value) : Value := .object [("id", .int id), ("result", result)]

def errorDoc (id : ℕ) : Value := .object [("id", .int id), ("error", .object [("code", .int (-2))])]

def headerValue (height nonce : ℕ) : Value :=
  .object [("height", .int height), ("nonce", .int nonce)]

def answerDoc (truth : ℕ → ℕ) (height : ℕ) : Exchange → Value
  | ⟨id, .lastBlockHeader, _⟩ =>
    resultDoc id (.object [("block_header", headerValue height (truth height))])
  | ⟨id, .blockHeadersRange, some range⟩ =>
    if range.start ≤ range.end ∧ range.end ≤ height then
      resultDoc id (.object [("headers", .array (range.list.map fun h => headerValue h (truth h)))])
    else errorDoc id
  | ⟨id, .blockHeadersRange, none⟩ => errorDoc id

def answer (truth : ℕ → ℕ) (height : ℕ) (x : Exchange) : Delivery :=
  jsonReply x (answerDoc truth height x)

theorem readHeader_headerValue {h n : ℕ} (hh : h < 2 ^ 32) (hn : n < 2 ^ 32) :
    readHeader (headerValue h n) = (h, n) := by
  have hnonce : "nonce" ≠ "height" := by decide
  rw [readHeader, headerValue, Json.getUint, Json.getUint, Json.getWith_head, Json.getWith_tail _ hnonce,
    Json.getWith_head, Value.asUint_nat hh, Value.asUint_nat hn]
  rfl

theorem isJSON_jsonReply (x : Exchange) (doc : Value) : (jsonReply x doc).data.isJSON = true := by
  simp [HttpData.isJSON, Delivery.data, jsonReply]

theorem echoes_answer {x : Exchange} (hid : x.rpcId < 2 ^ 64) :
    Echoes (answer truth height x) (answerDoc truth height x) where
  status := Int.natCast_nonneg 200
  json := isJSON_jsonReply x _
  body := rfl
  id := by
    have hread : ∀ v, Json.getUint64 (.object [("id", .int x.rpcId), v]) "id" 0 = x.rpcId := by
      intro v
      rw [Json.getUint64, Json.getWith_head, Value.asUint64_nat hid]
      rfl
    unfold answerDoc
    split
    · exact hread _
    · split <;> exact hread _
    · exact hread _

theorem resultDoc_members (id : ℕ) (members : List (String × Value)) :
    IsResult (resultDoc id (.object members)) ∧
      Json.getObject (resultDoc id (.object members)) "result" = .object members := by
  have hid : "result" ≠ "id" := by decide
  have hresult : Json.getObject (resultDoc id (.object members)) "result" = .object members := by
    rw [resultDoc, Json.getObject, Json.getWith_tail _ hid, Json.getWith_head]
    rfl
  exact ⟨⟨rfl, by rw [hresult]; rfl⟩, hresult⟩

theorem honest_answer {x : Exchange} (hid : x.rpcId < 2 ^ 64) (hheight : height < 2 ^ 32)
    (htruth : ∀ h ≤ height, truth h < 2 ^ 32) (hx : x.type = .blockHeadersRange → x.params.isSome) :
    Honest truth height (answer truth height x) := by
  obtain ⟨id, type, params⟩ := x
  cases type with
  | lastBlockHeader =>
    obtain ⟨hresult, hmembers⟩ :=
      resultDoc_members id [("block_header", headerValue height (truth height))]
    refine ⟨_, echoes_answer hid, hresult, ?_⟩
    have hheader : headerOf (answerDoc truth height ⟨id, .lastBlockHeader, params⟩) =
        headerValue height (truth height) := by
      rw [headerOf, answerDoc, hmembers, Json.getObject, Json.getWith_head]
      rfl
    have hread := readHeader_headerValue hheight (htruth height le_rfl)
    rw [hheader]
    exact (Prod.mk.inj hread).1
  | blockHeadersRange =>
    obtain ⟨range, rfl⟩ := Option.isSome_iff_exists.mp (hx rfl)
    refine Or.inr ⟨_, range, echoes_answer hid, rfl, ?_⟩
    rw [answerDoc]
    split
    · next hvalid =>
      obtain ⟨hresult, hmembers⟩ := resultDoc_members id
        [("headers", .array (range.list.map fun h => headerValue h (truth h)))]
      refine ⟨hresult, ?_⟩
      have hread : range.list.map (readHeader ∘ fun h => headerValue h (truth h)) =
          range.list.map fun h => (h, truth h) := by
        apply List.map_congr_left
        intro h hh
        have hle := (Range.mem_list.mp hh).2
        exact readHeader_headerValue (by omega) (htruth h (by omega))
      rw [headersOf, hmembers, Json.getArray, Json.getWith_head]
      change ((range.list.map fun h => headerValue h (truth h)).map readHeader).Perm _
      rw [List.map_map, hread]
    · rfl

/-! ## Pieces of concrete runs -/

def reply (x : Exchange) (id : ℕ) (headers : List Value) : Delivery :=
  jsonReply x (resultDoc id (.object [("headers", .array headers)]))

theorem effect_reply {w : Network} {x : Exchange} {id : ℕ} (htype : x.type = .blockHeadersRange)
    (hid : id < 2 ^ 64) (headers : List Value) :
    effect w (reply x id headers) = .blockHeadersRange id (.array headers) := by
  obtain ⟨hresult, hmembers⟩ := resultDoc_members id [("headers", .array headers)]
  have hstatus : ¬ (reply x id headers).status < 0 := not_lt.mpr (Int.natCast_nonneg 200)
  have hretried : retried w (reply x id headers) = none := if_neg fun h => hstatus h.2
  have hjson : (reply x id headers).data.isJSON = true := isJSON_jsonReply x _
  have hresponse : (reply x id headers).response =
      some (resultDoc id (.object [("headers", .array headers)])) := by
    have hbody : (reply x id headers).body = some (resultDoc id (.object [("headers", .array headers)])) :=
      rfl
    simp only [Delivery.response, hjson, hbody, Option.filter_some, hresult.1, hresult.2,
      Bool.not_false, Bool.and_self, if_true]
  have hread : Json.getUint64 (resultDoc id (.object [("headers", .array headers)])) "id" 0 = id := by
    rw [resultDoc, Json.getUint64, Json.getWith_head, Value.asUint64_nat hid]
    rfl
  have hexchange : (reply x id headers).exchange.type = .blockHeadersRange := htype
  simp only [effect, hretried, hresponse, hexchange, hread, hmembers]
  rw [Json.getArray, Json.getWith_head]
  rfl

/-- A daemon with the given concurrency and `max_range`, and the other settings missing. -/
def configured (concurrency maxRange : ℕ) : Daemon :=
  Daemon.ofJson false (.object [("concurrency", .int concurrency), ("max_range", .int maxRange)])

def headerExchange : Exchange := ⟨1, .lastBlockHeader, none⟩

def rangeExchange (id start «end» : ℕ) : Exchange := ⟨id, .blockHeadersRange, some ⟨start, «end»⟩⟩

/-- The delivery of an exchange whose connection was closed: `UV_EOF`. -/
def failed (x : Exchange) : Delivery where
  exchange := x
  status := -4095
  headers := ∅
  body := none

theorem honest_failed {x : Exchange} (hx : x.type = .blockHeadersRange) :
    Honest truth height (failed x) := by
  have htype : (failed x).exchange.type = .blockHeadersRange := hx
  simp only [Honest, htype]
  exact Or.inl (Int.negSucc_lt_zero 4094)

end Network
end NoncesHeatmap
