import NoncesHeatmap.Http.Exchanges
import NoncesHeatmap.Http.Response

/-! # The delivery of a response

`Inbox` is what one exchange comes to for its listener: what the listener has been told and what it
would be told next. Callbacks and reads keep `Shows` between the world and the inbox, so a run of reads
tells the listener what the callbacks of the parser add up to. -/

namespace NoncesHeatmap.Http
open Runs Function
set_option autoImplicit false

structure Inbox where
  listening : Bool
  status : ℤ
  body : Bytes
  told : List (ℤ × Bytes)

namespace Inbox

def tell (b : Inbox) : Inbox :=
  if b.listening then { b with listening := false, told := b.told ++ [(b.status, b.body)] } else b

def hear (b : Inbox) : Callback → Inbox
  | .headersComplete statusCode => { b with status := statusCode }
  | .body bytes => { b with body := b.body ++ bytes }
  | .messageComplete => b.tell
  | _ => b

def fail (status : ℤ) (b : Inbox) : Inbox := { b with status := status }.tell

def empty : Inbox := ⟨true, 0, [], []⟩

theorem hear_headers (b : Inbox) {callbacks : List Callback} (h : ∀ k ∈ callbacks, k.isHeader = true) :
    callbacks.foldl hear b = b := by
  induction callbacks with
  | nil => rfl
  | cons k callbacks ih =>
    have hk : b.hear k = b := by
      have hheader := h k List.mem_cons_self
      cases k with
      | headerField bytes => rfl
      | headerValue bytes => rfl
      | _ => cases hheader
    rw [List.foldl_cons, hk]
    exact ih fun k' hk' => h k' (List.mem_cons_of_mem _ hk')

theorem hear_pieces (b : Inbox) (pieces : List Bytes) :
    (pieces.map Callback.body).foldl hear b = { b with body := b.body ++ pieces.flatten } := by
  induction pieces generalizing b with
  | nil => simp
  | cons bytes pieces ih =>
    rw [List.map_cons, List.foldl_cons, ih]
    show { b with body := b.body ++ bytes ++ pieces.flatten } = _
    rw [List.append_assoc, List.flatten_cons]

end Inbox

variable {P : HttpParser} {h : Http P} {c : HttpContext P} {id : ℕ} {b : Inbox}
  {s : HttpContext P × Http P} {before : List (ℕ × ℤ × Bytes)}

/-- A call of `onHttpData` as the listener's code looks at it. -/
def summary (call : ℕ × HttpData Bytes) : ℕ × ℤ × Bytes := (call.1, call.2.status, call.2.body)

/-- The context `id`, taken out of the world, is at `b` and `before` are the calls made before it. -/
structure Shows (id : ℕ) (before : List (ℕ × ℤ × Bytes)) (s : HttpContext P × Http P) (b : Inbox) : Prop where
  stored : id ∈ s.2.storage
  opened : s.1.closing = false
  plain : s.1.tls = false
  listening : httpListener s.2 s.1 = b.listening
  status : s.1.data.status = b.status
  body : s.1.data.body = b.body
  told : s.2.calls.map summary = before ++ b.told.map fun t => (id, t)

/-! ## Callbacks and reads -/

theorem told_invoke (react : Listeners) (hs : Shows id before s b) (hl : b.listening = true) :
    (invoke react id s.1 s.2).calls.map summary = before ++ b.tell.told.map fun t => (id, t) := by
  have hlast : summary (id, s.1.data) = (id, (b.status, b.body)) := by
    rw [summary, hs.status, hs.body]
  rw [(invoke_keep react _ _ _).2, List.map_append, hs.told, Inbox.tell, if_pos hl, List.map_append,
    List.append_assoc, List.map_singleton, List.map_singleton, hlast]

theorem setHeader_data (c : HttpContext P) :
    (HttpContext.setHeader c).data.status = c.data.status ∧ (HttpContext.setHeader c).data.body = c.data.body ∧
      (HttpContext.setHeader c).tls = c.tls := ⟨rfl, rfl, rfl⟩

theorem shows_onCallback (hs : Shows id before s b) {callback : Callback} (hne : callback ≠ .messageComplete) :
    Shows id before (HttpContext.onCallback callback s.1, s.2) (b.hear callback) := by
  have hlistening := httpListener_onCallback s.2 callback s.1
  have hopened := (HttpContext.onCallback_listener callback s.1).2.2.1.trans hs.opened
  cases callback with
  | headerField bytes =>
    have hdata : (HttpContext.onHeaderField bytes s.1).data.status = s.1.data.status ∧
        (HttpContext.onHeaderField bytes s.1).data.body = s.1.data.body ∧
        (HttpContext.onHeaderField bytes s.1).tls = s.1.tls := by
      unfold HttpContext.onHeaderField
      split
      · split
        · exact ⟨rfl, rfl, rfl⟩
        · exact setHeader_data s.1
      · exact ⟨rfl, rfl, rfl⟩
    exact ⟨hs.stored, hopened, hdata.2.2.trans hs.plain, hlistening.trans hs.listening,
      hdata.1.trans hs.status, hdata.2.1.trans hs.body, hs.told⟩
  | headerValue bytes =>
    have hdata : (HttpContext.onHeaderValue bytes s.1).data = s.1.data ∧
        (HttpContext.onHeaderValue bytes s.1).tls = s.1.tls := by
      unfold HttpContext.onHeaderValue
      split <;> exact ⟨rfl, rfl⟩
    exact ⟨hs.stored, hopened, hdata.2.trans hs.plain, hlistening.trans hs.listening,
      (congrArg HttpData.status hdata.1).trans hs.status, (congrArg HttpData.body hdata.1).trans hs.body, hs.told⟩
  | headersComplete statusCode =>
    have hdata : (HttpContext.onHeadersComplete statusCode s.1).data.status = statusCode ∧
        (HttpContext.onHeadersComplete statusCode s.1).data.body = s.1.data.body ∧
        (HttpContext.onHeadersComplete statusCode s.1).tls = s.1.tls := by
      simp only [HttpContext.onHeadersComplete]
      split
      · exact ⟨rfl, rfl, rfl⟩
      · exact setHeader_data _
    exact ⟨hs.stored, hopened, hdata.2.2.trans hs.plain, hlistening.trans hs.listening, hdata.1,
      hdata.2.1.trans hs.body, hs.told⟩
  | body bytes =>
    have hbody : s.1.data.body ++ bytes = b.body ++ bytes := congrArg (fun body => body ++ bytes) hs.body
    exact ⟨hs.stored, hopened, hs.plain, hlistening.trans hs.listening, hs.status, hbody, hs.told⟩
  | messageComplete => exact absurd rfl hne

theorem shows_messageComplete (react : Listeners) (hs : Shows id before s b) :
    Shows id before (onMessageComplete react id s.1 s.2) b.tell ∧
      (onMessageComplete react id s.1 s.2).1.parser = s.1.parser := by
  cases hl : b.listening with
  | true =>
    have hone : onMessageComplete react id s.1 s.2 = ({ s.1 with reset := true }, invoke react id s.1 s.2) :=
      if_pos (hs.listening.trans hl)
    have htell : b.tell = { b with listening := false, told := b.told ++ [(b.status, b.body)] } := if_pos hl
    have htold := told_invoke react hs hl
    rw [htell] at htold
    rw [hone, htell]
    exact ⟨⟨(invoke_keep react _ _ _).1 hs.stored, hs.opened, hs.plain, rfl, hs.status, hs.body, htold⟩, rfl⟩
  | false =>
    have hnone : onMessageComplete react id s.1 s.2 = s := by
      rw [onMessageComplete, hs.listening, hl]
      rfl
    have htell : b.tell = b := by
      rw [Inbox.tell, hl]
      rfl
    rw [hnone, htell]
    exact ⟨hs, rfl⟩

theorem shows_callback (react : Listeners) (hs : Shows id before s b) (callback : Callback) :
    Shows id before (runCallback react id s callback) (b.hear callback) ∧
      (runCallback react id s callback).1.parser = s.1.parser := by
  by_cases hcomplete : callback = .messageComplete
  · subst hcomplete
    exact shows_messageComplete react hs
  · rw [runCallback_context react hcomplete]
    exact ⟨shows_onCallback hs hcomplete, (HttpContext.onCallback_listener callback s.1).2.2.2⟩

theorem shows_callbacks (react : Listeners) (hs : Shows id before s b) (callbacks : List Callback) :
    Shows id before (callbacks.foldl (runCallback react id) s) (callbacks.foldl Inbox.hear b) ∧
      (callbacks.foldl (runCallback react id) s).1.parser = s.1.parser := by
  induction callbacks generalizing s b with
  | nil => exact ⟨hs, rfl⟩
  | cons callback callbacks ih =>
    obtain ⟨hs', hparser⟩ := shows_callback react hs callback
    obtain ⟨hs'', hparser'⟩ := ih hs'
    exact ⟨hs'', hparser'.trans hparser⟩

theorem Shows.parser (hs : Shows id before s b) (parser : P.State) :
    Shows id before ({ s.1 with parser := parser }, s.2) b :=
  ⟨hs.stored, hs.opened, hs.plain, hs.listening, hs.status, hs.body, hs.told⟩

theorem shows_read (react : Listeners) (hs : Shows id before s b) {bytes : Bytes} (hne : bytes.length ≠ 0)
    (hall : (P.execute s.1.parser bytes).parsed = bytes.length) :
    Shows id before (read react id s bytes) ((P.execute s.1.parser bytes).callbacks.foldl Inbox.hear b) ∧
      (read react id s bytes).1.parser = (P.execute s.1.parser bytes).state := by
  have hread : read react id s bytes = (P.execute s.1.parser bytes).callbacks.foldl (runCallback react id)
      ({ s.1 with parser := (P.execute s.1.parser bytes).state }, s.2) := by
    simp only [read, parse, if_neg hne, hall, lt_irrefl, if_false]
  rw [hread]
  exact shows_callbacks react (hs.parser _) _

/-! ## Events -/

/-- The context `id` is in the world, its parser is at `parser` and it is at `b`. -/
def Serving (id : ℕ) (before : List (ℕ × ℤ × Bytes)) (h : Http P) (parser : P.State) (b : Inbox) : Prop :=
  ∃ c, h.contexts id = some c ∧ c.parser = parser ∧ Shows id before (c, h) b

theorem serving_set (hs : Shows id before s b) : Serving id before (set id s.1 s.2) s.1.parser b :=
  ⟨s.1, update_self _ _ _, rfl, hs.stored, hs.opened, hs.plain, hs.listening, hs.status, hs.body, hs.told⟩

theorem serving_reads (react : Listeners) {parser : P.State} (hs : Serving id before h parser b) {reads : List Bytes}
    (hall : P.Consumes parser reads) :
    (machine P react).Run h (reads.map fun bytes => .event id (.read bytes)) ∧
      Serving id before ((machine P react).after h (reads.map fun bytes => .event id (.read bytes)))
        (P.feed parser reads) ((P.callbacks parser reads).foldl Inbox.hear b) := by
  induction reads generalizing h parser b with
  | nil => exact ⟨trivial, hs⟩
  | cons bytes reads ih =>
    obtain ⟨c, hc, rfl, hshows⟩ := hs
    have henabled : (machine P react).enabled h (.event id (.read bytes)) := by
      refine ⟨c, hc, ?_⟩
      rw [enabledEvent, hshows.opened, hshows.plain]
      rfl
    have hnext : (machine P react).next h (.event id (.read bytes)) =
        set id (read react id (c, h) bytes).1 (read react id (c, h) bytes).2 := by
      show next react h (.event id (.read bytes)) = _
      simp only [next, hc, onEvent]
    by_cases hempty : bytes.length = 0
    · have hread : read react id (c, h) bytes = (c, h) := by
        simp only [read, parse, hempty, if_true, lt_irrefl, if_false]
      rw [hread] at hnext
      have hserving := serving_set hshows
      simp only [HttpParser.Consumes, HttpParser.feed, HttpParser.callbacks, if_pos hempty] at hall ⊢
      rw [← hnext] at hserving
      obtain ⟨hrun, hafter⟩ := ih hserving hall
      exact ⟨⟨henabled, hrun⟩, hafter⟩
    · simp only [HttpParser.Consumes, HttpParser.feed, HttpParser.callbacks, if_neg hempty] at hall ⊢
      obtain ⟨hshows', hparser⟩ := shows_read react hshows hempty hall.1
      have hserving := serving_set hshows'
      rw [← hnext, hparser] at hserving
      obtain ⟨hrun, hafter⟩ := ih hserving hall.2
      rw [List.foldl_append]
      exact ⟨⟨henabled, hrun⟩, hafter⟩

/-- The end of the stream closes the context: nothing more is parsed. -/
theorem calls_eof (react : Listeners) {parser : P.State} (hs : Serving id before h parser b) :
    (machine P react).enabled h (.event id (.readError UV_EOF)) ∧
      ((machine P react).next h (.event id (.readError UV_EOF))).calls.map summary =
        before ++ (b.fail UV_EOF).told.map fun t => (id, t) := by
  obtain ⟨c, hc, -, hshows⟩ := hs
  refine ⟨⟨c, hc, ?_⟩, ?_⟩
  · rw [enabledEvent, hshows.opened]
    rfl
  · have hcalls : ((machine P react).next h (.event id (.readError UV_EOF))).calls =
        (close react UV_EOF id c h).2.calls := by
      show (next react h (.event id (.readError UV_EOF))).calls = _
      simp only [next, hc, onEvent]
      rfl
    have hmem : ¬ id ∉ h.storage := not_not.mpr hshows.stored
    have hneg : UV_EOF < 0 := by decide
    rw [hcalls, close, if_neg hmem]
    cases hl : b.listening with
    | true =>
      have hset : Shows id before (HttpContext.setStatus UV_EOF c, h) { b with status := UV_EOF } :=
        ⟨hshows.stored, hshows.opened, hshows.plain, hshows.listening, rfl, hshows.body, hshows.told⟩
      rw [if_pos ⟨hneg, hshows.listening.trans hl⟩]
      exact told_invoke react hset hl
    | false =>
      have hno : ¬ (UV_EOF < 0 ∧ httpListener h c = true) := by
        rw [hshows.listening, hl]
        decide
      have htell : b.fail UV_EOF = { b with status := UV_EOF } := by
        rw [Inbox.fail, Inbox.tell, if_neg (by rw [hl]; decide)]
      rw [if_neg hno, htell]
      exact hshows.told

/-- An exchange whose connection is made, whose response arrives in `reads` and whose connection ends. -/
def exchange (h : Http P) (req : FetchRequest) (reads : List Bytes) : List Label :=
  [.fetch req, .event h.sequence (.resolved 0), .event h.sequence (.connected 0)] ++
    (reads.map fun bytes => .event h.sequence (.read bytes)) ++ [.event h.sequence (.readError UV_EOF)]

theorem serving_connected (react : Listeners) (h : Http P) {req : FetchRequest} (hplain : req.tls = false)
    (halive : req.listener ∉ h.expired) :
    (machine P react).Run h
        [.fetch req, .event h.sequence (.resolved 0), .event h.sequence (.connected 0)] ∧
      Serving h.sequence (h.calls.map summary)
        ((machine P react).after h
          [.fetch req, .event h.sequence (.resolved 0), .event h.sequence (.connected 0)]) P.init .empty := by
  have hfetch : (fetch h req).contexts h.sequence = some (.create P req) := update_self _ _ _
  have hresolved : next react (fetch h req) (.event h.sequence (.resolved 0)) =
      set h.sequence (HttpContext.setStatus 0 (.create P req)) (fetch h req) := by
    simp only [next, hfetch, onEvent]
  have hset : (set h.sequence (HttpContext.setStatus 0 (.create P req)) (fetch h req)).contexts h.sequence =
      some (HttpContext.setStatus 0 (.create P req)) := update_self _ _ _
  have hconnected : next react (next react (fetch h req) (.event h.sequence (.resolved 0)))
      (.event h.sequence (.connected 0)) =
      set h.sequence (HttpContext.setStatus 0 (.create P req)).handshake
        (set h.sequence (HttpContext.setStatus 0 (.create P req)) (fetch h req)) := by
    have htls : (HttpContext.setStatus 0 (HttpContext.create P req)).tls = false := hplain
    rw [hresolved]
    simp only [next, hset, onEvent, onConnect, lt_irrefl, if_false, htls, Bool.false_eq_true]
  constructor
  · refine ⟨trivial, ⟨_, hfetch, rfl⟩, ⟨HttpContext.setStatus 0 (.create P req), ?_, rfl⟩, trivial⟩
    show (next react (fetch h req) (.event h.sequence (.resolved 0))).contexts h.sequence = _
    rw [hresolved, hset]
  · show Serving _ _ (next react (next react (fetch h req) (.event h.sequence (.resolved 0)))
      (.event h.sequence (.connected 0))) _ _
    rw [hconnected]
    refine ⟨_, update_self _ _ _, rfl, ?_, rfl, hplain, ?_, rfl, rfl, ?_⟩
    · exact Finset.mem_insert_self _ _
    · show (!false && decide (req.listener ∉ h.expired)) = true
      rw [decide_eq_true halive]
      rfl
    · exact (List.append_nil _).symm

/-! ## The whole response -/

theorem hear_response {r : Response} {callbacks fields trailers : List Callback} {pieces : List Bytes}
    (hheaders : ∀ f ∈ fields ++ trailers, f.isHeader = true) (hpieces : pieces.flatten = r.framing.body)
    (htrace : callbacks = fields ++ [Callback.headersComplete r.status] ++ pieces.map Callback.body ++ trailers ++
      if r.framing.isUntilClose then [] else [.messageComplete]) :
    callbacks.foldl Inbox.hear .empty =
      if r.framing.isUntilClose then ⟨true, r.status, r.framing.body, []⟩
      else ⟨false, r.status, r.framing.body, [(r.status, r.framing.body)]⟩ := by
  have hfields : ∀ f ∈ fields, f.isHeader = true := fun f hf => hheaders f (List.mem_append_left _ hf)
  have htrailers : ∀ f ∈ trailers, f.isHeader = true := fun f hf => hheaders f (List.mem_append_right _ hf)
  have hbody : (fields ++ [Callback.headersComplete r.status] ++ pieces.map Callback.body ++ trailers).foldl
      Inbox.hear .empty = ⟨true, r.status, r.framing.body, []⟩ := by
    rw [List.foldl_append, List.foldl_append, List.foldl_append, Inbox.hear_headers _ hfields,
      Inbox.hear_headers _ htrailers, Inbox.hear_pieces, hpieces]
    rfl
  rw [htrace, List.foldl_append, hbody]
  split <;> rfl

/-- The exchange `id` told its listener `r` and nothing else. -/
def Delivered (r : Response) (id : ℕ) (h h' : Http P) : Prop :=
  h'.calls.map summary = h.calls.map summary ++ [(id, (r.status : ℤ), r.framing.body)]

instance (r : Response) (id : ℕ) (h h' : Http P) : Decidable (Delivered r id h h') :=
  inferInstanceAs (Decidable (_ = _))

/-- **A response is delivered unless its body ends with the connection.** -/
theorem delivered_iff (P : HttpParser) (react : Listeners) (h : Http P) (req : FetchRequest) (r : Response)
    (reads : List Bytes) (hplain : req.tls = false) (halive : req.listener ∉ h.expired)
    (hdocumented : Documents P r reads) :
    (machine P react).Run h (exchange h req reads) ∧
      (Delivered r h.sequence h ((machine P react).after h (exchange h req reads)) ↔
        r.framing.isUntilClose = false) := by
  obtain ⟨hrun, hserving⟩ := serving_connected react h hplain halive
  obtain ⟨hreads, hserving'⟩ := serving_reads react hserving hdocumented.consumed
  obtain ⟨heof, hcalls⟩ := calls_eof react hserving'
  obtain ⟨fields, trailers, pieces, hheaders, hpieces, htrace⟩ := hdocumented.trace
  rw [hear_response hheaders hpieces htrace] at hcalls
  refine ⟨Machine.run_append.mpr ⟨Machine.run_append.mpr ⟨hrun, hreads⟩, heof, trivial⟩, ?_⟩
  rw [Delivered, exchange, Machine.after_append, Machine.after_append]
  show ((machine P react).next _ _).calls.map summary = _ ↔ _
  rw [hcalls, List.append_cancel_left_eq]
  cases hclose : r.framing.isUntilClose with
  | true =>
    -- the listener is told the error that `close` was given
    constructor
    · intro htold
      have hstatus : UV_EOF = (r.status : ℤ) := by
        simpa [Inbox.fail, Inbox.tell] using (congrArg (List.map fun t => t.2.1) htold)
      have hneg : UV_EOF < 0 := by decide
      omega
    · intro hfalse
      cases hfalse
  | false => exact ⟨fun _ => rfl, fun _ => rfl⟩

/-- A response of two bytes in two reads, with an empty read between them. -/
theorem delivered_iff_two_reads :
    let length : Field := ⟨ascii "Content-Length", [32], ascii "2", by decide +kernel, by decide +kernel,
      by decide +kernel, by decide +kernel⟩
    let r : Response := ⟨200, ascii "200", ascii "OK", [length], .contentLength (ascii "ok"), by decide,
      by decide +kernel, by decide +kernel, ⟨length, by decide +kernel, by decide +kernel⟩, by decide +kernel⟩
    let P := HttpParser.script [[.headerField (ascii "Content-Length"), .headerValue (ascii "2"),
      .headersComplete 200, .body (ascii "o")], [.body (ascii "k"), .messageComplete]]
    let h := fetch (init P) ⟨∅, [], false, 0, 1, 1⟩
    let reads := [ascii "HTTP/1.1 200 OK\r\nContent-Length: 2\r\n\r\no", [], ascii "k"]
    Delivered r 1 h ((machine P fun _ => ⟨[], []⟩).after h (exchange h ⟨∅, [], false, 0, 2, 5⟩ reads)) := by
  intro length r P h reads
  have hdocumented : Documents P r reads := by
    refine ⟨by decide +kernel, ?_, ⟨[.headerField (ascii "Content-Length"), .headerValue (ascii "2")], [],
      [ascii "o", ascii "k"], by decide, by decide +kernel, by decide +kernel⟩, by decide⟩
    exact ⟨rfl, rfl, trivial⟩
  exact (delivered_iff P _ h ⟨∅, [], false, 0, 2, 5⟩ r reads rfl (by decide) hdocumented).2.mpr rfl

/-- A response whose two bytes end with the connection: the parser completes the message when it is told
of the end, which it is not. -/
theorem closed_response_fails :
    let r : Response := ⟨200, ascii "200", ascii "OK", [], .untilClose (ascii "ok"), by decide, by decide +kernel,
      by decide +kernel, rfl, rfl, by decide, by decide⟩
    let P := HttpParser.script [[.headersComplete 200, .body (ascii "ok")], [.messageComplete]]
    let h := init P
    let reads := [ascii "HTTP/1.1 200 OK\r\n\r\nok"]
    let h' := (machine P fun _ => ⟨[], []⟩).after h (exchange h ⟨∅, [], false, 0, 2, 5⟩ reads)
    Documents P r reads ∧ ¬ Delivered r 0 h h' ∧ h'.calls.map summary = [(0, UV_EOF, ascii "ok")] := by
  intro r P h reads h'
  refine ⟨⟨by decide +kernel, ⟨rfl, trivial⟩, ⟨[], [], [ascii "ok"], by decide, by decide +kernel,
    by decide +kernel⟩, by decide⟩, ?_, ?_⟩
  · decide +kernel
  · decide +kernel

end NoncesHeatmap.Http
