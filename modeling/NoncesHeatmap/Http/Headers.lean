import NoncesHeatmap.Http.Exchanges

/-! # Header reassembly

The parser may split the name and the value of a header over several callbacks. `HttpContext` collects
them in two strings and commits a header when the next one starts or when the headers are complete.
Between two headers the context is at a boundary: what it holds is a whole header, or nothing. -/

namespace NoncesHeatmap
set_option autoImplicit false

/-- A header with a name that is not empty, as the parser splits it. -/
structure SplitField where
  name : List Bytes
  value : List Bytes
  name_ne : name.flatten ≠ []
  value_ne : value ≠ []

namespace SplitField

def callbacks (f : SplitField) : List Callback := f.name.map .headerField ++ f.value.map .headerValue

def key (f : SplitField) : String := text (f.name.flatten.map tolower)

def content (f : SplitField) : String := text f.value.flatten

end SplitField

/-- The callbacks of a response up to `on_headers_complete`. -/
def headCallbacks (fields : List SplitField) (statusCode : ℕ) : List Callback :=
  fields.flatMap SplitField.callbacks ++ [.headersComplete statusCode]

namespace HttpContext
variable {P : HttpParser} {c : HttpContext P}

def feed (c : HttpContext P) (callbacks : List Callback) : HttpContext P :=
  callbacks.foldl (fun c callback => onCallback callback c) c

theorem feed_append (c : HttpContext P) (before after : List Callback) :
    c.feed (before ++ after) = (c.feed before).feed after := List.foldl_append

/-- What the context holds is committed. -/
def commit (c : HttpContext P) : HttpContext P := if c.lastHeaderField = [] then c else setHeader c

/-- The context is between two headers. -/
def AtBoundary (c : HttpContext P) : Prop := c.wasHeaderValue = true ∨ c.lastHeaderField = []

/-! ## The pieces of a name and of a value -/

theorem feed_names (hname : c.wasHeaderValue = false) (pieces : List Bytes) :
    c.feed (pieces.map .headerField) = { c with lastHeaderField := c.lastHeaderField ++ pieces.flatten } := by
  induction pieces generalizing c with
  | nil => rw [List.flatten_nil, List.append_nil]; rfl
  | cons piece pieces ih =>
    have hstep : onHeaderField piece c = { c with lastHeaderField := c.lastHeaderField ++ piece } := by
      rw [onHeaderField, hname]
      rfl
    show (onHeaderField piece c).feed _ = _
    rw [hstep, ih (c := { c with lastHeaderField := c.lastHeaderField ++ piece }) hname, List.flatten_cons,
      List.append_assoc]

theorem feed_values (hvalue : c.wasHeaderValue = true) (pieces : List Bytes) :
    c.feed (pieces.map .headerValue) = { c with lastHeaderValue := c.lastHeaderValue ++ pieces.flatten } := by
  induction pieces generalizing c with
  | nil => rw [List.flatten_nil, List.append_nil]; rfl
  | cons piece pieces ih =>
    have hstep : onHeaderValue piece c = { c with lastHeaderValue := c.lastHeaderValue ++ piece } := by
      rw [onHeaderValue, hvalue]
      rfl
    show (onHeaderValue piece c).feed _ = _
    rw [hstep, ih (c := { c with lastHeaderValue := c.lastHeaderValue ++ piece }) hvalue, List.flatten_cons,
      List.append_assoc]

/-- The first piece of a name commits the header before it. -/
theorem onHeaderField_boundary (hc : c.AtBoundary) (piece : Bytes) :
    onHeaderField piece c = { c.commit with lastHeaderField := piece, wasHeaderValue := false } := by
  by_cases hvalue : c.wasHeaderValue = true
  · rw [onHeaderField, if_pos hvalue]
    rfl
  · have hnone := hc.resolve_left hvalue
    have hfalse : c.wasHeaderValue = false := (Bool.not_eq_true _).mp hvalue
    rw [onHeaderField, if_neg hvalue, commit, if_pos hnone, hnone, ← hfalse]
    rfl

theorem onHeaderValue_first (hname : c.wasHeaderValue = false) (piece : Bytes) :
    onHeaderValue piece c = { c with lastHeaderValue := piece, wasHeaderValue := true } := by
  rw [onHeaderValue, hname]
  rfl

/-! ## Whole headers -/

theorem feed_name (hc : c.AtBoundary) {pieces : List Bytes} (hne : pieces ≠ []) :
    c.feed (pieces.map .headerField) = { c.commit with lastHeaderField := pieces.flatten, wasHeaderValue := false } := by
  cases pieces with
  | nil => exact absurd rfl hne
  | cons piece pieces =>
    show (onHeaderField piece c).feed _ = _
    rw [onHeaderField_boundary hc, feed_names rfl, List.flatten_cons]

theorem feed_value (hname : c.wasHeaderValue = false) {pieces : List Bytes} (hne : pieces ≠ []) :
    c.feed (pieces.map .headerValue) = { c with lastHeaderValue := pieces.flatten, wasHeaderValue := true } := by
  cases pieces with
  | nil => exact absurd rfl hne
  | cons piece pieces =>
    show (onHeaderValue piece c).feed _ = _
    rw [onHeaderValue_first hname, feed_values rfl, List.flatten_cons]

theorem feed_field (hc : c.AtBoundary) (f : SplitField) :
    c.feed f.callbacks =
      { c.commit with
        lastHeaderField := f.name.flatten
        lastHeaderValue := f.value.flatten
        wasHeaderValue := true } := by
  have hne : f.name ≠ [] := by
    intro hnil
    have hflat := f.name_ne
    rw [hnil] at hflat
    exact hflat rfl
  rw [SplitField.callbacks, feed_append, feed_name hc hne, feed_value rfl f.value_ne]

/-! ## The headers of a response -/

/-- A header that is committed: the first value of a name stays. -/
def addField (headers : Headers) (f : SplitField) : Headers := headers.insertIfNew f.key f.content

theorem getElem?_addFields (headers : Headers) (fields : List SplitField) (key : String) :
    (fields.foldl addField headers)[key]? =
      headers[key]?.or ((fields.find? fun f => decide (f.key = key)).map SplitField.content) := by
  induction fields generalizing headers with
  | nil => exact (Option.or_none).symm
  | cons f fields ih =>
    rw [List.foldl_cons, ih, addField, Std.TreeMap.getElem?_insertIfNew]
    by_cases hkey : f.key = key
    · have hfind : (f :: fields).find? (fun f => decide (f.key = key)) = some f :=
        List.find?_cons_of_pos (decide_eq_true hkey)
      subst hkey
      have hself : compare f.key f.key = .eq := Std.ReflCmp.compare_self
      rw [hfind]
      by_cases hmem : f.key ∈ headers
      · rw [if_neg fun h => h.2 hmem, Std.TreeMap.getElem?_eq_some_getElem hmem]
        rfl
      · rw [if_pos ⟨hself, hmem⟩, Std.TreeMap.getElem?_eq_none hmem]
        rfl
    · have hfind : (f :: fields).find? (fun f => decide (f.key = key)) = fields.find? fun f => decide (f.key = key) :=
        List.find?_cons_of_neg (by simpa using hkey)
      rw [hfind]
      simp [hkey]

theorem commit_headers (hc : c.lastHeaderField ≠ []) :
    c.commit.data.headers = c.data.headers.insertIfNew (text (c.lastHeaderField.map tolower)) (text c.lastHeaderValue) := by
  rw [commit, if_neg hc]
  rfl

theorem commit_body (c : HttpContext P) : c.commit.data.body = c.data.body := by
  rw [commit]
  split <;> rfl

/-- By induction on the headers: at each boundary what is committed and what is held are the headers so far. -/
theorem feed_fields (hc : c.AtBoundary) (fields : List SplitField) :
    (c.feed (fields.flatMap SplitField.callbacks)).commit.data.headers = fields.foldl addField c.commit.data.headers ∧
      (c.feed (fields.flatMap SplitField.callbacks)).data.body = c.data.body := by
  induction fields generalizing c with
  | nil => exact ⟨rfl, rfl⟩
  | cons f fields ih =>
    rw [List.flatMap_cons, feed_append, feed_field hc, List.foldl_cons]
    obtain ⟨hheaders, hbody⟩ := ih (c := { c.commit with
      lastHeaderField := f.name.flatten
      lastHeaderValue := f.value.flatten
      wasHeaderValue := true }) (Or.inl rfl)
    refine ⟨hheaders.trans ?_, hbody.trans (commit_body c)⟩
    rw [commit_headers (show f.name.flatten ≠ [] from f.name_ne)]
    rfl

theorem feed_head (hc : c.AtBoundary) (fields : List SplitField) (statusCode : ℕ) :
    (c.feed (headCallbacks fields statusCode)).data.headers = fields.foldl addField c.commit.data.headers ∧
      (c.feed (headCallbacks fields statusCode)).data.body = c.data.body := by
  obtain ⟨hheaders, hbody⟩ := feed_fields hc fields
  have hlast : c.feed (headCallbacks fields statusCode) =
      (setStatus statusCode (c.feed (fields.flatMap SplitField.callbacks))).commit := by
    rw [headCallbacks, feed_append]
    rfl
  have hstatus : ∀ d : HttpContext P, (setStatus statusCode d).commit.data.headers = d.commit.data.headers := by
    intro d
    by_cases hd : d.lastHeaderField = []
    · rw [commit, if_pos (show (setStatus statusCode d).lastHeaderField = [] from hd), commit, if_pos hd]
      rfl
    · rw [commit_headers hd, commit_headers (show (setStatus statusCode d).lastHeaderField ≠ [] from hd)]
      rfl
  rw [hlast, hstatus, commit_body]
  exact ⟨hheaders, hbody⟩

theorem feed_body (c : HttpContext P) (pieces : List Bytes) :
    (c.feed (pieces.map .body)).data.headers = c.data.headers ∧
      (c.feed (pieces.map .body)).data.body = c.data.body ++ pieces.flatten := by
  induction pieces generalizing c with
  | nil => exact ⟨rfl, (List.append_nil _).symm⟩
  | cons piece pieces ih =>
    obtain ⟨hheaders, hbody⟩ := ih (onBody piece c)
    refine ⟨hheaders, ?_⟩
    rw [List.flatten_cons, ← List.append_assoc]
    exact hbody

end HttpContext

/-! ## An exchange -/

namespace Http
open HttpContext
variable {P : HttpParser}

/-- Callbacks before the end of the message reach the context only. -/
theorem runCallbacks_feed (react : Listeners) (id : ℕ) (c : HttpContext P) (h : Http P) {callbacks : List Callback}
    (hne : ∀ callback ∈ callbacks, callback ≠ .messageComplete) :
    callbacks.foldl (runCallback react id) (c, h) = (c.feed callbacks, h) := by
  induction callbacks generalizing c with
  | nil => rfl
  | cons callback callbacks ih =>
    have hstep : runCallback react id (c, h) callback = (onCallback callback c, h) := by
      cases callback with
      | messageComplete => exact absurd rfl (hne _ List.mem_cons_self)
      | _ => rfl
    rw [List.foldl_cons, hstep]
    exact ih _ fun callback hmem => hne callback (List.mem_cons_of_mem _ hmem)

theorem headCallbacks_ne (fields : List SplitField) (statusCode : ℕ) :
    ∀ callback ∈ headCallbacks fields statusCode, callback ≠ .messageComplete := by
  intro callback hmem heq
  subst heq
  simp [headCallbacks, SplitField.callbacks] at hmem

/-- The context that has sent the request and hears a response up to the end of its headers, and then the
pieces of its body. -/
def afterHead (react : Listeners) (req : FetchRequest) (status : ℤ) (id : ℕ) (h : Http P) (fields : List SplitField)
    (statusCode : ℕ) : HttpContext P × Http P :=
  (headCallbacks fields statusCode).foldl (runCallback react id) ((setStatus status (.create P req)).handshake, h)

def afterBody (react : Listeners) (id : ℕ) (s : HttpContext P × Http P) (pieces : List Bytes) :
    HttpContext P × Http P :=
  (pieces.map Callback.body).foldl (runCallback react id) s

/-- **Headers and body do not depend on how they are split.** -/
theorem headers_reassembled (P : HttpParser) (react : Listeners) (req : FetchRequest) (status : ℤ) (id : ℕ) (h : Http P)
    (fields : List SplitField) (statusCode : ℕ) (pieces : List Bytes) :
    let head := afterHead react req status id h fields statusCode
    let body := afterBody react id head pieces
    (∀ key, head.1.data.headers[key]? = (fields.find? fun f => decide (f.key = key)).map SplitField.content) ∧
      head.1.data.status = statusCode ∧ body.1.data.headers = head.1.data.headers ∧
      body.1.data.body = pieces.flatten := by
  intro head body
  have hboundary : ((setStatus status (.create P req)).handshake).AtBoundary := Or.inr rfl
  generalize hstart : (setStatus status (.create P req)).handshake = start at hboundary
  have hempty : start.commit.data.headers = ∅ ∧ start.data.body = [] := by
    rw [← hstart]
    exact ⟨rfl, rfl⟩
  have hhead : head = (start.feed (headCallbacks fields statusCode), h) := by
    rw [← hstart]
    exact runCallbacks_feed react id _ h (headCallbacks_ne fields statusCode)
  have hbody : body = ((start.feed (headCallbacks fields statusCode)).feed (pieces.map .body), h) := by
    have hne : ∀ callback ∈ pieces.map Callback.body, callback ≠ .messageComplete := by
      intro callback hmem heq
      subst heq
      simp at hmem
    show (pieces.map Callback.body).foldl (runCallback react id) head = _
    rw [hhead]
    exact runCallbacks_feed react id _ h hne
  obtain ⟨hheaders, hnone⟩ := feed_head hboundary fields statusCode
  obtain ⟨hkept, hpieces⟩ := feed_body (start.feed (headCallbacks fields statusCode)) pieces
  rw [hhead, hbody]
  refine ⟨fun key => ?_, ?_, hkept, ?_⟩
  · rw [hheaders, getElem?_addFields, hempty.1, Std.TreeMap.getElem?_emptyc]
    rfl
  · rw [headCallbacks, feed_append]
    show (onHeadersComplete statusCode _).data.status = _
    rw [onHeadersComplete]
    split <;> rfl
  · rw [hpieces, hnone, hempty.2]
    rfl

/-- A name and a value that are split, the header again in capitals, a header with an empty value and an empty piece of
the body. -/
theorem headers_reassembled_split :
    let type : SplitField := ⟨[ascii "Content-", ascii "Type"], [ascii "application", [], ascii "/json"],
      by decide +kernel, by decide⟩
    let again : SplitField := ⟨[ascii "CONTENT-TYPE"], [ascii "text/plain"], by decide +kernel, by decide⟩
    let vary : SplitField := ⟨[ascii "V", ascii "ary"], [[]], by decide +kernel, by decide⟩
    let head := afterHead (fun _ => ⟨[], []⟩) ⟨∅, [], false, 0, 2, 5⟩ 0 0 (init (.script [])) [type, again, vary] 200
    let body := afterBody (fun _ => ⟨[], []⟩) 0 head [ascii "\x7b", [], ascii "\x7d"]
    body.1.data.headers["content-type"]? = some "application/json" ∧ body.1.data.headers["vary"]? = some "" ∧
      body.1.data.headers["Content-Type"]? = none ∧ body.1.data.body = ascii "\x7b\x7d" := by
  intro type again vary head body
  obtain ⟨hheaders, -, hsame, hbody⟩ := headers_reassembled (.script []) (fun _ => ⟨[], []⟩) ⟨∅, [], false, 0, 2, 5⟩ 0 0
    (init (.script [])) [type, again, vary] 200 [ascii "\x7b", [], ascii "\x7d"]
  rw [hsame, hbody, hheaders, hheaders, hheaders]
  decide +kernel

end Http
end NoncesHeatmap
