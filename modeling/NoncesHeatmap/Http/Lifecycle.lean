import NoncesHeatmap.Http.Invariants
import NoncesHeatmap.Http.Timeout

/-! # A client among the exchanges

The exchanges know of a client what its listener can see, the client knows what its own parts do. Both know
whether its id is listed and whether its handle is closing, and every event does the same to these two. So in all
runs of both, an exchange that is not over has its timer, and its listener is told when that expires. -/

namespace NoncesHeatmap.Http
open Runs Function
set_option autoImplicit false

variable {P : HttpParser} {client : Client} {id : ℕ} {s : HttpContext P × Http P}

/-- The context and the rest of the exchanges, with the client of that context. -/
structure Lives (client : Client) (id : ℕ) (s : HttpContext P × Http P) : Prop where
  id_lt : id < s.2.sequence
  listed : client.listed = true ↔ id ∈ s.2.storage
  closing : client.closing = s.1.closing

/-- An event of the context as the client sees it. -/
inductive Seen (react : Listeners) (id : ℕ) (s : HttpContext P × Http P) : Event → Client.Event → Prop
  | resolved (status status' : ℤ) (res : List AddressFamily) (connects : Bool) :
      Seen react id s (.resolved status) (.resolved status' res connects)
  | connected (status : ℤ) : Seen react id s (.connected status) (.connected status)
  | read (bytes : Bytes) :
      Seen react id s (.read bytes) (.read (decide ((parse react bytes id s.1 s.2).1 < bytes.length)))
  /-- A read through OpenSSL is refused if it closes the client. -/
  | tlsRead (r : TlsRead) :
      Seen react id s (.tlsRead r) (.read (decide (id ∉ (tlsRead react id r s.1 s.2).2.storage)))
  | readError (nread : ℤ) (hneg : nread < 0) : Seen react id s (.readError nread) (.readError nread)
  | timer : Seen react id s .timer .timer
  | closed : Seen react id s .closed .closed

/-- A new exchange, whatever the resolver and the timer do. -/
theorem lives_fetch (h : Http P) (req : FetchRequest) (keys : Finset ℕ) (counter timeout : ℕ) (resolves : Bool) :
    Lives (Client.create keys counter timeout resolves) h.sequence (.create P req, fetch h req) where
  id_lt := Nat.lt_succ_self _
  listed := iff_of_true rfl (Finset.mem_insert_self _ _)
  closing := rfl

/-! ## What a listener does -/

theorem lives_invoke (react : Listeners) (hl : Lives client id s) {c : HttpContext P} (hclosing : c.closing = s.1.closing) :
    Lives client id (c, invoke react id c s.2) := by
  obtain ⟨hlt, -, hstorage⟩ := fetches_frame { s.2 with calls := s.2.calls ++ [(id, c.data)] }
    (react (s.2.calls ++ [(id, c.data)])).fetches hl.id_lt
  exact ⟨hlt, hl.listed.trans hstorage.symm, hl.closing.trans hclosing.symm⟩

/-! ## What an event does -/

theorem lives_close (react : Listeners) (hl : Lives client id s) (status : ℤ) :
    Lives (Client.close client) id (close react status id s.1 s.2) := by
  have herase : ∀ (c : HttpContext P) (h : Http P), id < h.sequence →
      Lives { client with listed := false, closing := true } id
        ({ c with closing := true }, { h with storage := h.storage.erase id }) := fun c h hlt =>
    ⟨hlt, iff_of_false Bool.false_ne_true (Finset.notMem_erase id h.storage), rfl⟩
  by_cases hmem : id ∈ s.2.storage
  · rw [Client.close, if_pos (hl.listed.mpr hmem), close, if_neg (not_not.mpr hmem)]
    by_cases hreport : status < 0 ∧ httpListener s.2 s.1 = true
    · rw [if_pos hreport]
      exact herase _ _ (lives_invoke react hl (c := HttpContext.setStatus status s.1) rfl).id_lt
    · rw [if_neg hreport]
      exact herase _ _ hl.id_lt
  · rw [Client.close, if_neg (mt hl.listed.mp hmem), close, if_pos hmem]
    exact hl

theorem lives_callback (react : Listeners) (hl : Lives client id s) (callback : Callback) :
    Lives client id (runCallback react id s callback) := by
  by_cases hcomplete : callback = .messageComplete
  · subst hcomplete
    show Lives client id (onMessageComplete react id s.1 s.2)
    rw [onMessageComplete]
    split
    · exact lives_invoke react hl rfl
    · exact hl
  · rw [runCallback_context react hcomplete]
    exact ⟨hl.id_lt, hl.listed, hl.closing.trans (HttpContext.onCallback_listener callback s.1).2.2.1.symm⟩

theorem lives_callbacks (react : Listeners) (hl : Lives client id s) (callbacks : List Callback) :
    Lives client id (callbacks.foldl (runCallback react id) s) := by
  induction callbacks generalizing s with
  | nil => exact hl
  | cons callback callbacks ih => exact ih (lives_callback react hl callback)

theorem lives_parse (react : Listeners) (hl : Lives client id s) (bytes : Bytes) :
    Lives client id (parse react bytes id s.1 s.2).2 := by
  rw [parse]
  split
  · exact hl
  · have hstart : Lives client id ({ s.1 with parser := (P.execute s.1.parser bytes).state }, s.2) :=
      ⟨hl.id_lt, hl.listed, hl.closing⟩
    exact lives_callbacks react hstart (P.execute s.1.parser bytes).callbacks

theorem lives_read (react : Listeners) (hl : Lives client id s) (bytes : Bytes) :
    Lives (Client.next client (.read (decide ((parse react bytes id s.1 s.2).1 < bytes.length)))) id (read react id s bytes) := by
  have hparse := lives_parse react hl bytes
  show Lives (if decide ((parse react bytes id s.1 s.2).1 < bytes.length) = true then Client.close client else client) id
    (if (parse react bytes id s.1 s.2).1 < bytes.length then
      close react UV_EPROTO id (parse react bytes id s.1 s.2).2.1 (parse react bytes id s.1 s.2).2.2
    else (parse react bytes id s.1 s.2).2)
  by_cases hrefused : (parse react bytes id s.1 s.2).1 < bytes.length
  · rw [if_pos (decide_eq_true hrefused), if_pos hrefused]
    exact lives_close react hparse _
  · rw [if_neg (mt of_decide_eq_true hrefused), if_neg hrefused]
    exact hparse

theorem close_close (c : Client) : Client.close (Client.close c) = Client.close c := by
  rw [Client.close, if_neg]
  rw [Client.close_listed]
  exact Bool.false_ne_true

/-- The pieces of a TLS record are one read of the client, refused if one of them is. -/
theorem lives_reads (react : Listeners) (hl : Lives client id s) (pieces : List Bytes) :
    ∃ refused, Lives (Client.next client (.read refused)) id (pieces.foldl (read react id) s) := by
  induction pieces generalizing s client with
  | nil => exact ⟨false, hl⟩
  | cons bytes pieces ih =>
    obtain ⟨refused, hrest⟩ := ih (lives_read react hl bytes)
    cases hfirst : decide ((parse react bytes id s.1 s.2).1 < bytes.length) with
    | false =>
      rw [hfirst] at hrest
      exact ⟨refused, hrest⟩
    | true =>
      rw [hfirst] at hrest
      refine ⟨true, ?_⟩
      cases refused with
      | false => exact hrest
      | true =>
        have hclosed : Lives (Client.close (Client.close client)) id ((bytes :: pieces).foldl (read react id) s) := hrest
        rwa [close_close] at hclosed

theorem lives_refused (react : Listeners) (hl : Lives client id s) (r : TlsRead) :
    ∃ refused, Lives (Client.next client (.read refused)) id (tlsRead react id r s.1 s.2) := by
  cases r with
  | pending => exact ⟨false, hl⟩
  | refused => exact ⟨true, lives_close react hl UV_EPROTO⟩
  | ready => exact ⟨false, hl.id_lt, hl.listed, hl.closing⟩
  | decrypted pieces eof =>
    obtain ⟨refused, hreads⟩ := lives_reads react hl pieces
    cases eof with
    | false => exact ⟨refused, hreads⟩
    | true =>
      have hclosed := lives_close react hreads UV_EOF
      refine ⟨true, ?_⟩
      cases refused with
      | false => exact hclosed
      | true =>
        replace hclosed : Lives (Client.close (Client.close client)) id _ := hclosed
        rw [close_close] at hclosed
        exact hclosed

theorem lives_tlsRead (react : Listeners) (hl : Lives client id s) (r : TlsRead) :
    Lives (Client.next client (.read (decide (id ∉ (tlsRead react id r s.1 s.2).2.storage)))) id
      (tlsRead react id r s.1 s.2) := by
  obtain ⟨refused, hread⟩ := lives_refused react hl r
  have hclosed : Lives (Client.close client) id (tlsRead react id r s.1 s.2) →
      id ∉ (tlsRead react id r s.1 s.2).2.storage := fun h hmem =>
    absurd (h.listed.mpr hmem) (by rw [Client.close_listed]; exact Bool.false_ne_true)
  by_cases hmem : id ∈ (tlsRead react id r s.1 s.2).2.storage
  · rw [decide_eq_false (not_not.mpr hmem)]
    cases refused with
    | false => exact hread
    | true => exact absurd hmem (hclosed hread)
  · rw [decide_eq_true hmem]
    cases refused with
    | true => exact hread
    | false =>
      -- the id was gone before, and the client is not closed again
      have hgone : ¬ client.listed = true := fun hlisted => hmem (hread.listed.mp hlisted)
      show Lives (Client.close client) id _
      rw [Client.close, if_neg hgone]
      exact hread

/-- An event of the context does to storage and handle what the client's step does to its own parts. -/
theorem lives_event (react : Listeners) (hl : Lives client id s) {e : Event} {ce : Client.Event}
    (hseen : Seen react id s e ce) : Lives (Client.next client ce) id (onEvent react e id s.1 s.2) := by
  cases hseen with
  | resolved status status' res connects =>
    obtain ⟨-, hlisted, hclosing, -⟩ := Client.completed_keeps connects status' res client
    exact ⟨hl.id_lt, (Eq.congr_left hlisted).trans hl.listed, hclosing.trans hl.closing⟩
  | connected status =>
    show Lives (Client.onConnect status client) id (onConnect react status id s.1 s.2)
    rw [Client.onConnect, onConnect]
    split
    · have hidle : Lives { client with stream := .idle } id s := ⟨hl.id_lt, hl.listed, hl.closing⟩
      exact lives_close react hidle _
    · refine ⟨hl.id_lt, hl.listed, ?_⟩
      split
      · exact hl.closing
      · exact hl.closing
  | read bytes => exact lives_read react hl bytes
  | tlsRead r => exact lives_tlsRead react hl r
  | readError nread hneg => exact lives_close react hl nread
  | timer =>
    have hstopped : Lives { client with timer := false } id s := ⟨hl.id_lt, hl.listed, hl.closing⟩
    exact lives_close react hstopped _
  | closed =>
    obtain ⟨hlisted, hclosing⟩ : (Client.destroy client).listed = client.listed ∧
        (Client.destroy client).closing = client.closing := by
      rw [Client.destroy]
      dsimp only
      split
      · split
        · exact ⟨rfl, rfl⟩
        · exact ⟨rfl, rfl⟩
      · split
        · exact ⟨rfl, rfl⟩
        · exact ⟨rfl, rfl⟩
    exact ⟨hl.id_lt, (Eq.congr_left hlisted).trans hl.listed, hclosing.trans hl.closing⟩

/-! ## The exchanges and a client together -/

/-- An event of the exchange `id`, as its context and as its client see it, or a label of the others. -/
inductive Joint where
  | own (e : Event) (ce : Client.Event)
  | other (l : Label)

def joint (P : HttpParser) (react : Listeners) (id : ℕ) : Machine (Client × Http P) Joint where
  enabled s
    | .own e ce => Client.enabled s.1 ce = true ∧
        ∃ c, s.2.contexts id = some c ∧ enabledEvent c e = true ∧ Seen react id (c, s.2) e ce
    | .other l => (machine P react).enabled s.2 l ∧ ∀ e, l ≠ .event id e
  next s
    | .own e ce => (Client.next s.1 ce, next react s.2 (.event id e))
    | .other l => (s.1, next react s.2 l)

variable {react : Listeners} {j : Client × Http P}

structure Joined (id : ℕ) (j : Client × Http P) : Prop where
  wellFormed : WellFormed j.2
  timed : Client.Timed j.1
  known : id < j.2.sequence
  lives : ∀ c, j.2.contexts id = some c → Lives j.1 id (c, j.2)
  /-- The close callback comes after the id was taken out. -/
  stored : id ∈ j.2.storage → ∃ c, j.2.contexts id = some c

theorem joined_next (h : Joined id j) {l : Joint} (hl : (joint P react id).enabled j l) :
    Joined id ((joint P react id).next j l) := by
  cases l with
  | own e ce =>
    obtain ⟨hce, c, hc, he, hseen⟩ := hl
    have hlives := lives_event react (h.lives c hc) hseen
    obtain ⟨hsequence, -, hown⟩ := next_contexts react id hc e
    have hstorage := (next_event react hc e).1
    have hlabel : (machine P react).enabled j.2 (.event id e) := ⟨c, hc, he⟩
    refine ⟨wellFormed_next h.wellFormed hlabel, Client.timed_next h.timed hce, ?_, fun c' hc' => ?_, fun hmem => ?_⟩
    · show id < (next react j.2 (.event id e)).sequence
      rw [hsequence]
      exact hlives.id_lt
    · obtain rfl := hown c' hc'
      refine ⟨?_, ?_, hlives.closing⟩
      · show id < (next react j.2 (.event id e)).sequence
        rw [hsequence]
        exact hlives.id_lt
      · show _ ↔ id ∈ (next react j.2 (.event id e)).storage
        rw [hstorage]
        exact hlives.listed
    · by_cases hclosed : e = .closed
      · subst hclosed
        cases hseen with
        | closed =>
          simp only [Client.enabled, Bool.and_eq_true, Bool.not_eq_true'] at hce
          have hlisted : j.1.listed = true := by
            rw [(h.lives c hc).listed]
            rwa [show ((joint P react id).next j (.own .closed .closed)).2.storage = j.2.storage from hstorage] at hmem
          have hclosing := h.timed.alive.closing
          rw [hce.1.1, hlisted] at hclosing
          cases hclosing
      · refine ⟨(onEvent react e id c j.2).1, ?_⟩
        show (next react j.2 (.event id e)).contexts id = _
        rw [next_open react hc hclosed]
        exact update_self _ _ _
  | other l =>
    obtain ⟨hl, hother⟩ := hl
    obtain ⟨hknown, hentry, hstorage⟩ := other_next h.wellFormed h.known hl hother
    refine ⟨wellFormed_next h.wellFormed hl, h.timed, hknown, fun c hc => ?_, fun hmem => ?_⟩
    · have hl := h.lives c (hentry.symm.trans hc)
      exact ⟨hknown, hl.listed.trans hstorage.symm, hl.closing⟩
    · obtain ⟨c, hc⟩ := h.stored (hstorage.mp hmem)
      exact ⟨c, hentry.trans hc⟩

/-- While the id is listed, the timer can expire; then the id is taken out, and the listener is told if it exists. -/
theorem Joined.expires (h : Joined id j) (hmem : id ∈ j.2.storage) :
    (joint P react id).enabled j (.own .timer .timer) ∧ id ∉ ((joint P react id).next j (.own .timer .timer)).2.storage ∧
      ∀ c, j.2.contexts id = some c → c.listener ∉ j.2.expired →
        reported ((joint P react id).next j (.own .timer .timer)).2 id = 1 := by
  obtain ⟨c, hc⟩ := h.stored hmem
  have hlisted : j.1.listed = true := (h.lives c hc).listed.mpr hmem
  have hgone : id ∉ (next react j.2 (.event id .timer)).storage := by
    rw [(next_event react hc .timer).1, ← (lives_event react (h.lives c hc) .timer).listed]
    show ¬ (Client.close { j.1 with timer := false }).listed = true
    rw [Client.close_listed]
    exact Bool.false_ne_true
  refine ⟨⟨h.timed.timer hlisted, c, hc, rfl, .timer⟩, hgone, fun c' hc' halive => ?_⟩
  exact reported_of_gone h.wellFormed (l := .event id .timer) ⟨c, hc, rfl⟩ hmem hc' halive hgone

theorem joined_create {h : Http P} (hw : WellFormed h) (req : FetchRequest) {d : Daemon} (htimeout : ¬ 2 ^ 29 ∣ d.timeoutSeconds)
    (keys : Finset ℕ) (counter : ℕ) (resolves : Bool) :
    Joined h.sequence (Client.ofDaemon d keys counter resolves, fetch h req) := by
  have htimer : d.timeout ≠ 0 := mt (Client.timeout_eq_zero_iff d).mp htimeout
  have hself : (fetch h req).contexts h.sequence = some (.create P req) := update_self _ _ _
  refine ⟨wellFormed_fetch hw req, ⟨Client.alive_create counter d.timeout resolves, fun _ => decide_eq_true htimer⟩,
    Nat.lt_succ_self _, fun c hc => ?_, fun _ => ⟨_, hself⟩⟩
  obtain rfl : HttpContext.create P req = c := Option.some.inj (hself.symm.trans hc)
  exact lives_fetch h req keys counter d.timeout resolves

/-- **An exchange ends.** In all runs of the contexts and of the client of one of them, the exchange is reported at most
once; and until its id is taken out of the storage its timer can expire, which takes it out and has it reported, if its
listener exists. -/
theorem exchange_ends (P : HttpParser) (react : Listeners) (before : List Label)
    (hbefore : (machine P react).Run (init P) before) (req : FetchRequest) (d : Daemon) (keys : Finset ℕ) (counter : ℕ)
    (resolves : Bool) (htimeout : ¬ 2 ^ 29 ∣ d.timeoutSeconds) (labels : List Joint) :
    let h := (machine P react).after (init P) before
    let M := joint P react h.sequence
    let client := Client.ofDaemon d keys counter resolves
    let j := M.after (client, fetch h req) labels
    M.Run (client, fetch h req) labels →
      (∃ ls, (machine P react).Run (init P) (before ++ .fetch req :: ls) ∧
          (machine P react).after (init P) (before ++ .fetch req :: ls) = j.2) ∧
        (∃ es, Client.machine.Run client es ∧ Client.machine.after client es = j.1) ∧
        reported j.2 h.sequence ≤ 1 ∧
        (h.sequence ∈ j.2.storage →
          M.enabled j (.own .timer .timer) ∧ h.sequence ∉ (M.next j (.own .timer .timer)).2.storage ∧
            ∀ c, j.2.contexts h.sequence = some c → c.listener ∉ j.2.expired →
              reported (M.next j (.own .timer .timer)).2 h.sequence = 1) := by
  intro h M client j run
  have hjoined : Joined h.sequence j :=
    run.invariant (fun _ _ hj hl => joined_next hj hl) (joined_create (wellFormed_run hbefore) req htimeout keys counter resolves)
  refine ⟨?_, ?_, hjoined.wellFormed.once _, hjoined.expires⟩
  · have hstep : ∀ (s : Client × Http P) l, True → M.enabled s l →
        True ∧ ∃ ls, (machine P react).Run s.2 ls ∧ (machine P react).after s.2 ls = (M.next s l).2 := by
      intro s l _ hl
      cases l with
      | own e ce =>
        obtain ⟨-, c, hc, he, -⟩ := hl
        exact ⟨trivial, [.event h.sequence e], ⟨⟨c, hc, he⟩, trivial⟩, rfl⟩
      | other l => exact ⟨trivial, [l], ⟨hl.1, trivial⟩, rfl⟩
    obtain ⟨ls, hrun, hafter⟩ := run.refined (N := machine P react) (f := Prod.snd) hstep trivial
    refine ⟨ls, Machine.run_append.mpr ⟨hbefore, trivial, hrun⟩, ?_⟩
    rw [Machine.after_append]
    exact hafter
  · have hstep : ∀ (s : Client × Http P) l, True → M.enabled s l →
        True ∧ ∃ es, Client.machine.Run s.1 es ∧ Client.machine.after s.1 es = (M.next s l).1 := by
      intro s l _ hl
      cases l with
      | own e ce => exact ⟨trivial, [ce], ⟨hl.1, trivial⟩, rfl⟩
      | other l => exact ⟨trivial, [], trivial, rfl⟩
    exact run.refined (N := Client.machine) (f := Prod.fst) hstep trivial

/-- A response that begins and stops, while another exchange is started. -/
theorem exchange_ends_late :
    let P := HttpParser.script [[.headersComplete 200]]
    let d := Daemon.default (some "127.0.0.1")
    let M := joint P (fun _ => ⟨[], []⟩) 0
    let j := M.after (Client.ofDaemon d ∅ 0 true, fetch (init P) ⟨∅, [], false, 0, 2, 1⟩)
      [.own (.resolved 0) (.resolved 0 [.inet] true), .own (.connected 0) (.connected 0),
        .other (.fetch ⟨∅, [], false, 0, 2, 2⟩), .own (.read [72]) (.read false)]
    reported j.2 0 = 0 ∧ M.enabled j (.own .timer .timer) ∧ reported (M.next j (.own .timer .timer)).2 0 = 1 := by
  intro P d M j
  obtain ⟨-, -, -, hends⟩ := exchange_ends P (fun _ => ⟨[], []⟩) [] trivial ⟨∅, [], false, 0, 2, 1⟩ d ∅ 0 true (by decide)
    [.own (.resolved 0) (.resolved 0 [.inet] true), .own (.connected 0) (.connected 0),
      .other (.fetch ⟨∅, [], false, 0, 2, 2⟩), .own (.read [72]) (.read false)]
    ⟨⟨rfl, _, rfl, rfl, .resolved 0 0 [.inet] true⟩, ⟨rfl, _, rfl, rfl, .connected 0⟩, ⟨trivial, nofun⟩,
      ⟨rfl, _, rfl, rfl, .read [72]⟩, trivial⟩
  obtain ⟨henabled, -, hreported⟩ := hends (by decide)
  exact ⟨by decide, henabled, hreported _ rfl (by decide)⟩

end NoncesHeatmap.Http
