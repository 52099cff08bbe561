import NoncesHeatmap.Http.Reports

/-! # What an event keeps

An event changes its context, calls the listener and takes the id out of `storage`. A property of the context
and the rest of the world that survives each of the three survives every event: `Kept.event`. -/

namespace NoncesHeatmap.Http
open Runs Function
set_option autoImplicit false

variable {P : HttpParser} {h : Http P} {c : HttpContext P} {id : ℕ} {react : Listeners}
  {s : HttpContext P × Http P} {alive : Prop} {kept : Finset ℕ} {Q : HttpContext P × Http P → Prop}

/-- `c'` is for the same exchange as `c`. -/
structure Same (c c' : HttpContext P) : Prop where
  listener : c'.listener = c.listener
  tls : c'.tls = c.tls
  userType : c'.data.userType = c.data.userType
  rpcId : c'.data.rpcId = c.data.rpcId

theorem same_onCallback (callback : Callback) (c : HttpContext P) : Same c (HttpContext.onCallback callback c) := by
  cases callback with
  | headerField bytes =>
    simp only [HttpContext.onCallback, HttpContext.onHeaderField]
    split
    · split <;> exact ⟨rfl, rfl, rfl, rfl⟩
    · exact ⟨rfl, rfl, rfl, rfl⟩
  | headerValue bytes =>
    simp only [HttpContext.onCallback, HttpContext.onHeaderValue]
    split <;> exact ⟨rfl, rfl, rfl, rfl⟩
  | headersComplete statusCode =>
    simp only [HttpContext.onCallback, HttpContext.onHeadersComplete]
    split <;> exact ⟨rfl, rfl, rfl, rfl⟩
  | body bytes => exact ⟨rfl, rfl, rfl, rfl⟩
  | messageComplete => exact ⟨rfl, rfl, rfl, rfl⟩

structure Kept (react : Listeners) (id : ℕ) (Q : HttpContext P × Http P → Prop) : Prop where
  context : ∀ c c' h, Same c c' → Q (c, h) → Q (c', h)
  /-- A listener is called for an exchange that was not reported before. -/
  invoke : ∀ c h, httpListener h c = true → reported h id = 0 → Q (c, h) → Q (c, invoke react id c h)
  /-- An id is taken out when its exchange is reported, or cannot be. -/
  erase : ∀ c h, (reported h id = 0 → c.listener ∈ h.expired) → Q (c, h) →
    Q (c, { h with storage := h.storage.erase id })

namespace Kept

theorem close (hk : Kept react id Q) (hb : Busy alive kept id s) {status : ℤ} (hneg : status < 0) (hq : Q s) :
    Q (Http.close react status id s.1 s.2) := by
  obtain ⟨c, h⟩ := s
  unfold Http.close
  by_cases hmem : id ∈ h.storage
  · rw [if_neg (not_not.mpr hmem)]
    by_cases hl : httpListener h c = true
    · obtain ⟨hreset, -⟩ := httpListener_iff.mp hl
      have hzero := hb.tracked.unreported hmem hreset
      have hstatus := hk.context c (HttpContext.setStatus status c) h ⟨rfl, rfl, rfl, rfl⟩ hq
      have hcall := hk.invoke (HttpContext.setStatus status c) h hl hzero hstatus
      have hone : reported (Http.invoke react id (HttpContext.setStatus status c) h) id = 1 := by
        rw [(invoke_spec react hb.others _).2.1, hzero]
      have hgone := hk.erase _ _ (fun hnone => absurd (hone.symm.trans hnone) Nat.one_ne_zero) hcall
      simp only [hneg, hl, and_self, if_true]
      exact hk.context (HttpContext.setStatus status c) _ _ ⟨rfl, rfl, rfl, rfl⟩ hgone
    · have hno : ¬ (status < 0 ∧ httpListener h c = true) := fun hboth => hl hboth.2
      have hnobody : reported h id = 0 → c.listener ∈ h.expired := by
        intro hnone
        by_contra hlistener
        by_cases hreset : c.reset = true
        · exact absurd ((hb.tracked.delivered hreset).symm.trans hnone) Nat.one_ne_zero
        · exact hl (httpListener_iff.mpr ⟨Bool.eq_false_iff.mpr hreset, hlistener⟩)
      simp only [hno, if_false]
      exact hk.context c _ _ ⟨rfl, rfl, rfl, rfl⟩ (hk.erase c h hnobody hq)
  · rw [if_pos hmem]
    exact hq

theorem callback (hk : Kept react id Q) (hb : Busy alive kept id s) (hopen : Open id s) (callback : Callback) (hq : Q s) :
    Q (runCallback react id s callback) := by
  by_cases hcomplete : callback = .messageComplete
  · subst hcomplete
    simp only [runCallback, onMessageComplete]
    by_cases hl : httpListener s.2 s.1 = true
    · rw [if_pos hl]
      have hmem : id ∈ s.2.storage := by
        rcases hopen with hmem | hfalse
        · exact hmem
        · rw [hl] at hfalse
          cases hfalse
      obtain ⟨hreset, -⟩ := httpListener_iff.mp hl
      have hcall := hk.invoke s.1 s.2 hl (hb.tracked.unreported hmem hreset) hq
      exact hk.context s.1 _ _ ⟨rfl, rfl, rfl, rfl⟩ hcall
    · rw [if_neg hl]
      exact hq
  · rw [runCallback_context react hcomplete]
    exact hk.context _ _ _ (same_onCallback callback s.1) hq

theorem callbacks (hk : Kept react id Q) (hb : Busy alive kept id s) (hopen : Open id s) (callbacks : List Callback)
    (hq : Q s) : Q (callbacks.foldl (runCallback react id) s) := by
  induction callbacks generalizing s with
  | nil => exact hq
  | cons callback callbacks ih =>
    obtain ⟨hb', hopen', -, -, -⟩ := busy_callback react hb hopen callback
    exact ih hb' hopen' (hk.callback hb hopen callback hq)

theorem read (hk : Kept react id Q) (hb : Busy alive kept id s) (hquiet : Quiet id s) (bytes : Bytes) (hq : Q s) :
    Q (Http.read react id s bytes) := by
  unfold Http.read parse
  by_cases hempty : bytes.length = 0
  · simp only [hempty, if_true, lt_irrefl, if_false]
    exact hq
  · simp only [hempty, if_false]
    generalize hresult : P.execute s.1.parser bytes = result
    generalize hs' : result.callbacks.foldl (runCallback react id) ({ s.1 with parser := result.state }, s.2) = s'
    have hb' := (busy_execute react hb hquiet hresult hs'.symm).1
    have hq' : Q s' := by
      have hparser := hk.context s.1 { s.1 with parser := result.state } s.2 ⟨rfl, rfl, rfl, rfl⟩ hq
      rw [← hs']
      by_cases hfailed : P.failed s.1.parser = true
      · -- a parser that has failed calls nothing
        have hnone := (P.failed_silent s.1.parser bytes hfailed).1
        rw [hresult] at hnone
        rw [hnone]
        exact hparser
      · refine hk.callbacks (hb.parser result.state) ?_ result.callbacks hparser
        by_cases hmem : id ∈ s.2.storage
        · exact Or.inl hmem
        · exact Or.inr ((hquiet hmem).resolve_left hfailed)
    split
    · exact hk.close hb' (by decide) hq'
    · exact hq'

theorem reads (hk : Kept react id Q) (hb : Busy alive kept id s) (hquiet : Quiet id s) (pieces : List Bytes) (hq : Q s) :
    Q (pieces.foldl (Http.read react id) s) := by
  induction pieces generalizing s with
  | nil => exact hq
  | cons bytes pieces ih =>
    obtain ⟨hb', hquiet'⟩ := busy_read react hb hquiet bytes
    exact ih hb' hquiet' (hk.read hb hquiet bytes hq)

theorem event (hk : Kept react id Q) (hw : WellFormed h) (hc : h.contexts id = some c) {e : Event}
    (he : enabledEvent c e = true) (hq : Q (c, h)) : Q (onEvent react e id c h) := by
  obtain ⟨-, ht⟩ := hw.tracked id c hc
  have hb : Busy False h.storage id (c, h) :=
    ⟨hw.others hc, ht, fun ha => ha.elim, fun ha => ha.elim, fun _ hj _ => hj⟩
  have hquiet : c.closing = false → Quiet id (c, h) := by
    intro hopened hgone
    rw [ht.closing hgone] at hopened
    cases hopened
  cases e with
  | resolved status => exact hk.context c _ h ⟨rfl, rfl, rfl, rfl⟩ hq
  | connected status =>
    simp only [onEvent, onConnect]
    split
    · next hneg =>
      refine hk.close hb ?_ hq
      split
      · decide
      · exact hneg
    · split
      · exact hq
      · exact hk.context c _ h ⟨rfl, rfl, rfl, rfl⟩ hq
  | read bytes =>
    simp only [enabledEvent, Bool.and_eq_true, Bool.not_eq_true'] at he
    exact hk.read hb (hquiet he.1) bytes hq
  | tlsRead r =>
    simp only [enabledEvent, Bool.and_eq_true, Bool.not_eq_true'] at he
    cases r with
    | pending => exact hq
    | refused => exact hk.close hb (by decide) hq
    | ready => exact hk.context c _ h ⟨rfl, rfl, rfl, rfl⟩ hq
    | decrypted pieces eof =>
      have hpieces := busy_reads react hb (hquiet he.1) pieces
      have hread := hk.reads hb (hquiet he.1) pieces hq
      simp only [onEvent, tlsRead]
      split
      · exact hk.close hpieces (by decide) hread
      · exact hread
  | readError nread =>
    simp only [enabledEvent, Bool.and_eq_true, decide_eq_true_eq] at he
    exact hk.close hb he.2 hq
  | timer => exact hk.close hb (by decide) hq
  | closed => exact hq

end Kept

/-- New exchanges leave the ones before them alone. -/
theorem fetches_frame (h : Http P) (reqs : List FetchRequest) {j : ℕ} (hj : j < h.sequence) :
    j < (reqs.foldl fetch h).sequence ∧ (reqs.foldl fetch h).contexts j = h.contexts j ∧
      (j ∈ (reqs.foldl fetch h).storage ↔ j ∈ h.storage) := by
  induction reqs generalizing h with
  | nil => exact ⟨hj, rfl, Iff.rfl⟩
  | cons req reqs ih =>
    obtain ⟨hlt, hcontexts, hstorage⟩ := ih (fetch h req) (Nat.lt_succ_of_lt hj)
    exact ⟨hlt, hcontexts.trans (update_of_ne hj.ne _ _), hstorage.trans (fetch_storage hj req)⟩

/-- An event of one context leaves the others alone. -/
theorem kept_entry (react : Listeners) (id j : ℕ) (entry : Option (HttpContext P)) :
    Kept react id fun s : HttpContext P × Http P => j < s.2.sequence ∧ s.2.contexts j = entry where
  context := fun _ _ _ _ hq => hq
  invoke := by
    rintro c h - - ⟨hj, hentry⟩
    obtain ⟨hlt, hcontexts, -⟩ :=
      fetches_frame { h with calls := h.calls ++ [(id, c.data)] } (react (h.calls ++ [(id, c.data)])).fetches hj
    exact ⟨hlt, hcontexts.trans hentry⟩
  erase := fun _ _ _ hq => hq

theorem kept_storage (react : Listeners) {id j : ℕ} (hne : j ≠ id) (listed : Prop) :
    Kept react id fun s : HttpContext P × Http P => j < s.2.sequence ∧ (j ∈ s.2.storage ↔ listed) where
  context := fun _ _ _ _ hq => hq
  invoke := by
    rintro c h - - ⟨hj, hlisted⟩
    obtain ⟨hlt, -, hstorage⟩ :=
      fetches_frame { h with calls := h.calls ++ [(id, c.data)] } (react (h.calls ++ [(id, c.data)])).fetches hj
    exact ⟨hlt, hstorage.trans hlisted⟩
  erase := by
    rintro c h - ⟨hj, hlisted⟩
    exact ⟨hj, (Finset.mem_erase.trans (and_iff_right hne)).trans hlisted⟩

/-- Any event but the last one leaves its context in place. -/
theorem next_open (react : Listeners) {j : ℕ} (hc : h.contexts j = some c) {e : Event} (hopen : e ≠ .closed) :
    next react h (.event j e) = set j (onEvent react e j c h).1 (onEvent react e j c h).2 := by
  simp only [next, hc]

theorem next_contexts (react : Listeners) (id : ℕ) {j : ℕ} (hc : h.contexts j = some c) (e : Event) :
    (next react h (.event j e)).sequence = (onEvent react e j c h).2.sequence ∧
      (j ≠ id → (next react h (.event j e)).contexts id = (onEvent react e j c h).2.contexts id) ∧
      ∀ c', (next react h (.event j e)).contexts j = some c' → c' = (onEvent react e j c h).1 := by
  by_cases hclosed : e = .closed
  · subst hclosed
    have hnext : next react h (.event j .closed) = { h with contexts := update h.contexts j none } := by
      simp only [next, hc, onEvent]
    rw [hnext]
    refine ⟨rfl, fun hne => update_of_ne (Ne.symm hne) _ _, fun c' hc' => ?_⟩
    simp at hc'
  · rw [next_open react hc hclosed]
    refine ⟨rfl, fun hne => update_of_ne (Ne.symm hne) _ _, fun c' hc' => ?_⟩
    have hself := update_self j (some (onEvent react e j c h).1) (onEvent react e j c h).2.contexts
    exact Option.some.inj (hc'.symm.trans hself)

/-- A label of another exchange leaves a context and its id as they are. -/
theorem other_next (hw : WellFormed h) (hid : id < h.sequence) {l : Label} (hl : (machine P react).enabled h l)
    (hother : ∀ e, l ≠ .event id e) :
    id < (next react h l).sequence ∧ (next react h l).contexts id = h.contexts id ∧
      (id ∈ (next react h l).storage ↔ id ∈ h.storage) := by
  cases l with
  | fetch req => exact ⟨Nat.lt_succ_of_lt hid, update_of_ne hid.ne _ _, fetch_storage hid req⟩
  | destroy listener => exact ⟨hid, rfl, Iff.rfl⟩
  | event j e =>
    have hne : j ≠ id := fun heq => hother e (by rw [heq])
    obtain ⟨c, hc, he⟩ := hl
    obtain ⟨hlt, hentry⟩ := (kept_entry react j id (h.contexts id)).event hw hc he ⟨hid, rfl⟩
    obtain ⟨-, hstorage⟩ := (kept_storage react hne.symm (id ∈ h.storage)).event hw hc he ⟨hid, Iff.rfl⟩
    obtain ⟨hsequence, hcontexts, -⟩ := next_contexts react id hc e
    rw [(next_event react hc e).1]
    exact ⟨hsequence ▸ hlt, (hcontexts hne).trans hentry, hstorage⟩

end NoncesHeatmap.Http
