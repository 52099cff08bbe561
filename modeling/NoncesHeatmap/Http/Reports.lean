import NoncesHeatmap.Http.Exchanges

/-! # Reports of an exchange

Success resets the listener and leaves the id in `storage`, failure erases the id and leaves the
listener. `Tracked` ties the two to the number of calls made for a context. In the middle of an event
of the context `id`, `Others` holds of the rest of the world and `Busy` of that context, which is
taken out of it. -/

namespace NoncesHeatmap.Http
open Runs Function
set_option autoImplicit false

variable {P : HttpParser} {h : Http P} {c : HttpContext P} {id : ℕ}
  {s : HttpContext P × Http P} {alive : Prop} {kept : Finset ℕ}

/-- The calls of `onHttpData` made for the context `id`. -/
def reported (h : Http P) (id : ℕ) : ℕ := h.calls.countP fun call => decide (call.1 = id)

/-- What storage, listener and calls say about the context `c` of the id `j`. -/
structure Tracked (h : Http P) (j : ℕ) (c : HttpContext P) : Prop where
  once : reported h j ≤ 1
  fresh : j ∈ h.storage → reported h j = 0 ∨ c.reset = true
  delivered : c.reset = true → reported h j = 1
  closing : j ∉ h.storage → c.closing = true

theorem Tracked.unreported {j : ℕ} (ht : Tracked h j c) (hmem : j ∈ h.storage) (hreset : c.reset = false) :
    reported h j = 0 := by
  apply (ht.fresh hmem).resolve_right
  rw [hreset]
  decide

structure Others (id : ℕ) (h : Http P) : Prop where
  id_lt : id < h.sequence
  calls_lt : ∀ call ∈ h.calls, call.1 < h.sequence
  storage_lt : ∀ j ∈ h.storage, j < h.sequence
  once : ∀ j ≠ id, reported h j ≤ 1
  tracked : ∀ j c, j ≠ id → h.contexts j = some c → j < h.sequence ∧ Tracked h j c

/-! ## What a listener can do -/

theorem reported_of_le {j : ℕ} (hcalls : ∀ call ∈ h.calls, call.1 < h.sequence) (hj : h.sequence ≤ j) :
    reported h j = 0 := by
  apply List.countP_eq_zero.mpr
  intro call hcall heq
  have hlt := hcalls call hcall
  have hid : call.1 = j := of_decide_eq_true heq
  omega

theorem tracked_fetch (hcalls : ∀ call ∈ h.calls, call.1 < h.sequence) (req : FetchRequest) {j : ℕ}
    (htracked : ∀ c, h.contexts j = some c → j < h.sequence ∧ Tracked h j c) {c : HttpContext P}
    (hc : (fetch h req).contexts j = some c) :
    j < (fetch h req).sequence ∧ Tracked (fetch h req) j c := by
  by_cases hj : j = h.sequence
  · subst hj
    have hnone : reported h h.sequence = 0 := reported_of_le hcalls le_rfl
    have hcreate : HttpContext.create P req = c := by simpa [fetch] using hc
    subst hcreate
    refine ⟨Nat.lt_succ_self _, ?_, fun _ => Or.inl hnone, fun hreset => ?_, fun hmem => ?_⟩
    · exact le_of_eq_of_le hnone (Nat.zero_le 1)
    · cases hreset
    · exact absurd (Finset.mem_insert_self _ _) hmem
  · have hc : h.contexts j = some c := by simpa [fetch, update_of_ne hj] using hc
    obtain ⟨hlt, ht⟩ := htracked c hc
    have hstorage : j ∈ (fetch h req).storage ↔ j ∈ h.storage := by simp [fetch, hj]
    exact ⟨hlt.trans (Nat.lt_succ_self _), ht.once, fun hmem => ht.fresh (hstorage.mp hmem),
      ht.delivered, fun hmem => ht.closing (mt hstorage.mpr hmem)⟩

theorem fetch_storage_lt (hstorage : ∀ j ∈ h.storage, j < h.sequence) (req : FetchRequest) :
    ∀ j ∈ (fetch h req).storage, j < (fetch h req).sequence := by
  intro j hj
  rcases Finset.mem_insert.mp hj with rfl | hj
  · exact Nat.lt_succ_self _
  · exact (hstorage j hj).trans (Nat.lt_succ_self _)

theorem others_fetch (ho : Others id h) (req : FetchRequest) : Others id (fetch h req) where
  id_lt := ho.id_lt.trans (Nat.lt_succ_self _)
  calls_lt := fun call hcall => (ho.calls_lt call hcall).trans (Nat.lt_succ_self _)
  storage_lt := fetch_storage_lt ho.storage_lt req
  once := ho.once
  tracked := fun j _ hne hc => tracked_fetch ho.calls_lt req (fun c => ho.tracked j c hne) hc

theorem fetch_storage (hid : id < h.sequence) (req : FetchRequest) :
    id ∈ (fetch h req).storage ↔ id ∈ h.storage := by
  simp [fetch, Nat.ne_of_lt hid]

theorem others_fetches (ho : Others id h) (reqs : List FetchRequest) :
    Others id (reqs.foldl fetch h) ∧ (id ∈ (reqs.foldl fetch h).storage ↔ id ∈ h.storage) := by
  induction reqs generalizing h with
  | nil => exact ⟨ho, Iff.rfl⟩
  | cons req reqs ih =>
    obtain ⟨hothers, hstorage⟩ := ih (others_fetch ho req)
    exact ⟨hothers, hstorage.trans (fetch_storage ho.id_lt req)⟩

theorem reported_call (h : Http P) (data : HttpData Bytes) (id j : ℕ) :
    reported { h with calls := h.calls ++ [(id, data)] } j = reported h j + if id = j then 1 else 0 := by
  simp [reported, List.countP_append, List.countP_cons]

theorem others_call (ho : Others id h) (data : HttpData Bytes) :
    Others id { h with calls := h.calls ++ [(id, data)] } where
  id_lt := ho.id_lt
  calls_lt := by
    intro call hcall
    rcases List.mem_append.mp hcall with hold | hnew
    · exact ho.calls_lt call hold
    · rw [List.mem_singleton.mp hnew]
      exact ho.id_lt
  storage_lt := ho.storage_lt
  once := by
    intro j hj
    rw [reported_call, if_neg (Ne.symm hj)]
    exact ho.once j hj
  tracked := by
    intro j c hj hc
    obtain ⟨hlt, ht⟩ := ho.tracked j c hj hc
    have hsame : reported { h with calls := h.calls ++ [(id, data)] } j = reported h j := by
      rw [reported_call, if_neg (Ne.symm hj)]
      rfl
    exact ⟨hlt, hsame ▸ ht.once, hsame ▸ ht.fresh, hsame ▸ ht.delivered, ht.closing⟩

theorem others_expired (ho : Others id h) (expired : Finset ℕ) :
    Others id { h with expired := expired } where
  id_lt := ho.id_lt
  calls_lt := ho.calls_lt
  storage_lt := ho.storage_lt
  once := ho.once
  tracked := by
    intro j c hj hc
    obtain ⟨hlt, ht⟩ := ho.tracked j c hj hc
    exact ⟨hlt, ht.once, ht.fresh, ht.delivered, ht.closing⟩

/-- What a call of the listener does: one more call for `id`, perhaps new exchanges, perhaps fewer
listeners. -/
theorem invoke_spec (react : Listeners) (ho : Others id h) (c : HttpContext P) :
    Others id (invoke react id c h) ∧ reported (invoke react id c h) id = reported h id + 1 ∧
      (id ∈ (invoke react id c h).storage ↔ id ∈ h.storage) ∧
      h.storage ⊆ (invoke react id c h).storage := by
  obtain ⟨hothers, hstorage⟩ := others_fetches (others_call ho c.data)
    (react (h.calls ++ [(id, c.data)])).fetches
  obtain ⟨hkeep, hcalls⟩ := invoke_keep react id c h
  refine ⟨others_expired hothers _, ?_, hstorage, hkeep⟩
  have hreported := reported_call h c.data id id
  rw [if_pos rfl] at hreported
  rw [reported, hcalls]
  exact hreported

theorem others_erase (ho : Others id h) : Others id { h with storage := h.storage.erase id } where
  id_lt := ho.id_lt
  calls_lt := ho.calls_lt
  storage_lt := fun j hj => ho.storage_lt j (Finset.mem_of_mem_erase hj)
  once := ho.once
  tracked := by
    intro j c hj hc
    obtain ⟨hlt, ht⟩ := ho.tracked j c hj hc
    have hstorage : j ∈ h.storage.erase id ↔ j ∈ h.storage := by simp [hj]
    exact ⟨hlt, ht.once, fun hmem => ht.fresh (hstorage.mp hmem), ht.delivered,
      fun hmem => ht.closing (mt hstorage.mpr hmem)⟩

/-! ## One context in the middle of its event -/

/-- `alive` says that the listener object was there when the event began, `kept` is the `storage` of
that moment. -/
structure Busy (alive : Prop) (kept : Finset ℕ) (id : ℕ) (s : HttpContext P × Http P) : Prop where
  others : Others id s.2
  tracked : Tracked s.2 id s.1
  reach : alive → id ∈ s.2.storage → s.1.reset = true ∨ s.1.listener ∉ s.2.expired
  gone : alive → id ∉ s.2.storage → reported s.2 id = 1
  keep : ∀ j ∈ kept, j ≠ id → j ∈ s.2.storage

theorem httpListener_iff : httpListener h c = true ↔ c.reset = false ∧ c.listener ∉ h.expired := by
  simp [httpListener]

/-- `close` reports the failure unless the exchange was reported before or has nobody to report to. -/
theorem busy_close (react : Listeners) (hb : Busy alive kept id s) {status : ℤ} (hneg : status < 0) :
    Busy alive kept id (close react status id s.1 s.2) ∧
      id ∉ (close react status id s.1 s.2).2.storage ∧
      (close react status id s.1 s.2).1.parser = s.1.parser ∧
      (httpListener s.2 s.1 = false →
        httpListener (close react status id s.1 s.2).2 (close react status id s.1 s.2).1 = false) := by
  obtain ⟨c, h⟩ := s
  unfold close
  by_cases hmem : id ∈ h.storage
  · rw [if_neg (not_not.mpr hmem)]
    by_cases hl : httpListener h c = true
    · obtain ⟨hreset, halive⟩ := httpListener_iff.mp hl
      have hzero := hb.tracked.unreported hmem hreset
      obtain ⟨ho, hone, -, hkeep⟩ :=
        invoke_spec react hb.others (HttpContext.setStatus status c)
      have hone : reported (invoke react id (HttpContext.setStatus status c) h) id = 1 := by
        rw [hone, hzero]
      simp only [hneg, hl, and_self, if_true]
      have hgone : id ∉ (invoke react id (HttpContext.setStatus status c) h).storage.erase id :=
        Finset.notMem_erase id _
      refine ⟨⟨others_erase ho, ⟨le_of_eq hone, fun hin => absurd hin hgone, fun _ => hone, fun _ => rfl⟩,
        fun _ hin => absurd hin hgone, fun _ _ => hone,
        fun j hj hne => Finset.mem_erase.mpr ⟨hne, hkeep (hb.keep j hj hne)⟩⟩, hgone, rfl, fun hfalse => ?_⟩
      cases hfalse
    · have hno : ¬ (status < 0 ∧ httpListener h c = true) := fun hboth => hl hboth.2
      simp only [hno, if_false]
      have hgone : id ∉ h.storage.erase id := Finset.notMem_erase id _
      refine ⟨⟨others_erase hb.others, ⟨hb.tracked.once, fun hin => absurd hin hgone,
        hb.tracked.delivered, fun _ => rfl⟩, fun _ hin => absurd hin hgone, fun ha _ => ?_,
        fun j hj hne => Finset.mem_erase.mpr ⟨hne, hb.keep j hj hne⟩⟩, hgone, trivial,
        fun hfalse => hfalse⟩
      -- there is nobody to report to because the exchange has been reported
      apply hb.tracked.delivered
      rcases hb.reach ha hmem with hreset | hlistener
      · exact hreset
      · by_contra hreset
        exact hl (httpListener_iff.mpr ⟨Bool.eq_false_iff.mpr hreset, hlistener⟩)
  · rw [if_pos hmem]
    exact ⟨hb, hmem, rfl, fun hfalse => hfalse⟩

theorem Busy.context (hb : Busy alive kept id s) {c : HttpContext P} (hreset : c.reset = s.1.reset)
    (hlistener : c.listener = s.1.listener) (hclosing : c.closing = s.1.closing) :
    Busy alive kept id (c, s.2) where
  others := hb.others
  tracked := by
    refine ⟨hb.tracked.once, fun hmem => ?_, fun htrue => ?_, fun hmem => ?_⟩
    · exact hreset ▸ hb.tracked.fresh hmem
    · exact hb.tracked.delivered (hreset ▸ htrue)
    · exact hclosing.trans (hb.tracked.closing hmem)
  reach := by
    intro ha hmem
    show c.reset = true ∨ c.listener ∉ s.2.expired
    rw [hreset, hlistener]
    exact hb.reach ha hmem
  gone := hb.gone
  keep := hb.keep

/-- Callbacks are run while the id is stored, or for nobody. -/
def Open (id : ℕ) (s : HttpContext P × Http P) : Prop :=
  id ∈ s.2.storage ∨ httpListener s.2 s.1 = false

theorem busy_callback (react : Listeners) (hb : Busy alive kept id s) (hopen : Open id s) (callback : Callback) :
    Busy alive kept id (runCallback react id s callback) ∧ Open id (runCallback react id s callback) ∧
      (id ∈ (runCallback react id s callback).2.storage ↔ id ∈ s.2.storage) ∧
      (runCallback react id s callback).1.parser = s.1.parser ∧
      (httpListener s.2 s.1 = false ∨ callback = .messageComplete →
        httpListener (runCallback react id s callback).2 (runCallback react id s callback).1 = false) := by
  by_cases hcomplete : callback = .messageComplete
  · subst hcomplete
    simp only [runCallback, onMessageComplete]
    by_cases hl : httpListener s.2 s.1 = true
    · rw [if_pos hl]
      have hmem : id ∈ s.2.storage := by
        rcases hopen with hmem | hfalse
        · exact hmem
        · rw [hl] at hfalse
          cases hfalse
      obtain ⟨hreset, -⟩ := httpListener_iff.mp hl
      have hzero := hb.tracked.unreported hmem hreset
      obtain ⟨ho, hone, hstorage, hkeep⟩ := invoke_spec react hb.others s.1
      rw [hzero] at hone
      have hmem' := hstorage.mpr hmem
      refine ⟨⟨ho, ⟨le_of_eq hone, fun _ => Or.inr rfl, fun _ => hone, fun hnot => absurd hmem' hnot⟩,
        fun _ _ => Or.inl rfl, fun _ hnot => absurd hmem' hnot, fun j hj hne => hkeep (hb.keep j hj hne)⟩,
        Or.inl hmem', hstorage, rfl, fun _ => rfl⟩
    · rw [if_neg hl]
      exact ⟨hb, hopen, Iff.rfl, rfl, fun _ => Bool.eq_false_iff.mpr hl⟩
  · obtain ⟨hlistener, hreset, hclosing, hparser⟩ := HttpContext.onCallback_listener callback s.1
    have hsame := httpListener_onCallback s.2 callback s.1
    rw [runCallback_context react hcomplete]
    refine ⟨hb.context hreset hlistener hclosing, ?_, Iff.rfl, hparser, fun hfalse => ?_⟩
    · rw [Open, hsame]
      exact hopen
    · rw [hsame]
      exact hfalse.resolve_right hcomplete

theorem busy_callbacks (react : Listeners) (hb : Busy alive kept id s) (hopen : Open id s) (callbacks : List Callback) :
    Busy alive kept id (callbacks.foldl (runCallback react id) s) ∧
      (id ∈ (callbacks.foldl (runCallback react id) s).2.storage ↔ id ∈ s.2.storage) ∧
      (callbacks.foldl (runCallback react id) s).1.parser = s.1.parser ∧
      (httpListener s.2 s.1 = false ∨ .messageComplete ∈ callbacks →
        httpListener (callbacks.foldl (runCallback react id) s).2
          (callbacks.foldl (runCallback react id) s).1 = false) := by
  induction callbacks generalizing s with
  | nil => exact ⟨hb, Iff.rfl, rfl, fun h => h.resolve_right List.not_mem_nil⟩
  | cons callback callbacks ih =>
    obtain ⟨hb', hopen', hstorage, hparser, hsilent⟩ := busy_callback react hb hopen callback
    obtain ⟨hb'', hstorage', hparser', hsilent'⟩ := ih hb' hopen'
    refine ⟨hb'', hstorage'.trans hstorage, hparser'.trans hparser, fun h => hsilent' ?_⟩
    rcases h with hfalse | hmem
    · exact Or.inl (hsilent (Or.inl hfalse))
    · rcases List.mem_cons.mp hmem with heq | hmem
      · exact Or.inl (hsilent (Or.inr heq.symm))
      · exact Or.inr hmem

/-- Once the id is gone, the parser has failed or there is nobody to report to. -/
def Quiet (id : ℕ) (s : HttpContext P × Http P) : Prop :=
  id ∉ s.2.storage → P.failed s.1.parser = true ∨ httpListener s.2 s.1 = false

theorem Busy.parser (hb : Busy alive kept id s) (parser : P.State) :
    Busy alive kept id ({ s.1 with parser := parser }, s.2) :=
  hb.context rfl rfl rfl

/-- The callbacks of one `http_parser_execute` that ends in the state `result.state`. After a read that is
not parsed to its end the parser has failed or nobody listens any more. -/
theorem busy_execute (react : Listeners) (hb : Busy alive kept id s) (hquiet : Quiet id s) {bytes : Bytes}
    {result : Parsed P.State} (hresult : P.execute s.1.parser bytes = result) {s' : HttpContext P × Http P}
    (hs' : s' = result.callbacks.foldl (runCallback react id) ({ s.1 with parser := result.state }, s.2)) :
    Busy alive kept id s' ∧ Quiet id s' ∧ s'.1.parser = result.state ∧
      (result.parsed < bytes.length → P.failed result.state = true ∨ httpListener s'.2 s'.1 = false) := by
  subst hs'
  by_cases hfailed : P.failed s.1.parser = true
  · obtain ⟨hnone, hstill⟩ := P.failed_silent s.1.parser bytes hfailed
    rw [hresult] at hnone hstill
    rw [hnone]
    exact ⟨hb.parser _, fun _ => Or.inl hstill, rfl, fun _ => Or.inl hstill⟩
  · -- either the id is stored or no callback reaches anybody
    have hopen : Open id ({ s.1 with parser := result.state }, s.2) := by
      by_cases hmem : id ∈ s.2.storage
      · exact Or.inl hmem
      · exact Or.inr ((hquiet hmem).resolve_left hfailed)
    obtain ⟨hb', hstorage, hparser, hsilent⟩ :=
      busy_callbacks react (hb.parser result.state) hopen result.callbacks
    refine ⟨hb', fun hgone => Or.inr (hsilent (Or.inl ?_)), hparser, fun hless => ?_⟩
    · exact hopen.resolve_left (mt hstorage.mpr hgone)
    · have hshort := P.short s.1.parser bytes
      rw [hresult] at hshort
      rcases hshort hless with herror | hcomplete
      · exact Or.inl herror
      · exact Or.inr (hsilent (Or.inr hcomplete))

theorem busy_read (react : Listeners) (hb : Busy alive kept id s) (hquiet : Quiet id s) (bytes : Bytes) :
    Busy alive kept id (read react id s bytes) ∧ Quiet id (read react id s bytes) := by
  unfold read parse
  by_cases hempty : bytes.length = 0
  · simp only [hempty, if_true, lt_irrefl, if_false]
    exact ⟨hb, hquiet⟩
  · simp only [hempty, if_false]
    generalize hresult : P.execute s.1.parser bytes = result
    generalize hs' : result.callbacks.foldl (runCallback react id) ({ s.1 with parser := result.state }, s.2) = s'
    obtain ⟨hb', hquiet', hparser, hend⟩ := busy_execute react hb hquiet hresult hs'.symm
    split
    · next hless =>
      obtain ⟨hb'', -, hsame, hsilent⟩ := busy_close react hb' (by decide : UV_EPROTO < 0)
      refine ⟨hb'', fun _ => ?_⟩
      rw [hsame, hparser]
      rcases hend hless with herror | hfalse
      · exact Or.inl herror
      · exact Or.inr (hsilent hfalse)
    · exact ⟨hb', hquiet'⟩

theorem busy_reads (react : Listeners) (hb : Busy alive kept id s) (hquiet : Quiet id s) (pieces : List Bytes) :
    Busy alive kept id (pieces.foldl (read react id) s) := by
  induction pieces generalizing s with
  | nil => exact hb
  | cons bytes pieces ih =>
    obtain ⟨hb', hquiet'⟩ := busy_read react hb hquiet bytes
    exact ih hb' hquiet'

/-! ## Events -/

theorem busy_event (react : Listeners) (hb : Busy alive kept id s) (hmem : id ∈ s.2.storage) {e : Event}
    (he : enabledEvent s.1 e = true) : Busy alive kept id (onEvent react e id s.1 s.2) := by
  have hquiet : Quiet id s := fun hgone => absurd hmem hgone
  cases e with
  | resolved status => exact hb.context rfl rfl rfl
  | connected status =>
    simp only [onEvent, onConnect]
    split
    · next hneg =>
      refine (busy_close react hb ?_).1
      split
      · decide
      · exact hneg
    · split
      · exact hb
      · exact hb.context rfl rfl rfl
  | read bytes => exact (busy_read react hb hquiet bytes).1
  | tlsRead r =>
    cases r with
    | pending => exact hb
    | refused => exact (busy_close react hb (by decide)).1
    | ready => exact hb.context rfl rfl rfl
    | decrypted pieces eof =>
      have hpieces := busy_reads react hb hquiet pieces
      simp only [onEvent, tlsRead]
      split
      · exact (busy_close react hpieces (by decide)).1
      · exact hpieces
  | readError nread =>
    have hneg : nread < 0 := by
      simp only [enabledEvent, Bool.and_eq_true, decide_eq_true_eq] at he
      exact he.2
    exact (busy_close react hb hneg).1
  | timer => exact (busy_close react hb (by decide)).1
  | closed => exact hb

/-- An event that does not find it changes no listener and makes no call. -/
theorem gone_event (react : Listeners) (hgone : id ∉ h.storage) (hclosing : c.closing = true) {e : Event}
    (he : enabledEvent c e = true) :
    (onEvent react e id c h).2 = h ∧ (onEvent react e id c h).1.reset = c.reset ∧
      (onEvent react e id c h).1.listener = c.listener ∧ (onEvent react e id c h).1.closing = true := by
  have hclose : ∀ status, close react status id c h = (c, h) := fun status => if_pos hgone
  cases e with
  | resolved status => exact ⟨rfl, rfl, rfl, hclosing⟩
  | connected status =>
    simp only [onEvent, onConnect, hclose]
    split
    · exact ⟨rfl, rfl, rfl, hclosing⟩
    · split <;> exact ⟨rfl, rfl, rfl, hclosing⟩
  | read bytes => simp [enabledEvent, hclosing] at he
  | tlsRead r => simp [enabledEvent, hclosing] at he
  | readError nread => simp [enabledEvent, hclosing] at he
  | timer =>
    rw [onEvent, onTimer, hclose]
    exact ⟨rfl, rfl, rfl, hclosing⟩
  | closed => exact ⟨rfl, rfl, rfl, hclosing⟩

/-! ## All contexts between two events -/

structure WellFormed (h : Http P) : Prop where
  calls_lt : ∀ call ∈ h.calls, call.1 < h.sequence
  storage_lt : ∀ j ∈ h.storage, j < h.sequence
  once : ∀ j, reported h j ≤ 1
  tracked : ∀ j c, h.contexts j = some c → j < h.sequence ∧ Tracked h j c

theorem wellFormed_init : WellFormed (init P) where
  calls_lt := by simp [init]
  storage_lt := by simp [init]
  once := fun _ => Nat.zero_le 1
  tracked := by simp [init]

theorem WellFormed.others (h' : WellFormed h) {c : HttpContext P} (hc : h.contexts id = some c) :
    Others id h :=
  ⟨(h'.tracked id c hc).1, h'.calls_lt, h'.storage_lt, fun j _ => h'.once j, fun j c _ => h'.tracked j c⟩

theorem wellFormed_set (ho : Others id h) (ht : Tracked h id c) : WellFormed (set id c h) where
  calls_lt := ho.calls_lt
  storage_lt := ho.storage_lt
  once := by
    intro j
    by_cases hj : j = id
    · rw [hj]
      exact ht.once
    · exact ho.once j hj
  tracked := by
    intro j c' hc
    by_cases hj : j = id
    · subst hj
      have heq : c = c' := by simpa [set] using hc
      subst heq
      exact ⟨ho.id_lt, ht.once, ht.fresh, ht.delivered, ht.closing⟩
    · have hc : h.contexts j = some c' := by simpa [set, update_of_ne hj] using hc
      obtain ⟨hlt, htj⟩ := ho.tracked j c' hj hc
      exact ⟨hlt, htj.once, htj.fresh, htj.delivered, htj.closing⟩

theorem wellFormed_delete (ho : Others id h) (honce : reported h id ≤ 1) :
    WellFormed { h with contexts := update h.contexts id none } where
  calls_lt := ho.calls_lt
  storage_lt := ho.storage_lt
  once := by
    intro j
    by_cases hj : j = id
    · rw [hj]
      exact honce
    · exact ho.once j hj
  tracked := by
    intro j c' hc
    by_cases hj : j = id
    · subst hj
      simp at hc
    · have hc : h.contexts j = some c' := by simpa [update_of_ne hj] using hc
      obtain ⟨hlt, htj⟩ := ho.tracked j c' hj hc
      exact ⟨hlt, htj.once, htj.fresh, htj.delivered, htj.closing⟩

theorem wellFormed_fetch (hw : WellFormed h) (req : FetchRequest) : WellFormed (fetch h req) where
  calls_lt := fun call hcall => (hw.calls_lt call hcall).trans (Nat.lt_succ_self _)
  storage_lt := fetch_storage_lt hw.storage_lt req
  once := hw.once
  tracked := fun j _ hc => tracked_fetch hw.calls_lt req (fun c => hw.tracked j c) hc

theorem wellFormed_destroy (hw : WellFormed h) (listener : ℕ) :
    WellFormed { h with expired := insert listener h.expired } where
  calls_lt := hw.calls_lt
  storage_lt := hw.storage_lt
  once := hw.once
  tracked := by
    intro j c hc
    obtain ⟨hlt, ht⟩ := hw.tracked j c hc
    exact ⟨hlt, ht.once, ht.fresh, ht.delivered, ht.closing⟩

/-- What an event leaves behind: for its own context at most one call, and exactly one if it took the
id out of `storage` while the listener object was there; for the others their ids in `storage`. -/
theorem event_spec (react : Listeners) (hw : WellFormed h) (hc : h.contexts id = some c) {e : Event}
    (he : enabledEvent c e = true) :
    Others id (onEvent react e id c h).2 ∧
      Tracked (onEvent react e id c h).2 id (onEvent react e id c h).1 ∧
      (id ∈ h.storage → c.listener ∉ h.expired → id ∉ (onEvent react e id c h).2.storage →
        reported (onEvent react e id c h).2 id = 1) ∧
      ∀ j ∈ h.storage, j ≠ id → j ∈ (onEvent react e id c h).2.storage := by
  obtain ⟨-, ht⟩ := hw.tracked id c hc
  by_cases hmem : id ∈ h.storage
  · have hb : Busy (c.listener ∉ h.expired) h.storage id (c, h) :=
      ⟨hw.others hc, ht, fun ha _ => Or.inr ha, fun _ hgone => absurd hmem hgone, fun _ hj _ => hj⟩
    have hb' := busy_event react hb hmem he
    exact ⟨hb'.others, hb'.tracked, fun _ ha hgone => hb'.gone ha hgone, hb'.keep⟩
  · obtain ⟨hsame, hreset, hlistener, hclosing⟩ :=
      gone_event react hmem (ht.closing hmem) he
    have hb : Busy False h.storage id (c, h) :=
      ⟨hw.others hc, ht, fun ha => ha.elim, fun ha => ha.elim, fun _ hj _ => hj⟩
    have hb' := hb.context hreset hlistener (hclosing.trans (ht.closing hmem).symm)
    rw [hsame]
    exact ⟨hb'.others, hb'.tracked, fun hin => absurd hin hmem, hb'.keep⟩

theorem next_event (react : Listeners) (hc : h.contexts id = some c) (e : Event) :
    (next react h (.event id e)).storage = (onEvent react e id c h).2.storage ∧
      (next react h (.event id e)).calls = (onEvent react e id c h).2.calls := by
  simp only [next, hc]
  cases e <;> exact ⟨rfl, rfl⟩

theorem wellFormed_next {react : Listeners} (hw : WellFormed h) {l : Label} (hl : (machine P react).enabled h l) :
    WellFormed ((machine P react).next h l) := by
  cases l with
  | fetch req => exact wellFormed_fetch hw req
  | destroy listener => exact wellFormed_destroy hw listener
  | event id e =>
    obtain ⟨c, hc, he⟩ := hl
    obtain ⟨ho, ht, -, -⟩ := event_spec react hw hc he
    show WellFormed (next react h (.event id e))
    simp only [next, hc]
    cases e with
    | closed => exact wellFormed_delete ho ht.once
    | _ => exact wellFormed_set ho ht

theorem wellFormed_run {react : Listeners} {labels : List Label} (run : (machine P react).Run (init P) labels) :
    WellFormed ((machine P react).after (init P) labels) :=
  run.invariant (fun _ _ hw hl => wellFormed_next hw hl) wellFormed_init

/-- An id leaves `storage` in an event of its own context only. -/
theorem reported_of_gone {react : Listeners} (hw : WellFormed h) {l : Label} (hl : (machine P react).enabled h l)
    (hmem : id ∈ h.storage) (hc : h.contexts id = some c) (halive : c.listener ∉ h.expired)
    (hgone : id ∉ ((machine P react).next h l).storage) :
    reported ((machine P react).next h l) id = 1 := by
  change id ∉ (next react h l).storage at hgone
  change reported (next react h l) id = 1
  cases l with
  | fetch req => exact absurd (Finset.mem_insert_of_mem hmem) hgone
  | destroy listener => exact absurd hmem hgone
  | event j e =>
    obtain ⟨cj, hcj, he⟩ := hl
    obtain ⟨-, -, hone, hkeep⟩ := event_spec react hw hcj he
    obtain ⟨hstorage, hcalls⟩ := next_event react hcj e
    rw [hstorage] at hgone
    by_cases hj : id = j
    · subst hj
      obtain rfl : cj = c := Option.some.inj (hcj.symm.trans hc)
      rw [reported, hcalls]
      exact hone hmem halive hgone
    · exact absurd (hkeep id hmem hj) hgone

/-- **Each exchange is reported once.** -/
theorem reported_once (P : HttpParser) (react : Listeners) (labels : List Label)
    (run : (machine P react).Run (init P) labels) :
    let h := (machine P react).after (init P) labels
    (∀ id, reported h id ≤ 1) ∧
      ∀ l id c, (machine P react).enabled h l → id ∈ h.storage → h.contexts id = some c →
        c.listener ∉ h.expired → id ∉ ((machine P react).next h l).storage →
        reported ((machine P react).next h l) id = 1 := by
  intro h
  have hw := wellFormed_run run
  exact ⟨hw.once, fun l id c hl hmem hc halive hgone => reported_of_gone hw hl hmem hc halive hgone⟩

/-- The first exchange gets its response and its report starts the second one, which is closed by the
server without a response. -/
theorem reported_once_second :
    let P := HttpParser.script [[.headersComplete 200, .messageComplete]]
    let req : FetchRequest := ⟨∅, [], false, 0, 2, 1⟩
    let react : Listeners := fun calls => ⟨if calls.length = 1 then [req] else [], []⟩
    let h := (machine P react).after (init P)
      [.fetch req, .event 0 (.connected 0), .event 0 (.read [72]), .event 1 (.connected 0)]
    reported h 0 ≤ 1 ∧ reported ((machine P react).next h (.event 1 (.readError UV_EOF))) 1 = 1 := by
  intro P req react h
  obtain ⟨honce, hgone⟩ := reported_once P react
    [.fetch req, .event 0 (.connected 0), .event 0 (.read [72]), .event 1 (.connected 0)]
    ⟨trivial, ⟨_, rfl, rfl⟩, ⟨_, rfl, rfl⟩, ⟨_, rfl, rfl⟩, trivial⟩
  exact ⟨honce 0, hgone (.event 1 (.readError UV_EOF)) 1 _ ⟨_, rfl, rfl⟩ (by decide) rfl (by decide)
    (by decide)⟩

end NoncesHeatmap.Http
