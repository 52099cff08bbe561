import Mathlib.Data.List.Nodup
import NoncesHeatmap.Network.Answers
import NoncesHeatmap.Network.Coverage

/-! # Syncing with an honest daemon

Every entry of `m_req` belongs to the exchange of its id (`Echoed`), so an honest delivery is a
retry, a refusal of an empty or excessive range, or carries the whole range of its own entry
(`honest_cases`). A sync that ends has the right nonces, whatever the order of deliveries. -/

namespace NoncesHeatmap
set_option autoImplicit false

namespace Network
open Runs

variable {d : Daemon} {nonces : List ℕ} {w : Network} {δ : Delivery} {truth : ℕ → ℕ} {height : ℕ}

/-! ## Exchanges and entries agree -/

theorem Carries.mem_named {range : Range} {doc : Value} (h : Carries truth range doc) (a : ℕ) :
    a ∈ named (headersOf doc) ↔ a ∈ range := by
  have hnamed : named (headersOf doc) = ((headersOf doc).getArray.map readHeader).map Prod.fst := by
    rw [named, List.map_map]
    rfl
  rw [hnamed, (h.2.map Prod.fst).mem_iff, List.map_map, ← Range.mem_list]
  simp

theorem Carries.nonce {range : Range} {doc header : Value} (h : Carries truth range doc)
    (hmem : header ∈ (headersOf doc).getArray) :
    Json.getUint header "nonce" 0 = truth (Json.getUint header "height" 0) := by
  have hpair : readHeader header ∈ range.list.map fun h => (h, truth h) :=
    h.2.mem_iff.mp (List.mem_map_of_mem hmem)
  obtain ⟨a, -, ha⟩ := List.mem_map.mp hpair
  have hheight : a = Json.getUint header "height" 0 := congrArg Prod.fst ha
  have hnonce : truth a = Json.getUint header "nonce" 0 := congrArg Prod.snd ha
  rw [← hnonce, hheight]

structure Echoed (truth : ℕ → ℕ) (height : ℕ) (w : Network) : Prop where
  height_eq : w.height = height
  entry : ∀ x ∈ w.exchanges, ∃ range, x.params = some range ∧ w.req[x.rpcId]? = some range
  nonce : ∀ (h n : ℕ), w.data[h]? = some n → n = truth h

theorem echoed_begin (height : ℕ) : Echoed truth height (beginSync d (headed nonces height)) where
  height_eq := rfl
  entry := by
    intro x hx
    simp [beginSync, headed, init] at hx
  nonce := by
    intro h n hn
    simp [beginSync, headed, init] at hn

theorem echoed_request (hframe : Frame nonces w) (h : Echoed truth height w) (range : Range) :
    Echoed truth height (request range w) where
  height_eq := h.height_eq
  entry := by
    intro x hx
    rw [request_exchanges, List.mem_append] at hx
    rcases hx with hx | hx
    · obtain ⟨r, hparams, hreq⟩ := h.entry x hx
      refine ⟨r, hparams, ?_⟩
      rw [request_lookup hframe.fresh, if_neg (hframe.id_ne (mem_req_iff.mpr ⟨r, hreq⟩))]
      exact hreq
    · rw [List.mem_singleton.mp hx]
      exact ⟨range, rfl, by rw [request_lookup hframe.fresh, if_pos rfl]⟩
  nonce := h.nonce

theorem echoed_refill (hframe : Frame nonces w) (h : Echoed truth height w) :
    Echoed truth height (getBlockHeadersRange d w).2 := by
  unfold getBlockHeadersRange
  split
  · exact h
  · exact echoed_request hframe h _

theorem Frame.other_id (h : Frame nonces w) {x y : Exchange} (hx : x ∈ w.exchanges)
    (hy : y ∈ w.exchanges.erase x) : y ∈ w.exchanges ∧ y.rpcId ≠ x.rpcId := by
  have hnodup : w.exchanges.Nodup := List.Nodup.of_map _ h.nodup
  obtain ⟨hne, hmem⟩ := hnodup.mem_erase_iff.mp hy
  exact ⟨hmem, fun heq => hne (List.inj_on_of_nodup_map h.nodup hmem hx heq)⟩

theorem echoed_retry (hframe : Frame nonces w) (h : Echoed truth height w) {x : Exchange}
    (hx : x ∈ w.exchanges) {range : Range} (hreq : w.req[x.rpcId]? = some range) :
    Echoed truth height (retry x.rpcId range (took x w)) where
  height_eq := h.height_eq
  entry := by
    intro y hy
    rw [retry_eq] at hy
    simp only [request_exchanges, took_exchanges, took_nextId, List.mem_append,
      List.mem_singleton] at hy
    have hid := hframe.id_ne (mem_req_iff.mpr ⟨range, hreq⟩)
    rcases hy with hy | rfl
    · obtain ⟨hmem, hne⟩ := hframe.other_id hx hy
      obtain ⟨r, hparams, hr⟩ := h.entry y hmem
      refine ⟨r, hparams, ?_⟩
      rw [hframe.retry_lookup, if_neg hne, if_neg (hframe.id_ne (mem_req_iff.mpr ⟨r, hr⟩))]
      exact hr
    · exact ⟨range, rfl, by rw [hframe.retry_lookup, if_neg (Ne.symm hid), if_pos rfl]⟩
  nonce := h.nonce

theorem echoed_accept (hframe : Frame nonces w) (h : Echoed truth height w) {x : Exchange}
    (hx : x ∈ w.exchanges) {range : Range} {doc : Value} (hdoc : Carries truth range doc) :
    Echoed truth height (accept x.rpcId (headersOf doc) (took x w)) where
  height_eq := h.height_eq
  entry := by
    intro y hy
    obtain ⟨hmem, hne⟩ := hframe.other_id hx hy
    obtain ⟨r, hparams, hr⟩ := h.entry y hmem
    exact ⟨r, hparams, by rw [accept_lookup, if_neg hne]; exact hr⟩
  nonce := by
    intro a n hn
    rw [accept_data] at hn
    rcases insertHeaders_value _ _ hn with hold | ⟨header, hmem, rfl, rfl⟩
    · exact h.nonce a n hold
    · exact hdoc.nonce hmem

theorem echoed_sync {height : ℕ} (hlen : nonces.length ≤ height) (hheight : height + 1 < 2 ^ 32) :
    Echoed truth height (sync d (headed nonces height)) :=
  requestLoop_keeps (fun _ hframe h => echoed_refill hframe h) (frame_beginSync hlen hheight)
    (echoed_begin height) d.concurrency

/-! ## Honest deliveries -/

/-- An honest delivery fails and is retried, refuses an empty or excessive range, or carries the
whole range of its entry. -/
theorem honest_cases (h : Syncing d nonces w) (he : Echoed truth height w)
    (hx : δ.exchange ∈ w.exchanges) (hδ : Honest truth height δ) :
    ∃ range, w.req[δ.exchange.rpcId]? = some range ∧
      ((δ.status < 0 ∧ deliver d w δ = retry δ.exchange.rpcId range (took δ.exchange w)) ∨
        (0 ≤ δ.status ∧ ¬ (range.start ≤ range.end ∧ range.end ≤ height) ∧
          deliver d w δ = onFatalError (took δ.exchange w)) ∨
        (0 ≤ δ.status ∧ range.start ≤ range.end ∧ ∃ doc, Carries truth range doc ∧
          deliver d w δ = advance d (accept δ.exchange.rpcId (headersOf doc) (took δ.exchange w)))) := by
  obtain ⟨range, hparams, hreq⟩ := he.entry _ hx
  have htype := (h.exchange _ hx).2
  refine ⟨range, hreq, ?_⟩
  simp only [Honest, htype] at hδ
  rcases hδ with hfail | ⟨doc, range', hdoc, hparams', hanswer⟩
  · left
    refine ⟨hfail, deliver_retry ?_⟩
    rw [retried, if_pos ⟨htype, hfail⟩, hreq]
  · right
    obtain rfl : range' = range := Option.some.inj (hparams'.symm.trans hparams)
    have hretried : retried w δ = none := by
      rw [retried, if_neg (fun hneg => absurd hneg.2 (not_lt.mpr hdoc.status))]
    by_cases hvalid : range'.start ≤ range'.end ∧ range'.end ≤ height
    · right
      rw [if_pos hvalid] at hanswer
      have heffect : effect w δ = .blockHeadersRange δ.exchange.rpcId (headersOf doc) := by
        simp only [effect, hretried, hdoc.response_some hanswer.1, htype, hdoc.id, headersOf]
      have hstart : range'.start ∈ named (headersOf doc) :=
        (hanswer.mem_named _).mpr ⟨le_rfl, hvalid.1⟩
      have hne : (headersOf doc).getArray ≠ [] := by
        intro hnil
        simp [named, hnil] at hstart
      have harray : (headersOf doc).isArray = true := by
        revert hne
        cases headersOf doc <;> simp [Value.isArray, Value.getArray]
      have hacc : Accepted w δ.exchange.rpcId (headersOf doc) :=
        ⟨harray, hne, mem_req_iff.mpr ⟨range', hreq⟩⟩
      refine ⟨hdoc.status, hvalid.1, doc, hanswer, ?_⟩
      rw [deliver_reply heffect, if_pos hacc]
    · left
      rw [if_neg hvalid] at hanswer
      refine ⟨hdoc.status, hvalid, ?_⟩
      rw [deliver_eq]
      simp only [effect, hretried, hdoc.response_none hanswer]
      rfl

theorem honest_connect (hx : δ.exchange ∈ (connect nonces).exchanges) (hδ : Honest truth height δ) :
    ∃ doc, δ.response = some doc ∧ Json.getUint (headerOf doc) "height" 0 = height := by
  have hx := exchange_connect hx
  simp only [Honest, hx] at hδ
  obtain ⟨doc, hdoc, hres, hheight⟩ := hδ
  exact ⟨doc, hdoc.response_some hres, hheight⟩

theorem named_carries {range : Range} {doc : Value} {id : ℕ} (hreq : w.req[id]? = some range)
    (hdoc : Carries truth range doc) : {h | h ∈ named (headersOf doc)} = jobs w id := by
  rw [jobs_some hreq]
  ext a
  exact hdoc.mem_named a

theorem frontier_carries {first top : ℕ} (h : Frontier first top w) {x : Exchange} {range : Range}
    {doc : Value} {id : ℕ} (hreq : w.req[id]? = some range) (hdoc : Carries truth range doc) :
    Frontier first top (accept id (headersOf doc) (took x w)) := by
  have hnamed := named_carries hreq hdoc
  apply frontier_accept h
  · rw [hnamed]
    exact Set.subset_union_right
  · rw [hnamed]
    exact Set.subset_union_right

/-! ## Correctness of a sync -/

def HonestSync (truth : ℕ → ℕ) (nonces : List ℕ) (height : ℕ) (w : Network) : Prop :=
  Echoed truth height w ∧ ∃ top, Frontier nonces.length top w

/-- The nonces that a sync from `nonces` to `height` leads to. -/
def synced (truth : ℕ → ℕ) (nonces : List ℕ) (height : ℕ) : List ℕ :=
  nonces ++ (List.range' nonces.length (height + 1 - nonces.length)).map truth

theorem saved_nonces (hframe : Frame nonces w) (he : Echoed truth height w)
    (hfull : ∀ i ∈ pending w, i ∈ w.data) : (saved w).nonces = synced truth nonces height := by
  have hvalues : ((pending w).map fun i => w.data.getD i 0) = (pending w).map truth := by
    apply List.map_congr_left
    intro i hi
    obtain ⟨n, hn⟩ := Option.isSome_iff_exists.mp
      (Std.TreeMap.mem_iff_isSome_getElem?.mp (hfull i hi))
    rw [Std.TreeMap.getD_eq_getD_getElem?, hn]
    exact he.nonce i n hn
  change w.nonces ++ (pending w).map (fun i => w.data.getD i 0) = _
  rw [hvalues, pending, hframe.nonces_eq, he.height_eq]
  rfl

def HonestEnd (truth : ℕ → ℕ) (nonces : List ℕ) (height : ℕ) (w : Network) : Prop :=
  .outOfRange ∉ w.endings ∧ (.onSyncDone true ∈ w.endings → w.nonces = synced truth nonces height)

theorem honest_start (hx : δ.exchange ∈ (connect nonces).exchanges) (hδ : Honest truth height δ) :
    Phase d nonces (HonestSync truth nonces height) (HonestEnd truth nonces height)
      (deliver d (connect nonces) δ) := by
  rcases connect_cases (d := d) hx with ⟨e, hend, -, -, -, hdone, hrange⟩ | ⟨doc, hresp, h, hlen, hlt, hh, hd⟩
  · right
    refine ⟨by simp [hend], ?_, fun hmem => ?_⟩
    · rw [hend, List.mem_singleton]
      exact Ne.symm hrange
    · rw [hend, List.mem_singleton] at hmem
      exact absurd hmem.symm hdone
  · left
    obtain ⟨doc', hresp', hheight⟩ := honest_connect hx hδ
    obtain rfl : doc = doc' := Option.some.inj (hresp.symm.trans hresp')
    obtain rfl : h = height := hh.trans hheight
    rw [hd]
    exact ⟨syncing_sync hlen hlt, echoed_sync hlen hlt, frontier_sync hlen hlt⟩

theorem honest_step (h : Syncing d nonces w) (hJ : HonestSync truth nonces height w)
    (hx : δ.exchange ∈ w.exchanges) (hδ : Honest truth height δ) :
    Phase d nonces (HonestSync truth nonces height) (HonestEnd truth nonces height)
      (deliver d w δ) := by
  obtain ⟨he, top, hf⟩ := hJ
  obtain ⟨range, hreq, hcase⟩ := honest_cases h he hx hδ
  rcases hcase with ⟨-, hd⟩ | ⟨-, -, hd⟩ | ⟨-, -, doc, hdoc, hd⟩ <;> rw [hd]
  · left
    exact ⟨syncing_retry h hx hreq, echoed_retry h.toFrame he hx hreq, top, frontier_retry h.toFrame hf hreq⟩
  · right
    have hend : (onFatalError (took δ.exchange w)).endings = [.onFatalError] := by
      simp [onFatalError, h.endings]
    refine ⟨by simp [hend], ?_, ?_⟩ <;> simp [hend]
  · have hid := mem_req_iff.mpr ⟨range, hreq⟩
    have hroom := h.accept_room δ.exchange hid (headersOf doc)
    have hframe := frame_accept h.toFrame hx hid (headersOf doc)
    have he' := echoed_accept h.toFrame he hx hdoc
    have hf' := frontier_carries (x := δ.exchange) hf hreq hdoc
    rcases advance_cases hroom with ⟨-, ha⟩ | ⟨hpos, hempty, ha⟩ | ⟨-, hne, ha⟩ <;> rw [ha]
    · exact Or.inl ⟨syncing_request hframe (range_of_end_le _ _ _) hroom,
        echoed_request hframe he' _, _, frontier_request hframe hf' (range_of_end_le _ _ _) rfl⟩
    · right
      have hfull := frontier_complete hframe hf' hpos hempty
      rw [settle_save hfull]
      have hend := saved_endings hframe.endings
      refine ⟨by simp [hend], by simp [hend], fun _ => ?_⟩
      exact saved_nonces hframe he' hfull
    · exact Or.inl ⟨⟨hframe, Nat.one_le_iff_ne_zero.mpr hne, hroom.le⟩, he', top, hf'⟩

/-- **Sync correctness.** Whatever the order of replies and transport failures, no honest run throws
in `save()`, and one that reports `onSyncDone(true)` has exactly the nonces of the chain. -/
theorem sync_correct (d : Daemon) (truth : ℕ → ℕ) (nonces : List ℕ) (height : ℕ) (δs : List Delivery)
    (run : ((machine d).restrict fun _ => Honest truth height).Run (connect nonces) δs) :
    .outOfRange ∉ ((machine d).after (connect nonces) δs).endings ∧
      (.onSyncDone true ∈ ((machine d).after (connect nonces) δs).endings →
        ((machine d).after (connect nonces) δs).nonces = synced truth nonces height) := by
  rcases phases (fun δ hx hδ => honest_start hx hδ)
    (fun w δ h hJ hx hδ => honest_step h hJ hx hδ) run with rfl | ⟨h, -⟩ | ⟨-, hend⟩
  · simp [connect, getLastBlockHeader, rpcSend, createRequest, init]
  · simp [h.endings]
  · exact hend

theorem sync_correct_retried :
    ((machine (configured 1 1)).after (connect [])
      [answer (· + 5) 1 headerExchange, failed (rangeExchange 2 0 1),
        answer (· + 5) 1 (rangeExchange 3 0 1)]).nonces = [5, 6] := by
  refine (sync_correct (configured 1 1) (· + 5) [] 1 _ ?_).2 (by decide)
  refine Machine.run_cons.mpr ⟨⟨by decide, honest_answer ?_ ?_ ?_ ?_⟩,
    Machine.run_cons.mpr ⟨⟨by decide, honest_failed rfl⟩,
      Machine.run_cons.mpr ⟨⟨by decide, honest_answer ?_ ?_ ?_ ?_⟩, Machine.run_nil _ _⟩⟩⟩
  all_goals decide

end Network
end NoncesHeatmap
