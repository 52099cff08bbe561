import NoncesHeatmap.Network.Progress

/-! # Heights fetched twice

A retry moves `m_pos` back to the end of its range. If the retried request is answered while
requests above it are stored or outstanding, the next request starts below them and asks for their
heights again. `fetchedOnce_iff_ahead` says that this is the only way: a run never asks for a height
that is stored or requested exactly if `m_pos` is ahead of all those heights whenever a reply leads
to a new request. -/

namespace NoncesHeatmap.Network
open Runs Jobs
set_option autoImplicit false

variable {d : Daemon} {nonces : List ℕ} {w : Network} {δ : Delivery} {truth : ℕ → ℕ} {height : ℕ}

/-- The ranges of `m_req` are disjoint and cover no key of `m_data`. -/
structure FetchedOnce (w : Network) : Prop where
  apart : ∀ (i j : ℕ) (r s : Range), w.req[i]? = some r → w.req[j]? = some s → i ≠ j → ∀ h ∈ r, h ∉ s
  fresh : ∀ (i : ℕ) (r : Range), w.req[i]? = some r → ∀ h ∈ r, h ∉ w.data

theorem fetchedOnce_iff : FetchedOnce w ↔ Exclusive (stored w) (jobs w) := by
  constructor
  · intro h
    constructor
    · intro i j hij
      apply Set.disjoint_left.mpr
      rintro a ⟨r, hr, har⟩ ⟨s, hs, has⟩
      exact h.apart i j r s hr hs hij a har has
    · intro i
      apply Set.disjoint_left.mpr
      rintro a ⟨r, hr, har⟩ ha
      exact h.fresh i r hr a har ha
  · intro h
    constructor
    · intro i j r s hr hs hij a har has
      exact Set.disjoint_left.mp (h.apart i j hij) ⟨r, hr, har⟩ ⟨s, hs, has⟩
    · intro i r hr a har ha
      exact Set.disjoint_left.mp (h.fresh i) ⟨r, hr, har⟩ ha

theorem fetchedOnce_of_empty (hreq : w.req = ∅) : FetchedOnce w where
  apart := by
    intro i j r s hr
    simp [hreq] at hr
  fresh := by
    intro i r hr
    simp [hreq] at hr

/-- `m_pos` is above every height that is stored or requested. -/
structure Ahead (w : Network) : Prop where
  data : ∀ h ∈ w.data, h < w.pos
  req : ∀ (id : ℕ) (range : Range), w.req[id]? = some range → range.end < w.pos

/-- A reply with heights left to ask for finds `m_pos` ahead. -/
def RefillsAhead (w : Network) (δ : Delivery) : Prop :=
  δ.exchange.type = .blockHeadersRange → 0 ≤ δ.status → w.pos ≤ w.height → Ahead w

/-- The cell at `m_pos` meets no stored or requested height exactly if `m_pos` is ahead. -/
theorem ahead_iff {first top k : ℕ} (hf : Frontier first top w) (hk : w.pos = cellStart d first k)
    (hle : cellStart d first k ≤ w.height) :
    Ahead w ↔ Disjoint (cell d first w.height k).heights (stored w) ∧
      ∀ i, Disjoint (cell d first w.height k).heights (jobs w i) := by
  have hstart : (cell d first w.height k).start = w.pos := hk.symm
  constructor
  · intro h
    constructor
    · apply Set.disjoint_left.mpr
      intro a ha hstored
      have hlow : w.pos ≤ a := hstart ▸ ha.1
      exact absurd (h.data a hstored) (not_lt.mpr hlow)
    · intro i
      apply Set.disjoint_left.mpr
      rintro a ha ⟨range, hreq, hmem⟩
      have hlow : w.pos ≤ a := hstart ▸ ha.1
      have hend := h.req i range hreq
      have hhigh := hmem.2
      omega
  · rintro ⟨hstored, hjobs⟩
    -- `m_pos` itself is neither stored nor requested, so it is not below the mark
    have hpos : w.pos ∈ (cell d first w.height k).heights :=
      ⟨hstart.le, by rw [hk]; exact (cell_valid hle).1⟩
    have htop : top ≤ w.pos := by
      by_contra hlt
      have hfirst : first ≤ w.pos := hk ▸ Nat.le_add_right _ _
      rcases hf.covers w.pos ⟨hfirst, by omega⟩ with hmem | ⟨i, hmem⟩
      · exact Set.disjoint_left.mp hstored hpos hmem
      · exact Set.disjoint_left.mp (hjobs i) hpos hmem
    constructor
    · exact fun a ha => lt_of_lt_of_le (hf.stored_lt a ha) htop
    · exact fun id range hreq => lt_of_lt_of_le (hf.end_lt id range hreq) htop

/-! ## The first requests -/

theorem ahead_request (hframe : Frame nonces w) (h : Ahead w) {range : Range} (hstart : w.pos ≤ range.end)
    (hend : range.end ≤ w.height) : Ahead (request range w) := by
  have hheight := hframe.height_lt
  have hpos : (request range w).pos = range.end + 1 := by
    rw [request_pos, u32_of_lt (by omega)]
  constructor
  · intro a ha
    have hlt := h.data a ha
    omega
  · intro i r hr
    rw [request_lookup hframe.fresh] at hr
    split at hr
    · cases hr
      omega
    · have hlt := h.req i r hr
      omega

/-- A request for the cell at `m_pos` keeps the work exclusive exactly if `m_pos` is ahead. -/
theorem exclusive_request_iff {first top k : ℕ} (hframe : Frame nonces w) (hf : Frontier first top w)
    (hk : w.pos = cellStart d first k) (hle : cellStart d first k ≤ w.height)
    (h : Exclusive (stored w) (jobs w)) :
    Exclusive (stored (request (cell d first w.height k) w)) (jobs (request (cell d first w.height k) w)) ↔
      Ahead w := by
  rw [jobs_request hframe, ahead_iff hf hk hle]
  exact h.issue_iff (jobs_fresh hframe)

structure Starting (d : Daemon) (nonces : List ℕ) (height : ℕ) (w : Network) : Prop where
  grid : GriddedSync d nonces height w
  frontier : ∃ top, Frontier nonces.length top w
  ahead : Ahead w
  exclusive : Exclusive (stored w) (jobs w)

theorem starting_refill (hwrap : NoWrap d nonces.length height) (hframe : Frame nonces w)
    (h : Starting d nonces height w) : Starting d nonces height (getBlockHeadersRange d w).2 := by
  have hgrid := griddedSync_refill hwrap hframe h.grid
  obtain ⟨top, hf⟩ := h.frontier
  have hfrontier := frontier_refill (d := d) hframe hf
  obtain ⟨rfl, hcells⟩ := h.grid
  by_cases hpos : w.pos ≤ w.height
  · obtain ⟨k, hk, hle, hrange⟩ := hcells.refill_eq hwrap hpos
    have hcall : (getBlockHeadersRange d w).2 = request (cell d nonces.length w.height k) w := by
      rw [getBlockHeadersRange, if_neg (by omega), hrange]
      rfl
    obtain ⟨hstart, hend⟩ := cell_valid (d := d) hle
    rw [hcall] at hgrid hfrontier ⊢
    exact ⟨hgrid, hfrontier, ahead_request hframe h.ahead (by rw [hk]; exact hstart) hend,
      (exclusive_request_iff hframe hf hk hle h.exclusive).mpr h.ahead⟩
  · have hcall : (getBlockHeadersRange d w).2 = w := by
      rw [getBlockHeadersRange, if_pos (by omega)]
    rw [hcall]
    exact h

theorem starting_begin (hlen : nonces.length ≤ height) (hheight : height + 1 < 2 ^ 32) :
    Starting d nonces height (beginSync d (headed nonces height)) where
  grid := griddedSync_begin hlen hheight
  frontier := ⟨_, frontier_begin hlen hheight⟩
  ahead := by
    constructor
    · intro a ha
      simp [beginSync, headed, init] at ha
    · intro i r hr
      simp [beginSync, headed, init] at hr
  exclusive := fetchedOnce_iff.mp (fetchedOnce_of_empty rfl)

/-! ## One delivery -/

theorem fetchedOnce_start (hwrap : NoWrap d nonces.length height)
    (hx : δ.exchange ∈ (connect nonces).exchanges) (hδ : Honest truth height δ) :
    FetchedOnce (deliver d (connect nonces) δ) := by
  rcases connect_cases (d := d) hx with ⟨e, -, -, hreq, -⟩ | ⟨doc, hresp, h, hlen, hlt, hh, hd⟩
  · exact fetchedOnce_of_empty hreq
  · have htype : δ.exchange.type = .lastBlockHeader := by rw [exchange_connect hx]
    obtain rfl : h = height := hh.trans (hδ.names htype doc hresp)
    have hstart : Starting d nonces h (sync d (headed nonces h)) :=
      requestLoop_keeps (fun _ => starting_refill hwrap) (frame_beginSync hlen hlt)
        (starting_begin hlen hlt) d.concurrency
    rw [hd]
    exact fetchedOnce_iff.mpr hstart.exclusive

theorem exclusive_accept {range : Range} {doc : Value} {id : ℕ} (h : Exclusive (stored w) (jobs w))
    (hreq : w.req[id]? = some range) (hdoc : Carries truth range doc) (x : Exchange) :
    Exclusive (stored (accept id (headersOf doc) (took x w))) (jobs (accept id (headersOf doc) (took x w))) := by
  rw [jobs_accept, stored_accept, named_carries hreq hdoc]
  exact h.settle le_rfl

/-- Moving the heights of a reply from its entry to the stored ones leaves `m_pos` as far ahead. -/
theorem ahead_accept {range : Range} {doc : Value} {id : ℕ} (hreq : w.req[id]? = some range)
    (hdoc : Carries truth range doc) (hvalid : range.start ≤ range.end) (x : Exchange) :
    Ahead (accept id (headersOf doc) (took x w)) ↔ Ahead w := by
  have hmem : ∀ a, a ∈ (accept id (headersOf doc) (took x w)).data ↔ a ∈ w.data ∨ a ∈ range := by
    intro a
    have hunion : stored (accept id (headersOf doc) (took x w)) = stored w ∪ range.heights := by
      rw [stored_accept, named_carries hreq hdoc, jobs_some hreq]
    exact Set.ext_iff.mp hunion a
  constructor
  · intro h
    constructor
    · exact fun a ha => h.data a ((hmem a).mpr (Or.inl ha))
    · intro i r hr
      by_cases hi : i = id
      · subst hi
        obtain rfl : r = range := Option.some.inj (hr.symm.trans hreq)
        exact h.data r.end ((hmem _).mpr (Or.inr ⟨hvalid, le_rfl⟩))
      · exact h.req i r (by rw [accept_lookup, if_neg hi]; exact hr)
  · intro h
    constructor
    · intro a ha
      rcases (hmem a).mp ha with hold | hnew
      · exact h.data a hold
      · exact lt_of_le_of_lt hnew.2 (h.req id range hreq)
    · intro i r hr
      rw [accept_lookup] at hr
      split at hr
      · cases hr
      · exact h.req i r hr

theorem exclusive_saved (h : Exclusive (stored w) (jobs w)) :
    Exclusive (stored (saved w)) (jobs (saved w)) := by
  have hnone : stored (saved w) = ∅ := by
    ext a
    simp [stored, saved]
  rw [hnone]
  exact ⟨h.apart, fun i => Set.disjoint_empty _⟩

theorem fetchedOnce_step (hwrap : NoWrap d nonces.length height) (h : Syncing d nonces w)
    (hJ : OnGrid d truth nonces height w) (hP : FetchedOnce w) (hx : δ.exchange ∈ w.exchanges)
    (hδ : Honest truth height δ) : FetchedOnce (deliver d w δ) ↔ RefillsAhead w δ := by
  have htype := (h.exchange _ hx).2
  rw [fetchedOnce_iff] at hP ⊢
  by_cases hok : 0 ≤ δ.status
  · obtain ⟨range, doc, hreq, hdoc, hd⟩ := onGrid_reply h hJ hx ⟨hδ, hok⟩
    obtain ⟨⟨he, top, hf⟩, rfl, hgrid⟩ := hJ
    have hid := mem_req_iff.mpr ⟨range, hreq⟩
    have hroom := h.accept_room δ.exchange hid (headersOf doc)
    have hframe := frame_accept h.toFrame hx hid (headersOf doc)
    have hgrid' := gridded_accept hgrid δ.exchange δ.exchange.rpcId (headersOf doc)
    have hf' := frontier_carries (x := δ.exchange) hf hreq hdoc
    have hexcl := exclusive_accept hP hreq hdoc δ.exchange
    have hvalid : range.start ≤ range.end := by
      obtain ⟨k, rfl, hk⟩ := hgrid.entry _ _ hreq
      exact (cell_valid hk).1
    have hahead := ahead_accept hreq hdoc hvalid δ.exchange
    rw [hd]
    rcases advance_cases hroom with ⟨hpos, ha⟩ | ⟨hpos, hempty, ha⟩ | ⟨hpos, -, ha⟩ <;> rw [ha]
    · obtain ⟨k, hk, hle, hrange⟩ := hgrid'.refill_eq hwrap hpos
      rw [hrange, exclusive_request_iff hframe hf' hk hle hexcl, hahead]
      exact ⟨fun hw _ _ _ => hw, fun hstep => hstep htype hok hpos⟩
    · rw [settle_save (frontier_complete hframe hf' hpos hempty)]
      have hlow : ¬ w.pos ≤ w.height := not_le.mpr hpos
      exact ⟨fun _ _ _ hle => absurd hle hlow, fun _ => exclusive_saved hexcl⟩
    · have hlow : ¬ w.pos ≤ w.height := not_le.mpr hpos
      exact ⟨fun _ _ _ hle => absurd hle hlow, fun _ => hexcl⟩
  · obtain ⟨range, hreq, hcase⟩ := honest_cases (d := d) h hJ.1.1 hx hδ
    have hretry : deliver d w δ = retry δ.exchange.rpcId range (took δ.exchange w) := by
      rcases hcase with ⟨-, hd⟩ | ⟨hstatus, -⟩ | ⟨hstatus, -⟩
      · exact hd
      · exact absurd hstatus hok
      · exact absurd hstatus hok
    have hid := h.id_ne (mem_req_iff.mpr ⟨range, hreq⟩)
    refine ⟨fun _ _ hstatus => absurd hstatus hok, fun _ => ?_⟩
    rw [hretry, jobs_retry h.toFrame hreq]
    exact hP.move (jobs_fresh h.toFrame) hid

/-- **When a height is fetched twice.** In a run with an honest daemon no height is asked for while
it is stored or requested, exactly if every reply that leads to a new request finds `m_pos` ahead of
all heights that are. -/
theorem fetchedOnce_iff_ahead (d : Daemon) (truth : ℕ → ℕ) (nonces : List ℕ) (height : ℕ)
    (hwrap : NoWrap d nonces.length height) (δs : List Delivery)
    (run : ((machine d).restrict fun _ => Honest truth height).Run (connect nonces) δs) :
    (machine d).Throughout FetchedOnce (connect nonces) δs ↔
      (machine d).EachStep RefillsAhead (connect nonces) δs := by
  apply phases_throughout_iff (J := OnGrid d truth nonces height)
    (Q := fun w => HonestEnd truth nonces height w ∧ True) (fetchedOnce_of_empty rfl) ?_ ?_ run
  · intro δ hx hδ
    refine ⟨onGrid_start hwrap hx hδ, fun _ htype => ?_, fun _ => fetchedOnce_start hwrap hx hδ⟩
    rw [exchange_connect hx] at htype
    cases htype
  · intro w δ h hJ hx hδ
    exact ⟨onGrid_step hwrap h hJ hx hδ, fun hP => fetchedOnce_step hwrap h hJ hP hx hδ⟩

/-- Two requests for `0..1` and `2..3`; the first fails and its retry is answered. -/
def refetching : List Delivery :=
  [answer id 5 headerExchange, failed (rangeExchange 2 0 1), answer id 5 (rangeExchange 4 0 1)]

theorem refetching_run :
    ((machine (configured 2 1)).restrict fun _ => Honest id 5).Run (connect []) refetching := by
  refine Machine.run_cons.mpr ⟨⟨by decide, honest_answer ?_ ?_ ?_ ?_⟩,
    Machine.run_cons.mpr ⟨⟨by decide, honest_failed rfl⟩,
      Machine.run_cons.mpr ⟨⟨by decide, honest_answer ?_ ?_ ?_ ?_⟩, Machine.run_nil _ _⟩⟩⟩
  all_goals decide

theorem fetchedOnce_iff_ahead_refetching :
    (machine (configured 2 1)).Throughout FetchedOnce (connect []) refetching ↔
      (machine (configured 2 1)).EachStep RefillsAhead (connect []) refetching :=
  fetchedOnce_iff_ahead (configured 2 1) id [] 5 noWrap_small refetching refetching_run

/-- The range `2..3`, still outstanding as request 3, is asked for again as request 5. -/
theorem range_fetched_twice :
    NoWrap (configured 2 1) ([] : List ℕ).length 5 ∧
      ((machine (configured 2 1)).restrict fun _ => Honest id 5).Run (connect []) refetching ∧
      ¬ FetchedOnce ((machine (configured 2 1)).after (connect []) refetching) := by
  refine ⟨noWrap_small, refetching_run, fun h => ?_⟩
  exact h.apart 3 5 ⟨2, 3⟩ ⟨2, 3⟩ (by decide) (by decide) (by decide) 2 (by decide) (by decide)

end NoncesHeatmap.Network
