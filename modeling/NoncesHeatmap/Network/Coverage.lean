import NoncesHeatmap.Library.Jobs
import NoncesHeatmap.Network.Phases

/-! # Coverage below the high-water mark

The entries of `m_req` are outstanding jobs on heights, the keys of `m_data` are the heights done.
A retry may move `m_pos` back, so coverage is stated relative to a mark `top` that never falls:
every height from the first one up to `top` is stored or requested (`Frontier`). A sync that ends
has `m_pos` above the height and no request left, so all its heights are stored. -/

namespace NoncesHeatmap
set_option autoImplicit false

def Range.heights (range : Range) : Set ℕ := {h | h ∈ range}

namespace Network
open Function Jobs

variable {d : Daemon} {nonces : List ℕ} {w : Network} {first top : ℕ}

def jobs (w : Network) (id : ℕ) : Set ℕ := {h | ∃ range, w.req[id]? = some range ∧ h ∈ range}

def stored (w : Network) : Set ℕ := {h | h ∈ w.data}

theorem jobs_none {id : ℕ} (h : w.req[id]? = none) : jobs w id = ∅ := by
  ext a
  simp [jobs, h]

theorem jobs_some {id : ℕ} {range : Range} (h : w.req[id]? = some range) :
    jobs w id = range.heights := by
  ext a
  simp [jobs, h, Range.heights]

theorem jobs_fresh (h : Frame nonces w) : jobs w (w.nextId + 1) = ∅ :=
  jobs_none (Std.TreeMap.getElem?_eq_none h.fresh)

theorem jobs_empty (h : w.req.size = 0) (id : ℕ) : jobs w id = ∅ := by
  apply jobs_none
  apply Std.TreeMap.getElem?_of_isEmpty
  rw [Std.TreeMap.isEmpty_eq_size_eq_zero, h]
  rfl

theorem jobs_request (h : Frame nonces w) (range : Range) :
    jobs (request range w) = update (jobs w) (w.nextId + 1) range.heights := by
  funext i
  by_cases hi : i = w.nextId + 1
  · subst hi
    rw [update_self]
    exact jobs_some (by rw [request_lookup h.fresh, if_pos rfl])
  · rw [update_of_ne hi]
    simp only [jobs, request_lookup h.fresh, if_neg hi]

theorem jobs_retry (h : Frame nonces w) {x : Exchange} {range : Range}
    (hreq : w.req[x.rpcId]? = some range) :
    jobs (retry x.rpcId range (took x w)) =
      update (update (jobs w) (w.nextId + 1) (jobs w x.rpcId)) x.rpcId ∅ := by
  funext i
  by_cases hi : i = x.rpcId
  · subst hi
    rw [update_self]
    exact jobs_none (by rw [h.retry_lookup, if_pos rfl])
  · rw [update_of_ne hi]
    by_cases hn : i = w.nextId + 1
    · subst hn
      rw [update_self, jobs_some hreq]
      exact jobs_some (by rw [h.retry_lookup, if_neg hi, if_pos rfl])
    · rw [update_of_ne hn]
      simp only [jobs, h.retry_lookup, if_neg hi, if_neg hn]

theorem jobs_accept (id : ℕ) (headers : Value) (x : Exchange) (w : Network) :
    jobs (accept id headers (took x w)) = update (jobs w) id ∅ := by
  funext i
  by_cases hi : i = id
  · subst hi
    rw [update_self]
    exact jobs_none (by rw [accept_lookup, if_pos rfl])
  · rw [update_of_ne hi]
    simp only [jobs, accept_lookup, if_neg hi, took_req]

/-! ## Headers stored from a reply -/

theorem mem_insertHeaders (headers : List Value) (data : Std.TreeMap ℕ ℕ) (h : ℕ) :
    h ∈ headers.foldl insertHeader data ↔
      h ∈ data ∨ ∃ header ∈ headers, Json.getUint header "height" 0 = h := by
  induction headers generalizing data with
  | nil => simp
  | cons header headers ih =>
    rw [List.foldl_cons, ih, insertHeader, Std.TreeMap.mem_insertIfNew, compare_eq_iff_eq]
    simp only [List.mem_cons, exists_eq_or_imp]
    tauto

/-- A stored nonce was there before or comes from a header of the reply. -/
theorem insertHeaders_value (headers : List Value) (data : Std.TreeMap ℕ ℕ) {h n : ℕ}
    (hn : (headers.foldl insertHeader data)[h]? = some n) :
    data[h]? = some n ∨ ∃ header ∈ headers,
      Json.getUint header "height" 0 = h ∧ Json.getUint header "nonce" 0 = n := by
  induction headers generalizing data with
  | nil => exact Or.inl hn
  | cons header headers ih =>
    rcases ih (insertHeader data header) hn with h' | ⟨v, hv, heq⟩
    · rw [insertHeader, lookup_insertIfNew] at h'
      split at h'
      · next hnew =>
        rw [Option.some.injEq] at h'
        exact Or.inr ⟨header, List.mem_cons_self .., hnew.1.symm, h'⟩
      · exact Or.inl h'
    · exact Or.inr ⟨v, List.mem_cons_of_mem _ hv, heq⟩

def named (headers : Value) : List ℕ := headers.getArray.map fun header => Json.getUint header "height" 0

theorem stored_accept (id : ℕ) (headers : Value) (x : Exchange) (w : Network) :
    stored (accept id headers (took x w)) = stored w ∪ {h | h ∈ named headers} := by
  ext h
  simp only [stored, accept_data, took_data, Set.mem_ofPred_eq, mem_insertHeaders, Set.mem_union, named,
    List.mem_map]

/-! ## The high-water mark -/

/-- Every height of `[first, top)` is stored or requested, and nothing above `top` is. -/
structure Frontier (first top : ℕ) (w : Network) : Prop where
  pos_le : w.pos ≤ top
  end_lt : ∀ (id : ℕ) (range : Range), w.req[id]? = some range → range.end < top
  stored_lt : ∀ h ∈ stored w, h < top
  covers : Covers (Set.Ico first top) (stored w) (jobs w)

theorem frontier_begin {height : ℕ} (hlen : nonces.length ≤ height) (hheight : height + 1 < 2 ^ 32) :
    Frontier nonces.length nonces.length (beginSync d (headed nonces height)) where
  pos_le := by
    change u32 nonces.length ≤ nonces.length
    rw [u32_of_lt (by omega)]
  end_lt := by
    intro id range h
    simp [beginSync, headed, init] at h
  stored_lt := by
    intro h hh
    simp [stored, beginSync, headed, init] at hh
  covers := by
    intro h hh
    simp at hh

theorem frontier_request (hframe : Frame nonces w) (h : Frontier first top w) {range : Range}
    (hend : range.end ≤ w.height) (hstart : range.start = w.pos) :
    Frontier first (max top (range.end + 1)) (request range w) where
  pos_le := by
    have hlt := hframe.height_lt
    rw [request_pos, u32_of_lt (by omega)]
    exact le_max_right _ _
  end_lt := by
    intro i r hr
    rw [request_lookup hframe.fresh] at hr
    split at hr
    · cases hr
      exact lt_of_lt_of_le (Nat.lt_succ_self _) (le_max_right _ _)
    · exact lt_of_lt_of_le (h.end_lt i r hr) (le_max_left _ _)
  stored_lt := fun a ha => lt_of_lt_of_le (h.stored_lt a ha) (le_max_left _ _)
  covers := by
    rw [jobs_request hframe]
    refine (h.covers.issue (jobs_fresh hframe)).mono ?_
    intro a ha
    by_cases hlow : a < top
    · exact Or.inl ⟨ha.1, hlow⟩
    · have hpos := h.pos_le
      have htop := ha.2
      right
      constructor
      · omega
      · rcases le_max_iff.mp (Nat.succ_le_of_lt htop) with hlt | hle <;> omega

theorem frontier_refill (hframe : Frame nonces w) (h : Frontier first top w) :
    ∃ top', Frontier first top' (getBlockHeadersRange d w).2 := by
  unfold getBlockHeadersRange
  split
  · exact ⟨top, h⟩
  · exact ⟨_, frontier_request hframe h (range_of_end_le _ _ _) rfl⟩

theorem frontier_sync {height : ℕ} (hlen : nonces.length ≤ height) (hheight : height + 1 < 2 ^ 32) :
    ∃ top, Frontier nonces.length top (sync d (headed nonces height)) :=
  requestLoop_keeps (J := fun w => ∃ top, Frontier nonces.length top w)
    (fun _ hframe ⟨_, h⟩ => frontier_refill hframe h) (frame_beginSync hlen hheight)
    ⟨_, frontier_begin hlen hheight⟩ d.concurrency

/-- A retry keeps the mark: its range was requested before. -/
theorem frontier_retry (hframe : Frame nonces w) (h : Frontier first top w) {x : Exchange}
    {range : Range} (hreq : w.req[x.rpcId]? = some range) :
    Frontier first top (retry x.rpcId range (took x w)) where
  pos_le := by
    have hlt := h.end_lt _ _ hreq
    have hend := hframe.end_le _ _ hreq
    have hheight := hframe.height_lt
    change u32 (range.end + 1) ≤ top
    rw [u32_of_lt (by omega)]
    exact hlt
  end_lt := by
    intro i r hr
    rw [hframe.retry_lookup] at hr
    split at hr
    · cases hr
    · split at hr
      · cases hr
        exact h.end_lt _ _ hreq
      · exact h.end_lt i r hr
  stored_lt := h.stored_lt
  covers := by
    rw [jobs_retry hframe hreq]
    exact h.covers.move (jobs_fresh hframe) (hframe.id_ne (mem_req_iff.mpr ⟨range, hreq⟩))

/-- A reply that carries the range of its entry and nothing new beside it keeps the mark. -/
theorem frontier_accept (h : Frontier first top w) {x : Exchange} {id : ℕ} {headers : Value}
    (full : jobs w id ⊆ stored w ∪ {h | h ∈ named headers})
    (known : {h | h ∈ named headers} ⊆ stored w ∪ jobs w id) :
    Frontier first top (accept id headers (took x w)) where
  pos_le := h.pos_le
  end_lt := by
    intro i r hr
    rw [accept_lookup] at hr
    split at hr
    · cases hr
    · exact h.end_lt i r hr
  stored_lt := by
    rw [stored_accept]
    rintro a (ha | ha)
    · exact h.stored_lt a ha
    · rcases known ha with ha | ⟨range, hreq, hmem⟩
      · exact h.stored_lt a ha
      · exact lt_of_le_of_lt hmem.2 (h.end_lt id range hreq)
  covers := by
    rw [jobs_accept, stored_accept]
    exact h.covers.settle Set.subset_union_left full

/-- When `save()` is entered, every height it appends is stored. -/
theorem frontier_complete (hframe : Frame nonces w) (h : Frontier nonces.length top w)
    (hpos : w.height < w.pos) (hempty : w.req.size = 0) : ∀ i ∈ pending w, i ∈ w.data := by
  intro i hi
  rw [mem_pending, hframe.nonces_eq] at hi
  have htop := h.pos_le
  exact h.covers.idle (jobs_empty hempty) ⟨hi.1, by omega⟩

end Network
end NoncesHeatmap
