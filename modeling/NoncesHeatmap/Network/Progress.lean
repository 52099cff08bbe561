import NoncesHeatmap.Network.Grid
import NoncesHeatmap.Network.Honest

/-! # Progress without failures

On the grid every entry of `m_req` is a non-empty range within the height, so an honest daemon
refuses none of them. Each honest reply then takes an entry away or moves `m_pos` forward, whatever
failures and retries came before. -/

namespace NoncesHeatmap.Network
open Runs
set_option autoImplicit false

variable {d : Daemon} {nonces : List ℕ} {w : Network} {δ : Delivery} {truth : ℕ → ℕ} {height : ℕ}

def remaining (w : Network) : ℕ := (w.height + 1 - w.pos) + w.req.size

def HonestReply (truth : ℕ → ℕ) (height : ℕ) (δ : Delivery) : Prop :=
  Honest truth height δ ∧ 0 ≤ δ.status

def OnGrid (d : Daemon) (truth : ℕ → ℕ) (nonces : List ℕ) (height : ℕ) (w : Network) : Prop :=
  HonestSync truth nonces height w ∧ GriddedSync d nonces height w

theorem onGrid_start (hwrap : NoWrap d nonces.length height)
    (hx : δ.exchange ∈ (connect nonces).exchanges) (hδ : Honest truth height δ) :
    Phase d nonces (OnGrid d truth nonces height) (fun w => HonestEnd truth nonces height w ∧ True)
      (deliver d (connect nonces) δ) :=
  (honest_start hx hδ).and (gridded_start hwrap hx hδ.names)

theorem onGrid_step (hwrap : NoWrap d nonces.length height) (h : Syncing d nonces w)
    (hJ : OnGrid d truth nonces height w) (hx : δ.exchange ∈ w.exchanges)
    (hδ : Honest truth height δ) :
    Phase d nonces (OnGrid d truth nonces height) (fun w => HonestEnd truth nonces height w ∧ True)
      (deliver d w δ) :=
  (honest_step h hJ.1 hx hδ).and (gridded_step hwrap h hJ.2 hx)

theorem onGrid_reply (h : Syncing d nonces w) (hJ : OnGrid d truth nonces height w)
    (hx : δ.exchange ∈ w.exchanges) (hδ : HonestReply truth height δ) :
    ∃ range doc, w.req[δ.exchange.rpcId]? = some range ∧ Carries truth range doc ∧
      deliver d w δ = advance d (accept δ.exchange.rpcId (headersOf doc) (took δ.exchange w)) := by
  obtain ⟨⟨he, -⟩, hheight, hgrid⟩ := hJ
  obtain ⟨range, hreq, hcase⟩ := honest_cases (d := d) h he hx hδ.1
  rcases hcase with ⟨hfail, -⟩ | ⟨-, hinvalid, -⟩ | ⟨-, -, doc, hdoc, hd⟩
  · exact absurd hδ.2 (not_le.mpr hfail)
  · obtain ⟨k, rfl, hk⟩ := hgrid.entry _ _ hreq
    rw [hheight] at hk hinvalid
    exact absurd (cell_valid hk) hinvalid
  · exact ⟨range, doc, hreq, hdoc, hd⟩

/-- Asking for the cell at `m_pos` makes up for the entry that the reply took away. -/
theorem remaining_request (hframe : Frame nonces w) (hgrid : Gridded d nonces.length w)
    (hwrap : NoWrap d nonces.length w.height) (hpos : w.pos ≤ w.height) :
    remaining (request (Range.of w.pos d.maxRange w.height) w) ≤ remaining w := by
  obtain ⟨k, hk, hle, hrange⟩ := hgrid.refill_eq hwrap hpos
  have hheight := hframe.height_lt
  have hvalid := cell_valid (d := d) hle
  have hstart : (cell d nonces.length w.height k).start = cellStart d nonces.length k := rfl
  have hpos' : (request (cell d nonces.length w.height k) w).pos =
      (cell d nonces.length w.height k).end + 1 := by
    rw [request_pos, u32_of_lt (by omega)]
  rw [hrange, remaining, remaining, request_size hframe.fresh, request_height, hpos']
  omega

theorem remaining_decreases (hwrap : NoWrap d nonces.length height) (h : Syncing d nonces w)
    (hJ : OnGrid d truth nonces height w) (hx : δ.exchange ∈ w.exchanges)
    (hδ : HonestReply truth height δ) :
    remaining (deliver d w δ) < remaining w ∧ .onFatalError ∉ (deliver d w δ).endings ∧
      ((deliver d w δ).endings = [] ∨ .onSyncDone true ∈ (deliver d w δ).endings) := by
  obtain ⟨range, doc, hreq, hdoc, hd⟩ := onGrid_reply h hJ hx hδ
  obtain ⟨⟨he, top, hf⟩, rfl, hgrid⟩ := hJ
  have hid := mem_req_iff.mpr ⟨range, hreq⟩
  have hroom := h.accept_room δ.exchange hid (headersOf doc)
  have hframe := frame_accept h.toFrame hx hid (headersOf doc)
  have hsize := accept_size δ.exchange hid (headersOf doc)
  have hgrid' := gridded_accept hgrid δ.exchange δ.exchange.rpcId (headersOf doc)
  have hless : remaining (accept δ.exchange.rpcId (headersOf doc) (took δ.exchange w)) < remaining w := by
    rw [remaining, remaining, accept_height, accept_pos, took_height, took_pos]
    omega
  rw [hd]
  rcases advance_cases hroom with ⟨hpos, ha⟩ | ⟨hpos, hempty, ha⟩ | ⟨-, -, ha⟩ <;> rw [ha]
  · refine ⟨lt_of_le_of_lt (remaining_request hframe hgrid' hwrap hpos) hless, ?_, Or.inl hframe.endings⟩
    rw [request_endings, hframe.endings]
    exact List.not_mem_nil
  · have hf' := frontier_carries (x := δ.exchange) hf hreq hdoc
    rw [settle_save (frontier_complete hframe hf' hpos hempty)]
    have hend := saved_endings hframe.endings
    exact ⟨hless, by simp [hend], Or.inr (by simp [hend])⟩
  · refine ⟨hless, ?_, Or.inl hframe.endings⟩
    rw [hframe.endings]
    exact List.not_mem_nil

theorem remaining_pos (h : Syncing d nonces w) : 0 < remaining w := by
  have hsize := h.size_pos
  rw [remaining]
  omega

theorem exists_enabled (h : Syncing d nonces w) : ∃ δ, (machine d).enabled w δ := by
  obtain ⟨x, hx⟩ := h.exists_exchange
  exact ⟨failed x, h.endings, hx⟩

/-- **Once failures stop, the sync finishes.** From any state that a run with an honest daemon
reaches in a sync, every honest reply lowers `remaining` and none is fatal, and after at most
`remaining` honest replies `onSyncDone(true)` is reported. -/
theorem sync_finishes (d : Daemon) (truth : ℕ → ℕ) (nonces : List ℕ) (height : ℕ)
    (hwrap : NoWrap d nonces.length height) (δs : List Delivery)
    (run : ((machine d).restrict fun _ => Honest truth height).Run (connect nonces) δs) (hne : δs ≠ [])
    (halive : ((machine d).after (connect nonces) δs).endings = []) :
    let w := (machine d).after (connect nonces) δs
    (∀ δ, (machine d).enabled w δ → HonestReply truth height δ →
        remaining ((machine d).next w δ) < remaining w ∧
          .onFatalError ∉ ((machine d).next w δ).endings) ∧
      (machine d).Within (fun _ => HonestReply truth height) (fun w => .onSyncDone true ∈ w.endings)
        (remaining w) w := by
  intro w
  have hstate : Syncing d nonces w ∧ OnGrid d truth nonces height w := by
    rcases phases (fun δ hx hδ => onGrid_start hwrap hx hδ)
      (fun w δ h hJ hx hδ => onGrid_step hwrap h hJ hx hδ) run with h | h | ⟨h, -⟩
    · exact absurd h hne
    · exact h
    · exact absurd halive h
  constructor
  · intro δ hδ hreply
    obtain ⟨hless, hfatal, -⟩ := remaining_decreases hwrap hstate.1 hstate.2 hδ.2 hreply
    exact ⟨hless, hfatal⟩
  · refine Machine.within_of_measure (I := fun w => Syncing d nonces w ∧ OnGrid d truth nonces height w)
      remaining (fun v hv => ⟨remaining_pos hv.1, exists_enabled hv.1⟩) ?_ hstate
    rintro v ε ⟨h, hJ⟩ ⟨-, hx⟩ hreply
    obtain ⟨hless, -, hend⟩ := remaining_decreases hwrap h hJ hx hreply
    rcases hend with hgoes | hdone
    · rcases onGrid_step hwrap h hJ hx hreply.1 with hstep | ⟨hend, -⟩
      · exact Or.inr ⟨hstep, hless⟩
      · exact absurd hgoes hend
    · exact Or.inl hdone

theorem noWrap_small : NoWrap (configured 2 1) ([] : List ℕ).length 5 := by
  intro k hk
  have hmax : (configured 2 1).maxRange = 1 := by decide
  rw [List.length_nil, cellStart, hmax] at hk ⊢
  omega

/-- The first of two requests failed: its retry moved `m_pos` back to 2. -/
theorem sync_finishes_after_failure :
    (machine (configured 2 1)).Within (fun _ => HonestReply id 5) (fun w => .onSyncDone true ∈ w.endings) 6
      ((machine (configured 2 1)).after (connect [])
        [answer id 5 headerExchange, failed (rangeExchange 2 0 1)]) := by
  have hfinish := sync_finishes (configured 2 1) id [] 5 noWrap_small
    [answer id 5 headerExchange, failed (rangeExchange 2 0 1)] ?_ (by simp) (by decide)
  · have hsix : remaining ((machine (configured 2 1)).after (connect [])
        [answer id 5 headerExchange, failed (rangeExchange 2 0 1)]) = 6 := by decide
    rw [← hsix]
    exact hfinish.2
  · refine Machine.run_cons.mpr ⟨⟨by decide, honest_answer ?_ ?_ ?_ ?_⟩,
      Machine.run_cons.mpr ⟨⟨by decide, honest_failed rfl⟩, Machine.run_nil _ _⟩⟩
    all_goals decide

end NoncesHeatmap.Network
