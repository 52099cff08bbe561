import NoncesHeatmap.Network.Answers
import NoncesHeatmap.Network.Phases

/-! # The grid of ranges

The sums of `Range` are taken in `uint32_t`. As long as none of them wraps (`NoWrap`), the requests
of a sync are the cells of a grid: cell `k` starts at `first + k * (max_range + 1)` and `m_pos` is
always the start of a cell or right above the height (`Gridded`). -/

namespace NoncesHeatmap.Network
open Runs
set_option autoImplicit false

variable {d : Daemon} {nonces : List ℕ} {w : Network} {δ : Delivery} {first height k : ℕ}

/-! ## Cells -/

def cellStart (d : Daemon) (first k : ℕ) : ℕ := first + k * (d.maxRange + 1)

def cell (d : Daemon) (first height k : ℕ) : Range :=
  ⟨cellStart d first k, min (cellStart d first k + d.maxRange) height⟩

/-- No cell that starts within the height has a sum `start + max_range` of more than 32 bits. -/
def NoWrap (d : Daemon) (first height : ℕ) : Prop :=
  ∀ k, cellStart d first k ≤ height → cellStart d first k + d.maxRange < 2 ^ 32

theorem cellStart_zero (d : Daemon) (first : ℕ) : cellStart d first 0 = first := by
  rw [cellStart]
  omega

theorem cellStart_succ (d : Daemon) (first k : ℕ) :
    cellStart d first (k + 1) = cellStart d first k + d.maxRange + 1 := by
  rw [cellStart, cellStart, Nat.succ_mul]
  omega

theorem cellStart_mono {j k : ℕ} (h : j ≤ k) : cellStart d first j ≤ cellStart d first k :=
  Nat.add_le_add_left (Nat.mul_le_mul_right _ h) _

/-- Cells do not collapse: cell `k` starts at `k` or later. -/
theorem le_cellStart (d : Daemon) (first k : ℕ) : k ≤ cellStart d first k := by
  have hpos : k * 1 ≤ k * (d.maxRange + 1) := Nat.mul_le_mul_left k (by omega)
  rw [cellStart]
  omega

theorem cell_valid (hk : cellStart d first k ≤ height) :
    (cell d first height k).start ≤ (cell d first height k).end ∧
      (cell d first height k).end ≤ height := by
  show cellStart d first k ≤ min _ height ∧ min _ height ≤ height
  omega

/-- The cell after a cell starts right behind its end, unless the end is the height. -/
theorem cell_next (d : Daemon) (first height k : ℕ) :
    (cell d first height k).end + 1 = min (cellStart d first (k + 1)) (height + 1) := by
  show min (cellStart d first k + d.maxRange) height + 1 = _
  rw [cellStart_succ]
  omega

theorem range_of_cellStart (hnowrap : cellStart d first k + d.maxRange < 2 ^ 32) :
    Range.of (cellStart d first k) d.maxRange height = cell d first height k := by
  rw [Range.of, u32_of_lt hnowrap, cell]

/-! ## The grid is an invariant -/

structure Gridded (d : Daemon) (first : ℕ) (w : Network) : Prop where
  pos : w.pos = w.height + 1 ∨ ∃ k, w.pos = cellStart d first k
  entry : ∀ (id : ℕ) (range : Range), w.req[id]? = some range →
    ∃ k, range = cell d first w.height k ∧ cellStart d first k ≤ w.height

theorem gridded_begin (hlen : nonces.length ≤ height) (hheight : height + 1 < 2 ^ 32) :
    Gridded d nonces.length (beginSync d (headed nonces height)) where
  pos := by
    right
    refine ⟨0, ?_⟩
    show u32 nonces.length = _
    rw [u32_of_lt (by omega), cellStart_zero]
  entry := by
    intro id range h
    simp [beginSync, headed, init] at h

theorem pos_after_cell (hheight : w.height + 1 < 2 ^ 32) (k : ℕ) :
    let pos := u32 ((cell d first w.height k).end + 1)
    pos = w.height + 1 ∨ ∃ k, pos = cellStart d first k := by
  intro pos
  have hend : (cell d first w.height k).end ≤ w.height := min_le_right _ _
  have hpos : pos = min (cellStart d first (k + 1)) (w.height + 1) := by
    rw [← cell_next]
    exact u32_of_lt (by omega)
  by_cases hnext : cellStart d first (k + 1) ≤ w.height + 1
  · exact Or.inr ⟨k + 1, by omega⟩
  · exact Or.inl (by omega)

theorem gridded_request (hframe : Frame nonces w) (h : Gridded d first w)
    (hk : cellStart d first k ≤ w.height) : Gridded d first (request (cell d first w.height k) w) where
  pos := pos_after_cell hframe.height_lt k
  entry := by
    intro i r hr
    rw [request_lookup hframe.fresh] at hr
    split at hr
    · cases hr
      exact ⟨k, rfl, hk⟩
    · exact h.entry i r hr

/-- Below the height a call of `getBlockHeadersRange()` asks for the cell at `m_pos`. -/
theorem Gridded.refill_eq (h : Gridded d first w) (hwrap : NoWrap d first w.height)
    (hpos : w.pos ≤ w.height) : ∃ k, w.pos = cellStart d first k ∧ cellStart d first k ≤ w.height ∧
      Range.of w.pos d.maxRange w.height = cell d first w.height k := by
  rcases h.pos with hend | ⟨k, hk⟩
  · omega
  · exact ⟨k, hk, hk ▸ hpos, by rw [hk, range_of_cellStart (hwrap k (hk ▸ hpos))]⟩

theorem gridded_refill (hframe : Frame nonces w) (h : Gridded d first w)
    (hwrap : NoWrap d first w.height) : Gridded d first (getBlockHeadersRange d w).2 := by
  unfold getBlockHeadersRange
  split
  · exact h
  · obtain ⟨k, -, hk, hrange⟩ := h.refill_eq hwrap (by omega)
    rw [hrange]
    exact gridded_request hframe h hk

theorem gridded_retry (hframe : Frame nonces w) (h : Gridded d first w) {x : Exchange} {range : Range}
    (hreq : w.req[x.rpcId]? = some range) : Gridded d first (retry x.rpcId range (took x w)) := by
  obtain ⟨k, rfl, hk⟩ := h.entry _ _ hreq
  constructor
  · exact pos_after_cell hframe.height_lt k
  · intro i r hr
    rw [hframe.retry_lookup] at hr
    split at hr
    · cases hr
    · split at hr
      · cases hr
        exact ⟨k, rfl, hk⟩
      · exact h.entry i r hr

theorem gridded_accept (h : Gridded d first w) (x : Exchange) (id : ℕ) (headers : Value) :
    Gridded d first (accept id headers (took x w)) where
  pos := h.pos
  entry := by
    intro i r hr
    rw [accept_lookup] at hr
    split at hr
    · cases hr
    · exact h.entry i r hr

def GriddedSync (d : Daemon) (nonces : List ℕ) (height : ℕ) (w : Network) : Prop :=
  w.height = height ∧ Gridded d nonces.length w

theorem griddedSync_refill (hwrap : NoWrap d nonces.length height) (hframe : Frame nonces w)
    (h : GriddedSync d nonces height w) :
    GriddedSync d nonces height (getBlockHeadersRange d w).2 := by
  obtain ⟨rfl, hgrid⟩ := h
  refine ⟨?_, gridded_refill hframe hgrid hwrap⟩
  unfold getBlockHeadersRange
  split <;> rfl

theorem griddedSync_begin (hlen : nonces.length ≤ height) (hheight : height + 1 < 2 ^ 32) :
    GriddedSync d nonces height (beginSync d (headed nonces height)) :=
  ⟨rfl, gridded_begin hlen hheight⟩

/-! ## Runs on the grid -/

/-- The daemon names `height` as the height of its chain and is arbitrary otherwise. -/
def Names (height : ℕ) (δ : Delivery) : Prop :=
  δ.exchange.type = .lastBlockHeader →
    ∀ doc, δ.response = some doc → Json.getUint (headerOf doc) "height" 0 = height

theorem Honest.names {truth : ℕ → ℕ} (h : Honest truth height δ) : Names height δ := by
  intro htype doc hresponse
  simp only [Honest, htype] at h
  obtain ⟨doc', hdoc, hresult, hheight⟩ := h
  obtain rfl : doc' = doc := Option.some.inj ((hdoc.response_some hresult).symm.trans hresponse)
  exact hheight

theorem gridded_start (hwrap : NoWrap d nonces.length height)
    (hx : δ.exchange ∈ (connect nonces).exchanges) (hδ : Names height δ) :
    Phase d nonces (GriddedSync d nonces height) (fun _ => True) (deliver d (connect nonces) δ) := by
  rcases connect_cases (d := d) hx with ⟨e, hend, -⟩ | ⟨doc, hresp, h, hlen, hlt, hh, hd⟩
  · exact Or.inr ⟨by simp [hend], trivial⟩
  · left
    have hx := exchange_connect hx
    obtain rfl : h = height := hh.trans (hδ (by rw [hx]) doc hresp)
    rw [hd]
    exact ⟨syncing_sync hlen hlt, requestLoop_keeps (fun _ => griddedSync_refill hwrap)
      (frame_beginSync hlen hlt) (griddedSync_begin hlen hlt) d.concurrency⟩

theorem gridded_step (hwrap : NoWrap d nonces.length height) (h : Syncing d nonces w)
    (hJ : GriddedSync d nonces height w) (hx : δ.exchange ∈ w.exchanges) :
    Phase d nonces (GriddedSync d nonces height) (fun _ => True) (deliver d w δ) := by
  rcases syncing_deliver (d := d) h hx with hsync | ⟨e, hend⟩
  · left
    refine ⟨hsync, ?_⟩
    obtain ⟨rfl, hgrid⟩ := hJ
    rcases deliver_cases (d := d) h hx with ⟨range, hretried, hd⟩ | hd | ⟨id, headers, -, hacc, hd⟩ <;>
      rw [hd]
    · exact ⟨rfl, gridded_retry h.toFrame hgrid (retried_lookup hretried)⟩
    · exact ⟨rfl, hgrid.pos, hgrid.entry⟩
    · have hroom := h.accept_room δ.exchange hacc.2.2 headers
      have hframe := frame_accept h.toFrame hx hacc.2.2 headers
      have hgrid' := gridded_accept hgrid δ.exchange id headers
      rcases advance_cases hroom with ⟨hpos, ha⟩ | ⟨-, -, ha⟩ | ⟨-, -, ha⟩ <;> rw [ha]
      · obtain ⟨k, -, hk, hrange⟩ := hgrid'.refill_eq hwrap hpos
        rw [hrange]
        exact ⟨rfl, gridded_request hframe hgrid' hk⟩
      · rw [hd, ha] at hsync
        rcases settle_save_endings (accept id headers (took δ.exchange w)) with hs | hs
        · exact absurd hsync.endings (by rw [hs]; simp [saved])
        · exact absurd hsync.endings (by rw [hs]; simp)
      · exact ⟨rfl, hgrid'⟩
  · exact Or.inr ⟨by simp [hend], trivial⟩

end NoncesHeatmap.Network
