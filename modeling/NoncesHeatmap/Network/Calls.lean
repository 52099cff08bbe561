import NoncesHeatmap.Network.Grid

/-! # The calls of `getBlockHeadersRange()`

`calls` lists the states in which a delivery calls `getBlockHeadersRange()`: in the loop of `sync()`
and after a stored reply. A call is well formed when it asks for a range between the first missing
height and the height and moves `m_pos` forward (`Advances`). All calls of all runs are, whatever
the daemon sends, exactly if no sum on the grid of ranges wraps. -/

namespace NoncesHeatmap.Network
open Runs
set_option autoImplicit false

variable {d : Daemon} {nonces : List ℕ} {w : Network} {δ : Delivery} {first height k : ℕ}

def loopCalls (d : Daemon) : ℕ → Network → List Network
  | 0, _ => []
  | count + 1, w => w :: loopCalls d count (getBlockHeadersRange d w).2

def calls (d : Daemon) (w : Network) (δ : Delivery) : List Network :=
  match effect w δ with
  | .retry _ => []
  | .fatal => []
  | .lastBlockHeader reader =>
    let v := { took δ.exchange w with height := Json.getUint reader "height" 0 }
    if v.height ≠ 0 ∧ v.nonces.length < u32 (v.height + 1) then
      loopCalls d d.concurrency (beginSync d v)
    else []
  | .blockHeadersRange id headers =>
    let v := accept id headers (took δ.exchange w)
    if Accepted w id headers ∧ ¬ (v.req.isEmpty ∧ v.pos > v.height) ∧ v.req.size < d.concurrency then [v]
    else []

/-- What a call in the state `v` has to do, if there are heights left to ask for. -/
structure Advances (d : Daemon) (first : ℕ) (v : Network) : Prop where
  sum_lt : v.pos + d.maxRange < 2 ^ 32
  end_lt : (Range.of v.pos d.maxRange v.height).end + 1 < 2 ^ 32
  first_le : first ≤ (Range.of v.pos d.maxRange v.height).start
  start_le : (Range.of v.pos d.maxRange v.height).start ≤ (Range.of v.pos d.maxRange v.height).end
  end_le : (Range.of v.pos d.maxRange v.height).end ≤ v.height
  length_le : (Range.of v.pos d.maxRange v.height).end - (Range.of v.pos d.maxRange v.height).start ≤
    d.maxRange
  pos_lt : v.pos < (getBlockHeadersRange d v).2.pos

def WellFormedCall (d : Daemon) (first : ℕ) (v : Network) : Prop := v.pos ≤ v.height → Advances d first v

/-! ## The calls account for the deliveries -/

theorem requestLoop_calls (d : Daemon) (count : ℕ) (w : Network) {v : Network}
    (h : (loopCalls d count w).getLast? = some v) : requestLoop d count w = (getBlockHeadersRange d v).2 := by
  induction count generalizing w with
  | zero => simp [loopCalls] at h
  | succ count ih =>
    rw [requestLoop]
    cases count with
    | zero =>
      have hv : w = v := by simpa [loopCalls] using h
      rw [hv, requestLoop]
    | succ count =>
      apply ih
      rw [loopCalls, loopCalls, List.getLast?_cons_cons] at h
      exact h

/-- A delivery with calls leads where its last call leads. -/
theorem deliver_calls {v : Network} (h : (calls d w δ).getLast? = some v) :
    deliver d w δ = (getBlockHeadersRange d v).2 := by
  rw [deliver_eq]
  unfold calls at h
  cases heffect : effect w δ with
  | retry range => simp [heffect] at h
  | fatal => simp [heffect] at h
  | lastBlockHeader reader =>
    simp only [heffect] at h
    split at h
    · next hstart =>
      obtain ⟨hheight, hless⟩ := hstart
      rw [← requestLoop_calls d d.concurrency _ h, perform, setLastBlockHeader_sync hheight hless]
      rfl
    · simp at h
  | blockHeadersRange id headers =>
    simp only [heffect] at h
    split at h
    · next hcall =>
      obtain ⟨hacc, hmore, hroom⟩ := hcall
      have hv : accept id headers (took δ.exchange w) = v := by simpa using h
      have hacc' : Accepted (took δ.exchange w) id headers := hacc
      rw [hv] at hmore hroom
      simp only [perform, if_pos hacc', hv, advance]
      rw [if_neg (by simpa using hmore), if_pos hroom]
    · simp at h

/-! ## No sum wraps -/

theorem Gridded.advances (hframe : Frame nonces w) (h : Gridded d first w)
    (hwrap : NoWrap d first w.height) : WellFormedCall d first w := by
  intro hpos
  obtain ⟨k, hk, hle, hrange⟩ := h.refill_eq hwrap hpos
  have hheight := hframe.height_lt
  have hstart : (cell d first w.height k).start = cellStart d first k := rfl
  have hend : (cell d first w.height k).end = min (cellStart d first k + d.maxRange) w.height := rfl
  have hcall : (getBlockHeadersRange d w).2.pos = (cell d first w.height k).end + 1 := by
    rw [getBlockHeadersRange, if_neg (by omega), hrange]
    exact u32_of_lt (by omega)
  have hfirst : first ≤ cellStart d first k := Nat.le_add_right _ _
  exact
    { sum_lt := hk ▸ hwrap k hle
      end_lt := by rw [hrange]; omega
      first_le := by rw [hrange]; omega
      start_le := by rw [hrange]; omega
      end_le := by rw [hrange]; omega
      length_le := by rw [hrange]; omega
      pos_lt := by rw [hcall]; omega }

theorem loopCalls_keeps {J : Network → Prop}
    (refill : ∀ w, Frame nonces w → J w → J (getBlockHeadersRange d w).2)
    (hframe : Frame nonces w) (hJ : J w) (count : ℕ) :
    ∀ v ∈ loopCalls d count w, Frame nonces v ∧ J v := by
  induction count generalizing w with
  | zero => simp [loopCalls]
  | succ count ih =>
    intro v hv
    rw [loopCalls, List.mem_cons] at hv
    rcases hv with rfl | hv
    · exact ⟨hframe, hJ⟩
    · exact ih (frame_getBlockHeadersRange hframe) (refill w hframe hJ) v hv

/-- The first delivery calls `getBlockHeadersRange()` in the loop of `sync()` only. -/
theorem calls_connect (hx : δ.exchange ∈ (connect nonces).exchanges) {v : Network}
    (hv : v ∈ calls d (connect nonces) δ) :
    ∃ doc height, δ.response = some doc ∧ height = Json.getUint (headerOf doc) "height" 0 ∧
      nonces.length ≤ height ∧ height + 1 < 2 ^ 32 ∧
      v ∈ loopCalls d d.concurrency (beginSync d (headed nonces height)) := by
  have hretried := retried_connect hx
  have htook := took_connect hx
  have hx := exchange_connect hx
  unfold calls at hv
  cases hresponse : δ.response with
  | none => simp [effect, hretried, hresponse] at hv
  | some doc =>
    simp only [effect, hretried, hresponse, hx] at hv
    split at hv
    · next hstart =>
      obtain ⟨hlen, hnowrap⟩ := le_of_lt_u32 (Json.getUint_lt (by norm_num)) hstart.2
      refine ⟨doc, _, rfl, rfl, hlen, hnowrap, ?_⟩
      rw [← hx, htook] at hv
      exact hv
    · simp at hv

/-- A later delivery calls it after a stored reply only. -/
theorem calls_syncing (h : Syncing d nonces w) (hx : δ.exchange ∈ w.exchanges) {v : Network}
    (hv : v ∈ calls d w δ) :
    ∃ id headers, Accepted w id headers ∧ v = accept id headers (took δ.exchange w) := by
  have htype := (h.exchange _ hx).2
  unfold calls at hv
  split at hv
  · simp at hv
  · simp at hv
  · next reader heffect =>
    unfold effect at heffect
    rw [htype] at heffect
    split at heffect <;> simp at heffect
  · next id headers heffect =>
    dsimp only at hv
    split at hv
    · next hcall => exact ⟨id, headers, hcall.1, List.mem_singleton.mp hv⟩
    · simp at hv

theorem calls_start (hwrap : NoWrap d nonces.length height)
    (hx : δ.exchange ∈ (connect nonces).exchanges) (hδ : Names height δ) :
    ∀ v ∈ calls d (connect nonces) δ, WellFormedCall d nonces.length v := by
  intro v hv
  have htype : δ.exchange.type = .lastBlockHeader := by rw [exchange_connect hx]
  obtain ⟨doc, h, hresponse, hh, hlen, hlt, hv⟩ := calls_connect hx hv
  obtain rfl : h = height := hh.trans (hδ htype doc hresponse)
  obtain ⟨hframe, rfl, hgrid⟩ := loopCalls_keeps (fun _ => griddedSync_refill hwrap)
    (frame_beginSync hlen hlt) (griddedSync_begin hlen hlt) d.concurrency v hv
  exact hgrid.advances hframe hwrap

theorem calls_step (hwrap : NoWrap d nonces.length height) (h : Syncing d nonces w)
    (hJ : GriddedSync d nonces height w) (hx : δ.exchange ∈ w.exchanges) :
    ∀ v ∈ calls d w δ, WellFormedCall d nonces.length v := by
  intro v hv
  obtain ⟨rfl, hgrid⟩ := hJ
  obtain ⟨id, headers, hacc, rfl⟩ := calls_syncing h hx hv
  have hframe := frame_accept h.toFrame hx hacc.2.2 headers
  exact (gridded_accept hgrid δ.exchange id headers).advances hframe hwrap

/-- Without a wrap every call of every run is well formed. -/
theorem calls_run (hwrap : NoWrap d nonces.length height) {δs : List Delivery}
    (run : ((machine d).restrict fun _ => Names height).Run (connect nonces) δs) :
    (machine d).EachStep (fun w δ => ∀ v ∈ calls d w δ, WellFormedCall d nonces.length v)
      (connect nonces) δs :=
  phases_eachStep (fun _ hx hδ => ⟨gridded_start hwrap hx hδ, calls_start hwrap hx hδ⟩)
    (fun _ _ h hJ hx _ => ⟨gridded_step hwrap h hJ hx, calls_step hwrap h hJ hx⟩) run

/-! ## Every cell is asked for -/

theorem Advances.next_cell (h : Advances d first w) (hk : w.pos = cellStart d first k)
    (hnext : cellStart d first (k + 1) ≤ w.height) :
    (getBlockHeadersRange d w).2 = request (cell d first w.height k) w ∧
      (getBlockHeadersRange d w).2.pos = cellStart d first (k + 1) := by
  have hle : cellStart d first k ≤ cellStart d first (k + 1) := cellStart_mono (Nat.le_succ k)
  have hsum := h.sum_lt
  have hend := h.end_lt
  rw [hk] at hsum
  rw [hk, range_of_cellStart hsum] at hend
  have hcall : (getBlockHeadersRange d w).2 = request (cell d first w.height k) w := by
    rw [getBlockHeadersRange, if_neg (by omega), hk, range_of_cellStart hsum]
    rfl
  refine ⟨hcall, ?_⟩
  rw [hcall, request_pos, u32_of_lt hend, cell_next]
  omega

theorem loopCalls_add (d : Daemon) (i j : ℕ) (w : Network) :
    loopCalls d (i + j) w = loopCalls d i w ++ loopCalls d j (requestLoop d i w) := by
  induction i generalizing w with
  | zero =>
    rw [Nat.zero_add]
    rfl
  | succ i ih =>
    rw [Nat.succ_add, loopCalls, ih]
    rfl

/-- If its calls advance, the loop of `sync()` asks for one cell after the other. -/
theorem loop_reaches (count : ℕ) (hk : w.pos = cellStart d first k)
    (hcalls : ∀ v ∈ loopCalls d count w, WellFormedCall d first v)
    (hle : cellStart d first (k + count) ≤ w.height) :
    (requestLoop d count w).pos = cellStart d first (k + count) ∧
      (requestLoop d count w).height = w.height ∧
      (requestLoop d count w).nextId = w.nextId + count := by
  induction count generalizing w k with
  | zero => exact ⟨hk, rfl, rfl⟩
  | succ count ih =>
    have hnext : cellStart d first (k + 1) ≤ w.height :=
      (cellStart_mono (by omega)).trans hle
    have hpos : w.pos ≤ w.height := hk ▸ (cellStart_mono (Nat.le_succ k)).trans hnext
    obtain ⟨hcall, hpos'⟩ := (hcalls w (List.mem_cons_self ..) hpos).next_cell hk hnext
    have hstep : k + (count + 1) = k + 1 + count := by omega
    rw [hstep] at hle ⊢
    have hheight : (getBlockHeadersRange d w).2.height = w.height := by rw [hcall]; rfl
    have hid : (getBlockHeadersRange d w).2.nextId = w.nextId + 1 := by rw [hcall]; rfl
    obtain ⟨hp, hh, hn⟩ := ih hpos' (fun v hv => hcalls v (List.mem_cons_of_mem w hv)) (by omega)
    rw [requestLoop]
    exact ⟨hp, hh.trans hheight, by omega⟩

theorem connect_answer {truth : ℕ → ℕ} (hδ : Honest truth height δ)
    (hx : δ.exchange = headerExchange) (hzero : height ≠ 0) (hlen : nonces.length ≤ height)
    (hheight : height + 1 < 2 ^ 32) :
    deliver d (connect nonces) δ = sync d (headed nonces height) ∧
      calls d (connect nonces) δ = loopCalls d d.concurrency (beginSync d (headed nonces height)) := by
  have hretried : retried (connect nonces) δ = none := by simp [retried, hx, headerExchange]
  have htook : took δ.exchange (connect nonces) = headed nonces 0 := by
    rw [hx]
    rfl
  have htype : δ.exchange.type = .lastBlockHeader := by rw [hx]; rfl
  simp only [Honest, htype] at hδ
  obtain ⟨doc, hdoc, hresult, rfl⟩ := hδ
  have heffect : effect (connect nonces) δ = .lastBlockHeader (headerOf doc) := by
    simp only [effect, hretried, hdoc.response_some hresult, htype]
    rfl
  have hless : nonces.length < u32 (Json.getUint (headerOf doc) "height" 0 + 1) := by
    rw [u32_of_lt hheight]
    omega
  constructor
  · rw [deliver_eq, heffect, htook, perform, setLastBlockHeader_sync hzero hless]
    rfl
  · simp only [calls, heffect, htook]
    exact if_pos ⟨hzero, hless⟩

structure AtCell (d : Daemon) (nonces : List ℕ) (height k : ℕ) (w : Network) : Prop
    extends Syncing d nonces w where
  height_eq : w.height = height
  pos_eq : w.pos = cellStart d nonces.length k
  nextId_eq : w.nextId = k + 1

def AlwaysAdvances (d : Daemon) (nonces : List ℕ) (height : ℕ) : Prop :=
  ∀ δs, ((machine d).restrict fun _ => Names height).Run (connect nonces) δs →
    (machine d).EachStep (fun w δ => ∀ v ∈ calls d w δ, WellFormedCall d nonces.length v)
      (connect nonces) δs

theorem header_run (hheight : height < 2 ^ 32) :
    ((machine d).restrict fun _ => Names height).Run (connect nonces)
      [answer (fun _ => 0) height headerExchange] := by
  have hhonest : Honest (fun _ => 0) height (answer (fun _ => 0) height headerExchange) :=
    honest_answer (by decide) hheight (fun _ _ => by norm_num) (by decide)
  exact ⟨⟨⟨rfl, List.mem_singleton.mpr rfl⟩, hhonest.names⟩, trivial⟩

theorem AlwaysAdvances.loop (hall : AlwaysAdvances d nonces height) (hzero : height ≠ 0)
    (hlen : nonces.length ≤ height) (hheight : height + 1 < 2 ^ 32) :
    ∀ v ∈ loopCalls d d.concurrency (beginSync d (headed nonces height)),
      WellFormedCall d nonces.length v := by
  have hhonest : Honest (fun _ => 0) height (answer (fun _ => 0) height headerExchange) :=
    honest_answer (by decide) (by omega) (fun _ _ => by norm_num) (by decide)
  rw [← (connect_answer hhonest rfl hzero hlen hheight).2]
  exact (hall _ (header_run (by omega))).1

theorem begin_cell (hlen : nonces.length ≤ height) (hheight : height + 1 < 2 ^ 32) :
    (beginSync d (headed nonces height)).pos = cellStart d nonces.length 0 := by
  have hlt : nonces.length < 2 ^ 32 := by omega
  rw [cellStart_zero]
  exact u32_of_lt hlt

/-- In every state of a sync some delivery is an accepted reply. -/
theorem exists_accepted (h : Syncing d nonces w) (hids : w.nextId < 2 ^ 64) :
    ∃ δ id headers, δ.exchange ∈ w.exchanges ∧ effect w δ = .blockHeadersRange id headers ∧
      Accepted w id headers := by
  have hsize := h.size_pos
  obtain ⟨x, hx⟩ := h.exists_exchange
  obtain ⟨id, hid⟩ : ∃ id, id ∈ w.req := by
    apply Std.TreeMap.isEmpty_eq_false_iff_exists_mem.mp
    rw [Std.TreeMap.isEmpty_eq_size_eq_zero, beq_eq_false_iff_ne]
    omega
  have hidlt : id < 2 ^ 64 := lt_of_le_of_lt (h.req_le id hid) hids
  exact ⟨reply x id [headerValue 0 0], id, .array [headerValue 0 0], hx,
    effect_reply (h.exchange x hx).2 hidlt _, rfl, by simp [Value.getArray], hid⟩

/-- At cell `k` an accepted reply leads to a call for it. -/
theorem atCell_step (h : AtCell d nonces height k w) (hk : cellStart d nonces.length k ≤ height)
    (hheight : height < 2 ^ 32) :
    ∃ δ, δ.exchange ∈ w.exchanges ∧ Names height δ ∧ ∃ v ∈ calls d w δ,
      v.pos = cellStart d nonces.length k ∧ v.height = height ∧
      (WellFormedCall d nonces.length v → cellStart d nonces.length (k + 1) ≤ height →
        AtCell d nonces height (k + 1) (deliver d w δ)) := by
  have hid := h.nextId_eq
  have hklt := le_cellStart d nonces.length k
  obtain ⟨δ, id, headers, hx, heffect, hacc⟩ := exists_accepted h.toSyncing (by omega)
  have htype := (h.exchange _ hx).2
  have hroom := h.accept_room δ.exchange hacc.2.2 headers
  have hframe := frame_accept h.toFrame hx hacc.2.2 headers
  have hpos : (accept id headers (took δ.exchange w)).pos = cellStart d nonces.length k := h.pos_eq
  have hheight' : (accept id headers (took δ.exchange w)).height = height := h.height_eq
  have hnext' : (accept id headers (took δ.exchange w)).nextId = k + 1 := h.nextId_eq
  have hcalls : calls d w δ = [accept id headers (took δ.exchange w)] := by
    simp only [calls, heffect]
    exact if_pos ⟨hacc, fun hend => absurd hend.2 (by omega), hroom⟩
  have hd : deliver d w δ = (getBlockHeadersRange d (accept id headers (took δ.exchange w))).2 :=
    deliver_calls (by rw [hcalls]; rfl)
  generalize accept id headers (took δ.exchange w) = v at *
  refine ⟨δ, hx, fun hlast => absurd (htype.symm.trans hlast) (by decide), v, ?_, hpos, hheight', ?_⟩
  · rw [hcalls]
    exact List.mem_singleton.mpr rfl
  · intro hcall hnext
    obtain ⟨hcell, hpos'⟩ := (hcall (by omega)).next_cell hpos (by omega)
    rw [hd]
    rw [hcell] at hpos' ⊢
    exact
      { toSyncing := syncing_request hframe (min_le_right _ _) hroom
        height_eq := hheight'
        pos_eq := hpos'
        nextId_eq := by rw [request_nextId, hnext'] }

theorem AtCell.run_snoc {k : ℕ} {δs : List Delivery}
    (hat : AtCell d nonces height k ((machine d).after (connect nonces) δs))
    (run : ((machine d).restrict fun _ => Names height).Run (connect nonces) δs)
    (hx : δ.exchange ∈ ((machine d).after (connect nonces) δs).exchanges) (hδ : Names height δ) :
    ((machine d).restrict fun _ => Names height).Run (connect nonces) (δs ++ [δ]) := by
  rw [Machine.run_snoc, Machine.after_restrict]
  exact ⟨run, ⟨hat.endings, hx⟩, hδ⟩

/-- When all calls advance, some run gets to each cell behind those of the loop of `sync()`. -/
theorem AlwaysAdvances.reach (hall : AlwaysAdvances d nonces height) (hzero : height ≠ 0)
    (hlen : nonces.length ≤ height) (hheight : height + 1 < 2 ^ 32) (j : ℕ)
    (hle : cellStart d nonces.length (d.concurrency + j) ≤ height) :
    ∃ δs, ((machine d).restrict fun _ => Names height).Run (connect nonces) δs ∧
      AtCell d nonces height (d.concurrency + j) ((machine d).after (connect nonces) δs) := by
  induction j with
  | zero =>
    have hhonest : Honest (fun _ => 0) height (answer (fun _ => 0) height headerExchange) :=
      honest_answer (by decide) (by omega) (fun _ _ => by norm_num) (by decide)
    obtain ⟨hpos, hh, hid⟩ := loop_reaches (d := d) d.concurrency (begin_cell hlen hheight)
      (hall.loop hzero hlen hheight) (by rwa [Nat.zero_add])
    rw [Nat.zero_add] at hpos
    have hafter : (machine d).after (connect nonces) [answer (fun _ => 0) height headerExchange] =
        sync d (headed nonces height) := by
      rw [Machine.after_cons, Machine.after_nil, machine_next]
      exact (connect_answer hhonest rfl hzero hlen hheight).1
    refine ⟨_, header_run (by omega), ?_⟩
    rw [hafter]
    have hone : (beginSync d (headed nonces height)).nextId = 1 := rfl
    exact
      { toSyncing := syncing_sync hlen hheight
        height_eq := hh
        pos_eq := by
          rw [sync, hpos, Nat.add_zero]
        nextId_eq := by
          rw [sync, hid, hone]
          omega }
  | succ j ih =>
    have hk : cellStart d nonces.length (d.concurrency + j) ≤ height :=
      (cellStart_mono (by omega)).trans hle
    obtain ⟨δs, run, hat⟩ := ih hk
    obtain ⟨δ, hx, hδ, v, hv, -, -, hstep⟩ := atCell_step hat hk (by omega)
    have run' := hat.run_snoc run hx hδ
    refine ⟨δs ++ [δ], run', ?_⟩
    rw [Machine.after_append]
    exact hstep ((hall _ run').last v hv) hle

theorem AlwaysAdvances.noWrap (hall : AlwaysAdvances d nonces height) (hheight : height + 1 < 2 ^ 32) :
    NoWrap d nonces.length height := by
  intro k hk
  have hlen : nonces.length ≤ height := (Nat.le_add_right _ _).trans hk
  by_cases hzero : height = 0
  · have hmax := d.maxRange_lt
    omega
  · by_cases hloop : k < d.concurrency
    · -- the cell is asked for in the loop
      obtain ⟨j, hj⟩ : ∃ j, d.concurrency = k + (j + 1) := ⟨d.concurrency - k - 1, by omega⟩
      have hcalls := hall.loop hzero hlen hheight
      rw [hj, loopCalls_add] at hcalls
      obtain ⟨hpos, hh, -⟩ := loop_reaches (d := d) k (begin_cell hlen hheight)
        (fun v hv => hcalls v (List.mem_append_left _ hv)) (by rwa [Nat.zero_add])
      rw [Nat.zero_add] at hpos
      have hcall := hcalls _ (List.mem_append_right _ (List.mem_cons_self ..))
      have hsum := (hcall (by rw [hpos, hh]; exact hk)).sum_lt
      rwa [hpos] at hsum
    · -- the cell is asked for after a reply
      obtain ⟨j, rfl⟩ : ∃ j, k = d.concurrency + j := ⟨k - d.concurrency, by omega⟩
      obtain ⟨δs, run, hat⟩ := hall.reach hzero hlen hheight j hk
      obtain ⟨δ, hx, hδ, v, hv, hpos, hh, -⟩ := atCell_step hat hk (by omega)
      have run' := hat.run_snoc run hx hδ
      have hsum := ((hall _ run').last v hv (by omega)).sum_lt
      rwa [hpos] at hsum

theorem no_calls (hheight : ¬ height + 1 < 2 ^ 32) {δs : List Delivery}
    (run : ((machine d).restrict fun _ => Names height).Run (connect nonces) δs) :
    (machine d).EachStep (fun w δ => ∀ v ∈ calls d w δ, WellFormedCall d nonces.length v)
      (connect nonces) δs := by
  refine phases_eachStep (J := fun _ => False) (Q := fun _ => True) (fun δ hx hδ => ?_)
    (fun _ _ _ hJ => hJ.elim) run
  have htype : δ.exchange.type = .lastBlockHeader := by rw [exchange_connect hx]
  constructor
  · rcases connect_cases (d := d) hx with ⟨e, hend, -⟩ | ⟨doc, hresponse, h, -, hlt, hh, -⟩
    · exact Or.inr ⟨by simp [hend], trivial⟩
    · have hnamed : h = height := hh.trans (hδ htype doc hresponse)
      omega
  · intro v hv
    obtain ⟨doc, h, hresponse, hh, -, hlt, -⟩ := calls_connect hx hv
    have hnamed : h = height := hh.trans (hδ htype doc hresponse)
    omega

/-- **Every request is well formed and advances, exactly if no sum wraps.** -/
theorem requests_advance_iff (d : Daemon) (nonces : List ℕ) (height : ℕ) :
    AlwaysAdvances d nonces height ↔ (height + 1 < 2 ^ 32 → NoWrap d nonces.length height) := by
  constructor
  · exact fun hall hheight => hall.noWrap hheight
  · intro hwrap δs run
    by_cases hheight : height + 1 < 2 ^ 32
    · exact calls_run (hwrap hheight) run
    · exact no_calls hheight run

/-- With `max_range` at its maximum a fresh sync to the height 5 is well formed; one that resumes
behind the first block asks for `1..0` and stays at 1. -/
theorem resumed_request_wraps :
    AlwaysAdvances (configured 1 (2 ^ 32 - 1)) [] 5 ∧
      ¬ AlwaysAdvances (configured 1 (2 ^ 32 - 1)) [7] 5 ∧
      ∃ v ∈ calls (configured 1 (2 ^ 32 - 1)) (connect [7]) (answer id 5 headerExchange),
        v.pos = 1 ∧ Range.of v.pos (2 ^ 32 - 1) v.height = ⟨1, 0⟩ ∧
        (getBlockHeadersRange (configured 1 (2 ^ 32 - 1)) v).2.pos = 1 := by
  have hmax : (configured 1 (2 ^ 32 - 1)).maxRange = 2 ^ 32 - 1 := by decide
  refine ⟨fun δs run => calls_run ?_ run, fun hall => ?_, by decide +kernel⟩
  · intro k hk
    rw [List.length_nil, cellStart, hmax] at hk ⊢
    omega
  · have hsum := hall.noWrap (by norm_num) 0 (by rw [cellStart_zero]; decide)
    rw [cellStart_zero, hmax] at hsum
    exact absurd hsum (by decide)

end NoncesHeatmap.Network
