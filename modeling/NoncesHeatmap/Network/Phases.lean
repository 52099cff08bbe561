import NoncesHeatmap.Network.Requests

/-! # The phases of a run

A run starts with the getlastblockheader exchange (`connect`); its delivery ends the run or starts
`sync()`, and every later delivery leads from one `Syncing` state to the next or ends the run.
`deliver_cases` and `advance_cases` list what a delivery does to a `Syncing` state, `phases` is the
induction over a run that all later invariants use. -/

namespace NoncesHeatmap.Network
open Runs
set_option autoImplicit false

variable {d : Daemon} {nonces : List ℕ} {w : Network} {δ : Delivery}

/-! ## `save()` -/

def pending (w : Network) : List ℕ := List.range' w.nonces.length (w.height + 1 - w.nonces.length)

theorem mem_pending {h : ℕ} : h ∈ pending w ↔ w.nonces.length ≤ h ∧ h ≤ w.height := by
  rw [pending, List.mem_range'_1]
  omega

theorem emplace_all (w : Network) (heights : List ℕ) (h : ∀ i ∈ heights, i ∈ w.data) :
    heights.foldlM emplaceNonce w =
      .ok { w with nonces := w.nonces ++ heights.map fun i => w.data.getD i 0 } := by
  induction heights generalizing w with
  | nil => simp [pure, Except.pure]
  | cons i heights ih =>
    obtain ⟨nonce, hnonce⟩ : ∃ nonce, w.data[i]? = some nonce :=
      Option.isSome_iff_exists.mp
        (Std.TreeMap.mem_iff_isSome_getElem?.mp (h i (List.mem_cons_self ..)))
    have hstep : emplaceNonce w i = .ok { w with nonces := w.nonces ++ [nonce] } := by
      simp only [emplaceNonce, hnonce]
    have hvalue : w.data.getD i 0 = nonce := by
      rw [Std.TreeMap.getD_eq_getD_getElem?, hnonce]
      rfl
    rw [List.foldlM_cons, hstep]
    change heights.foldlM emplaceNonce { w with nonces := w.nonces ++ [nonce] } = _
    rw [ih { w with nonces := w.nonces ++ [nonce] } fun j hj => h j (List.mem_cons_of_mem i hj),
      List.map_cons, hvalue]
    simp

theorem emplace_missing (w : Network) (heights : List ℕ) (h : ∃ i ∈ heights, i ∉ w.data) :
    ∃ part, heights.foldlM emplaceNonce w = .error { w with nonces := w.nonces ++ part } := by
  induction heights generalizing w with
  | nil => simp at h
  | cons i heights ih =>
    cases hi : w.data[i]? with
    | none =>
      refine ⟨[], ?_⟩
      simp [List.foldlM_cons, emplaceNonce, hi, bind, Except.bind]
    | some nonce =>
      have hmem : i ∈ w.data := by
        rw [Std.TreeMap.mem_iff_isSome_getElem?, hi]
        rfl
      obtain ⟨j, hj, hmissing⟩ := h
      have hrest : ∃ j ∈ heights, j ∉ w.data := by
        rcases List.mem_cons.mp hj with rfl | hj
        · exact absurd hmem hmissing
        · exact ⟨j, hj, hmissing⟩
      obtain ⟨part, hpart⟩ := ih { w with nonces := w.nonces ++ [nonce] } hrest
      refine ⟨nonce :: part, ?_⟩
      have hstep : emplaceNonce w i = .ok { w with nonces := w.nonces ++ [nonce] } := by
        simp only [emplaceNonce, hi]
      rw [List.foldlM_cons, hstep]
      change heights.foldlM emplaceNonce { w with nonces := w.nonces ++ [nonce] } = _
      rw [hpart]
      simp

def saved (w : Network) : Network :=
  { w with
    timer := false
    data := ∅
    nonces := w.nonces ++ (pending w).map fun i => w.data.getD i 0
    endings := w.endings ++ [.onSyncDone true] }

theorem saved_endings (h : w.endings = []) : (saved w).endings = [.onSyncDone true] := by
  rw [saved, h]
  rfl

theorem settle_save (h : ∀ i ∈ pending w, i ∈ w.data) : settle (save w) = saved w := by
  have hloop := emplace_all { w with timer := false } (pending w) h
  simp only [pending] at hloop
  simp only [save, hloop]
  rfl

theorem settle_save_missing (h : ∃ i ∈ pending w, i ∉ w.data) :
    ∃ part, settle (save w) =
      { w with
        timer := false
        nonces := w.nonces ++ part
        endings := w.endings ++ [.outOfRange] } := by
  obtain ⟨part, hloop⟩ := emplace_missing { w with timer := false } (pending w) h
  simp only [pending] at hloop
  refine ⟨part, ?_⟩
  simp only [save, hloop]
  rfl

theorem settle_save_endings (w : Network) :
    settle (save w) = saved w ∨ (settle (save w)).endings = w.endings ++ [.outOfRange] := by
  by_cases h : ∀ i ∈ pending w, i ∈ w.data
  · exact Or.inl (settle_save h)
  · push Not at h
    obtain ⟨part, hpart⟩ := settle_save_missing h
    exact Or.inr (by rw [hpart])

/-! ## What a delivery does to a `Syncing` state -/

theorem retried_lookup {range : Range} (h : retried w δ = some range) :
    w.req[δ.exchange.rpcId]? = some range := by
  unfold retried at h
  split at h
  · exact h
  · cases h

theorem deliver_retry {range : Range} (h : retried w δ = some range) :
    deliver d w δ = retry δ.exchange.rpcId range (took δ.exchange w) := by
  rw [deliver_eq]
  simp only [effect, h]
  rfl

theorem deliver_reply {id : ℕ} {headers : Value} (h : effect w δ = .blockHeadersRange id headers) :
    deliver d w δ =
      if Accepted w id headers then advance d (accept id headers (took δ.exchange w))
      else onFatalError (took δ.exchange w) := by
  rw [deliver_eq, h]
  rfl

theorem deliver_cases (h : Syncing d nonces w) (hx : δ.exchange ∈ w.exchanges) :
    (∃ range, retried w δ = some range ∧
      deliver d w δ = retry δ.exchange.rpcId range (took δ.exchange w)) ∨
    deliver d w δ = onFatalError (took δ.exchange w) ∨
    (∃ id headers, effect w δ = .blockHeadersRange id headers ∧ Accepted w id headers ∧
      deliver d w δ = advance d (accept id headers (took δ.exchange w))) := by
  have htype := (h.exchange _ hx).2
  cases hretried : retried w δ with
  | some range => exact Or.inl ⟨range, rfl, deliver_retry hretried⟩
  | none =>
    right
    cases hresponse : δ.response with
    | none =>
      left
      rw [deliver_eq]
      simp only [effect, hretried, hresponse]
      rfl
    | some doc =>
      have heffect : effect w δ = .blockHeadersRange (Json.getUint64 doc "id" 0)
          (Json.getArray (Json.getObject doc "result") "headers") := by
        simp only [effect, hretried, hresponse, htype]
      by_cases hacc : Accepted w (Json.getUint64 doc "id" 0)
          (Json.getArray (Json.getObject doc "result") "headers")
      · exact Or.inr ⟨_, _, heffect, hacc, by rw [deliver_reply heffect, if_pos hacc]⟩
      · exact Or.inl (by rw [deliver_reply heffect, if_neg hacc])

/-- With room for a request, what follows a stored reply depends on `m_pos` and on whether other
requests are left. -/
theorem advance_cases (hsize : w.req.size < d.concurrency) :
    (w.pos ≤ w.height ∧ advance d w = request (Range.of w.pos d.maxRange w.height) w) ∨
    (w.height < w.pos ∧ w.req.size = 0 ∧ advance d w = settle (save w)) ∨
    (w.height < w.pos ∧ w.req.size ≠ 0 ∧ advance d w = w) := by
  unfold advance getBlockHeadersRange
  rw [Std.TreeMap.isEmpty_eq_size_eq_zero]
  by_cases hpos : w.pos ≤ w.height
  · left
    simp [hpos, hsize, Nat.not_lt.mpr hpos, request]
  · by_cases hempty : w.req.size = 0
    · simp [hpos, hempty, Nat.lt_of_not_le hpos]
    · simp [hpos, hempty, hsize, Nat.lt_of_not_le hpos]

theorem Syncing.accept_room (h : Syncing d nonces w) (x : Exchange) {id : ℕ} (hid : id ∈ w.req)
    (headers : Value) : (accept id headers (took x w)).req.size < d.concurrency := by
  have hsize := accept_size x hid headers
  have hle := h.size_le
  omega

theorem syncing_request {range : Range} (hframe : Frame nonces w) (hend : range.end ≤ w.height)
    (hsize : w.req.size < d.concurrency) : Syncing d nonces (request range w) where
  toFrame := frame_request hframe hend
  size_pos := by
    rw [request_size hframe.fresh]
    omega
  size_le := by
    rw [request_size hframe.fresh]
    omega

/-- From a `Syncing` state a delivery leads to a `Syncing` state or ends the run. -/
theorem syncing_deliver (h : Syncing d nonces w) (hx : δ.exchange ∈ w.exchanges) :
    Syncing d nonces (deliver d w δ) ∨ ∃ e, (deliver d w δ).endings = [e] := by
  rcases deliver_cases h hx with ⟨range, hretried, hd⟩ | hd | ⟨id, headers, -, hacc, hd⟩
  · left
    rw [hd]
    exact syncing_retry h hx (retried_lookup hretried)
  · right
    rw [hd]
    exact ⟨.onFatalError, by simp [onFatalError, h.endings]⟩
  · have hroom := h.accept_room δ.exchange hacc.2.2 headers
    have hframe := frame_accept h.toFrame hx hacc.2.2 headers
    rw [hd]
    rcases advance_cases hroom with ⟨-, ha⟩ | ⟨-, -, ha⟩ | ⟨-, hne, ha⟩ <;> rw [ha]
    · exact Or.inl (syncing_request hframe (range_of_end_le _ _ _) hroom)
    · right
      rcases settle_save_endings (accept id headers (took δ.exchange w)) with hs | hs
      · exact ⟨.onSyncDone true, by rw [hs]; simp [saved, h.endings]⟩
      · exact ⟨.outOfRange, by rw [hs]; simp [h.endings]⟩
    · exact Or.inl ⟨hframe, Nat.one_le_iff_ne_zero.mpr hne, hroom.le⟩

/-! ## The first delivery -/

/-- The state in which `sync()` is called, once the height is known. -/
def headed (nonces : List ℕ) (height : ℕ) : Network :=
  { init nonces with height := height, nextId := 1 }

/-- The exchange of `connect()`. -/
theorem exchange_connect (hx : δ.exchange ∈ (connect nonces).exchanges) : δ.exchange = ⟨1, .lastBlockHeader, none⟩ :=
  List.mem_singleton.mp hx

theorem retried_connect (hx : δ.exchange ∈ (connect nonces).exchanges) : retried (connect nonces) δ = none := by
  simp [retried, exchange_connect hx]

theorem took_connect (hx : δ.exchange ∈ (connect nonces).exchanges) :
    took δ.exchange (connect nonces) = headed nonces 0 := by
  rw [exchange_connect hx]
  rfl

theorem requestLoop_frame (hframe : Frame nonces w) (count : ℕ) :
    Frame nonces (requestLoop d count w) ∧ (requestLoop d count w).req.size ≤ w.req.size + count ∧
      w.req.size ≤ (requestLoop d count w).req.size ∧
      (0 < count → w.pos ≤ w.height → w.req.size < (requestLoop d count w).req.size) := by
  induction count generalizing w with
  | zero => exact ⟨hframe, le_rfl, le_rfl, fun h => absurd h (lt_irrefl 0)⟩
  | succ count ih =>
    obtain ⟨hf, hle, hge, -⟩ := ih (frame_getBlockHeadersRange (d := d) hframe)
    rw [requestLoop]
    by_cases hpos : w.pos ≤ w.height
    · have hcall : (getBlockHeadersRange d w).2 = request (Range.of w.pos d.maxRange w.height) w := by
        rw [getBlockHeadersRange, if_neg (Nat.not_lt.mpr hpos)]
        rfl
      rw [hcall] at hf hle hge ⊢
      rw [request_size hframe.fresh] at hle hge
      exact ⟨hf, by omega, by omega, fun _ _ => by omega⟩
    · have hcall : (getBlockHeadersRange d w).2 = w := by
        rw [getBlockHeadersRange, if_pos (Nat.lt_of_not_le hpos)]
      rw [hcall] at hf hle hge ⊢
      exact ⟨hf, by omega, by omega, fun _ h => absurd h hpos⟩

theorem requestLoop_keeps {J : Network → Prop}
    (refill : ∀ w, Frame nonces w → J w → J (getBlockHeadersRange d w).2)
    (hframe : Frame nonces w) (hJ : J w) (count : ℕ) : J (requestLoop d count w) := by
  induction count generalizing w with
  | zero => exact hJ
  | succ count ih => exact ih (frame_getBlockHeadersRange hframe) (refill w hframe hJ)

theorem frame_beginSync {height : ℕ} (hlen : nonces.length ≤ height) (hheight : height + 1 < 2 ^ 32) :
    Frame nonces (beginSync d (headed nonces height)) where
  nonces_eq := rfl
  length_le := hlen
  height_lt := hheight
  pos_le := by
    change u32 nonces.length ≤ height + 1
    rw [u32_of_lt (by omega)]
    omega
  end_le := by
    intro id range h
    simp [beginSync, headed, init] at h
  req_le := by
    intro id h
    simp [beginSync, headed, init] at h
  exchange := by
    intro x h
    simp [beginSync, headed, init] at h
  nodup := List.nodup_nil
  size_eq := rfl
  endings := rfl

theorem syncing_sync {height : ℕ} (hlen : nonces.length ≤ height) (hheight : height + 1 < 2 ^ 32) :
    Syncing d nonces (sync d (headed nonces height)) := by
  have hframe := frame_beginSync (d := d) hlen hheight
  have hsize : (beginSync d (headed nonces height)).req.size = 0 := rfl
  have hpos : (beginSync d (headed nonces height)).pos ≤ height := by
    change u32 nonces.length ≤ height
    rw [u32_of_lt (by omega)]
    exact hlen
  obtain ⟨hf, hle, -, hlt⟩ := requestLoop_frame (d := d) hframe d.concurrency
  have hlt := hlt d.concurrency_pos hpos
  unfold sync
  exact ⟨hf, by omega, by omega⟩

/-- The height `2^32 - 1` is above no list of nonces: `height + 1` wraps to 0. -/
theorem le_of_lt_u32 {n height : ℕ} (hheight : height < 2 ^ 32) (hless : n < u32 (height + 1)) :
    n ≤ height ∧ height + 1 < 2 ^ 32 := by
  have hnowrap : height + 1 < 2 ^ 32 := by
    by_contra hwrap
    have hmax : height + 1 = 2 ^ 32 := by omega
    rw [hmax] at hless
    simp [u32] at hless
  rw [u32_of_lt hnowrap] at hless
  exact ⟨Nat.lt_succ_iff.mp hless, hnowrap⟩

theorem setLastBlockHeader_sync {reader : Value} (hheight : Json.getUint reader "height" 0 ≠ 0)
    (hless : w.nonces.length < u32 (Json.getUint reader "height" 0 + 1)) :
    setLastBlockHeader d reader w =
      (true, sync d { w with height := Json.getUint reader "height" 0 }) := by
  unfold setLastBlockHeader
  rw [if_neg, if_pos hless]
  rintro (hzero | hmore)
  · exact hheight hzero
  · exact absurd hless (not_lt.mpr (le_of_lt hmore))

/-- A header reply is refused, or starts the sync, or finds the nonces complete. -/
theorem setLastBlockHeader_cases (d : Daemon) (reader : Value) (w : Network) :
    let u := { w with height := Json.getUint reader "height" 0 }
    setLastBlockHeader d reader w = (false, u) ∨
      (w.nonces.length ≤ u.height ∧ u.height + 1 < 2 ^ 32 ∧
        setLastBlockHeader d reader w = (true, sync d u)) ∨
      setLastBlockHeader d reader w = (true, onSyncDone false u) := by
  have hlt : Json.getUint reader "height" 0 < 2 ^ 32 := Json.getUint_lt (by norm_num)
  intro u
  unfold setLastBlockHeader
  by_cases hwrong : u.height = 0 ∨ u.nonces.length > u32 (u.height + 1)
  · exact Or.inl (if_pos hwrong)
  · right
    by_cases hmore : u.nonces.length < u32 (u.height + 1)
    · left
      obtain ⟨hlen, hnowrap⟩ := le_of_lt_u32 hlt hmore
      exact ⟨hlen, hnowrap, by rw [if_neg hwrong, if_pos hmore]⟩
    · right
      rw [if_neg hwrong, if_neg hmore]

/-- The first delivery ends the run, or it names a height above the nonces and starts `sync()`. -/
theorem connect_cases (hx : δ.exchange ∈ (connect nonces).exchanges) :
    (∃ e, (deliver d (connect nonces) δ).endings = [e] ∧ (deliver d (connect nonces) δ).data = ∅ ∧
        (deliver d (connect nonces) δ).req = ∅ ∧ (deliver d (connect nonces) δ).nonces = nonces ∧
        e ≠ .onSyncDone true ∧ e ≠ .outOfRange) ∨
      ∃ doc, δ.response = some doc ∧ ∃ height, nonces.length ≤ height ∧ height + 1 < 2 ^ 32 ∧
        height = Json.getUint (Json.getObject (Json.getObject doc "result") "block_header") "height" 0 ∧
        deliver d (connect nonces) δ = sync d (headed nonces height) := by
  have hretried := retried_connect hx
  have htook := took_connect hx
  have hx := exchange_connect hx
  rw [deliver_eq, htook]
  cases hresponse : δ.response with
  | none =>
    left
    simp only [effect, hretried, hresponse, perform]
    exact ⟨.onFatalError, rfl, rfl, rfl, rfl, by decide, by decide⟩
  | some doc =>
    simp only [effect, hretried, hresponse, hx, perform]
    generalize hreader : Json.getObject (Json.getObject doc "result") "block_header" = reader
    rcases setLastBlockHeader_cases d reader (headed nonces 0) with h | ⟨hlen, hlt, h⟩ | h <;> rw [h]
    · exact Or.inl ⟨.onFatalError, rfl, rfl, rfl, rfl, by decide, by decide⟩
    · exact Or.inr ⟨doc, rfl, _, hlen, hlt, by rw [hreader], rfl⟩
    · exact Or.inl ⟨.onSyncDone false, rfl, rfl, rfl, rfl, by decide, by decide⟩

/-! ## Induction over a run -/

/-- A state after at least one delivery: `Syncing` with `J`, or ended with `Q`. -/
def Phase (d : Daemon) (nonces : List ℕ) (J Q : Network → Prop) (w : Network) : Prop :=
  Syncing d nonces w ∧ J w ∨ w.endings ≠ [] ∧ Q w

theorem phase_start (hx : δ.exchange ∈ (connect nonces).exchanges) :
    Phase d nonces (fun _ => True) (fun _ => True) (deliver d (connect nonces) δ) := by
  rcases connect_cases (d := d) hx with ⟨e, hend, -⟩ | ⟨doc, -, height, hlen, hlt, -, hd⟩
  · exact Or.inr ⟨by simp [hend], trivial⟩
  · exact Or.inl ⟨hd ▸ syncing_sync hlen hlt, trivial⟩

theorem phase_step (h : Syncing d nonces w) (hx : δ.exchange ∈ w.exchanges) :
    Phase d nonces (fun _ => True) (fun _ => True) (deliver d w δ) := by
  rcases syncing_deliver (d := d) h hx with hsync | ⟨e, hend⟩
  · exact Or.inl ⟨hsync, trivial⟩
  · exact Or.inr ⟨by simp [hend], trivial⟩

theorem Phase.and {J Q J' Q' : Network → Prop} (h : Phase d nonces J Q w) (h' : Phase d nonces J' Q' w) :
    Phase d nonces (fun w => J w ∧ J' w) (fun w => Q w ∧ Q' w) w := by
  rcases h with ⟨hsync, hJ⟩ | ⟨hend, hQ⟩
  · rcases h' with ⟨-, hJ'⟩ | ⟨hend, -⟩
    · exact Or.inl ⟨hsync, hJ, hJ'⟩
    · exact absurd hsync.endings hend
  · rcases h' with ⟨hsync, -⟩ | ⟨-, hQ'⟩
    · exact absurd hsync.endings hend
    · exact Or.inr ⟨hend, hQ, hQ'⟩

/-- What the first delivery establishes and every later one keeps holds after every run. -/
theorem phases {J Q : Network → Prop} {allowed : Network → Delivery → Prop}
    (start : ∀ δ, δ.exchange ∈ (connect nonces).exchanges → allowed (connect nonces) δ →
      Phase d nonces J Q (deliver d (connect nonces) δ))
    (step : ∀ w δ, Syncing d nonces w → J w → δ.exchange ∈ w.exchanges → allowed w δ →
      Phase d nonces J Q (deliver d w δ))
    {δs : List Delivery} (run : ((machine d).restrict allowed).Run (connect nonces) δs) :
    δs = [] ∨ Phase d nonces J Q ((machine d).after (connect nonces) δs) := by
  cases δs with
  | nil => exact Or.inl rfl
  | cons δ δs =>
    right
    obtain ⟨⟨⟨-, hx⟩, hallowed⟩, hrest⟩ := run
    rw [← Machine.after_restrict allowed, Machine.after_cons]
    refine Machine.Run.invariant (I := Phase d nonces J Q) (s := deliver d (connect nonces) δ) ?_
      (start δ hx hallowed) hrest
    rintro v ε (⟨hsync, hJ⟩ | ⟨hend, -⟩) ⟨⟨halive, hx⟩, hallowed⟩
    · exact step v ε hsync hJ hx hallowed
    · exact absurd halive hend

theorem phases_eachStep {J Q : Network → Prop} {C allowed : Network → Delivery → Prop}
    (start : ∀ δ, δ.exchange ∈ (connect nonces).exchanges → allowed (connect nonces) δ →
      Phase d nonces J Q (deliver d (connect nonces) δ) ∧ C (connect nonces) δ)
    (step : ∀ w δ, Syncing d nonces w → J w → δ.exchange ∈ w.exchanges → allowed w δ →
      Phase d nonces J Q (deliver d w δ) ∧ C w δ)
    {δs : List Delivery} (run : ((machine d).restrict allowed).Run (connect nonces) δs) :
    (machine d).EachStep C (connect nonces) δs := by
  rw [← Machine.eachStep_restrict allowed]
  cases δs with
  | nil => trivial
  | cons δ δs =>
    obtain ⟨⟨⟨-, hx⟩, hallowed⟩, hrest⟩ := run
    obtain ⟨hphase, hC⟩ := start δ hx hallowed
    refine ⟨hC, Machine.Run.eachStep (I := Phase d nonces J Q) ?_ hphase hrest⟩
    rintro v ε (⟨hsync, hJ⟩ | ⟨hend, -⟩) ⟨⟨halive, hx⟩, hallowed⟩
    · exact step v ε hsync hJ hx hallowed
    · exact absurd halive hend

/-- When each delivery keeps `P` exactly if it meets `C`, a run keeps `P` exactly if its deliveries
meet `C`. -/
theorem phases_throughout_iff {J P Q : Network → Prop} {C allowed : Network → Delivery → Prop}
    (hP : P (connect nonces))
    (start : ∀ δ, δ.exchange ∈ (connect nonces).exchanges → allowed (connect nonces) δ →
      Phase d nonces J Q (deliver d (connect nonces) δ) ∧
        (P (deliver d (connect nonces) δ) ↔ C (connect nonces) δ))
    (step : ∀ w δ, Syncing d nonces w → J w → δ.exchange ∈ w.exchanges → allowed w δ →
      Phase d nonces J Q (deliver d w δ) ∧ (P w → (P (deliver d w δ) ↔ C w δ)))
    {δs : List Delivery} (run : ((machine d).restrict allowed).Run (connect nonces) δs) :
    (machine d).Throughout P (connect nonces) δs ↔ (machine d).EachStep C (connect nonces) δs := by
  rw [← Machine.throughout_restrict allowed, ← Machine.eachStep_restrict allowed]
  apply Machine.throughout_iff_eachStep (I := fun w => w = connect nonces ∨ Phase d nonces J Q w)
    ?_ ?_ (Or.inl rfl) hP run
  · rintro v ε (rfl | ⟨hsync, hJ⟩ | ⟨hend, -⟩) ⟨⟨halive, hx⟩, hallowed⟩
    · exact Or.inr (start ε hx hallowed).1
    · exact Or.inr (step v ε hsync hJ hx hallowed).1
    · exact absurd halive hend
  · rintro v ε (rfl | ⟨hsync, hJ⟩ | ⟨hend, -⟩) hPv ⟨⟨halive, hx⟩, hallowed⟩
    · exact (start ε hx hallowed).2
    · exact (step v ε hsync hJ hx hallowed).2 hPv
    · exact absurd halive hend

end NoncesHeatmap.Network
