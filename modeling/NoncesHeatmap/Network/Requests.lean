import NoncesHeatmap.Network.Delivery

/-! # Requests and their bookkeeping

`Syncing` is what every state of a sync satisfies between two deliveries, whatever the daemon
sends: the entries of `m_req` and the outstanding exchanges are equally many, at least one and at
most `concurrency`, and the positions stay within the height. `Frame` is the part of it that also
holds between the erasing of an entry and the next request. -/

namespace NoncesHeatmap.Network
open Runs
set_option autoImplicit false

/-! ## Lookups in a map with natural keys -/

theorem lookup_erase {β : Type} (t : Std.TreeMap ℕ β) (k a : ℕ) :
    (t.erase k)[a]? = if a = k then none else t[a]? := by
  rw [Std.TreeMap.getElem?_erase]
  simp only [compare_eq_iff_eq, eq_comm (a := k) (b := a)]

theorem lookup_insertIfNew {β : Type} (t : Std.TreeMap ℕ β) (k a : ℕ) (v : β) :
    (t.insertIfNew k v)[a]? = if a = k ∧ k ∉ t then some v else t[a]? := by
  rw [Std.TreeMap.getElem?_insertIfNew]
  simp only [compare_eq_iff_eq, eq_comm (a := k) (b := a)]

/-! ## The primitive updates, field by field -/

def request (range : Range) (w : Network) : Network := (getBlockHeadersRangeOf range w).2

section Fields
variable (range : Range) (id : ℕ) (headers : Value) (x : Exchange) (w : Network)

@[simp] theorem request_data : (request range w).data = w.data := rfl
@[simp] theorem request_nonces : (request range w).nonces = w.nonces := rfl
@[simp] theorem request_height : (request range w).height = w.height := rfl
@[simp] theorem request_pos : (request range w).pos = u32 (range.end + 1) := rfl
@[simp] theorem request_nextId : (request range w).nextId = w.nextId + 1 := rfl
@[simp] theorem request_exchanges : (request range w).exchanges =
    w.exchanges ++ [⟨w.nextId + 1, .blockHeadersRange, some range⟩] := rfl
@[simp] theorem request_endings : (request range w).endings = w.endings := rfl
theorem request_req : (request range w).req = w.req.insertIfNew (w.nextId + 1) range := rfl

theorem retry_eq : retry id range w = { request range w with req := (request range w).req.erase id } :=
  rfl

@[simp] theorem took_data : (took x w).data = w.data := rfl
@[simp] theorem took_nonces : (took x w).nonces = w.nonces := rfl
@[simp] theorem took_height : (took x w).height = w.height := rfl
@[simp] theorem took_pos : (took x w).pos = w.pos := rfl
@[simp] theorem took_nextId : (took x w).nextId = w.nextId := rfl
@[simp] theorem took_endings : (took x w).endings = w.endings := rfl
@[simp] theorem took_exchanges : (took x w).exchanges = w.exchanges.erase x := rfl
attribute [simp] took_req

@[simp] theorem accept_nonces : (accept id headers w).nonces = w.nonces := rfl
@[simp] theorem accept_height : (accept id headers w).height = w.height := rfl
@[simp] theorem accept_pos : (accept id headers w).pos = w.pos := rfl
@[simp] theorem accept_nextId : (accept id headers w).nextId = w.nextId := rfl
@[simp] theorem accept_exchanges : (accept id headers w).exchanges = w.exchanges := rfl
@[simp] theorem accept_endings : (accept id headers w).endings = w.endings := rfl
theorem accept_req : (accept id headers w).req = w.req.erase id := rfl
theorem accept_data : (accept id headers w).data = headers.getArray.foldl insertHeader w.data := rfl

theorem accept_lookup (i : ℕ) :
    (accept id headers w).req[i]? = if i = id then none else w.req[i]? := by
  rw [accept_req, lookup_erase]

end Fields

/-! ## Bookkeeping -/

structure Frame (nonces : List ℕ) (w : Network) : Prop where
  nonces_eq : w.nonces = nonces
  length_le : nonces.length ≤ w.height
  height_lt : w.height + 1 < 2 ^ 32
  pos_le : w.pos ≤ w.height + 1
  end_le : ∀ (id : ℕ) (range : Range), w.req[id]? = some range → range.end ≤ w.height
  req_le : ∀ id ∈ w.req, id ≤ w.nextId
  exchange : ∀ x ∈ w.exchanges, x.rpcId ≤ w.nextId ∧ x.type = .blockHeadersRange
  nodup : (w.exchanges.map Exchange.rpcId).Nodup
  size_eq : w.req.size = w.exchanges.length
  endings : w.endings = []

structure Syncing (d : Daemon) (nonces : List ℕ) (w : Network) : Prop extends Frame nonces w where
  size_pos : 1 ≤ w.req.size
  size_le : w.req.size ≤ d.concurrency

variable {d : Daemon} {nonces : List ℕ} {w : Network}

theorem mem_req_iff {i : ℕ} : i ∈ w.req ↔ ∃ range, w.req[i]? = some range := by
  rw [Std.TreeMap.mem_iff_isSome_getElem?, Option.isSome_iff_exists]

theorem Frame.fresh (h : Frame nonces w) : w.nextId + 1 ∉ w.req :=
  fun hmem => absurd (h.req_le _ hmem) (by omega)

/-- A request adds one entry, under an id that no entry has. -/
theorem request_lookup (hfresh : w.nextId + 1 ∉ w.req) (range : Range) (i : ℕ) :
    (request range w).req[i]? = if i = w.nextId + 1 then some range else w.req[i]? := by
  rw [request_req, lookup_insertIfNew]
  simp [hfresh]

theorem request_size (hfresh : w.nextId + 1 ∉ w.req) (range : Range) :
    (request range w).req.size = w.req.size + 1 := by
  rw [request_req, Std.TreeMap.size_insertIfNew, if_neg hfresh]

theorem erase_size {id : ℕ} (hid : id ∈ w.req) : (w.req.erase id).size = w.req.size - 1 := by
  rw [Std.TreeMap.size_erase, if_pos (by simpa using hid)]

theorem range_of_end_le (start count max : ℕ) : (Range.of start count max).end ≤ max := min_le_right _ _

theorem nodup_snoc {xs : List Exchange} {n : ℕ} (h : (xs.map Exchange.rpcId).Nodup)
    (hle : ∀ x ∈ xs, x.rpcId ≤ n) {type : RequestType} {params : Option Range} :
    (xs.map Exchange.rpcId ++ [⟨n + 1, type, params⟩].map Exchange.rpcId).Nodup := by
  rw [List.nodup_append]
  refine ⟨h, by simp, ?_⟩
  intro a ha b hb
  obtain ⟨x, hx, rfl⟩ := List.mem_map.mp ha
  have hxn := hle x hx
  have hb : b = n + 1 := by simpa using hb
  omega

theorem Syncing.exists_exchange (h : Syncing d nonces w) : ∃ x, x ∈ w.exchanges := by
  apply List.exists_mem_of_length_pos
  rw [← h.size_eq]
  exact h.size_pos

theorem frame_request (h : Frame nonces w) {range : Range} (hend : range.end ≤ w.height) :
    Frame nonces (request range w) where
  nonces_eq := h.nonces_eq
  length_le := h.length_le
  height_lt := h.height_lt
  pos_le := by
    have hlt := h.height_lt
    rw [request_pos, request_height, u32_of_lt (by omega)]
    omega
  end_le := by
    intro i r hr
    rw [request_lookup h.fresh] at hr
    split at hr
    · cases hr
      exact hend
    · exact h.end_le i r hr
  req_le := by
    intro i hi
    rw [request_nextId]
    rw [request_req, Std.TreeMap.mem_insertIfNew] at hi
    rcases hi with hi | hi
    · simp at hi
      omega
    · have := h.req_le i hi
      omega
  exchange := by
    intro x hx
    rw [request_exchanges, List.mem_append] at hx
    rcases hx with hx | hx
    · obtain ⟨hid, htype⟩ := h.exchange x hx
      exact ⟨hid.trans (Nat.le_succ _), htype⟩
    · rw [List.mem_singleton.mp hx]
      exact ⟨le_rfl, rfl⟩
  nodup := by
    rw [request_exchanges, List.map_append]
    exact nodup_snoc h.nodup fun x hx => (h.exchange x hx).1
  size_eq := by
    rw [request_size h.fresh, h.size_eq]
    simp
  endings := h.endings

theorem frame_getBlockHeadersRange (h : Frame nonces w) :
    Frame nonces (getBlockHeadersRange d w).2 := by
  unfold getBlockHeadersRange
  split
  · exact h
  · exact frame_request h (range_of_end_le _ _ _)

theorem Frame.erase_length (h : Frame nonces w) {x : Exchange} (hx : x ∈ w.exchanges) :
    (w.exchanges.erase x).length + 1 = w.req.size := by
  rw [List.length_erase_of_mem hx, h.size_eq]
  have := List.length_pos_of_mem hx
  omega

theorem Frame.id_ne (h : Frame nonces w) {id : ℕ} (hid : id ∈ w.req) : id ≠ w.nextId + 1 := by
  have := h.req_le id hid
  omega

theorem Frame.retry_lookup (h : Frame nonces w) (x : Exchange) (range : Range) (i : ℕ) :
    (retry x.rpcId range (took x w)).req[i]? =
      if i = x.rpcId then none else if i = w.nextId + 1 then some range else w.req[i]? := by
  have hfresh : (took x w).nextId + 1 ∉ (took x w).req := h.fresh
  rw [retry_eq, lookup_erase, request_lookup hfresh]
  rfl

theorem Frame.retry_size (h : Frame nonces w) {x : Exchange} {range : Range}
    (hreq : w.req[x.rpcId]? = some range) : (retry x.rpcId range (took x w)).req.size = w.req.size := by
  have hfresh : (took x w).nextId + 1 ∉ (took x w).req := h.fresh
  have hmem : x.rpcId ∈ (request range (took x w)).req := by
    rw [request_req, Std.TreeMap.mem_insertIfNew]
    exact Or.inr (mem_req_iff.mpr ⟨range, hreq⟩)
  rw [retry_eq]
  simp only [erase_size hmem, request_size hfresh, took_req]
  omega

/-- A retry replaces one exchange and its entry by another of the same range. -/
theorem frame_retry (h : Frame nonces w) {x : Exchange} (hx : x ∈ w.exchanges) {range : Range}
    (hreq : w.req[x.rpcId]? = some range) : Frame nonces (retry x.rpcId range (took x w)) where
  nonces_eq := h.nonces_eq
  length_le := h.length_le
  height_lt := h.height_lt
  pos_le := by
    have hlt := h.height_lt
    have hend := h.end_le _ _ hreq
    rw [retry_eq]
    simp only [request_pos, request_height, took_height]
    rw [u32_of_lt (by omega)]
    omega
  end_le := by
    intro i r hr
    rw [h.retry_lookup] at hr
    rw [retry_eq]
    split at hr
    · cases hr
    · split at hr
      · cases hr
        exact h.end_le _ _ hreq
      · exact h.end_le i r hr
  req_le := by
    intro i hi
    obtain ⟨r, hr⟩ := mem_req_iff.mp hi
    rw [h.retry_lookup] at hr
    rw [retry_eq]
    simp only [request_nextId, took_nextId]
    split at hr
    · cases hr
    · split at hr
      · omega
      · have := h.req_le i (mem_req_iff.mpr ⟨r, hr⟩)
        omega
  exchange := by
    intro y hy
    rw [retry_eq] at hy ⊢
    simp only [request_exchanges, took_exchanges, took_nextId, List.mem_append,
      List.mem_singleton, request_nextId] at hy ⊢
    rcases hy with hy | rfl
    · obtain ⟨hyid, htype⟩ := h.exchange y (List.mem_of_mem_erase hy)
      exact ⟨hyid.trans (Nat.le_succ _), htype⟩
    · exact ⟨le_rfl, rfl⟩
  nodup := by
    rw [retry_eq]
    simp only [request_exchanges, took_exchanges, took_nextId, List.map_append]
    exact nodup_snoc (h.nodup.sublist (List.erase_sublist.map _)) fun y hy =>
      (h.exchange y (List.mem_of_mem_erase hy)).1
  size_eq := by
    rw [h.retry_size hreq, retry_eq, ← h.erase_length hx]
    simp
  endings := h.endings

theorem syncing_retry (h : Syncing d nonces w) {x : Exchange} (hx : x ∈ w.exchanges) {range : Range}
    (hreq : w.req[x.rpcId]? = some range) : Syncing d nonces (retry x.rpcId range (took x w)) where
  toFrame := frame_retry h.toFrame hx hreq
  size_pos := by
    rw [h.retry_size hreq]
    exact h.size_pos
  size_le := by
    rw [h.retry_size hreq]
    exact h.size_le

theorem accept_size (x : Exchange) {id : ℕ} (hid : id ∈ w.req) (headers : Value) :
    (accept id headers (took x w)).req.size + 1 = w.req.size := by
  have hpos : w.req.size ≠ 0 := by
    intro hzero
    have hempty : w.req.isEmpty = true := by
      rw [Std.TreeMap.isEmpty_eq_size_eq_zero, hzero]
      rfl
    exact Std.TreeMap.not_mem_of_isEmpty hempty hid
  rw [accept_req, took_req, erase_size hid]
  omega

/-- An accepted reply takes one exchange and one entry away, not always of the same request. -/
theorem frame_accept (h : Frame nonces w) {x : Exchange} (hx : x ∈ w.exchanges) {id : ℕ}
    (hid : id ∈ w.req) (headers : Value) : Frame nonces (accept id headers (took x w)) where
  nonces_eq := h.nonces_eq
  length_le := h.length_le
  height_lt := h.height_lt
  pos_le := h.pos_le
  end_le := by
    intro i r hr
    rw [accept_lookup] at hr
    split at hr
    · cases hr
    · exact h.end_le i r hr
  req_le := by
    intro i hi
    rw [accept_req, Std.TreeMap.mem_erase] at hi
    exact h.req_le i hi.2
  exchange := fun y hy => h.exchange y (List.mem_of_mem_erase hy)
  nodup := h.nodup.sublist (List.erase_sublist.map _)
  size_eq := by
    have hlen := h.erase_length hx
    have hsize := accept_size x hid headers
    rw [accept_exchanges, took_exchanges]
    omega
  endings := h.endings

end NoncesHeatmap.Network
