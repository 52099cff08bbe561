import NoncesHeatmap.Network.Answers
import NoncesHeatmap.Network.Coverage

/-! # Any daemon

`setBlockHeadersRange` stores the headers of a reply under the heights that the reply names and does
not compare them with a range. `saveSafe_iff_namesNeeded` says which replies make `m_data` leave the
heights of the sync or make `save()` throw. -/

namespace NoncesHeatmap.Network
open Runs
set_option autoImplicit false

variable {d : Daemon} {nonces : List ℕ} {w : Network} {δ : Delivery} {height : ℕ}

/-- The keys of `m_data` are heights of the sync, `save()` has not thrown, and `m_nonces` is as it was
or complete. -/
structure SaveSafe (nonces : List ℕ) (w : Network) : Prop where
  keys : ∀ h ∈ w.data, nonces.length ≤ h ∧ h ≤ w.height
  whole : w.nonces = nonces ∨ w.nonces.length = w.height + 1
  noThrow : .outOfRange ∉ w.endings

/-- A stored reply names heights of the sync only; if no other request is left and `m_pos` is above
the height, it names all that are missing. -/
def NamesNeeded (nonces : List ℕ) (w : Network) (δ : Delivery) : Prop :=
  ∀ id headers, effect w δ = .blockHeadersRange id headers → Accepted w id headers →
    if w.req.size = 1 ∧ w.height < w.pos then
      ∀ h, nonces.length ≤ h → h ≤ w.height → h ∈ w.data ∨ h ∈ named headers
    else ∀ h ∈ named headers, nonces.length ≤ h ∧ h ≤ w.height

theorem saveSafe_empty (hdata : w.data = ∅) (hnonces : w.nonces = nonces)
    (hend : .outOfRange ∉ w.endings) : SaveSafe nonces w where
  keys := by
    intro h hh
    simp [hdata] at hh
  whole := Or.inl hnonces
  noThrow := hend

theorem sync_data {height : ℕ} (hlen : nonces.length ≤ height) (hheight : height + 1 < 2 ^ 32) :
    (sync d (headed nonces height)).data = ∅ := by
  apply requestLoop_keeps (J := fun w => w.data = ∅) ?_ (frame_beginSync hlen hheight) rfl d.concurrency
  intro w _ hdata
  unfold getBlockHeadersRange
  split
  · exact hdata
  · exact hdata

theorem saveSafe_start (hx : δ.exchange ∈ (connect nonces).exchanges) :
    SaveSafe nonces (deliver d (connect nonces) δ) := by
  rcases connect_cases (d := d) hx with ⟨e, hend, hdata, -, hnonces, -, hrange⟩ |
    ⟨doc, -, height, hlen, hlt, -, hd⟩
  · apply saveSafe_empty hdata hnonces
    rw [hend, List.mem_singleton]
    exact Ne.symm hrange
  · have h := syncing_sync (d := d) hlen hlt
    rw [hd]
    apply saveSafe_empty (sync_data hlen hlt) h.nonces_eq
    rw [h.endings]
    exact List.not_mem_nil

theorem namesNeeded_start : NamesNeeded nonces (connect nonces) δ := by
  intro id headers _ hacc
  have hnone : id ∉ (connect nonces).req := by
    simp [connect, getLastBlockHeader, rpcSend, createRequest, init]
  exact absurd hacc.2.2 hnone

theorem saveSafe_accept_iff (hP : SaveSafe nonces w) {headers : Value} {v : Network}
    (hmem : ∀ a, a ∈ v.data ↔ a ∈ w.data ∨ a ∈ named headers) (hnonces : v.nonces = nonces)
    (hheight : v.height = w.height) (hend : v.endings = []) :
    SaveSafe nonces v ↔ ∀ a ∈ named headers, nonces.length ≤ a ∧ a ≤ w.height := by
  constructor
  · intro hv a ha
    have hkey := hv.keys a ((hmem a).mpr (Or.inr ha))
    rwa [hheight] at hkey
  · intro hnamed
    refine ⟨fun a ha => ?_, Or.inl hnonces, by simp [hend]⟩
    rw [hheight]
    rcases (hmem a).mp ha with hold | hnew
    · exact hP.keys a hold
    · exact hnamed a hnew

/-- At the end of the sync `save()` succeeds exactly if no height is missing. -/
theorem saveSafe_save_iff {v : Network} (hframe : Frame nonces v) :
    SaveSafe nonces (settle (save v)) ↔ ∀ h, nonces.length ≤ h → h ≤ v.height → h ∈ v.data := by
  have hpending : (∀ i ∈ pending v, i ∈ v.data) ↔ ∀ h, nonces.length ≤ h → h ≤ v.height → h ∈ v.data := by
    constructor
    · intro hall a hlow hhigh
      apply hall
      rw [mem_pending, hframe.nonces_eq]
      exact ⟨hlow, hhigh⟩
    · intro hall i hi
      rw [mem_pending, hframe.nonces_eq] at hi
      exact hall i hi.1 hi.2
  rw [← hpending]
  constructor
  · intro hsafe
    by_contra hmissing
    push Not at hmissing
    obtain ⟨part, hpart⟩ := settle_save_missing hmissing
    apply hsafe.noThrow
    rw [hpart]
    simp
  · intro hall
    rw [settle_save hall]
    refine ⟨fun a ha => ?_, Or.inr ?_, ?_⟩
    · simp [saved] at ha
    · have hlen := hframe.length_le
      have hn : v.nonces.length = nonces.length := by rw [hframe.nonces_eq]
      simp only [saved, List.length_append, List.length_map, pending, List.length_range']
      omega
    · simp [saved, hframe.endings]

theorem namesNeeded_iff {id : ℕ} {headers : Value} (heffect : effect w δ = .blockHeadersRange id headers) :
    NamesNeeded nonces w δ ↔ (Accepted w id headers →
      if w.req.size = 1 ∧ w.height < w.pos then
        ∀ a, nonces.length ≤ a → a ≤ w.height → a ∈ w.data ∨ a ∈ named headers
      else ∀ a ∈ named headers, nonces.length ≤ a ∧ a ≤ w.height) := by
  constructor
  · exact fun hneeded hacc => hneeded id headers heffect hacc
  · intro hneeded id' headers' heffect' hacc
    rw [heffect] at heffect'
    cases heffect'
    exact hneeded hacc

/-- What a stored reply must name depends on whether it completes the sync. -/
theorem saveSafe_reply_iff (h : Syncing d nonces w) {x : Exchange} (hx : x ∈ w.exchanges)
    (hP : SaveSafe nonces w) {id : ℕ} {headers : Value} (hacc : Accepted w id headers) :
    SaveSafe nonces (advance d (accept id headers (took x w))) ↔
      if w.req.size = 1 ∧ w.height < w.pos then
        ∀ a, nonces.length ≤ a → a ≤ w.height → a ∈ w.data ∨ a ∈ named headers
      else ∀ a ∈ named headers, nonces.length ≤ a ∧ a ≤ w.height := by
  have hsize := accept_size x hacc.2.2 headers
  have hroom := h.accept_room x hacc.2.2 headers
  have hframe := frame_accept h.toFrame hx hacc.2.2 headers
  have hpos' : (accept id headers (took x w)).pos = w.pos := rfl
  have hheight' : (accept id headers (took x w)).height = w.height := rfl
  have hmem : ∀ a, a ∈ (accept id headers (took x w)).data ↔ a ∈ w.data ∨ a ∈ named headers :=
    fun a => Set.ext_iff.mp (stored_accept id headers x w) a
  rcases advance_cases hroom with ⟨hpos, ha⟩ | ⟨hpos, hempty, ha⟩ | ⟨-, hmore, ha⟩ <;> rw [ha]
  · rw [if_neg (by omega)]
    exact saveSafe_accept_iff hP hmem hframe.nonces_eq rfl hframe.endings
  · rw [if_pos (by omega), saveSafe_save_iff hframe]
    simp only [hmem, hheight']
  · rw [if_neg (by omega)]
    exact saveSafe_accept_iff hP hmem hframe.nonces_eq rfl hframe.endings

theorem saveSafe_step (h : Syncing d nonces w) (hx : δ.exchange ∈ w.exchanges) (hP : SaveSafe nonces w) :
    SaveSafe nonces (deliver d w δ) ↔ NamesNeeded nonces w δ := by
  have htype := (h.exchange _ hx).2
  cases heffect : effect w δ with
  | retry range =>
    have hd : deliver d w δ = retry δ.exchange.rpcId range (took δ.exchange w) := by
      rw [deliver_eq, heffect]
      rfl
    rw [hd]
    refine ⟨fun _ id headers hreply => ?_, fun _ => ⟨hP.keys, hP.whole, hP.noThrow⟩⟩
    rw [heffect] at hreply
    cases hreply
  | fatal =>
    have hd : deliver d w δ = onFatalError (took δ.exchange w) := by
      rw [deliver_eq, heffect]
      rfl
    rw [hd]
    refine ⟨fun _ id headers hreply => ?_, fun _ => ⟨hP.keys, hP.whole, ?_⟩⟩
    · rw [heffect] at hreply
      cases hreply
    · simp [onFatalError, h.endings]
  | lastBlockHeader reader =>
    unfold effect at heffect
    rw [htype] at heffect
    split at heffect <;> simp at heffect
  | blockHeadersRange id headers =>
    rw [namesNeeded_iff heffect, deliver_reply heffect]
    by_cases hacc : Accepted w id headers
    · rw [if_pos hacc, saveSafe_reply_iff h hx hP hacc]
      exact ⟨fun hneeded _ => hneeded, fun hneeded => hneeded hacc⟩
    · rw [if_neg hacc]
      refine ⟨fun _ hacc' => absurd hacc' hacc, fun _ => ⟨hP.keys, hP.whole, ?_⟩⟩
      simp [onFatalError, h.endings]

/-- **When `save()` is safe.** Whatever the daemon sends, `m_data` stays within the heights of the
sync and `save()` never throws, exactly if the stored replies name the heights they are needed
for. -/
theorem saveSafe_iff_namesNeeded (d : Daemon) (nonces : List ℕ) (δs : List Delivery)
    (run : (machine d).Run (connect nonces) δs) :
    (machine d).Throughout (SaveSafe nonces) (connect nonces) δs ↔
      (machine d).EachStep (NamesNeeded nonces) (connect nonces) δs := by
  apply phases_throughout_iff (J := fun _ => True) (Q := fun _ => True)
    (saveSafe_empty rfl rfl List.not_mem_nil) ?_ ?_ run.restrict_true
  · intro δ hx _
    exact ⟨phase_start hx, fun _ => namesNeeded_start, fun _ => saveSafe_start hx⟩
  · intro w δ h _ hx _
    exact ⟨phase_step h hx, fun hP => saveSafe_step h hx hP⟩

/-- One header for the range `0..1`, with the id of its request. -/
def shortReply : List Delivery :=
  [answer id 1 headerExchange, reply (rangeExchange 2 0 1) 2 [headerValue 0 9]]

theorem saveSafe_iff_namesNeeded_short :
    (machine (configured 1 1)).Throughout (SaveSafe []) (connect []) shortReply ↔
      (machine (configured 1 1)).EachStep (NamesNeeded []) (connect []) shortReply :=
  saveSafe_iff_namesNeeded (configured 1 1) [] shortReply (by decide)

/-- The reply completes the sync, `save()` throws at the height 1 and leaves the nonce of the height 0
behind. -/
theorem short_reply_throws :
    (machine (configured 1 1)).Run (connect []) shortReply ∧
      ((machine (configured 1 1)).after (connect []) shortReply).endings = [.outOfRange] ∧
      ((machine (configured 1 1)).after (connect []) shortReply).nonces = [9] ∧
      ¬ SaveSafe [] ((machine (configured 1 1)).after (connect []) shortReply) := by
  refine ⟨by decide, by decide, by decide, fun h => ?_⟩
  exact absurd h.noThrow (by decide)

end NoncesHeatmap.Network
