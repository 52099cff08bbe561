import NoncesHeatmap.Http.Invariants
import NoncesHeatmap.Http.Request
import NoncesHeatmap.Network.Accounting

/-! # The sync over the HTTP contexts

`transport` is the machine of the contexts with the `Network` as their listener: what a report makes of the members
is `heard`, and the exchanges it starts are the contexts of `fetch`. The daemon, the parser and the order of the events
are arbitrary. Every run of it is a run of the sync, whose exchanges in flight are the contexts not yet reported. -/

namespace NoncesHeatmap
open Runs Function
set_option autoImplicit false

/-- What `rpcSend` gives to `fetch`; the `HttpListener` is the object 0. -/
def Exchange.request (dtoa : String → Bytes) (d : Daemon) (x : Exchange) : FetchRequest :=
  let req := (HttpRequest.ofValue dtoa .post (d.host.getD "") "/json_rpc" x.document).getD
    ⟨.post, ∅, [], d.host.getD "", "/json_rpc"⟩
  ⟨req.headers, req.body, d.tls, 0, x.type.code, x.rpcId⟩

namespace Network
variable {P : HttpParser} (d : Daemon) (dtoa : String → Bytes) (tooBig : Bytes → Bool) (nonces : List ℕ)

/-- The report of a context, with the body as `Document::Parse` reads its `c_str()`. -/
def parsed (data : HttpData Bytes) : HttpData (Option Value) where
  status := data.status
  userType := data.userType
  rpcId := data.rpcId
  headers := data.headers
  body := (Json.parse ⟨false, false⟩ tooBig (data.body.takeWhile (· ≠ 0))).toOption

/-- The `Network` after the calls of its `HttpListener`. -/
def heard (calls : List (ℕ × HttpData Bytes)) : Network :=
  calls.foldl (fun w call => settle (onHttpData d (parsed tooBig call.2) w)) (connect nonces)

/-- What the last call starts. The `App` destroys a `Network` that has ended, and with it the listener. -/
def react : Listeners := fun calls =>
  let before := heard d tooBig nonces calls.dropLast
  let w := heard d tooBig nonces calls
  ⟨(w.exchanges.drop before.exchanges.length).map (Exchange.request dtoa d), if w.endings = [] then [] else [0]⟩

def transport (P : HttpParser) : Machine (Http P) Http.Label :=
  (Http.machine P (react d dtoa tooBig nonces)).restrict fun _ l => ∀ req, l ≠ .fetch req

/-- The contexts after `Network::connect()`. -/
def connected (P : HttpParser) : Http P :=
  ((connect nonces).exchanges.map (Exchange.request dtoa d)).foldl Http.fetch (Http.init P)

/-! ## What a `Network` does does not depend on the exchanges in flight -/

def withExchanges (xs : List Exchange) (w : Network) : Network := { w with exchanges := xs }

/-- `f` starts the exchanges `new`, with the next ids, and changes the other members whatever is in flight. -/
structure Issues (f : Network → Network) (w : Network) (new : List Exchange) : Prop where
  frame : ∀ xs, f (withExchanges xs w) = withExchanges (xs ++ new) (f w)
  nextId : (f w).nextId = w.nextId + new.length
  ids : new.map Exchange.rpcId = List.range' (w.nextId + 1) new.length

variable {d dtoa tooBig nonces} {w : Network} {f g : Network → Network} {new : List Exchange}

theorem Issues.none (hframe : ∀ xs, f (withExchanges xs w) = withExchanges xs (f w)) (hnext : (f w).nextId = w.nextId) :
    Issues f w [] where
  frame xs := by
    rw [List.append_nil]
    exact hframe xs
  nextId := hnext
  ids := rfl

theorem Issues.comp {new' : List Exchange} (hf : Issues f w new) (hg : Issues g (f w) new') :
    Issues (fun w => g (f w)) w (new ++ new') where
  frame xs := by
    show g (f (withExchanges xs w)) = _
    rw [hf.frame, hg.frame, List.append_assoc]
  nextId := by
    show (g (f w)).nextId = _
    rw [hg.nextId, hf.nextId, List.length_append, Nat.add_assoc]
  ids := by
    have hnext : (f w).nextId + 1 = w.nextId + 1 + new.length := by
      rw [hf.nextId]
      omega
    rw [List.map_append, hf.ids, hg.ids, hnext, List.length_append, ← List.range'_append_1]

/-- The branch of `g` that is taken does not depend on what is in flight. -/
theorem Issues.branch (hf : Issues f w new) (h : ∀ xs, g (withExchanges xs w) = f (withExchanges xs w)) :
    Issues g w new := by
  have hsame : g w = f w := h w.exchanges
  refine ⟨fun xs => ?_, ?_, hf.ids⟩
  · rw [h, hsame]
    exact hf.frame xs
  · rw [hsame]
    exact hf.nextId

theorem issues_getBlockHeadersRangeOf (range : Range) (w : Network) :
    Issues (fun w => (getBlockHeadersRangeOf range w).2) w [⟨w.nextId + 1, .blockHeadersRange, some range⟩] where
  frame _ := rfl
  nextId := rfl
  ids := rfl

theorem issues_getBlockHeadersRange (d : Daemon) (w : Network) :
    ∃ new, Issues (fun w => (getBlockHeadersRange d w).2) w new := by
  by_cases hpos : w.pos > w.height
  · have hsame : Issues id w [] := .none (fun _ => rfl) rfl
    exact ⟨_, hsame.branch fun _ => congrArg Prod.snd (if_pos hpos)⟩
  · have hone := issues_getBlockHeadersRangeOf (Range.of w.pos d.maxRange w.height) w
    exact ⟨_, hone.branch fun _ => congrArg Prod.snd (if_neg hpos)⟩

theorem issues_requestLoop (d : Daemon) (count : ℕ) (w : Network) : ∃ new, Issues (requestLoop d count) w new := by
  induction count generalizing w with
  | zero => exact ⟨[], .none (fun _ => rfl) rfl⟩
  | succ count ih =>
    obtain ⟨new, hone⟩ := issues_getBlockHeadersRange d w
    obtain ⟨new', hrest⟩ := ih (getBlockHeadersRange d w).2
    exact ⟨new ++ new', hone.comp hrest⟩

theorem issues_sync (d : Daemon) (w : Network) : ∃ new, Issues (sync d) w new := by
  obtain ⟨new, hloop⟩ := issues_requestLoop d d.concurrency (beginSync d w)
  have hbegin : Issues (beginSync d) w [] := .none (fun _ => rfl) rfl
  exact ⟨[] ++ new, hbegin.comp hloop⟩

theorem issues_setLastBlockHeader (d : Daemon) (reader : Value) (w : Network) :
    ∃ new, Issues (fun w => (setLastBlockHeader d reader w).2) w new ∧
      ∀ xs, (setLastBlockHeader d reader (withExchanges xs w)).1 = (setLastBlockHeader d reader w).1 := by
  have hheight : Issues (fun w : Network => { w with height := Json.getUint reader "height" 0 }) w [] :=
    .none (fun _ => rfl) rfl
  by_cases hwrong : Json.getUint reader "height" 0 = 0 ∨ w.nonces.length > u32 (Json.getUint reader "height" 0 + 1)
  · have hset : ∀ xs, setLastBlockHeader d reader (withExchanges xs w) =
        (false, { withExchanges xs w with height := Json.getUint reader "height" 0 }) := fun xs => if_pos hwrong
    refine ⟨_, hheight.branch fun xs => congrArg Prod.snd (hset xs), fun xs => ?_⟩
    rw [hset]
    exact (congrArg Prod.fst (hset w.exchanges)).symm
  · by_cases hmore : w.nonces.length < u32 (Json.getUint reader "height" 0 + 1)
    · have hset : ∀ xs, setLastBlockHeader d reader (withExchanges xs w) =
          (true, sync d { withExchanges xs w with height := Json.getUint reader "height" 0 }) := fun xs =>
        (if_neg hwrong).trans (if_pos hmore)
      obtain ⟨new, hsync⟩ := issues_sync d { w with height := Json.getUint reader "height" 0 }
      refine ⟨_, (hheight.comp hsync).branch fun xs => congrArg Prod.snd (hset xs), fun xs => ?_⟩
      rw [hset]
      exact (congrArg Prod.fst (hset w.exchanges)).symm
    · have hset : ∀ xs, setLastBlockHeader d reader (withExchanges xs w) =
          (true, onSyncDone false { withExchanges xs w with height := Json.getUint reader "height" 0 }) := fun xs =>
        (if_neg hwrong).trans (if_neg hmore)
      have hdone : Issues (onSyncDone false) { w with height := Json.getUint reader "height" 0 } [] :=
        .none (fun _ => rfl) rfl
      refine ⟨_, (hheight.comp hdone).branch fun xs => congrArg Prod.snd (hset xs), fun xs => ?_⟩
      rw [hset]
      exact (congrArg Prod.fst (hset w.exchanges)).symm

theorem emplaceNonces_frame (is : List ℕ) (xs : List Exchange) (w : Network) :
    is.foldlM emplaceNonce (withExchanges xs w) =
      match is.foldlM emplaceNonce w with
      | .ok v => .ok (withExchanges xs v)
      | .error v => .error (withExchanges xs v) := by
  induction is generalizing w with
  | nil => rfl
  | cons i is ih =>
    rw [List.foldlM_cons, List.foldlM_cons]
    cases hnonce : w.data[i]? with
    | none =>
      have hsame : emplaceNonce w i = .error w := by rw [emplaceNonce, hnonce]
      have hset : emplaceNonce (withExchanges xs w) i = .error (withExchanges xs w) := by
        rw [emplaceNonce]
        simp only [withExchanges, hnonce]
      rw [hsame, hset]
      rfl
    | some nonce =>
      have hsame : emplaceNonce w i = .ok { w with nonces := w.nonces ++ [nonce] } := by rw [emplaceNonce, hnonce]
      have hset : emplaceNonce (withExchanges xs w) i = .ok (withExchanges xs { w with nonces := w.nonces ++ [nonce] }) := by
        rw [emplaceNonce]
        simp only [withExchanges, hnonce]
      rw [hsame, hset]
      exact ih { w with nonces := w.nonces ++ [nonce] }

theorem issues_save (w : Network) : Issues (fun w => settle (save w)) w [] := by
  refine .none (fun xs => ?_) ?_
  · have hframe := emplaceNonces_frame (pending w) xs { w with timer := false }
    show settle (do
      let v ← (pending w).foldlM emplaceNonce (withExchanges xs { w with timer := false })
      return onSyncDone true { v with data := ∅ }) = withExchanges xs (settle (do
      let v ← (pending w).foldlM emplaceNonce { w with timer := false }
      return onSyncDone true { v with data := ∅ }))
    rw [hframe]
    cases (pending w).foldlM emplaceNonce { w with timer := false } <;> rfl
  · by_cases hall : ∀ i ∈ pending w, i ∈ w.data
    · rw [settle_save hall]
      rfl
    · push Not at hall
      obtain ⟨part, hpart⟩ := settle_save_missing hall
      rw [hpart]

theorem issues_advance (d : Daemon) (w : Network) : ∃ new, Issues (advance d) w new := by
  by_cases hdone : w.req.isEmpty && decide (w.pos > w.height)
  · exact ⟨_, (issues_save w).branch fun _ => if_pos hdone⟩
  · by_cases hroom : w.req.size < d.concurrency
    · obtain ⟨new, hone⟩ := issues_getBlockHeadersRange d w
      exact ⟨new, hone.branch fun _ => (if_neg hdone).trans (if_pos hroom)⟩
    · have hsame : Issues id w [] := .none (fun _ => rfl) rfl
      exact ⟨_, hsame.branch fun _ => (if_neg hdone).trans (if_neg hroom)⟩

theorem issues_perform (d : Daemon) (rpcId : ℕ) (e : Effect) (w : Network) : ∃ new, Issues (perform d rpcId · e) w new := by
  have hfatal : ∀ w, Issues onFatalError w [] := fun _ => .none (fun _ => rfl) rfl
  cases e with
  | retry range => exact ⟨_, fun _ => rfl, rfl, (issues_getBlockHeadersRangeOf range w).ids⟩
  | fatal => exact ⟨[], hfatal w⟩
  | lastBlockHeader reader =>
    obtain ⟨new, hset, hdone⟩ := issues_setLastBlockHeader d reader w
    by_cases htrue : (setLastBlockHeader d reader w).1 = true
    · exact ⟨new, hset.branch fun xs => if_pos ((hdone xs).trans htrue)⟩
    · exact ⟨_, (hset.comp (hfatal _)).branch fun xs => if_neg fun h => htrue ((hdone xs).symm.trans h)⟩
  | blockHeadersRange id headers =>
    by_cases haccepted : Accepted w id headers
    · have haccept : Issues (accept id headers) w [] := .none (fun _ => rfl) rfl
      obtain ⟨new, hadvance⟩ := issues_advance d (accept id headers w)
      exact ⟨_, (haccept.comp hadvance).branch fun _ => if_pos haccepted⟩
    · exact ⟨_, (hfatal w).branch fun _ => if_neg haccepted⟩

/-- A report is handled alike whatever is in flight, and its exchange is taken or not. -/
theorem deliver_spec (d : Daemon) (w : Network) (δ : Delivery) :
    ∃ new, deliver d w δ = withExchanges (w.exchanges.erase δ.exchange ++ new) (deliver d w δ) ∧
      (deliver d w δ).nextId = w.nextId + new.length ∧
      new.map Exchange.rpcId = List.range' (w.nextId + 1) new.length ∧
      ∀ xs, settle (onHttpData d δ.data (withExchanges xs w)) = withExchanges (xs ++ new) (deliver d w δ) := by
  obtain ⟨new, hissues⟩ := issues_perform d δ.exchange.rpcId (effect w δ) w
  have hperform : ∀ xs, settle (onHttpData d δ.data (withExchanges xs w)) =
      perform d δ.exchange.rpcId (withExchanges xs w) (effect w δ) := by
    intro xs
    have htook : took δ.exchange (withExchanges (δ.exchange :: xs) w) = withExchanges xs w := by
      rw [took, withExchanges, List.erase_cons_head]
      rfl
    have hdeliver := deliver_eq d (withExchanges (δ.exchange :: xs) w) δ
    rw [deliver, htook] at hdeliver
    exact hdeliver
  have htook : deliver d w δ = withExchanges (w.exchanges.erase δ.exchange ++ new) (perform d δ.exchange.rpcId w (effect w δ)) :=
    (deliver_eq d w δ).trans (hissues.frame _)
  refine ⟨new, ?_, ?_, hissues.ids, fun xs => ?_⟩
  · rw [htook]
    rfl
  · rw [htook]
    exact hissues.nextId
  · rw [hperform, htook]
    exact hissues.frame xs

/-! ## The exchanges in flight are the contexts that are not reported -/

def unreported (h : Http P) : List ℕ := (List.range h.sequence).filter fun j => decide (Http.reported h j = 0)

/-- The context `c` of the id `j` is that of the exchange with the next id, if this is in flight. -/
structure Belongs (w : Network) (j : ℕ) (c : HttpContext P) : Prop where
  listener : c.listener = 0
  exchange : ∀ x ∈ w.exchanges, x.rpcId = j + 1 → c.data.userType = x.type.code ∧ c.data.rpcId = x.rpcId

variable (d tooBig nonces) in
/-- `w` is the state of the sync after the reports that were made. -/
def Follows (h : Http P) (w : Network) : Prop :=
  ∃ δs, (machine d).Run (connect nonces) δs ∧ (machine d).after (connect nonces) δs = w ∧
    δs.map Delivery.data = h.calls.map fun call => parsed tooBig call.2

variable (d tooBig nonces) in
structure Linked (h : Http P) (w : Network) : Prop where
  sequence : h.sequence = w.nextId
  calls : ∀ call ∈ h.calls, call.1 < h.sequence
  contexts : ∀ j c, h.contexts j = some c → j < h.sequence ∧ Belongs w j c
  heard : ∃ xs, heard d tooBig nonces h.calls = withExchanges xs w
  flight : w.exchanges.map Exchange.rpcId = (unreported h).map (· + 1)
  ended : w.endings ≠ [] → 0 ∈ h.expired
  stored : 0 ∉ h.expired → ∀ j ∈ unreported h, j ∈ h.storage

variable {h : Http P} {c : HttpContext P} {id : ℕ}

theorem mem_unreported {j : ℕ} : j ∈ unreported h ↔ j < h.sequence ∧ Http.reported h j = 0 := by
  rw [unreported, List.mem_filter, List.mem_range, decide_eq_true_eq]

theorem map_erase_of_nodup {α β : Type} [DecidableEq α] [DecidableEq β] (f : α → β) {xs : List α} {x : α} (hx : x ∈ xs)
    (hnodup : (xs.map f).Nodup) : (xs.erase x).map f = (xs.map f).erase (f x) := by
  induction xs with
  | nil => cases hx
  | cons y ys ih =>
    rw [List.map_cons, List.nodup_cons] at hnodup
    by_cases hy : y = x
    · rw [hy, List.erase_cons_head, List.map_cons, List.erase_cons_head]
    · have hmem : x ∈ ys := (List.mem_cons.mp hx).resolve_left (Ne.symm hy)
      have hne : f y ≠ f x := fun heq => hnodup.1 (heq ▸ List.mem_map_of_mem hmem)
      rw [List.erase_cons_tail (by simpa using hy), List.map_cons, List.map_cons, List.erase_cons_tail (by simpa using hne),
        ih hmem hnodup.2]

theorem unreported_call (h : Http P) (data : HttpData Bytes) (id : ℕ) :
    unreported { h with calls := h.calls ++ [(id, data)] } = (unreported h).erase id := by
  have hnodup : (unreported h).Nodup := List.nodup_range.filter _
  rw [hnodup.erase_eq_filter, unreported, unreported, List.filter_filter]
  refine List.filter_congr fun j _ => ?_
  rw [Http.reported_call]
  by_cases hj : id = j
  · subst hj
    simp
  · simp [hj, Ne.symm hj]

/-- What several `fetch` leave behind. -/
theorem fetches_spec (h : Http P) (reqs : List FetchRequest) :
    (reqs.foldl Http.fetch h).sequence = h.sequence + reqs.length ∧ (reqs.foldl Http.fetch h).calls = h.calls ∧
      (reqs.foldl Http.fetch h).expired = h.expired ∧
      (∀ j, j ∈ h.storage ∨ h.sequence ≤ j ∧ j < h.sequence + reqs.length → j ∈ (reqs.foldl Http.fetch h).storage) ∧
      ∀ j c, (reqs.foldl Http.fetch h).contexts j = some c →
        h.contexts j = some c ∨ ∃ i req, reqs[i]? = some req ∧ j = h.sequence + i ∧ c = .create P req := by
  induction reqs generalizing h with
  | nil =>
    refine ⟨rfl, rfl, rfl, fun j hj => hj.resolve_right ?_, fun j c hc => Or.inl hc⟩
    rintro ⟨hle, hlt⟩
    exact absurd hlt (not_lt.mpr hle)
  | cons req reqs ih =>
    obtain ⟨hsequence, hcalls, hexpired, hstorage, hcontexts⟩ := ih (Http.fetch h req)
    refine ⟨?_, hcalls, hexpired, fun j hj => hstorage j ?_, fun j c hc => ?_⟩
    · rw [List.foldl_cons, hsequence, List.length_cons]
      show h.sequence + 1 + reqs.length = _
      omega
    · show j ∈ insert h.sequence h.storage ∨ h.sequence + 1 ≤ j ∧ j < h.sequence + 1 + reqs.length
      rw [List.length_cons] at hj
      rcases hj with hold | hnew
      · exact Or.inl (Finset.mem_insert_of_mem hold)
      · by_cases heq : j = h.sequence
        · exact Or.inl (heq ▸ Finset.mem_insert_self _ _)
        · exact Or.inr (by omega)
    · rcases hcontexts j c hc with hold | ⟨i, req', hreq, rfl, hc'⟩
      · by_cases heq : j = h.sequence
        · subst heq
          have hcreate : HttpContext.create P req = c := by simpa [Http.fetch] using hold
          exact Or.inr ⟨0, req, rfl, rfl, hcreate.symm⟩
        · exact Or.inl (by simpa [Http.fetch, update_of_ne heq] using hold)
      · refine Or.inr ⟨i + 1, req', hreq, ?_, hc'⟩
        show h.sequence + 1 + i = h.sequence + (i + 1)
        omega

theorem rpcId_of_ids {a n i : ℕ} {x : Exchange} (hids : new.map Exchange.rpcId = List.range' a n) (hx : new[i]? = some x) :
    x.rpcId = a + i := by
  have hmap : (new.map Exchange.rpcId)[i]? = some x.rpcId := by rw [List.getElem?_map, hx, Option.map_some]
  rw [hids] at hmap
  obtain ⟨hlt, hi⟩ := List.getElem?_eq_some_iff.mp hmap
  rw [List.getElem_range'] at hi
  omega

theorem invoke_parts (react : Listeners) (id : ℕ) (c : HttpContext P) (h : Http P) :
    let reaction := react (h.calls ++ [(id, c.data)])
    let h' := Http.invoke react id c h
    h'.sequence = h.sequence + reaction.fetches.length ∧ h'.calls = h.calls ++ [(id, c.data)] ∧
      h'.expired = h.expired ∪ reaction.destroyed.toFinset ∧
      (∀ j, j ∈ h.storage ∨ h.sequence ≤ j ∧ j < h.sequence + reaction.fetches.length → j ∈ h'.storage) ∧
      ∀ j c, h'.contexts j = some c →
        h.contexts j = some c ∨ ∃ i req, reaction.fetches[i]? = some req ∧ j = h.sequence + i ∧ c = .create P req := by
  intro reaction h'
  obtain ⟨hsequence, hcalls, hexpired, hstorage, hcontexts⟩ :=
    fetches_spec { h with calls := h.calls ++ [(id, c.data)] } reaction.fetches
  exact ⟨hsequence, hcalls, congrArg (· ∪ reaction.destroyed.toFinset) hexpired, hstorage, hcontexts⟩

theorem unreported_invoke (react : Listeners) (hcalls : ∀ call ∈ h.calls, call.1 < h.sequence) (hid : id < h.sequence)
    (c : HttpContext P) :
    unreported (Http.invoke react id c h) =
      (unreported h).erase id ++ List.range' h.sequence (react (h.calls ++ [(id, c.data)])).fetches.length := by
  obtain ⟨hsequence, hcalls', -, -, -⟩ := invoke_parts react id c h
  have hreported : ∀ j, Http.reported (Http.invoke react id c h) j =
      Http.reported { h with calls := h.calls ++ [(id, c.data)] } j := fun j => congrArg (List.countP _) hcalls'
  have hrange : List.range (Http.invoke react id c h).sequence =
      List.range h.sequence ++ List.range' h.sequence (react (h.calls ++ [(id, c.data)])).fetches.length := by
    rw [hsequence, List.range_eq_range', List.range_eq_range', ← List.range'_append_1, Nat.zero_add]
  rw [unreported, hrange, List.filter_append, ← unreported_call h c.data id]
  congr 1
  · exact List.filter_congr fun j _ => congrArg (fun n => decide (n = 0)) (hreported j)
  · -- nothing was reported for an id that is new
    refine List.filter_eq_self.mpr fun j hj => decide_eq_true ?_
    have hle := (List.mem_range'_1.mp hj).1
    rw [hreported, Http.reported_call, if_neg (by omega)]
    exact Http.reported_of_le hcalls hle

variable (dtoa) in
/-- What the `Network` makes of a call that is a delivery `δ` to `w`. -/
theorem react_spec {w : Network} {calls : List (ℕ × HttpData Bytes)} {xs : List Exchange} {δ : Delivery}
    (hheard : heard d tooBig nonces calls = withExchanges xs w) (call : ℕ × HttpData Bytes)
    (hdata : δ.data = parsed tooBig call.2)
    (hframe : settle (onHttpData d δ.data (withExchanges xs w)) = withExchanges (xs ++ new) (deliver d w δ)) :
    heard d tooBig nonces (calls ++ [call]) = withExchanges (xs ++ new) (deliver d w δ) ∧
      (react d dtoa tooBig nonces (calls ++ [call])).fetches = new.map (Exchange.request dtoa d) ∧
      ((deliver d w δ).endings ≠ [] → 0 ∈ (react d dtoa tooBig nonces (calls ++ [call])).destroyed) := by
  have hlast : heard d tooBig nonces (calls ++ [call]) =
      settle (onHttpData d (parsed tooBig call.2) (heard d tooBig nonces calls)) := by
    rw [heard, List.foldl_append]
    rfl
  have hheard' : heard d tooBig nonces (calls ++ [call]) = withExchanges (xs ++ new) (deliver d w δ) := by
    rw [hlast, hheard, ← hdata, hframe]
  have hdrop : (withExchanges (xs ++ new) (deliver d w δ)).exchanges.drop (withExchanges xs w).exchanges.length = new :=
    List.drop_left
  refine ⟨hheard', ?_, fun hne => ?_⟩
  · rw [react, List.dropLast_concat]
    dsimp only
    rw [hheard', hheard, hdrop]
  · have hended : (withExchanges (xs ++ new) (deliver d w δ)).endings ≠ [] := hne
    rw [react]
    dsimp only
    rw [hheard', if_neg hended]
    exact List.mem_singleton_self 0

theorem Belongs.kept {w w' : Network} {x : Exchange} {j : ℕ} (hb : Belongs w j c) (hj : j < w.nextId)
    (hexchanges : w'.exchanges = w.exchanges.erase x ++ new)
    (hids : new.map Exchange.rpcId = List.range' (w.nextId + 1) new.length) : Belongs w' j c := by
  refine ⟨hb.listener, fun y hy hyid => ?_⟩
  rw [hexchanges] at hy
  rcases List.mem_append.mp hy with hy | hy
  · exact hb.exchange y (List.mem_of_mem_erase hy) hyid
  · obtain ⟨i, hi⟩ := List.mem_iff_getElem?.mp hy
    have hnew := rpcId_of_ids hids hi
    omega

theorem belongs_create (dtoa : String → Bytes) (d : Daemon) {w w' : Network} {x y : Exchange} {i : ℕ}
    (hle : ∀ z ∈ w.exchanges, z.rpcId ≤ w.nextId) (hexchanges : w'.exchanges = w.exchanges.erase x ++ new)
    (hids : new.map Exchange.rpcId = List.range' (w.nextId + 1) new.length) (hy : new[i]? = some y) :
    Belongs w' (w.nextId + i) (.create P (y.request dtoa d)) := by
  refine ⟨rfl, fun z hz hzid => ?_⟩
  rw [hexchanges] at hz
  have hyid := rpcId_of_ids hids hy
  rcases List.mem_append.mp hz with hz | hz
  · have hold := hle z (List.mem_of_mem_erase hz)
    omega
  · obtain ⟨k, hk⟩ := List.mem_iff_getElem?.mp hz
    have hkid := rpcId_of_ids hids hk
    have hki : k = i := by omega
    rw [hki, hy] at hk
    obtain rfl := Option.some.inj hk
    exact ⟨rfl, rfl⟩

/-- The exchanges in flight after a report, and the contexts not reported. -/
theorem flight_invoke {w : Network} {x : Exchange} (hsequence : h.sequence = w.nextId)
    (hflight : w.exchanges.map Exchange.rpcId = (unreported h).map (· + 1)) (hx : x ∈ w.exchanges) (hxid : x.rpcId = id + 1)
    (hids : new.map Exchange.rpcId = List.range' (w.nextId + 1) new.length) :
    (w.exchanges.erase x ++ new).map Exchange.rpcId =
      ((unreported h).erase id ++ List.range' h.sequence new.length).map (· + 1) := by
  have hinjective : Injective (· + 1 : ℕ → ℕ) := Nat.succ_injective
  have hnodup : (w.exchanges.map Exchange.rpcId).Nodup := by
    rw [hflight]
    exact (List.nodup_range.filter _).map hinjective
  have hnew : (List.range' h.sequence new.length).map (· + 1) = List.range' (w.nextId + 1) new.length := by
    rw [← hsequence, Nat.add_comm h.sequence 1, ← List.map_add_range']
    exact List.map_congr_left fun j _ => Nat.add_comm j 1
  rw [List.map_append, List.map_append, map_erase_of_nodup _ hx hnodup, hflight, hids, hnew, hxid,
    List.map_erase hinjective]

variable (dtoa) in
/-- One call of the listener, for an exchange that was not reported before, is one delivery to the sync. -/
theorem linked_invoke {w : Network} (hf : Follows d tooBig nonces h w) (hl : Linked d tooBig nonces h w)
    (hb : Belongs w id c) (hid : id < h.sequence) (hlisten : Http.httpListener h c = true)
    (hzero : Http.reported h id = 0) :
    let h' := Http.invoke (react d dtoa tooBig nonces) id c h
    ∃ w', Follows d tooBig nonces h' w' ∧ Linked d tooBig nonces h' w' ∧ Belongs w' id c := by
  intro h'
  obtain ⟨-, halive⟩ := Http.httpListener_iff.mp hlisten
  rw [hb.listener] at halive
  have hmem : id ∈ unreported h := mem_unreported.mpr ⟨hid, hzero⟩
  obtain ⟨x, hx, hxid⟩ : ∃ x ∈ w.exchanges, x.rpcId = id + 1 := by
    have hids : id + 1 ∈ w.exchanges.map Exchange.rpcId := by
      rw [hl.flight]
      exact List.mem_map_of_mem hmem
    exact List.mem_map.mp hids
  obtain ⟨htype, hrpc⟩ := hb.exchange x hx hxid
  obtain ⟨δ, hδ⟩ : ∃ δ : Delivery, δ = ⟨x, c.data.status, c.data.headers, (parsed tooBig c.data).body⟩ := ⟨_, rfl⟩
  have hdata : δ.data = parsed tooBig c.data := by
    rw [hδ, Delivery.data, parsed, ← htype, ← hrpc]
  have hexchange : δ.exchange = x := by rw [hδ]
  obtain ⟨new, hdeliver, hnext, hids, hframe⟩ := deliver_spec d w δ
  rw [hexchange] at hdeliver
  have hexchanges : (deliver d w δ).exchanges = w.exchanges.erase x ++ new := congrArg Network.exchanges hdeliver
  have hendings : w.endings = [] := by
    by_contra hne
    exact halive (hl.ended hne)
  obtain ⟨xs, hheard⟩ := hl.heard
  obtain ⟨hheard', hfetches, hdestroyed⟩ := react_spec dtoa hheard (id, c.data) hdata (hframe xs)
  obtain ⟨hsequence, hcalls, hexpired, hstorage, hcontexts⟩ := invoke_parts (react d dtoa tooBig nonces) id c h
  have hunreported := unreported_invoke (react d dtoa tooBig nonces) hl.calls hid c
  rw [hfetches] at hsequence hstorage hcontexts hunreported
  rw [List.length_map] at hsequence hstorage hunreported
  have hle : ∀ z ∈ w.exchanges, z.rpcId ≤ w.nextId := by
    intro z hz
    have hmap : z.rpcId ∈ (unreported h).map (· + 1) := by
      rw [← hl.flight]
      exact List.mem_map_of_mem hz
    obtain ⟨j, hj, hzid⟩ := List.mem_map.mp hmap
    have hlt := (mem_unreported.mp hj).1
    have hsequence := hl.sequence
    omega
  refine ⟨deliver d w δ, ?_, ?_, hb.kept (hl.sequence ▸ hid) hexchanges hids⟩
  · obtain ⟨δs, hrun, hafter, hmap⟩ := hf
    refine ⟨δs ++ [δ], Machine.run_snoc.mpr ⟨hrun, ?_⟩, ?_, ?_⟩
    · rw [hafter]
      exact ⟨hendings, hexchange.symm ▸ hx⟩
    · rw [Machine.after_append, hafter]
      rfl
    · rw [hcalls, List.map_append, List.map_append, hmap, List.map_singleton, hdata]
      rfl
  · exact {
      sequence := by rw [hsequence, hnext, hl.sequence]
      calls := by
        intro call hcall
        rw [hcalls] at hcall
        rw [hsequence]
        rcases List.mem_append.mp hcall with hcall | hcall
        · exact Nat.lt_add_right _ (hl.calls call hcall)
        · rw [List.mem_singleton.mp hcall]
          exact Nat.lt_add_right _ hid
      contexts := by
        intro j c hc
        rw [hsequence]
        rcases hcontexts j c hc with hold | ⟨i, req, hreq, rfl, rfl⟩
        · obtain ⟨hj, hb⟩ := hl.contexts j c hold
          exact ⟨Nat.lt_add_right _ hj, hb.kept (hl.sequence ▸ hj) hexchanges hids⟩
        · obtain ⟨y, hy, rfl⟩ := Option.map_eq_some_iff.mp (List.getElem?_map.symm.trans hreq)
          obtain ⟨hi, -⟩ := List.getElem?_eq_some_iff.mp hy
          refine ⟨Nat.add_lt_add_left hi _, ?_⟩
          rw [hl.sequence]
          exact belongs_create dtoa d hle hexchanges hids hy
      heard := ⟨xs ++ new, by rw [hcalls]; exact hheard'⟩
      flight := by
        rw [hexchanges, hunreported]
        exact flight_invoke hl.sequence hl.flight hx hxid hids
      ended := by
        intro hne
        rw [hexpired]
        exact Finset.mem_union_right _ (List.mem_toFinset.mpr (hdestroyed hne))
      stored := by
        intro hnot j hj
        rw [hexpired, Finset.mem_union, not_or] at hnot
        rw [hunreported] at hj
        rcases List.mem_append.mp hj with hj | hj
        · exact hstorage j (Or.inl (hl.stored hnot.1 j (List.mem_of_mem_erase hj)))
        · exact hstorage j (Or.inr (List.mem_range'_1.mp hj)) }

/-! ## Events and runs -/

/-- The context `id` and the rest of the world are those of some state of the sync. -/
def InSync (d : Daemon) (tooBig : Bytes → Bool) (nonces : List ℕ) (id : ℕ) (s : HttpContext P × Http P) : Prop :=
  ∃ w, Follows d tooBig nonces s.2 w ∧ Linked d tooBig nonces s.2 w ∧ Belongs w id s.1 ∧ id < s.2.sequence

theorem inSync_kept (dtoa : String → Bytes) (id : ℕ) :
    Http.Kept (react d dtoa tooBig nonces) id (InSync (P := P) d tooBig nonces id) where
  context := by
    rintro c c' h hsame ⟨w, hf, hl, hb, hid⟩
    refine ⟨w, hf, hl, ⟨hsame.listener.trans hb.listener, fun x hx hxid => ?_⟩, hid⟩
    obtain ⟨htype, hrpc⟩ := hb.exchange x hx hxid
    exact ⟨hsame.userType.trans htype, hsame.rpcId.trans hrpc⟩
  invoke := by
    rintro c h hlisten hzero ⟨w, hf, hl, hb, hid⟩
    obtain ⟨w', hf', hl', hb'⟩ := linked_invoke dtoa hf hl hb hid hlisten hzero
    have hsequence := (invoke_parts (react d dtoa tooBig nonces) id c h).1
    exact ⟨w', hf', hl', hb', lt_of_lt_of_le hid (hsequence ▸ Nat.le_add_right _ _)⟩
  erase := by
    rintro c h hnobody ⟨w, hf, hl, hb, hid⟩
    refine ⟨w, hf, ⟨hl.sequence, hl.calls, hl.contexts, hl.heard, hl.flight, hl.ended, fun hnot j hj => ?_⟩, hb, hid⟩
    refine Finset.mem_erase.mpr ⟨?_, hl.stored hnot j hj⟩
    rintro rfl
    have hexpired := hnobody (mem_unreported.mp hj).2
    rw [hb.listener] at hexpired
    exact hnot hexpired

structure Synced (d : Daemon) (tooBig : Bytes → Bool) (nonces : List ℕ) (h : Http P) : Prop where
  wellFormed : Http.WellFormed h
  linked : ∃ w, Follows d tooBig nonces h w ∧ Linked d tooBig nonces h w

theorem synced_connected (d : Daemon) (dtoa : String → Bytes) (tooBig : Bytes → Bool) (nonces : List ℕ) (P : HttpParser) :
    Synced d tooBig nonces (connected d dtoa nonces P) where
  wellFormed := Http.wellFormed_fetch Http.wellFormed_init _
  linked := by
    refine ⟨connect nonces, ⟨[], trivial, rfl, rfl⟩, rfl, ?_, ?_, ⟨_, rfl⟩, rfl, fun hne => absurd rfl hne, ?_⟩
    · intro call hcall
      cases hcall
    · intro j c hc
      by_cases hj : j = 0
      · subst hj
        have hcreate : HttpContext.create P (Exchange.request dtoa d ⟨1, .lastBlockHeader, none⟩) = c := Option.some.inj hc
        subst hcreate
        refine ⟨Nat.zero_lt_one, rfl, fun x hx _ => ?_⟩
        obtain rfl := List.mem_singleton.mp hx
        exact ⟨rfl, rfl⟩
      · have hnone : (connected d dtoa nonces P).contexts j = none := update_of_ne hj _ _
        rw [hnone] at hc
        cases hc
    · intro _ j hj
      obtain rfl := List.mem_singleton.mp hj
      exact Finset.mem_insert_self 0 ∅

theorem synced_next (hs : Synced d tooBig nonces h) {l : Http.Label} (hl : (transport d dtoa tooBig nonces P).enabled h l) :
    Synced d tooBig nonces ((transport d dtoa tooBig nonces P).next h l) := by
  obtain ⟨hw, w, hf, hlinked⟩ := hs
  refine ⟨Http.wellFormed_next hw hl.1, ?_⟩
  cases l with
  | fetch req => exact absurd rfl (hl.2 req)
  | destroy listener =>
    refine ⟨w, hf, hlinked.sequence, hlinked.calls, hlinked.contexts, hlinked.heard, hlinked.flight, fun hne => ?_,
      fun hnot => hlinked.stored fun hold => hnot (Finset.mem_insert_of_mem hold)⟩
    exact Finset.mem_insert_of_mem (hlinked.ended hne)
  | event id e =>
    obtain ⟨c, hc, he⟩ := hl.1
    obtain ⟨hid, hb⟩ := hlinked.contexts id c hc
    obtain ⟨w', hf', hl', hb', hid'⟩ := (inSync_kept dtoa id).event hw hc he ⟨w, hf, hlinked, hb, hid⟩
    have hset : ∀ entry : Option (HttpContext P), (∀ c', entry = some c' → Belongs w' id c') →
        Linked d tooBig nonces { (Http.onEvent (react d dtoa tooBig nonces) e id c h).2 with
          contexts := update (Http.onEvent (react d dtoa tooBig nonces) e id c h).2.contexts id entry } w' := by
      intro entry hentry
      refine ⟨hl'.sequence, hl'.calls, fun j c' hc' => ?_, hl'.heard, hl'.flight, hl'.ended, hl'.stored⟩
      by_cases hj : j = id
      · subst hj
        exact ⟨hid', hentry c' (by simpa using hc')⟩
      · exact hl'.contexts j c' (by simpa [update_of_ne hj] using hc')
    have hevent : ∃ entry, (transport d dtoa tooBig nonces P).next h (.event id e) =
        { (Http.onEvent (react d dtoa tooBig nonces) e id c h).2 with
          contexts := update (Http.onEvent (react d dtoa tooBig nonces) e id c h).2.contexts id entry } ∧
        ∀ c', entry = some c' → c' = (Http.onEvent (react d dtoa tooBig nonces) e id c h).1 := by
      have hnext : (transport d dtoa tooBig nonces P).next h (.event id e) =
          Http.next (react d dtoa tooBig nonces) h (.event id e) := rfl
      rw [hnext, Http.next, hc]
      cases e with
      | closed =>
        refine ⟨none, rfl, fun c' hc' => ?_⟩
        cases hc'
      | _ => exact ⟨some _, rfl, fun c' hc' => (Option.some.inj hc').symm⟩
    obtain ⟨entry, hnext, hentry⟩ := hevent
    rw [hnext]
    exact ⟨w', hf', hset entry fun c' hc' => hentry c' hc' ▸ hb'⟩

/-- A run that has not ended waits for at least one exchange, and for no more than the concurrency allows. -/
theorem exchanges_bounds {δs : List Delivery} (run : (machine d).Run (connect nonces) δs)
    (halive : ((machine d).after (connect nonces) δs).endings = []) :
    1 ≤ ((machine d).after (connect nonces) δs).exchanges.length ∧
      ((machine d).after (connect nonces) δs).exchanges.length ≤ d.concurrency := by
  by_cases hne : δs = []
  · subst hne
    exact ⟨le_rfl, d.concurrency_pos⟩
  · have hsyncing := run_syncing run hne halive
    rw [← hsyncing.size_eq]
    exact ⟨hsyncing.size_pos, hsyncing.size_le⟩

/-- **The sync over HTTP.** Whatever the events of the contexts are, and in whatever order they come, the reports that the
`Network` hears are deliveries of a run of the sync, each for an exchange in flight, and the exchanges in flight are those
of the contexts not yet reported. While the listener exists there is such a context, there are no more of them than the
concurrency allows, and each is still there to be reported. -/
theorem sync_refined (d : Daemon) (dtoa : String → Bytes) (tooBig : Bytes → Bool) (nonces : List ℕ) (P : HttpParser)
    (labels : List Http.Label) (run : (transport d dtoa tooBig nonces P).Run (connected d dtoa nonces P) labels) :
    let h := (transport d dtoa tooBig nonces P).after (connected d dtoa nonces P) labels
    ∃ δs, (machine d).Run (connect nonces) δs ∧
      δs.map Delivery.data = (h.calls.map fun call => parsed tooBig call.2) ∧
      let w := (machine d).after (connect nonces) δs
      (∃ xs, heard d tooBig nonces h.calls = withExchanges xs w) ∧
        w.exchanges.map Exchange.rpcId = (unreported h).map (· + 1) ∧
        (0 ∉ h.expired → w.endings = [] ∧ 1 ≤ (unreported h).length ∧ (unreported h).length ≤ d.concurrency ∧
          ∀ j ∈ unreported h, j ∈ h.storage) := by
  intro h
  obtain ⟨-, w, ⟨δs, hrun, hafter, hmap⟩, hl⟩ : Synced d tooBig nonces h :=
    run.invariant (fun _ _ hs hl => synced_next hs hl) (synced_connected d dtoa tooBig nonces P)
  refine ⟨δs, hrun, hmap, ?_⟩
  intro u
  have hu : u = w := hafter
  have hlength : u.exchanges.length = (unreported h).length := by
    rw [hu, ← List.length_map Exchange.rpcId, hl.flight, List.length_map]
  refine ⟨hu ▸ hl.heard, hu ▸ hl.flight, fun hnot => ?_⟩
  have halive : u.endings = [] := by
    by_contra hne
    exact hnot (hl.ended (hu ▸ hne))
  obtain ⟨hsome, hmost⟩ := exchanges_bounds hrun halive
  exact ⟨halive, hlength ▸ hsome, hlength ▸ hmost, hl.stored hnot⟩

/-- A parser that reads the header of the block 1500 in the first bytes of every context. -/
def headerReply : HttpParser :=
  .script [[.headerField (ascii "Content-Type"), .headerValue (ascii "application/json"), .headersComplete 200,
    .body (ascii "\x7b\"id\":1,\"result\":\x7b\"block_header\":\x7b\"height\":1500,\"nonce\":7\x7d\x7d\x7d"),
    .messageComplete]]

theorem transport_event {h : Http P} {id : ℕ} {e : Http.Event} (he : (h.contexts id).any (Http.enabledEvent · e) = true) :
    (transport d dtoa tooBig nonces P).enabled h (.event id e) := by
  obtain ⟨c, hc, henabled⟩ := (Option.any_eq_true _ _).mp he
  exact ⟨⟨c, hc, henabled⟩, fun req heq => Http.Label.noConfusion heq⟩

/-- The header of the last block is reported, and of the two ranges that are then in flight the first one fails, whose
range is asked for again. -/
theorem sync_refined_again :
    let d := Daemon.default (some "127.0.0.1")
    ∃ δs, (machine d).Run (connect []) δs ∧ δs.length = 2 ∧
      ((machine d).after (connect []) δs).exchanges.map Exchange.rpcId = [3, 4] := by
  intro d
  obtain ⟨δs, hrun, hmap, -, hflight, -⟩ := sync_refined d (fun _ => []) (fun _ => false) [] headerReply
    [.event 0 (.connected 0), .event 0 (.read [1]), .event 1 (.connected 0), .event 1 (.readError (-104))]
    ⟨transport_event (by decide +kernel), transport_event (by decide +kernel), transport_event (by decide +kernel),
      transport_event (by decide +kernel), trivial⟩
  refine ⟨δs, hrun, ?_, ?_⟩
  · rw [← List.length_map Delivery.data, hmap, List.length_map]
    decide +kernel
  · rw [hflight]
    decide +kernel

end Network
end NoncesHeatmap
