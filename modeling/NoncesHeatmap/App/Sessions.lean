import NoncesHeatmap.App.Ending
import NoncesHeatmap.Network.Honest
import NoncesHeatmap.Nonces.File

/-! # Runs of the program one after the other

Each run loads the nonces file that the last one left, and only a finished sync rewrites it. Against
daemons that answer from one chain, each of them up to a height of its own, the file holds a beginning of
the chain after any number of runs, whatever fails in them or ends them, and only such a beginning is
rendered. -/

namespace NoncesHeatmap
open Runs
set_option autoImplicit false

namespace Network

variable {d : Daemon} {nonces : List ℕ} {w : Network} {δ : Delivery} {truth : ℕ → ℕ} {height : ℕ}

/-- An answer from the chain, or an exchange for the header that has failed. -/
def Answered (truth : ℕ → ℕ) (height : ℕ) (δ : Delivery) : Prop :=
  Honest truth height δ ∨ δ.exchange.type = .lastBlockHeader ∧ δ.response = none

/-- A failed exchange for the header ends the run. -/
theorem connect_failed (hx : δ.exchange ∈ (connect nonces).exchanges) (hnone : δ.response = none) :
    deliver d (connect nonces) δ = onFatalError (headed nonces 0) := by
  rw [deliver_eq, took_connect hx]
  simp only [effect, retried_connect hx, hnone]
  rfl

/-- A sync that has nothing to do leaves the nonces alone, and there are as many as the chain has. -/
theorem connect_unmodified (hx : δ.exchange ∈ (connect nonces).exchanges) (hδ : Honest truth height δ)
    (hheight : height + 1 < 2 ^ 32) (hend : .onSyncDone false ∈ (deliver d (connect nonces) δ).endings) :
    (deliver d (connect nonces) δ).nonces = nonces ∧ nonces.length = height + 1 := by
  obtain ⟨doc, hresponse, hnamed⟩ := honest_connect hx hδ
  rw [deliver_eq, took_connect hx] at hend ⊢
  simp only [effect, retried_connect hx, hresponse, exchange_connect hx, perform] at hend ⊢
  change Json.getUint (Json.getObject (Json.getObject doc "result") "block_header") "height" 0 = height at hnamed
  generalize hreader : Json.getObject (Json.getObject doc "result") "block_header" = reader at hend hnamed ⊢
  have hlength : (headed nonces 0).nonces.length = nonces.length := rfl
  simp only [setLastBlockHeader, hnamed, u32_of_lt hheight, hlength] at hend ⊢
  by_cases hwrong : height = 0 ∨ nonces.length > height + 1
  · rw [if_pos hwrong] at hend
    simp [onFatalError, headed, init] at hend
  · rw [if_neg hwrong] at hend ⊢
    by_cases hmore : nonces.length < height + 1
    · rw [if_pos hmore] at hend
      have hsync : (sync d { headed nonces 0 with height := height }).endings = [] := requestLoop_endings d _ _
      rw [if_pos rfl, hsync] at hend
      exact absurd hend List.not_mem_nil
    · rw [if_neg hmore]
      exact ⟨rfl, by omega⟩

theorem connect_modified (hx : δ.exchange ∈ (connect nonces).exchanges) :
    .onSyncDone true ∉ (deliver d (connect nonces) δ).endings := by
  rcases connect_cases (d := d) hx with ⟨e, hend, -, -, -, hdone, -⟩ | ⟨doc, -, height, -, -, -, hd⟩
  · rw [hend, List.mem_singleton]
    exact Ne.symm hdone
  · have hsync : (sync d (headed nonces height)).endings = [] := requestLoop_endings d _ _
    rw [hd, hsync]
    exact List.not_mem_nil

/-- A sync on its way does not end as one that had nothing to do. -/
theorem syncing_unmodified (h : Syncing d nonces w) (hx : δ.exchange ∈ w.exchanges) :
    .onSyncDone false ∉ (deliver d w δ).endings := by
  rcases deliver_cases h hx with ⟨range, hretried, hd⟩ | hd | ⟨id, headers, -, hacc, hd⟩
  · rw [hd, (syncing_retry h hx (retried_lookup hretried)).endings]
    exact List.not_mem_nil
  · rw [hd]
    simp [onFatalError, h.endings]
  · have hends : (accept id headers (took δ.exchange w)).endings = [] := h.endings
    rw [hd, advance]
    split
    · rcases settle_save_endings (accept id headers (took δ.exchange w)) with hs | hs
      · rw [hs, saved_endings hends]
        simp
      · rw [hs, hends]
        simp
    · split
      · rw [getBlockHeadersRange_endings, hends]
        exact List.not_mem_nil
      · rw [hends]
        exact List.not_mem_nil

/-- A `Network` in the course of a run against the chain. -/
def Underway (d : Daemon) (truth : ℕ → ℕ) (nonces : List ℕ) (height : ℕ) (w : Network) : Prop :=
  w = connect nonces ∨ Syncing d nonces w ∧ HonestSync truth nonces height w

theorem Underway.endings (h : Underway d truth nonces height w) : w.endings = [] := by
  rcases h with rfl | ⟨h, -⟩
  · rfl
  · exact h.endings

theorem Underway.nonces_eq (h : Underway d truth nonces height w) : w.nonces = nonces := by
  rcases h with rfl | ⟨h, -⟩
  · rfl
  · exact h.nonces_eq

/-- The report of a run against the chain, with the nonces at that time. -/
structure Reported (truth : ℕ → ℕ) (nonces : List ℕ) (height : ℕ) (e : Ending) (after : List ℕ) : Prop where
  caught : e ≠ .outOfRange
  modified : e = .onSyncDone true → after = synced truth nonces height ∧ nonces.length ≤ height
  unmodified : e = .onSyncDone false → after = nonces ∧ nonces.length = height + 1

theorem reported_fatal (after : List ℕ) : Reported truth nonces height .onFatalError after :=
  ⟨by decide, fun h => Ending.noConfusion h, fun h => Ending.noConfusion h⟩

theorem underway_deliver (hheight : height + 1 < 2 ^ 32) (h : Underway d truth nonces height w)
    (hx : δ.exchange ∈ w.exchanges) (hδ : Answered truth height δ) :
    Underway d truth nonces height (deliver d w δ) ∨
      ∃ e, (deliver d w δ).endings = [e] ∧ Reported truth nonces height e (deliver d w δ).nonces := by
  have hone : ∀ {J : Network → Prop} {Q : Network → Prop},
      Phase d nonces J Q (deliver d w δ) → (Syncing d nonces (deliver d w δ) ∧ J (deliver d w δ)) ∨
        Q (deliver d w δ) ∧ ∃ e, (deliver d w δ).endings = [e] := by
    rintro J Q (hsync | ⟨hne, hQ⟩)
    · exact Or.inl hsync
    · right
      refine ⟨hQ, ?_⟩
      rcases deliver_endings d w δ with hsame | ⟨e, he⟩
      · exact absurd (hsame.trans h.endings) hne
      · exact ⟨e, by rw [he, h.endings]; rfl⟩
  have hreport : ∀ {e : Ending}, (deliver d w δ).endings = [e] → HonestEnd truth nonces height (deliver d w δ) →
      (.onSyncDone true ∈ (deliver d w δ).endings → nonces.length ≤ height) →
      (.onSyncDone false ∈ (deliver d w δ).endings →
        (deliver d w δ).nonces = nonces ∧ nonces.length = height + 1) →
      Reported truth nonces height e (deliver d w δ).nonces := by
    rintro e he ⟨hthrown, hdone⟩ hless hfalse
    rw [he] at hthrown hdone hless hfalse
    exact ⟨fun h => hthrown (by simp [h]), fun h => ⟨hdone (by simp [h]), hless (by simp [h])⟩,
      fun h => hfalse (by simp [h])⟩
  rcases hδ with hδ | ⟨htype, hnone⟩
  · rcases h with rfl | ⟨hsync, hJ⟩
    · rcases hone (honest_start hx hδ) with hnext | ⟨hend, e, he⟩
      · exact Or.inl (Or.inr hnext)
      · exact Or.inr ⟨e, he, hreport he hend (fun hmem => absurd hmem (connect_modified hx))
          (connect_unmodified hx hδ hheight)⟩
    · rcases hone (honest_step hsync hJ hx hδ) with hnext | ⟨hend, e, he⟩
      · exact Or.inl (Or.inr hnext)
      · have hless : nonces.length ≤ height := by
          have hle := hsync.length_le
          rwa [hJ.1.height_eq] at hle
        exact Or.inr ⟨e, he, hreport he hend (fun _ => hless) fun hmem => absurd hmem (syncing_unmodified hsync hx)⟩
  · rcases h with rfl | ⟨hsync, -⟩
    · rw [connect_failed hx hnone]
      exact Or.inr ⟨.onFatalError, rfl, reported_fatal _⟩
    · rw [(hsync.exchange _ hx).2] at htype
      cases htype

end Network

namespace App
open Network

variable {d : Daemon} {renders : List ℕ → Bool} {a : App} {truth : ℕ → ℕ} {nonces : List ℕ} {height : ℕ}

/-! ## One run -/

/-- What a run against the chain keeps. -/
structure Faithful (d : Daemon) (truth : ℕ → ℕ) (nonces : List ℕ) (height : ℕ) (a : App) : Prop where
  aborted : a.aborted = false
  network : ∀ w, a.network = some w → Underway d truth nonces height w
  modified : .onSyncDone true ∈ a.log → a.nonces = synced truth nonces height ∧ nonces.length ≤ height
  unmodified : .onSyncDone false ∈ a.log → a.nonces = nonces ∧ nonces.length = height + 1

theorem faithful_exec (d : Daemon) (truth : ℕ → ℕ) (nonces : List ℕ) (height : ℕ) :
    Faithful d truth nonces height (exec nonces) where
  aborted := rfl
  network := by
    rintro w ⟨⟩
    exact Or.inl rfl
  modified h := absurd h List.not_mem_nil
  unmodified h := absurd h List.not_mem_nil

/-- A report that reaches the `App` is handled to the end. -/
theorem faithful_handle (haborted : a.aborted = false) (hlog : a.log = []) {e : Ending}
    (he : Reported truth nonces height e a.nonces) : Faithful d truth nonces height (handle renders a e) := by
  cases e with
  | onFatalError =>
    refine ⟨haborted, ?_, ?_, ?_⟩ <;> simp [handle, onFatalError, close, act, hlog]
  | onSyncDone modified =>
    cases modified with
    | true =>
      refine ⟨haborted, ?_, fun _ => he.modified rfl, ?_⟩ <;> simp [handle, onSyncDone, close, act, hlog]
    | false =>
      refine ⟨haborted, ?_, ?_, fun _ => he.unmodified rfl⟩ <;> simp [handle, onSyncDone, close, act, hlog]
  | outOfRange => exact absurd rfl he.caught

theorem faithful_exiting (haborted : a.aborted = false) (hlog : a.log = []) :
    Faithful d truth nonces height (close 0 (act .exiting a)) := by
  refine ⟨haborted, ?_, ?_, ?_⟩ <;> simp [close, act, hlog]

/-- The labels of a run against the chain. -/
def Allowed (truth : ℕ → ℕ) (height : ℕ) : Event → Prop
  | .http δ => Answered truth height δ
  | _ => True

theorem faithful_next (hheight : height + 1 < 2 ^ 32) (hphase : Phase a) (h : Faithful d truth nonces height a) {e : Event}
    (he : (machine d renders).enabled a e) (hallowed : Allowed truth height e) :
    Faithful d truth nonces height ((machine d renders).next a e) := by
  cases hphase with
  | aborted haborted _ =>
    rw [h.aborted] at haborted
    cases haborted
  | closed hnet hsig hcon _ =>
    cases e with
    | http δ =>
      show Faithful d truth nonces height (onHttpData d renders δ a)
      simp only [onHttpData, hnet]
      exact h
    | timer => exact h
    | signal signum =>
      have hopen : a.signals = true := he.2
      rw [hsig] at hopen
      cases hopen
    | console command =>
      have hopen : a.console = true := he.2
      rw [hcon] at hopen
      cases hopen
  | alive w hnet hend hlog =>
    cases e with
    | http δ =>
      show Faithful d truth nonces height (onHttpData d renders δ a)
      have hx : δ.exchange ∈ w.exchanges := by
        have henabled := he.2
        simp only [enabled, hnet, Option.all_some, decide_eq_true_eq] at henabled
        exact henabled
      simp only [onHttpData, hnet, hend, List.length_nil, List.drop_zero]
      rcases underway_deliver hheight (h.network w hnet) hx hallowed with hnext | ⟨e, hone, hreport⟩
      · rw [hnext.endings]
        refine ⟨h.aborted, ?_, ?_, ?_⟩
        · rintro v ⟨⟩
          exact hnext
        · intro hmem
          rw [List.foldl_nil, hlog] at hmem
          exact absurd hmem List.not_mem_nil
        · intro hmem
          rw [List.foldl_nil, hlog] at hmem
          exact absurd hmem List.not_mem_nil
      · rw [hone]
        exact faithful_handle (a := { a with network := some (deliver d w δ), nonces := (deliver d w δ).nonces })
          h.aborted hlog hreport
    | timer => exact h
    | signal signum =>
      show Faithful d truth nonces height (onSignal signum a)
      unfold onSignal
      split
      · exact faithful_exiting h.aborted hlog
      · exact h
    | console command =>
      show Faithful d truth nonces height (onConsoleCommand command a)
      unfold onConsoleCommand
      split
      · exact faithful_exiting h.aborted hlog
      · exact h

/-! ## Many runs -/

/-- `exec()` in offline mode: the image is rendered from the nonces of the file. -/
def execOffline (renders : List ℕ → Bool) (nonces : List ℕ) : App :=
  let ok := renders nonces
  close (if ok then 0 else 1) (act (.render ok) { exec nonces with network := none })

/-- What the writing of the nonces file leaves: the array, the old file if it cannot be opened, or a file
that is cut off and does not parse. -/
inductive Saving where
  | written
  | notOpened
  | interrupted

def Saving.file (saving : Saving) (nonces : List ℕ) (file : Option Value) : Option Value :=
  match saving with
  | .written => some (Nonces.save nonces)
  | .notOpened => file
  | .interrupted => none

/-- One run of the program with all that happens in it, against a daemon at a height. -/
structure Session where
  daemon : Daemon
  renders : List ℕ → Bool
  offline : Bool
  events : List Event
  saving : Saving
  height : ℕ

namespace Session

variable (raw : Value → ℕ)

def loaded (file : Option Value) : List ℕ := Nonces.load raw file []

/-- The `App` at the end of the run. -/
def last (s : Session) (file : Option Value) : App :=
  if s.offline then execOffline s.renders (loaded raw file)
  else (App.machine s.daemon s.renders).after (exec (loaded raw file)) s.events

def saves : Action → Option (List ℕ)
  | .save nonces => some nonces
  | _ => none

/-- The nonces file after the run. -/
def file (s : Session) (file : Option Value) : Option Value :=
  ((s.last raw file).log.filterMap saves).foldl (fun file nonces => s.saving.file nonces file) file

/-- The runs of the program on one nonces file. -/
def machine : Machine (Option Value) Session where
  enabled file s := s.offline = true ∨ (App.machine s.daemon s.renders).Run (exec (loaded raw file)) s.events
  next file s := s.file raw file

/-- The daemon of the session answers from the chain. -/
def Answers (truth : ℕ → ℕ) (s : Session) : Prop :=
  s.height + 1 < 2 ^ 32 ∧ ∀ e ∈ s.events, Allowed truth s.height e

end Session

/-- The nonces of the first blocks of the chain. -/
def chain (truth : ℕ → ℕ) (count : ℕ) : List ℕ := (List.range count).map truth

theorem synced_chain {count : ℕ} (h : count ≤ height + 1) :
    synced truth (chain truth count) height = chain truth (height + 1) := by
  have hlength : (chain truth count).length = count := by rw [chain, List.length_map, List.length_range]
  have hsplit : List.range count ++ List.range' count (height + 1 - count) = List.range (height + 1) := by
    have happend : List.range' 0 count ++ List.range' (0 + count) (height + 1 - count) = List.range' 0 (count + (height + 1 - count)) :=
      List.range'_append_1
    rwa [Nat.zero_add, Nat.add_sub_cancel' h, ← List.range_eq_range', ← List.range_eq_range'] at happend
  rw [synced, hlength, chain, chain, ← hsplit, List.map_append]

/-- What is on the disk: nothing that can be read, or the beginning of the chain. -/
def Beginning (truth : ℕ → ℕ) (file : Option Value) : Prop :=
  file = none ∨ ∃ count, file = some (Nonces.save (chain truth count))

theorem Beginning.loaded {file : Option Value} (h : Beginning truth file) (htruth : ∀ height, truth height < 2 ^ 32)
    (raw : Value → ℕ) : ∃ count, Session.loaded raw file = chain truth count := by
  rcases h with rfl | ⟨count, rfl⟩
  · exact ⟨0, rfl⟩
  · refine ⟨count, Nonces.load_save raw ?_ []⟩
    intro nonce hnonce
    obtain ⟨height, -, rfl⟩ := List.mem_map.mp hnonce
    exact htruth height

/-- What a session does to the file and renders. -/
structure Sound (raw : Value → ℕ) (truth : ℕ → ℕ) (file : Option Value) (s : Session) : Prop where
  caught : (s.last raw file).aborted = false
  rendered : ∀ ok, .render ok ∈ (s.last raw file).log → (s.last raw file).nonces =
    if s.offline then Session.loaded raw file else chain truth (s.height + 1)
  kept : s.saving ≠ .interrupted → Session.loaded raw file <+: Session.loaded raw (s.file raw file)

variable {raw : Value → ℕ} {file : Option Value} {s : Session}

theorem faithful_run (hheight : height + 1 < 2 ^ 32) {events : List Event} (hphase : Phase a)
    (h : Faithful d truth nonces height a) (run : (App.machine d renders).Run a events)
    (hallowed : ∀ e ∈ events, Allowed truth height e) :
    Phase ((App.machine d renders).after a events) ∧
      Faithful d truth nonces height ((App.machine d renders).after a events) := by
  induction events generalizing a with
  | nil => exact ⟨hphase, h⟩
  | cons e events ih =>
    exact ih (phase_next hphase run.1) (faithful_next hheight hphase h run.1 (hallowed e List.mem_cons_self)) run.2
      fun other hother => hallowed other (List.mem_cons_of_mem _ hother)

/-- A session that leaves the file alone. -/
theorem sound_of_unsaved (hsaves : (s.last raw file).log.filterMap Session.saves = [])
    (hcaught : (s.last raw file).aborted = false)
    (hrendered : ∀ ok, .render ok ∈ (s.last raw file).log → (s.last raw file).nonces =
      if s.offline then Session.loaded raw file else chain truth (s.height + 1)) (hfile : Beginning truth file) :
    Beginning truth (s.file raw file) ∧ Sound raw truth file s := by
  have hsame : s.file raw file = file := by rw [Session.file, hsaves, List.foldl_nil]
  refine ⟨hsame.symm ▸ hfile, hcaught, hrendered, fun _ => ?_⟩
  exact ⟨[], by rw [List.append_nil, hsame]⟩

theorem offline_sound (hfile : Beginning truth file) (hoffline : s.offline = true) :
    Beginning truth (s.file raw file) ∧ Sound raw truth file s := by
  have hlast : s.last raw file = execOffline s.renders (Session.loaded raw file) := if_pos hoffline
  apply sound_of_unsaved
  · rw [hlast]
    rfl
  · rw [hlast]
    rfl
  · intro ok _
    rw [hlast, if_pos hoffline]
    rfl
  · exact hfile

theorem online_sound (htruth : ∀ height, truth height < 2 ^ 32) (hfile : Beginning truth file) (hs : s.Answers truth)
    (run : (App.machine s.daemon s.renders).Run (exec (Session.loaded raw file)) s.events) (honline : s.offline = false) :
    Beginning truth (s.file raw file) ∧ Sound raw truth file s := by
  obtain ⟨count, hloaded⟩ := hfile.loaded htruth raw
  have hlength : (Session.loaded raw file).length = count := by
    rw [hloaded, chain, List.length_map, List.length_range]
  have hlast : s.last raw file =
      (App.machine s.daemon s.renders).after (exec (Session.loaded raw file)) s.events :=
    if_neg (by rw [honline]; decide)
  obtain ⟨hphase, h⟩ := faithful_run hs.1 (phase_exec _) (faithful_exec s.daemon truth _ s.height) run hs.2
  rw [← hlast] at hphase h
  have hoff : ¬ s.offline = true := by
    rw [honline]
    decide
  cases hphase with
  | alive w hnet hend hlog => exact sound_of_unsaved (by rw [hlog]; rfl) h.aborted (by simp [hlog]) hfile
  | aborted haborted hlog =>
    rw [h.aborted] at haborted
    cases haborted
  | closed hnet hsig hcon hended =>
    cases hended with
    | exiting hrc hlog => exact sound_of_unsaved (by rw [hlog]; rfl) h.aborted (by simp [hlog]) hfile
    | fatal hrc hlog => exact sound_of_unsaved (by rw [hlog]; rfl) h.aborted (by simp [hlog]) hfile
    | unmodified ok hrc hlog =>
      obtain ⟨hsame, hcomplete⟩ := h.unmodified (by simp [hlog])
      refine sound_of_unsaved (by rw [hlog]; rfl) h.aborted (fun _ _ => ?_) hfile
      rw [if_neg hoff, hsame, ← hcomplete, hlength, hloaded]
    | modified ok hrc hlog =>
      obtain ⟨hsynced, hless⟩ := h.modified (by simp [hlog])
      have hchain : (s.last raw file).nonces = chain truth (s.height + 1) := by
        rw [hsynced, hloaded, synced_chain (by omega)]
      have hsaved : s.file raw file = s.saving.file (chain truth (s.height + 1)) file := by
        rw [Session.file, hlog, ← hchain]
        rfl
      have hprefix : Session.loaded raw file <+: chain truth (s.height + 1) := by
        rw [← hchain, hsynced]
        exact List.prefix_append _ _
      have hreload : Session.loaded raw (some (Nonces.save (chain truth (s.height + 1)))) = chain truth (s.height + 1) := by
        refine Nonces.load_save raw (fun nonce hnonce => ?_) []
        obtain ⟨height, -, rfl⟩ := List.mem_map.mp hnonce
        exact htruth height
      rw [hsaved]
      cases hsaving : s.saving with
      | written =>
        refine ⟨Or.inr ⟨_, rfl⟩, h.aborted, fun _ _ => ?_, fun _ => ?_⟩
        · rw [if_neg hoff, hchain]
        · rw [hsaved, hsaving, Saving.file, hreload]
          exact hprefix
      | notOpened =>
        refine ⟨hfile, h.aborted, fun _ _ => ?_, fun _ => ?_⟩
        · rw [if_neg hoff, hchain]
        · exact ⟨[], by rw [hsaved, hsaving, Saving.file, List.append_nil]⟩
      | interrupted =>
        refine ⟨Or.inl rfl, h.aborted, fun _ _ => ?_, fun hne => absurd hsaving hne⟩
        rw [if_neg hoff, hchain]

theorem session_sound (htruth : ∀ height, truth height < 2 ^ 32) (hfile : Beginning truth file) (hs : s.Answers truth)
    (henabled : (Session.machine raw).enabled file s) :
    Beginning truth (s.file raw file) ∧ Sound raw truth file s := by
  rcases henabled with hoffline | hrun
  · exact offline_sound hfile hoffline
  · cases honline : s.offline with
    | true => exact offline_sound hfile honline
    | false => exact online_sound htruth hfile hs hrun honline

/-- **The nonces file over many runs.** -/
theorem sessions_sound (raw : Value → ℕ) (truth : ℕ → ℕ) (htruth : ∀ height, truth height < 2 ^ 32)
    (sessions : List Session)
    (run : ((Session.machine raw).restrict fun _ s => s.Answers truth).Run none sessions) :
    Beginning truth ((Session.machine raw).after none sessions) ∧
      (Session.machine raw).EachStep (Sound raw truth) none sessions := by
  have hstep : ∀ (file : Option Value) (s : Session), Beginning truth file →
      ((Session.machine raw).restrict fun _ s => s.Answers truth).enabled file s →
      Beginning truth (s.file raw file) ∧ Sound raw truth file s :=
    fun file s hfile h => session_sound htruth hfile h.2 h.1
  constructor
  · rw [← Machine.after_restrict (fun _ s => s.Answers truth)]
    exact Machine.Run.invariant (fun file s hfile h => (hstep file s hfile h).1) (Or.inl rfl) run
  · rw [← Machine.eachStep_restrict (fun _ s => s.Answers truth)]
    exact Machine.Run.eachStep hstep (Or.inl rfl) run

/-- A chain of alternating nonces. -/
def alternating (height : ℕ) : ℕ := height % 2 + 5

def firstSession : Session where
  daemon := configured 1 1
  renders _ := true
  offline := false
  events := [.http (answer alternating 1 headerExchange), .timer, .http (failed (rangeExchange 2 0 1)),
    .http (answer alternating 1 (rangeExchange 3 0 1))]
  saving := .written
  height := 1

/-- A sync with a failure, and a run that renders offline what it has left. -/
theorem sessions_sound_two :
    (Beginning alternating ((Session.machine fun _ => 0).after none [firstSession, { firstSession with offline := true }]) ∧
      (Session.machine fun _ => 0).EachStep (Sound (fun _ => 0) alternating) none
        [firstSession, { firstSession with offline := true }]) ∧
      Session.loaded (fun _ => 0) ((Session.machine fun _ => 0).after none [firstSession]) = [5, 6] := by
  have hanswers : ∀ e ∈ firstSession.events, Allowed alternating 1 e := by
    have hheader : Allowed alternating 1 (.http (answer alternating 1 headerExchange)) :=
      Or.inl (honest_answer (by decide) (by decide) (by decide) (by decide))
    have hrange : Allowed alternating 1 (.http (answer alternating 1 (rangeExchange 3 0 1))) :=
      Or.inl (honest_answer (by decide) (by decide) (by decide) (by decide))
    have hfailed : Allowed alternating 1 (.http (failed (rangeExchange 2 0 1))) := Or.inl (honest_failed rfl)
    intro e he
    simp only [firstSession, List.mem_cons, List.not_mem_nil, or_false] at he
    rcases he with rfl | rfl | rfl | rfl
    · exact hheader
    · trivial
    · exact hfailed
    · exact hrange
  refine ⟨sessions_sound (fun _ => 0) alternating ?_ _ ?_, by decide⟩
  · intro height
    rw [alternating]
    omega
  · exact Machine.run_cons.mpr ⟨⟨Or.inr (by decide), by decide, hanswers⟩,
      Machine.run_cons.mpr ⟨⟨Or.inl rfl, by decide, hanswers⟩, Machine.run_nil _ _⟩⟩

end App
end NoncesHeatmap
