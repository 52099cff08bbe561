import NoncesHeatmap.App.Sessions
import NoncesHeatmap.Json.Files

/-! # The nonces file as bytes

The program reads the nonces file through `Json::get` and rewrites it through `Json::save`. A run of the
program can be stopped while it writes, which leaves any beginning of the text. Whatever the daemons answer,
the nonces have 32 bits, so that the text can be written, and only the whole text is read again. The runs of
the program on the bytes are then runs on the documents. -/

namespace NoncesHeatmap
open Runs
set_option autoImplicit false

namespace Network

variable {d : Daemon} {w : Network}

/-- Every nonce has 32 bits. -/
structure Narrow (w : Network) : Prop where
  nonces : ∀ nonce ∈ w.nonces, nonce < 2 ^ 32
  data : ∀ height nonce : ℕ, w.data[height]? = some nonce → nonce < 2 ^ 32

theorem narrow_connect {nonces : List ℕ} (h : ∀ nonce ∈ nonces, nonce < 2 ^ 32) : Narrow (connect nonces) := by
  refine ⟨h, fun height nonce hdata => ?_⟩
  have hempty : (connect nonces).data[height]? = none := Std.TreeMap.getElem?_emptyc
  rw [hempty] at hdata
  cases hdata

theorem narrow_getBlockHeadersRange (h : Narrow w) : Narrow (getBlockHeadersRange d w).2 := by
  unfold getBlockHeadersRange
  split
  · exact h
  · exact ⟨h.nonces, h.data⟩

theorem narrow_requestLoop (h : Narrow w) (count : ℕ) : Narrow (requestLoop d count w) := by
  induction count generalizing w with
  | zero => exact h
  | succ count ih => exact ih (narrow_getBlockHeadersRange h)

theorem narrow_accept (h : Narrow w) (id : ℕ) (headers : Value) : Narrow (accept id headers w) := by
  refine ⟨h.nonces, ?_⟩
  have hfold : ∀ (l : List Value) (data : Std.TreeMap ℕ ℕ),
      (∀ height nonce : ℕ, data[height]? = some nonce → nonce < 2 ^ 32) →
      ∀ height nonce : ℕ, (l.foldl insertHeader data)[height]? = some nonce → nonce < 2 ^ 32 := by
    intro l
    induction l with
    | nil => exact fun data hdata => hdata
    | cons header l ih =>
      refine fun data hdata => ih (insertHeader data header) fun height nonce hget => ?_
      rw [insertHeader, Std.TreeMap.getElem?_insertIfNew] at hget
      split at hget
      · obtain rfl := Option.some.inj hget
        exact Json.getUint_lt (by decide)
      · exact hdata height nonce hget
  exact hfold headers.getArray w.data h.data

/-- The loop of `save()`, whether or not it throws. -/
theorem narrow_emplace (h : Narrow w) (heights : List ℕ) : Narrow (settle (heights.foldlM emplaceNonce w)) := by
  induction heights generalizing w with
  | nil => exact h
  | cons i heights ih =>
    rw [List.foldlM_cons, emplaceNonce]
    cases hi : w.data[i]? with
    | none => exact ⟨h.nonces, h.data⟩
    | some nonce =>
      refine ih ⟨?_, h.data⟩
      exact List.forall_mem_append.mpr ⟨h.nonces, List.forall_mem_singleton.mpr (h.data i nonce hi)⟩

theorem narrow_save (h : Narrow w) : Narrow (settle (save w)) := by
  have hloop := narrow_emplace (w := { w with timer := false }) ⟨h.nonces, h.data⟩ (pending w)
  simp only [pending] at hloop
  simp only [save]
  cases hfold : (List.range' w.nonces.length (w.height + 1 - w.nonces.length)).foldlM emplaceNonce
      { w with timer := false } with
  | error v =>
    rw [hfold] at hloop
    exact ⟨hloop.nonces, hloop.data⟩
  | ok v =>
    rw [hfold] at hloop
    refine ⟨hloop.nonces, fun height nonce hdata => ?_⟩
    have hempty : (∅ : Std.TreeMap ℕ ℕ)[height]? = none := Std.TreeMap.getElem?_emptyc
    cases hempty.symm.trans hdata

theorem narrow_setLastBlockHeader (h : Narrow w) (reader : Value) : Narrow (setLastBlockHeader d reader w).2 := by
  rcases setLastBlockHeader_cases d reader w with hset | ⟨-, -, hset⟩ | hset <;> rw [hset]
  · exact ⟨h.nonces, h.data⟩
  · have hbegin : Narrow (beginSync d { w with height := Json.getUint reader "height" 0 }) := ⟨h.nonces, h.data⟩
    exact narrow_requestLoop hbegin d.concurrency
  · exact ⟨h.nonces, h.data⟩

theorem narrow_advance (h : Narrow w) : Narrow (advance d w) := by
  unfold advance
  split
  · exact narrow_save h
  · split
    · exact narrow_getBlockHeadersRange h
    · exact h

theorem narrow_deliver (h : Narrow w) (δ : Delivery) : Narrow (deliver d w δ) := by
  have htook : Narrow (took δ.exchange w) := ⟨h.nonces, h.data⟩
  rw [deliver_eq]
  cases effect w δ with
  | retry range => exact ⟨htook.nonces, htook.data⟩
  | fatal => exact ⟨htook.nonces, htook.data⟩
  | lastBlockHeader reader =>
    have hset := narrow_setLastBlockHeader (d := d) htook reader
    rw [perform]
    split
    · exact hset
    · exact ⟨hset.nonces, hset.data⟩
  | blockHeadersRange id headers =>
    rw [perform]
    split
    · exact narrow_advance (narrow_accept htook id headers)
    · exact ⟨htook.nonces, htook.data⟩

end Network

namespace App
open Network

variable {d : Daemon} {renders : List ℕ → Bool} {a : App}

/-- The nonces that are saved have 32 bits. -/
structure Narrow (a : App) : Prop where
  nonces : ∀ nonce ∈ a.nonces, nonce < 2 ^ 32
  network : ∀ w, a.network = some w → Network.Narrow w
  saved : ∀ nonces, .save nonces ∈ a.log → ∀ nonce ∈ nonces, nonce < 2 ^ 32

theorem narrow_exec {nonces : List ℕ} (h : ∀ nonce ∈ nonces, nonce < 2 ^ 32) : Narrow (exec nonces) where
  nonces := h
  network := by
    rintro w ⟨⟩
    exact narrow_connect h
  saved _ hmem := absurd hmem List.not_mem_nil

theorem narrow_close (h : Narrow a) (rc : ℤ) : Narrow (close rc a) where
  nonces := h.nonces
  network _ hnone := by cases hnone
  saved nonces hmem := by
    refine h.saved nonces ?_
    simpa [close, act] using hmem

theorem narrow_act (h : Narrow a) {action : Action} (haction : ∀ nonces, action = .save nonces → nonces = a.nonces) :
    Narrow (act action a) where
  nonces := h.nonces
  network := h.network
  saved nonces hmem := by
    rcases List.mem_append.mp hmem with hold | hnew
    · exact h.saved nonces hold
    · have hsame := haction nonces (List.mem_singleton.mp hnew).symm
      rw [hsame]
      exact h.nonces

theorem narrow_handle (h : Narrow a) (e : Ending) : Narrow (handle renders a e) := by
  cases e with
  | onFatalError => exact narrow_close (narrow_act h fun _ hsave => Action.noConfusion hsave) 1
  | onSyncDone modified =>
    have hdone : Narrow (act (.onSyncDone modified) a) := narrow_act h fun _ hsave => Action.noConfusion hsave
    cases modified with
    | true =>
      have hsaved : Narrow (act (.save a.nonces) (act (.onSyncDone true) a)) :=
        narrow_act hdone fun _ hsave => (Action.save.inj hsave).symm
      exact narrow_close (narrow_act hsaved fun _ hsave => Action.noConfusion hsave) _
    | false => exact narrow_close (narrow_act hdone fun _ hsave => Action.noConfusion hsave) _
  | outOfRange => exact ⟨h.nonces, h.network, h.saved⟩

theorem narrow_handles (h : Narrow a) (endings : List Ending) : Narrow (endings.foldl (handle renders) a) := by
  induction endings generalizing a with
  | nil => exact h
  | cons e endings ih => exact ih (narrow_handle h e)

theorem narrow_exiting (h : Narrow a) : Narrow (close 0 (act .exiting a)) :=
  narrow_close (narrow_act h fun _ hsave => Action.noConfusion hsave) 0

theorem narrow_next (h : Narrow a) (e : Event) : Narrow (next d renders a e) := by
  cases e with
  | http δ =>
    simp only [next, onHttpData]
    cases hnet : a.network with
    | none => exact h
    | some w =>
      have hw := narrow_deliver (d := d) (h.network w hnet) δ
      have hshared : Narrow { a with network := some (deliver d w δ), nonces := (deliver d w δ).nonces } := by
        refine ⟨hw.nonces, ?_, h.saved⟩
        rintro v ⟨⟩
        exact hw
      exact narrow_handles hshared _
  | timer => exact h
  | signal signum =>
    simp only [next, onSignal]
    split
    · exact narrow_exiting h
    · exact h
  | console command =>
    simp only [next, onConsoleCommand]
    split
    · exact narrow_exiting h
    · exact h

theorem narrow_after (h : Narrow a) (events : List Event) : Narrow ((App.machine d renders).after a events) := by
  induction events generalizing a with
  | nil => exact h
  | cons e events ih => exact ih (narrow_next h e)

theorem loaded_narrow (raw : Value → ℕ) (file : Option Value) : ∀ nonce ∈ Session.loaded raw file, nonce < 2 ^ 32 := by
  have hnone : ∀ nonce ∈ ([] : List ℕ), nonce < 2 ^ 32 := fun nonce hmem => absurd hmem List.not_mem_nil
  rw [Session.loaded, Nonces.load]
  split
  · split
    · intro nonce hmem
      obtain ⟨v, -, rfl⟩ := List.mem_map.mp hmem
      rw [Nonces.getUint]
      cases hv : v.asUint with
      | none => exact Nat.mod_lt _ (by decide)
      | some n => exact Value.asUint_lt hv
    · exact hnone
  · exact hnone

theorem narrow_last (s : Session) (raw : Value → ℕ) (file : Option Value) : Narrow (s.last raw file) := by
  rw [Session.last]
  split
  · have hexec := narrow_exec (loaded_narrow raw file)
    have hoffline : Narrow { exec (Session.loaded raw file) with network := none } := by
      refine ⟨hexec.nonces, ?_, hexec.saved⟩
      rintro w ⟨⟩
    exact narrow_close (narrow_act hoffline fun _ hsave => Action.noConfusion hsave) _
  · exact narrow_after (narrow_exec (loaded_narrow raw file)) s.events

/-! ## Sessions on the bytes -/

/-- The text of nonces, of which only the whole is read as a document. -/
theorem save_written (tooBig : Bytes → Bool) (dtoa : String → Bytes) (singleLineArray : Bool) {nonces : List ℕ}
    (h : ∀ nonce ∈ nonces, nonce < 2 ^ 32) :
    ∃ bytes, Json.save dtoa singleLineArray (Nonces.save nonces) = some bytes ∧
      Json.get tooBig (some bytes) = some (Nonces.save nonces) ∧
      ∀ n < bytes.length, ∃ e, Json.parse Json.fileFlags tooBig (bytes.take n) = .error e := by
  refine Json.get_written tooBig dtoa _ ?_ rfl
  rw [Nonces.save, Json.Writable]
  induction nonces with
  | nil => trivial
  | cons nonce nonces ih =>
    have hnonce := h nonce List.mem_cons_self
    exact ⟨⟨by omega, by omega⟩, ih fun n hn => h n (List.mem_cons_of_mem _ hn)⟩

/-- What the writing of the nonces leaves in the file: `stored` bytes of the text when it is interrupted. -/
def Saving.bytes (dtoa : String → Bytes) (singleLineArray : Bool) (saving : Saving) (stored : ℕ) (nonces : List ℕ)
    (file : Option Bytes) : Option Bytes :=
  match saving with
  | .written => Json.save dtoa singleLineArray (Nonces.save nonces)
  | .notOpened => file
  | .interrupted => (Json.save dtoa singleLineArray (Nonces.save nonces)).map (·.take stored)

/-- A session with the bytes that an interrupted writing has stored. -/
structure DiskSession where
  session : Session
  stored : ℕ

namespace DiskSession

variable (raw : Value → ℕ) (tooBig : Bytes → Bool) (dtoa : String → Bytes) (singleLineArray : Bool)

/-- What the session saves. -/
def saves (s : DiskSession) (file : Option Bytes) : List (List ℕ) :=
  (s.session.last raw (Json.get tooBig file)).log.filterMap Session.saves

def file (s : DiskSession) (file : Option Bytes) : Option Bytes :=
  (s.saves raw tooBig file).foldl (fun file nonces => s.session.saving.bytes dtoa singleLineArray s.stored nonces file) file

/-- The writing of a text is interrupted before its last byte. -/
def Interrupts (s : DiskSession) (nonces : List ℕ) : Prop :=
  s.session.saving = .interrupted → ∀ bytes, Json.save dtoa singleLineArray (Nonces.save nonces) = some bytes →
    s.stored < bytes.length

/-- The runs of the program on the bytes of one nonces file. -/
def machine : Machine (Option Bytes) DiskSession where
  enabled file s := (Session.machine raw).enabled (Json.get tooBig file) s.session ∧
    ∀ nonces ∈ s.saves raw tooBig file, s.Interrupts dtoa singleLineArray nonces
  next file s := s.file raw tooBig dtoa singleLineArray file

variable {raw tooBig dtoa singleLineArray}

/-- One writing, on the bytes and on the document. -/
theorem get_bytes {s : DiskSession} {nonces : List ℕ} (h : ∀ nonce ∈ nonces, nonce < 2 ^ 32)
    (hstored : s.Interrupts dtoa singleLineArray nonces) (file : Option Bytes) :
    Json.get tooBig (s.session.saving.bytes dtoa singleLineArray s.stored nonces file) =
      s.session.saving.file nonces (Json.get tooBig file) := by
  obtain ⟨bytes, hsave, hwhole, hcut⟩ := save_written tooBig dtoa singleLineArray h
  cases hsaving : s.session.saving with
  | written =>
    rw [Saving.bytes, hsave, hwhole]
    rfl
  | notOpened => rfl
  | interrupted =>
    obtain ⟨e, he⟩ := hcut s.stored (hstored hsaving bytes hsave)
    rw [Saving.bytes, hsave, Option.map_some, Json.get_of_error he]
    rfl

theorem get_file {s : DiskSession} {file : Option Bytes}
    (hstored : ∀ nonces ∈ s.saves raw tooBig file, s.Interrupts dtoa singleLineArray nonces) :
    Json.get tooBig (s.file raw tooBig dtoa singleLineArray file) = s.session.file raw (Json.get tooBig file) := by
  have hnarrow : ∀ nonces ∈ s.saves raw tooBig file, ∀ nonce ∈ nonces, nonce < 2 ^ 32 := by
    intro nonces hmem
    obtain ⟨action, haction, hsaves⟩ := List.mem_filterMap.mp hmem
    cases action with
    | save saved =>
      obtain rfl := Option.some.inj hsaves
      exact (narrow_last s.session raw _).saved saved haction
    | _ => cases hsaves
  rw [DiskSession.file, Session.file]
  change _ = (s.saves raw tooBig file).foldl _ _
  revert hstored hnarrow
  generalize s.saves raw tooBig file = saved
  intro hstored hnarrow
  induction saved generalizing file with
  | nil => rfl
  | cons nonces saved ih =>
    rw [List.forall_mem_cons] at hstored hnarrow
    rw [List.foldl_cons, List.foldl_cons, ih hstored.2 hnarrow.2, get_bytes hnarrow.1 hstored.1]

/-- **The runs on the bytes are runs on the documents.** Whatever the daemons answer and wherever the writing of
the file is cut off, `Json::get` carries the states of the one to those of the other. -/
theorem disk_refines (raw : Value → ℕ) (tooBig : Bytes → Bool) (dtoa : String → Bytes) (singleLineArray : Bool)
    (file : Option Bytes) (sessions : List DiskSession)
    (run : (machine raw tooBig dtoa singleLineArray).Run file sessions) :
    (Session.machine raw).Run (Json.get tooBig file) (sessions.map DiskSession.session) ∧
      Json.get tooBig ((machine raw tooBig dtoa singleLineArray).after file sessions) =
        (Session.machine raw).after (Json.get tooBig file) (sessions.map DiskSession.session) :=
  Machine.Run.simulated (M := machine raw tooBig dtoa singleLineArray) (N := Session.machine raw)
    (f := Json.get tooBig) (g := DiskSession.session) (fun _ _ h => ⟨h.1, get_file h.2⟩) run

def cutOff : DiskSession := ⟨{ firstSession with saving := .interrupted }, 7⟩

/-- A writing that stops before the second nonce, and the next session. -/
theorem disk_refines_two :
    ((Session.machine fun _ => 0).Run none [cutOff.session, firstSession] ∧
      Json.get (fun _ => false) ((machine (fun _ => 0) (fun _ => false) (fun _ => []) false).after none [cutOff, ⟨firstSession, 0⟩]) =
        (Session.machine fun _ => 0).after none [cutOff.session, firstSession]) ∧
      (machine (fun _ => 0) (fun _ => false) (fun _ => []) false).after none [cutOff] = some (ascii "[\n    5") ∧
      (machine (fun _ => 0) (fun _ => false) (fun _ => []) false).after none [cutOff, ⟨firstSession, 0⟩] =
        some (ascii "[\n    5,\n    6\n]") := by
  have htext : Json.save (fun _ => []) false (Nonces.save [5, 6]) = some (ascii "[\n    5,\n    6\n]") := by decide +kernel
  have hsaves : cutOff.saves (fun _ => 0) (fun _ => false) none = [[5, 6]] := by decide +kernel
  have hfirst : (machine (fun _ => 0) (fun _ => false) (fun _ => []) false).after none [cutOff] = some (ascii "[\n    5") := by
    decide +kernel
  refine ⟨disk_refines (fun _ => 0) (fun _ => false) (fun _ => []) false none [cutOff, ⟨firstSession, 0⟩] ?_, hfirst, ?_⟩
  · refine Machine.run_cons.mpr ⟨⟨Or.inr (by decide), ?_⟩, Machine.run_cons.mpr ⟨⟨Or.inr ?_, ?_⟩, Machine.run_nil _ _⟩⟩
    · rw [hsaves]
      refine List.forall_mem_singleton.mpr fun _ bytes hbytes => ?_
      obtain rfl := Option.some.inj (htext.symm.trans hbytes)
      decide
    · have hloaded : Session.loaded (fun _ => 0) (Json.get (fun _ => false) (some (ascii "[\n    5"))) = [] := by
        decide +kernel
      have hnext : (machine (fun _ => 0) (fun _ => false) (fun _ => []) false).next none cutOff = some (ascii "[\n    5") :=
        hfirst
      rw [hnext, hloaded]
      decide
    · exact fun nonces _ hinterrupted => Saving.noConfusion hinterrupted
  · decide +kernel

end DiskSession
end App
end NoncesHeatmap
