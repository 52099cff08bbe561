import NoncesHeatmap.App.Model
import NoncesHeatmap.Network.Answers

/-! # How a run of `App` ends

A delivery makes the `Network` report at most once (`deliver_endings`). A handler that ends the run
closes what could call the others, so a run is still alive, has thrown, or has one of the four logs of
`Ended`. -/

namespace NoncesHeatmap
set_option autoImplicit false

namespace Network

theorem getBlockHeadersRange_endings (d : Daemon) (w : Network) :
    (getBlockHeadersRange d w).2.endings = w.endings := by
  unfold getBlockHeadersRange
  split <;> rfl

theorem requestLoop_endings (d : Daemon) (count : ℕ) (w : Network) :
    (requestLoop d count w).endings = w.endings := by
  induction count generalizing w with
  | zero => rfl
  | succ count ih => rw [requestLoop, ih, getBlockHeadersRange_endings]

theorem setLastBlockHeader_endings (d : Daemon) (reader : Value) (w : Network) :
    (setLastBlockHeader d reader w).2.endings = w.endings ∨
      (setLastBlockHeader d reader w).1 = true ∧
        (setLastBlockHeader d reader w).2.endings = w.endings ++ [.onSyncDone false] := by
  rcases setLastBlockHeader_cases d reader w with h | ⟨-, -, h⟩ | h <;> rw [h]
  · exact Or.inl rfl
  · exact Or.inl (requestLoop_endings d d.concurrency _)
  · exact Or.inr ⟨rfl, rfl⟩

theorem advance_endings (d : Daemon) (w : Network) :
    (advance d w).endings = w.endings ∨ ∃ e, (advance d w).endings = w.endings ++ [e] := by
  unfold advance
  split
  · right
    rcases settle_save_endings w with hs | hs
    · exact ⟨.onSyncDone true, by rw [hs]; rfl⟩
    · exact ⟨.outOfRange, hs⟩
  · left
    split
    · exact getBlockHeadersRange_endings d w
    · rfl

/-- A delivery makes at most one report, or throws. -/
theorem deliver_endings (d : Daemon) (w : Network) (δ : Delivery) :
    (deliver d w δ).endings = w.endings ∨ ∃ e, (deliver d w δ).endings = w.endings ++ [e] := by
  rw [deliver_eq]
  cases effect w δ with
  | retry range => exact Or.inl rfl
  | fatal => exact Or.inr ⟨.onFatalError, rfl⟩
  | lastBlockHeader reader =>
    rw [perform]
    rcases setLastBlockHeader_endings d reader (took δ.exchange w) with h | ⟨hdone, h⟩
    · split
      · exact Or.inl h
      · exact Or.inr ⟨.onFatalError, by rw [onFatalError, h]; rfl⟩
    · rw [if_pos hdone]
      exact Or.inr ⟨.onSyncDone false, h⟩
  | blockHeadersRange id headers =>
    rw [perform]
    split
    · exact advance_endings d _
    · exact Or.inr ⟨.onFatalError, rfl⟩

end Network

namespace App
open Runs Network

variable {d : Daemon} {renders : List ℕ → Bool} {a : App}

def exitCode (ok : Bool) : ℤ := if ok then 0 else 1

inductive Ended (a : App) : Prop
  | exiting (rc : a.rc = 0) (log : a.log = [.exiting, .close 0])
  | fatal (rc : a.rc = 1) (log : a.log = [.onFatalError, .close 1])
  | unmodified (ok : Bool) (rc : a.rc = exitCode ok)
      (log : a.log = [.onSyncDone false, .render ok, .close (exitCode ok)])
  | modified (ok : Bool) (rc : a.rc = exitCode ok)
      (log : a.log = [.onSyncDone true, .save a.nonces, .render ok, .close (exitCode ok)])

inductive Phase (a : App) : Prop
  | alive (w : Network) (network : a.network = some w) (endings : w.endings = []) (log : a.log = [])
  | closed (network : a.network = none) (signals : a.signals = false) (console : a.console = false)
      (ended : Ended a)
  | aborted (aborted : a.aborted = true) (log : a.log = [])

theorem phase_exec (nonces : List ℕ) : Phase (exec nonces) := .alive _ rfl rfl rfl

theorem phase_exiting (hlog : a.log = []) : Phase (close 0 (act .exiting a)) :=
  .closed rfl rfl rfl (.exiting rfl (by simp [close, act, hlog]))

/-- Each report of an alive run closes or aborts it. -/
theorem phase_handle (hlog : a.log = []) (e : Ending) : Phase (handle renders a e) := by
  cases e with
  | onFatalError => exact .closed rfl rfl rfl (.fatal rfl (by simp [handle, onFatalError, close, act, hlog]))
  | onSyncDone modified =>
    cases modified with
    | false =>
      exact .closed rfl rfl rfl (.unmodified (renders a.nonces) rfl
        (by simp [handle, onSyncDone, close, act, hlog, exitCode]))
    | true =>
      exact .closed rfl rfl rfl (.modified (renders a.nonces) rfl
        (by simp [handle, onSyncDone, close, act, hlog, exitCode]))
  | outOfRange => exact .aborted rfl hlog

theorem phase_next (h : Phase a) {e : Event} (he : (machine d renders).enabled a e) :
    Phase ((machine d renders).next a e) := by
  obtain ⟨halive, henabled⟩ := he
  cases h with
  | alive w hnet hend hlog =>
    cases e with
    | http δ =>
      show Phase (onHttpData d renders δ a)
      simp only [onHttpData, hnet]
      rcases Network.deliver_endings d w δ with hsame | ⟨e, hone⟩
      · rw [hsame, List.drop_length]
        exact .alive _ rfl (hsame.trans hend) hlog
      · rw [hone, List.drop_left]
        apply phase_handle
        exact hlog
    | timer => exact .alive w hnet hend hlog
    | signal signum =>
      show Phase (onSignal signum a)
      unfold onSignal
      split
      · exact phase_exiting hlog
      · exact .alive w hnet hend hlog
    | console command =>
      show Phase (onConsoleCommand command a)
      unfold onConsoleCommand
      split
      · exact phase_exiting hlog
      · exact .alive w hnet hend hlog
  | closed hnet hsig hcon hended =>
    cases e with
    | http δ =>
      show Phase (onHttpData d renders δ a)
      simp only [onHttpData, hnet]
      exact .closed hnet hsig hcon hended
    | timer => exact .closed hnet hsig hcon hended
    | signal signum =>
      have hopen : a.signals = true := henabled
      rw [hsig] at hopen
      cases hopen
    | console command =>
      have hopen : a.console = true := henabled
      rw [hcon] at hopen
      cases hopen
  | aborted haborted hlog =>
    rw [haborted] at halive
    cases halive

/-! ## What the log says -/

/-- One terminal event, and a nonces file that only a finished sync writes. -/
structure OneEnding (a : App) : Prop where
  close_once : a.log.countP Action.isClose ≤ 1
  rc : ∀ rc, .close rc ∈ a.log → a.rc = rc
  report_once : a.log.countP Action.isReport ≤ 1
  save_once : a.log.countP Action.isSave = if .onSyncDone true ∈ a.log then 1 else 0
  saved : ∀ nonces, .save nonces ∈ a.log → nonces = a.nonces
  save_before_render : .onSyncDone true ∈ a.log → .save a.nonces ∈ a.log.takeWhile (! ·.isRender)
  no_save : .onFatalError ∈ a.log ∨ .onSyncDone false ∈ a.log ∨ .exiting ∈ a.log →
    ∀ nonces, .save nonces ∉ a.log

theorem oneEnding_of_log (hlog : a.log = []) : OneEnding a := by
  constructor <;> simp [hlog]

theorem Ended.oneEnding (h : Ended a) : OneEnding a := by
  cases h with
  | exiting hrc hlog =>
    constructor <;> simp [hlog, hrc, List.countP_cons, Action.isClose, Action.isReport, Action.isSave]
  | fatal hrc hlog =>
    constructor <;> simp [hlog, hrc, List.countP_cons, Action.isClose, Action.isReport, Action.isSave]
  | unmodified ok hrc hlog =>
    constructor <;> simp [hlog, hrc, List.countP_cons, Action.isClose, Action.isReport, Action.isSave]
  | modified ok hrc hlog =>
    constructor <;>
      simp [hlog, hrc, List.countP_cons, Action.isClose, Action.isReport, Action.isSave, Action.isRender]

theorem Phase.oneEnding (h : Phase a) : OneEnding a := by
  cases h with
  | alive _ _ _ hlog => exact oneEnding_of_log hlog
  | closed _ _ _ hended => exact hended.oneEnding
  | aborted _ hlog => exact oneEnding_of_log hlog

/-- **One terminal event per run.** Whatever is delivered, in any order, `close` runs at most once and
fixes the exit code, the `Network` reports at most once, and the nonces file is written once after
`onSyncDone(true)`, before the rendering, and never otherwise. -/
theorem app_ends_once (d : Daemon) (renders : List ℕ → Bool) (nonces : List ℕ) (events : List Event)
    (run : (machine d renders).Run (exec nonces) events) :
    OneEnding ((machine d renders).after (exec nonces) events) := by
  apply Phase.oneEnding
  exact Machine.Run.invariant (fun _ _ h he => phase_next h he) (phase_exec nonces) run

/-- A finished sync, with a print tick before its end and a delivery that comes too late. -/
theorem app_ends_once_synced :
    let a := (machine (configured 1 1) fun _ => true).after (exec [])
      [.http (answer (· + 5) 1 headerExchange), .timer, .http (failed (rangeExchange 2 0 1)),
        .http (answer (· + 5) 1 (rangeExchange 3 0 1)), .http (failed (rangeExchange 4 0 1))]
    OneEnding a ∧ a.log = [.onSyncDone true, .save [5, 6], .render true, .close 0] :=
  ⟨app_ends_once (configured 1 1) (fun _ => true) [] _ (by decide), by decide⟩

end App
end NoncesHeatmap
