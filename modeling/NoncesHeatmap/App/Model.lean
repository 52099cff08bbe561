import NoncesHeatmap.Network.Phases

/-! # `App`: one run of the program in online mode

The members of `App` that a run changes, and what its handlers do, in order (`log`). A `Network`
shares the vector of nonces with its `App`; destroying it expires the listener of the exchanges in
flight and closes the print timer, so what is delivered afterwards reaches nobody. The outcome of
`Heatmap::render` on the nonces is a parameter. -/

namespace NoncesHeatmap
open Runs
set_option autoImplicit false

inductive Action where
  | onFatalError
  | onSyncDone (modified : Bool)
  /-- The warning `SIG... received, exiting` or `Ctrl+C received, exiting`. -/
  | exiting
  | save (nonces : List ℕ)
  | render (ok : Bool)
  | close (rc : ℤ)
deriving DecidableEq

namespace Action

def isClose : Action → Bool
  | close _ => true
  | _ => false

def isReport : Action → Bool
  | onFatalError => true
  | onSyncDone _ => true
  | _ => false

def isSave : Action → Bool
  | save _ => true
  | _ => false

def isRender : Action → Bool
  | render _ => true
  | _ => false

end Action

structure App where
  rc : ℤ
  nonces : List ℕ
  network : Option Network
  signals : Bool
  console : Bool
  /-- An exception has left the event loop. -/
  aborted : Bool
  log : List Action

namespace App

def SIGHUP : ℕ := 1
def SIGINT : ℕ := 2
def SIGTERM : ℕ := 15

def act (action : Action) (a : App) : App := { a with log := a.log ++ [action] }

def close (rc : ℤ) (a : App) : App :=
  act (.close rc) { a with rc := rc, network := none, signals := false, console := false }

def onConsoleCommand (command : ℕ) (a : App) : App :=
  if command = 3 then close 0 (act .exiting a) else a

def onFatalError (a : App) : App := close 1 (act .onFatalError a)

def onSignal (signum : ℕ) (a : App) : App :=
  if signum = SIGHUP ∨ signum = SIGTERM ∨ signum = SIGINT then close 0 (act .exiting a) else a

def onSyncDone (renders : List ℕ → Bool) (modified : Bool) (a : App) : App :=
  let a := act (.onSyncDone modified) a
  let a := if modified then act (.save a.nonces) a else a
  let ok := renders a.nonces
  close (if ok then 0 else 1) (act (.render ok) a)

def handle (renders : List ℕ → Bool) (a : App) : Ending → App
  | .onFatalError => onFatalError a
  | .onSyncDone modified => onSyncDone renders modified a
  | .outOfRange => { a with aborted := true }

/-- A delivery, with the reports the `Network` makes on it in order. A report is the last change that
the `Network` makes. -/
def onHttpData (d : Daemon) (renders : List ℕ → Bool) (δ : Network.Delivery) (a : App) : App :=
  match a.network with
  | none => a
  | some w =>
    let v := Network.deliver d w δ
    (v.endings.drop w.endings.length).foldl (handle renders)
      { a with network := some v, nonces := v.nonces }

inductive Event where
  | http (δ : Network.Delivery)
  | timer
  | signal (signum : ℕ)
  | console (command : ℕ)

/-- Nothing is delivered on a closed handle. -/
def enabled (a : App) : Event → Bool
  | .http δ => a.network.all fun w => decide (δ.exchange ∈ w.exchanges)
  | .timer => a.network.any fun w => w.timer
  | .signal _ => a.signals
  | .console _ => a.console

/-- `Network::onTimer` prints the progress and changes nothing. -/
def next (d : Daemon) (renders : List ℕ → Bool) (a : App) : Event → App
  | .http δ => onHttpData d renders δ a
  | .timer => a
  | .signal signum => onSignal signum a
  | .console command => onConsoleCommand command a

def machine (d : Daemon) (renders : List ℕ → Bool) : Machine App Event where
  enabled a e := a.aborted = false ∧ enabled a e = true
  next := next d renders

instance (d : Daemon) (renders : List ℕ → Bool) (a : App) (e : Event) :
    Decidable ((machine d renders).enabled a e) :=
  inferInstanceAs (Decidable (_ = _ ∧ _ = _))

/-- `exec()` in online mode, up to the event loop. -/
def exec (nonces : List ℕ) : App where
  rc := 0
  nonces := nonces
  network := some (Network.connect nonces)
  signals := true
  console := true
  aborted := false
  log := []

end App
end NoncesHeatmap
