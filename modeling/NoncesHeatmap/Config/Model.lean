import NoncesHeatmap.Heatmap.Job

/-! # The configuration

`Config::parse` reads a document into a fresh `Config` and sets the static members of `Log`; `getJSON`
writes both back. -/

namespace NoncesHeatmap
set_option autoImplicit false

/-- The static members of `Log` that are settings. -/
structure Log where
  colors : Bool
  verbose : ℕ
  verbose_lt : verbose < 2 ^ 32

structure Config where
  autoSave : Bool
  offline : Bool
  daemon : Daemon
  job : Job
  noncesFile : Option String

namespace Config

def isOffline (c : Config) : Bool := c.offline || !c.daemon.isValid

theorem verbose_value_lt {log : Log} {value : Value} : (value.asUint).getD log.verbose < 2 ^ 32 := by
  cases h : value.asUint with
  | none => exact log.verbose_lt
  | some n => exact Value.asUint_lt h

def setVerbose (log : Log) : Value → Log
  | .bool b => { log with verbose := if b then 1 else 0, verbose_lt := by split <;> norm_num }
  | value => { log with verbose := value.asUint.getD log.verbose, verbose_lt := verbose_value_lt }

/-- `parse` of a fresh object; `featureTls` is the build with `XMRIG_FEATURE_TLS`. -/
def parse (featureTls : Bool) (log : Log) (reader : Value) : Config × Log :=
  ({ offline := Json.getBool reader "offline" false
     autoSave := Json.getBool reader "autosave" true
     noncesFile := (Json.getString reader "nonces_file").map Daemon.cString
     job := .ofJson (Json.getObject reader "heatmap")
     daemon := .ofJson featureTls (Json.getObject reader "daemon") },
    setVerbose { log with colors := Json.getBool reader "colors" log.colors } (Json.getValue reader "verbose"))

def getJSON (c : Config) (log : Log) : Value :=
  .object
    [("offline", .bool c.isOffline), ("autosave", .bool c.autoSave),
      ("nonces_file", Daemon.stringJSON c.noncesFile), ("daemon", c.daemon.toJSON), ("heatmap", c.job.toJSON),
      ("colors", .bool log.colors), ("verbose", .int log.verbose)]

end Config
end NoncesHeatmap
