import Mathlib.Data.List.TakeWhile
import NoncesHeatmap.Base.Json

/-! # The daemon settings

`Daemon` holds the connection options of `Daemon.h`. The constructor reads them from the `daemon`
object of the configuration and clamps three of them to at least 1; the clamps and the widths of
the members are fields of the structure. -/

namespace NoncesHeatmap
set_option autoImplicit false

structure Daemon where
  tls : Bool
  /-- `none` is a null `String`. -/
  host : Option String
  port : ℕ
  concurrency : ℕ
  maxRange : ℕ
  printSeconds : ℕ
  timeoutSeconds : ℕ
  port_lt : port < 2 ^ 16
  concurrency_pos : 1 ≤ concurrency
  concurrency_lt : concurrency < 2 ^ 32
  maxRange_pos : 1 ≤ maxRange
  maxRange_lt : maxRange < 2 ^ 32
  printSeconds_lt : printSeconds < 2 ^ 32
  timeoutSeconds_pos : 1 ≤ timeoutSeconds
  timeoutSeconds_lt : timeoutSeconds < 2 ^ 32

namespace Daemon

/-- A `char` pointer read as a C string ends at the first NUL. -/
def cString (s : String) : String := String.ofList (s.toList.takeWhile (· ≠ '\x00'))

def default (host : Option String) : Daemon where
  tls := false
  host := host
  port := 18081
  concurrency := 10
  maxRange := 1000
  printSeconds := 10
  timeoutSeconds := 30
  port_lt := by norm_num
  concurrency_pos := by norm_num
  concurrency_lt := by norm_num
  maxRange_pos := by norm_num
  maxRange_lt := by norm_num
  printSeconds_lt := by norm_num
  timeoutSeconds_pos := by norm_num
  timeoutSeconds_lt := by norm_num

def clampedUint (value : Value) (key : String) (defaultValue : ℕ) : ℕ :=
  max (Json.getUint value key defaultValue) 1

theorem clampedUint_lt {value : Value} {key : String} {defaultValue : ℕ} (h : defaultValue < 2 ^ 32) :
    clampedUint value key defaultValue < 2 ^ 32 :=
  max_lt (Json.getUint_lt h) (by norm_num)

/-- `Daemon::Daemon(const rapidjson::Value &)`; `featureTls` is the build with
`XMRIG_FEATURE_TLS`. -/
def ofJson (featureTls : Bool) (value : Value) : Daemon :=
  if Json.isEmpty value then default (some "127.0.0.1")
  else
    { tls := featureTls && decide (Json.getUint value "tls" 0 ≠ 0)
      host := (Json.getString value "host").map cString
      port := Json.getUint value "port" 0 % 2 ^ 16
      concurrency := clampedUint value "concurrency" 10
      maxRange := clampedUint value "max_range" 1000
      printSeconds := Json.getUint value "print_time" 10
      timeoutSeconds := clampedUint value "timeout" 30
      port_lt := Nat.mod_lt _ (by norm_num)
      concurrency_pos := le_max_right _ _
      concurrency_lt := clampedUint_lt (by norm_num)
      maxRange_pos := le_max_right _ _
      maxRange_lt := clampedUint_lt (by norm_num)
      printSeconds_lt := Json.getUint_lt (by norm_num)
      timeoutSeconds_pos := le_max_right _ _
      timeoutSeconds_lt := clampedUint_lt (by norm_num) }

/-- `printTime()`: the product is a `uint32_t` before it is widened to 64 bits. -/
def printTime (d : Daemon) : ℕ := u32 (d.printSeconds * 1000)

def timeout (d : Daemon) : ℕ := u32 (d.timeoutSeconds * 1000)

def isValid (d : Daemon) : Bool := decide (d.host.getD "" ≠ "") && decide (d.port > 0)

/-- `String::toJSON()`: the length is that of the C string. -/
def stringJSON : Option String → Value
  | none => .null
  | some s => .string (cString s)

def toJSON (d : Daemon) : Value :=
  .object
    [("host", stringJSON d.host), ("port", .int d.port), ("tls", .bool d.tls), ("concurrency", .int d.concurrency),
      ("max_range", .int d.maxRange), ("print_time", .int d.printSeconds), ("timeout", .int d.timeoutSeconds)]

theorem cString_cString (s : String) : cString (cString s) = cString s := by
  simp [cString, List.takeWhile_takeWhile]

end Daemon
end NoncesHeatmap
