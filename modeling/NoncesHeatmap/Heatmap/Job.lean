import NoncesHeatmap.Base.Daemon

/-! # The heatmap settings

`Job` holds the members of `Job.h`, with their widths. The constructor reads the `heatmap` object of the
configuration: without one the defaults of the members stay, and with one every member that is missing
is 0 or null. -/

namespace NoncesHeatmap
set_option autoImplicit false

structure Job where
  name : Option String
  infoFile : Option String
  x : ℕ
  height : ℕ
  radius : ℕ
  start : ℤ
  «end» : ℤ
  minNonce : ℕ
  maxNonce : ℕ
  x_lt : x < 2 ^ 32
  height_lt : height < 2 ^ 32
  radius_lt : radius < 2 ^ 32
  start_bounds : -2 ^ 31 ≤ start ∧ start < 2 ^ 31
  end_bounds : -2 ^ 31 ≤ «end» ∧ «end» < 2 ^ 31
  minNonce_lt : minNonce < 2 ^ 32
  maxNonce_lt : maxNonce < 2 ^ 32

namespace Job
open Daemon (cString stringJSON)

/-- The members as they are initialised. -/
def default (name : Option String) : Job where
  name := name
  infoFile := none
  x := 0
  height := 4096
  radius := 5
  start := 0
  «end» := 0
  minNonce := 0
  maxNonce := 0
  x_lt := by norm_num
  height_lt := by norm_num
  radius_lt := by norm_num
  start_bounds := by norm_num
  end_bounds := by norm_num
  minNonce_lt := by norm_num
  maxNonce_lt := by norm_num

def ofJson (value : Value) : Job :=
  if Json.isEmpty value then default (some "heatmap.png")
  else
    { name := (Json.getString value "name").map cString
      infoFile := (Json.getString value "info_file").map cString
      x := Json.getUint value "x" 0
      height := Json.getUint value "height" 0
      radius := Json.getUint value "radius" 0
      start := Json.getInt value "start" 0
      «end» := Json.getInt value "end" 0
      minNonce := Json.getUint value "min_nonce" 0
      maxNonce := Json.getUint value "max_nonce" 0
      x_lt := Json.getUint_lt (by norm_num)
      height_lt := Json.getUint_lt (by norm_num)
      radius_lt := Json.getUint_lt (by norm_num)
      start_bounds := Json.getInt_bounds (by norm_num)
      end_bounds := Json.getInt_bounds (by norm_num)
      minNonce_lt := Json.getUint_lt (by norm_num)
      maxNonce_lt := Json.getUint_lt (by norm_num) }

def toJSON (job : Job) : Value :=
  .object
    [("name", stringJSON job.name), ("info_file", stringJSON job.infoFile), ("x", .int job.x),
      ("height", .int job.height), ("radius", .int job.radius), ("start", .int job.start), ("end", .int job.«end»),
      ("min_nonce", .int job.minNonce), ("max_nonce", .int job.maxNonce)]

end Job
end NoncesHeatmap
