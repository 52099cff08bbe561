import NoncesHeatmap.Config.Model

/-! # Saving the configuration

Every setting is read back from the document that is written, except one: the TLS switch of the daemon
is written as a bool and read as a number. -/

namespace NoncesHeatmap
open Daemon (cString stringJSON)
set_option autoImplicit false

/-! ## Members that are read back -/

section
variable {members : List (String × Value)} {key : String}

theorem getUint_head {n : ℕ} (h : n < 2 ^ 32) (defaultValue : ℕ) :
    Json.getUint (.object ((key, .int n) :: members)) key defaultValue = n := by
  rw [Json.getUint, Json.getWith_head, Value.asUint_nat h]
  rfl

theorem getInt_head {n : ℤ} (h : -2 ^ 31 ≤ n ∧ n < 2 ^ 31) (defaultValue : ℤ) :
    Json.getInt (.object ((key, .int n) :: members)) key defaultValue = n := by
  rw [Json.getInt, Json.getWith_head, Value.asInt_int h]
  rfl

theorem getString_head (s : Option String) :
    (Json.getString (.object ((key, stringJSON s) :: members)) key).map cString = s.map cString := by
  rw [Json.getString, Json.getWith_head]
  cases s with
  | none => rfl
  | some s => exact congrArg some (Daemon.cString_cString s)

variable {name : String} {v : Value}

theorem getUint_tail (hne : key ≠ name) (defaultValue : ℕ) :
    Json.getUint (.object ((name, v) :: members)) key defaultValue = Json.getUint (.object members) key defaultValue :=
  Json.getWith_tail _ hne v members defaultValue

theorem getInt_tail (hne : key ≠ name) (defaultValue : ℤ) :
    Json.getInt (.object ((name, v) :: members)) key defaultValue = Json.getInt (.object members) key defaultValue :=
  Json.getWith_tail _ hne v members defaultValue

theorem getString_tail (hne : key ≠ name) :
    Json.getString (.object ((name, v) :: members)) key = Json.getString (.object members) key :=
  Json.getWith_tail _ hne v members none

end

/-- A C string has no NUL. -/
def Terminated (s : Option String) : Prop := s.map cString = s

instance (s : Option String) : Decidable (Terminated s) := inferInstanceAs (Decidable (_ = _))

theorem terminated_map (s : Option String) : Terminated (s.map cString) := by
  cases s with
  | none => rfl
  | some s => exact congrArg some (Daemon.cString_cString s)

/-! ## The settings of the heatmap and of the daemon -/

theorem Job.ofJson_toJSON (job : Job) (hname : Terminated job.name) (hinfo : Terminated job.infoFile) :
    Job.ofJson job.toJSON = job := by
  have hname' : (Json.getString job.toJSON "name").map cString = job.name :=
    (getString_head job.name).trans hname
  have hinfo' : (Json.getString job.toJSON "info_file").map cString = job.infoFile := by
    rw [Job.toJSON, getString_tail (by decide)]
    exact (getString_head job.infoFile).trans hinfo
  have hx : Json.getUint job.toJSON "x" 0 = job.x := by
    simp [Job.toJSON, getUint_tail, getUint_head job.x_lt]
  have hheight : Json.getUint job.toJSON "height" 0 = job.height := by
    simp [Job.toJSON, getUint_tail, getUint_head job.height_lt]
  have hradius : Json.getUint job.toJSON "radius" 0 = job.radius := by
    simp [Job.toJSON, getUint_tail, getUint_head job.radius_lt]
  have hstart : Json.getInt job.toJSON "start" 0 = job.start := by
    simp [Job.toJSON, getInt_tail, getInt_head job.start_bounds]
  have hend : Json.getInt job.toJSON "end" 0 = job.«end» := by
    simp [Job.toJSON, getInt_tail, getInt_head job.end_bounds]
  have hmin : Json.getUint job.toJSON "min_nonce" 0 = job.minNonce := by
    simp [Job.toJSON, getUint_tail, getUint_head job.minNonce_lt]
  have hmax : Json.getUint job.toJSON "max_nonce" 0 = job.maxNonce := by
    simp [Job.toJSON, getUint_tail, getUint_head job.maxNonce_lt]
  have hfull : ¬ Json.isEmpty job.toJSON = true := by simp [Job.toJSON, Json.isEmpty]
  rw [Job.ofJson, if_neg hfull]
  simp only [hname', hinfo', hx, hheight, hradius, hstart, hend, hmin, hmax]

/-- The daemon settings are read back but for the TLS switch. -/
theorem Daemon.ofJson_toJSON (featureTls : Bool) (d : Daemon) (hhost : Terminated d.host) :
    Daemon.ofJson featureTls d.toJSON = { d with tls := false } := by
  have hhost' : (Json.getString d.toJSON "host").map cString = d.host := (getString_head d.host).trans hhost
  have hport : Json.getUint d.toJSON "port" 0 % 2 ^ 16 = d.port := by
    have hlt : d.port < 2 ^ 32 := d.port_lt.trans (by norm_num)
    have hread : Json.getUint d.toJSON "port" 0 = d.port := by simp [Daemon.toJSON, getUint_tail, getUint_head hlt]
    rw [hread, Nat.mod_eq_of_lt d.port_lt]
  have htls : Json.getUint d.toJSON "tls" 0 = 0 := by
    rw [Daemon.toJSON, getUint_tail (by decide), getUint_tail (by decide), Json.getUint, Json.getWith_head]
    rfl
  have hconcurrency : Daemon.clampedUint d.toJSON "concurrency" 10 = d.concurrency := by
    simp [Daemon.clampedUint, Daemon.toJSON, getUint_tail, getUint_head d.concurrency_lt, d.concurrency_pos]
  have hmaxRange : Daemon.clampedUint d.toJSON "max_range" 1000 = d.maxRange := by
    simp [Daemon.clampedUint, Daemon.toJSON, getUint_tail, getUint_head d.maxRange_lt, d.maxRange_pos]
  have hprint : Json.getUint d.toJSON "print_time" 10 = d.printSeconds := by
    simp [Daemon.toJSON, getUint_tail, getUint_head d.printSeconds_lt]
  have htimeout : Daemon.clampedUint d.toJSON "timeout" 30 = d.timeoutSeconds := by
    simp [Daemon.clampedUint, Daemon.toJSON, getUint_tail, getUint_head d.timeoutSeconds_lt, d.timeoutSeconds_pos]
  have hfull : ¬ Json.isEmpty d.toJSON = true := by simp [Daemon.toJSON, Json.isEmpty]
  rw [Daemon.ofJson, if_neg hfull]
  simp only [hhost', hport, htls, hconcurrency, hmaxRange, hprint, htimeout]
  simp

theorem Job.ofJson_terminated (value : Value) :
    Terminated (Job.ofJson value).name ∧ Terminated (Job.ofJson value).infoFile := by
  rw [Job.ofJson]
  split
  · exact ⟨by decide, rfl⟩
  · exact ⟨terminated_map _, terminated_map _⟩

theorem Daemon.ofJson_terminated (featureTls : Bool) (value : Value) : Terminated (Daemon.ofJson featureTls value).host := by
  rw [Daemon.ofJson]
  split
  · show Terminated (some "127.0.0.1")
    decide
  · exact terminated_map _

theorem Daemon.ofJson_tls (value : Value) :
    (Daemon.ofJson true value).tls = true ↔ Json.getUint value "tls" 0 ≠ 0 := by
  rw [Daemon.ofJson]
  split
  · next hempty =>
    have hzero : Json.getUint value "tls" 0 = 0 := if_pos hempty
    rw [hzero]
    exact iff_of_false (by decide) (by decide)
  · simp

/-! ## The configuration -/

/-- The accessors that the program uses. -/
structure Config.Agrees (c c' : Config) : Prop where
  isOffline : c'.isOffline = c.isOffline
  isAutoSave : c'.autoSave = c.autoSave
  noncesFile : c'.noncesFile = c.noncesFile
  isTLS : c'.daemon.tls = c.daemon.tls
  host : c'.daemon.host = c.daemon.host
  port : c'.daemon.port = c.daemon.port
  concurrency : c'.daemon.concurrency = c.daemon.concurrency
  maxRange : c'.daemon.maxRange = c.daemon.maxRange
  printTime : c'.daemon.printTime = c.daemon.printTime
  timeout : c'.daemon.timeout = c.daemon.timeout
  job : c'.job = c.job

/-- What a second run reads: the configuration that the first one wrote, in any state of `Log`. -/
theorem parse_getJSON (featureTls : Bool) (log : Log) (c : Config) (set : Log) (hfile : Terminated c.noncesFile)
    (hhost : Terminated c.daemon.host) (hname : Terminated c.job.name) (hinfo : Terminated c.job.infoFile) :
    Config.parse featureTls log (c.getJSON set) =
      ({ c with offline := c.isOffline, daemon := { c.daemon with tls := false } }, set) := by
  have hoffline : Json.getBool (c.getJSON set) "offline" false = c.isOffline := by
    rw [Config.getJSON, Json.getBool, Json.getWith_head]
    rfl
  have hautosave : Json.getBool (c.getJSON set) "autosave" true = c.autoSave := by
    rw [Config.getJSON, Json.getBool, Json.getWith_tail _ (by decide), Json.getWith_head]
    rfl
  have hfile' : (Json.getString (c.getJSON set) "nonces_file").map cString = c.noncesFile := by
    rw [Config.getJSON, getString_tail (by decide), getString_tail (by decide)]
    exact (getString_head c.noncesFile).trans hfile
  have hdaemon : Json.getObject (c.getJSON set) "daemon" = c.daemon.toJSON := by
    simp [Config.getJSON, Json.getObject, Json.getWith_tail, Json.getWith_head]
    rfl
  have hjob : Json.getObject (c.getJSON set) "heatmap" = c.job.toJSON := by
    simp [Config.getJSON, Json.getObject, Json.getWith_tail, Json.getWith_head]
    rfl
  have hcolors : Json.getBool (c.getJSON set) "colors" log.colors = set.colors := by
    simp [Config.getJSON, Json.getBool, Json.getWith_tail, Json.getWith_head]
    rfl
  have hverbose : Json.getValue (c.getJSON set) "verbose" = .int set.verbose := by
    simp [Config.getJSON, Json.getValue, Json.getWith_tail, Json.getWith_head]
  have hset : Config.setVerbose { log with colors := set.colors } (.int set.verbose) = set := by
    simp only [Config.setVerbose, Value.asUint_nat set.verbose_lt]
    rfl
  rw [Config.parse, hoffline, hautosave, hfile', hdaemon, hjob, hcolors, hverbose, hset,
    Daemon.ofJson_toJSON featureTls c.daemon hhost, Job.ofJson_toJSON c.job hname hinfo]

/-- A run that reads `d` and writes its configuration back, and a second run that reads what was written:
it has the same settings and writes the same document. -/
def Autosaved (log log' : Log) (d : Value) : Prop :=
  let first := Config.parse true log d
  let second := Config.parse true log' (first.1.getJSON first.2)
  first.1.Agrees second.1 ∧ second.2 = first.2 ∧ second.1.getJSON second.2 = first.1.getJSON first.2

/-- **The configuration is written back without a loss.** -/
theorem autosaved_iff (log log' : Log) (d : Value) :
    Autosaved log log' d ↔ Json.getUint (Json.getObject d "daemon") "tls" 0 = 0 := by
  obtain ⟨c, set, hparse⟩ : ∃ c set, Config.parse true log d = (c, set) := ⟨_, _, rfl⟩
  have hdaemon : c.daemon = .ofJson true (Json.getObject d "daemon") := (congrArg (fun p => p.1.daemon) hparse).symm
  have hjob : c.job = .ofJson (Json.getObject d "heatmap") := (congrArg (fun p => p.1.job) hparse).symm
  have hfile : c.noncesFile = (Json.getString d "nonces_file").map cString :=
    (congrArg (fun p => p.1.noncesFile) hparse).symm
  have hname : Terminated c.job.name ∧ Terminated c.job.infoFile := by
    rw [hjob]
    exact Job.ofJson_terminated _
  have hsecond := parse_getJSON true log' c set (by rw [hfile]; exact terminated_map _)
    (by rw [hdaemon]; exact Daemon.ofJson_terminated true _) hname.1 hname.2
  have htls : c.daemon.tls = true ↔ Json.getUint (Json.getObject d "daemon") "tls" 0 ≠ 0 := by
    rw [hdaemon]
    exact Daemon.ofJson_tls _
  rw [Autosaved, hparse]
  dsimp only
  rw [hsecond]
  constructor
  · rintro ⟨hagrees, -, -⟩
    by_contra hne
    have hlost : false = c.daemon.tls := hagrees.isTLS
    rw [htls.mpr hne] at hlost
    cases hlost
  · intro hzero
    have hoff : c.daemon.tls = false := by
      rw [← Bool.not_eq_true, htls]
      exact fun h => h hzero
    have hsame : { c.daemon with tls := false } = c.daemon := by rw [← hoff]
    have hoffline : ({ c with offline := c.isOffline } : Config).isOffline = c.isOffline := by
      simp [Config.isOffline]
    rw [hsame]
    refine ⟨⟨hoffline, rfl, rfl, rfl, rfl, rfl, rfl, rfl, rfl, rfl, rfl⟩, rfl, ?_⟩
    simp only [Config.getJSON, hoffline]

/-- A daemon with TLS is read back as one without. -/
theorem tls_lost :
    ¬ Autosaved ⟨true, 0, by decide⟩ ⟨true, 0, by decide⟩
      (.object [("daemon", .object [("host", .string "127.0.0.1"), ("port", .int 18081), ("tls", .int 1)])]) := by
  intro h
  exact absurd h.1.isTLS (by decide +kernel)

end NoncesHeatmap
