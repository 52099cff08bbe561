import NoncesHeatmap.Config.Autosave
import NoncesHeatmap.Heatmap.Render

/-! # Keys that are left out

An object that is left out, or empty, gives the defaults. In an object with some keys the missing ones
are read with a fallback, which for most keys is the default and for the host and the port of the daemon
and the name, the height and the radius of the heatmap is null or 0. -/

namespace NoncesHeatmap
open Daemon (cString)
set_option autoImplicit false

/-! ## Completing an object -/

namespace Value

def members : Value → List (String × Value)
  | object members => members
  | _ => []

def lacks (v : Value) (key : String) : Bool := (v.findMember key).isNone

/-- The object with the members of `defaults` whose keys it lacks. -/
def complete (v defaults : Value) : Value :=
  .object (v.members ++ defaults.members.filter fun m => v.lacks m.1)

theorem findMember_eq (v : Value) (key : String) : v.findMember key = v.members.lookup key := by
  cases v <;> rfl

theorem isEmpty_iff (v : Value) : Json.isEmpty v = true ↔ v.members = [] := by
  cases v with
  | object members =>
    cases members with
    | nil => exact iff_of_true rfl rfl
    | cons m members => exact iff_of_false Bool.false_ne_true (List.cons_ne_nil m members)
  | _ => exact iff_of_true rfl rfl

theorem lookup_filter_lacks (v : Value) {key : String} (h : v.lacks key = true) (rest : List (String × Value)) :
    (rest.filter fun m => v.lacks m.1).lookup key = rest.lookup key := by
  induction rest with
  | nil => rfl
  | cons m rest ih =>
    obtain ⟨name, value⟩ := m
    by_cases hname : key = name
    · subst hname
      have hkeep : (((key, value) :: rest).filter fun m => v.lacks m.1) = (key, value) :: rest.filter fun m => v.lacks m.1 :=
        List.filter_cons_of_pos h
      rw [hkeep, List.lookup_cons_self, List.lookup_cons_self]
    · have hbeq : (key == name) = false := by simpa using hname
      rw [List.lookup_cons, hbeq, List.filter_cons]
      split
      · rw [List.lookup_cons, hbeq]
        exact ih
      · exact ih

theorem findMember_complete_of_lacks {v : Value} {key : String} (h : v.findMember key = none) (defaults : Value) :
    (v.complete defaults).findMember key = defaults.findMember key := by
  have hlacks : v.lacks key = true := by rw [lacks, h]; rfl
  rw [findMember_eq] at h
  show (v.members ++ _).lookup key = _
  rw [List.lookup_append, h, lookup_filter_lacks v hlacks, findMember_eq]
  rfl

theorem findMember_complete_of_has {v value : Value} {key : String} (h : v.findMember key = some value)
    (defaults : Value) : (v.complete defaults).findMember key = some value := by
  rw [findMember_eq] at h
  show (v.members ++ _).lookup key = _
  rw [List.lookup_append, h]
  rfl

theorem complete_of_isEmpty {v : Value} (h : Json.isEmpty v = true) (rest : List (String × Value)) :
    v.complete (.object rest) = .object rest := by
  have hmembers := v.isEmpty_iff.mp h
  have hlacks : ∀ key, v.lacks key = true := fun key => by
    rw [lacks, findMember_eq, hmembers]
    rfl
  have hall : (rest.filter fun m => v.lacks m.1) = rest := List.filter_eq_self.mpr fun m _ => hlacks m.1
  rw [complete, hmembers]
  exact congrArg Value.object hall

theorem isEmpty_complete {v : Value} (h : ¬ Json.isEmpty v = true) (defaults : Value) :
    ¬ Json.isEmpty (v.complete defaults) = true := by
  rw [isEmpty_iff] at h ⊢
  exact List.append_ne_nil_of_left_ne_nil h _

end Value

namespace Json
variable {α : Type} {read : Value → Option α} {v : Value} {key : String} {defaultValue : α}

theorem getWith_eq (read : Value → Option α) (v : Value) (key : String) (defaultValue : α) :
    getWith read v key defaultValue = ((v.findMember key).bind read).getD defaultValue := by
  rw [getWith]
  split
  · next hempty =>
    rw [Value.findMember_eq, v.isEmpty_iff.mp hempty]
    rfl
  · split
    · next value hvalue => rw [hvalue, Option.bind_some]
    · next hnone => rw [hnone]; rfl

theorem getWith_of_lacks (h : v.findMember key = none) : getWith read v key defaultValue = defaultValue := by
  rw [getWith_eq, h]
  rfl

theorem getWith_of_has {value : Value} {a : α} (h : v.findMember key = some value) (hread : read value = some a) :
    getWith read v key defaultValue = a := by
  rw [getWith_eq, h, Option.bind_some, hread]
  rfl

/-- A key that is missing may be added with a value that reads like the fallback. -/
theorem getWith_complete {defaults : Value}
    (h : v.findMember key = none → getWith read defaults key defaultValue = defaultValue) :
    getWith read (v.complete defaults) key defaultValue = getWith read v key defaultValue := by
  rw [getWith_eq, getWith_eq read v]
  cases hfind : v.findMember key with
  | none =>
    rw [Value.findMember_complete_of_lacks hfind, ← getWith_eq]
    exact h hfind
  | some value => rw [Value.findMember_complete_of_has hfind]

end Json

/-! ## The daemon -/

namespace Daemon

/-- The accessors of the keys that `v` lacks have the values that they have in `d0`. -/
structure AgreesOnMissing (v : Value) (d d0 : Daemon) : Prop where
  host : v.findMember "host" = none → d.host = d0.host
  port : v.findMember "port" = none → d.port = d0.port
  concurrency : v.findMember "concurrency" = none → d.concurrency = d0.concurrency
  maxRange : v.findMember "max_range" = none → d.maxRange = d0.maxRange
  printTime : v.findMember "print_time" = none → d.printTime = d0.printTime
  timeout : v.findMember "timeout" = none → d.timeout = d0.timeout

/-- The keys that are given are good: a host that is not empty, a port that is not 0. -/
structure Given (v : Value) : Prop where
  host : ∀ host, v.findMember "host" = some host → ∃ s, host.asString = some s ∧ cString s ≠ ""
  port : ∀ port, v.findMember "port" = some port → ∃ n, port.asUint = some n ∧ n % 2 ^ 16 ≠ 0

/-- Missing keys of the `daemon` object behave like the defaults, which are what a missing object gives. -/
def MissingAsDefault (featureTls : Bool) (v : Value) : Prop :=
  AgreesOnMissing v (ofJson featureTls v) (ofJson featureTls .null) ∧
    ofJson featureTls (v.complete (ofJson featureTls .null).toJSON) = ofJson featureTls v ∧
    (Given v → (ofJson featureTls v).isValid = true)

variable {featureTls : Bool} {v : Value}

theorem ofJson_of_isEmpty (h : Json.isEmpty v = true) : ofJson featureTls v = default (some "127.0.0.1") := if_pos h

theorem clampedUint_of_lacks {key : String} {defaultValue : ℕ} (h : v.findMember key = none)
    (hpos : 1 ≤ defaultValue) : clampedUint v key defaultValue = defaultValue := by
  rw [clampedUint, Json.getUint, Json.getWith_of_lacks h]
  exact max_eq_left hpos

theorem clampedUint_complete {key : String} {defaultValue : ℕ} {defaults : Value}
    (h : Json.getUint defaults key defaultValue = defaultValue) :
    clampedUint (v.complete defaults) key defaultValue = clampedUint v key defaultValue :=
  congrArg (max · 1) (Json.getWith_complete fun _ => h)

theorem agreesOnMissing_of_has (hempty : ¬ Json.isEmpty v = true) (hhost : v.findMember "host" ≠ none)
    (hport : v.findMember "port" ≠ none) :
    AgreesOnMissing v (ofJson featureTls v) (ofJson featureTls .null) := by
  rw [ofJson, if_neg hempty]
  refine ⟨fun h => absurd h hhost, fun h => absurd h hport, ?_, ?_, ?_, ?_⟩
  · intro h
    exact clampedUint_of_lacks h (by decide)
  · intro h
    exact clampedUint_of_lacks h (by decide)
  · intro h
    exact congrArg (fun n => u32 (n * 1000)) (Json.getWith_of_lacks h)
  · intro h
    exact congrArg (fun n => u32 (n * 1000)) (clampedUint_of_lacks h (by decide))

theorem complete_of_has (hempty : ¬ Json.isEmpty v = true) (hhost : v.findMember "host" ≠ none)
    (hport : v.findMember "port" ≠ none) :
    ofJson featureTls (v.complete (default (some "127.0.0.1")).toJSON) = ofJson featureTls v := by
  generalize hdefaults : (default (some "127.0.0.1")).toJSON = defaults
  have hhost' : Json.getString (v.complete defaults) "host" = Json.getString v "host" :=
    Json.getWith_complete fun h => absurd h hhost
  have hport' : Json.getUint (v.complete defaults) "port" 0 = Json.getUint v "port" 0 :=
    Json.getWith_complete fun h => absurd h hport
  have htls : Json.getUint (v.complete defaults) "tls" 0 = Json.getUint v "tls" 0 :=
    Json.getWith_complete fun _ => by rw [← hdefaults]; decide +kernel
  have hprint : Json.getUint (v.complete defaults) "print_time" 10 = Json.getUint v "print_time" 10 :=
    Json.getWith_complete fun _ => by rw [← hdefaults]; decide +kernel
  have hconcurrency : clampedUint (v.complete defaults) "concurrency" 10 = clampedUint v "concurrency" 10 :=
    clampedUint_complete (by rw [← hdefaults]; decide +kernel)
  have hmaxRange : clampedUint (v.complete defaults) "max_range" 1000 = clampedUint v "max_range" 1000 :=
    clampedUint_complete (by rw [← hdefaults]; decide +kernel)
  have htimeout : clampedUint (v.complete defaults) "timeout" 30 = clampedUint v "timeout" 30 :=
    clampedUint_complete (by rw [← hdefaults]; decide +kernel)
  rw [ofJson, if_neg (Value.isEmpty_complete hempty defaults), ofJson, if_neg hempty]
  simp only [hhost', hport', htls, hprint, hconcurrency, hmaxRange, htimeout]

theorem isValid_of_given (hempty : ¬ Json.isEmpty v = true) (hhost : v.findMember "host" ≠ none)
    (hport : v.findMember "port" ≠ none) (hgiven : Given v) : (ofJson featureTls v).isValid = true := by
  obtain ⟨host, hhost⟩ := Option.ne_none_iff_exists'.mp hhost
  obtain ⟨port, hport⟩ := Option.ne_none_iff_exists'.mp hport
  obtain ⟨s, hs, hsome⟩ := hgiven.host host hhost
  obtain ⟨n, hn, hpos⟩ := hgiven.port port hport
  have hstring : Json.getString v "host" = some s := Json.getWith_of_has hhost (by rw [hs]; rfl)
  have hport : Json.getUint v "port" 0 = n := Json.getWith_of_has hport hn
  rw [ofJson, if_neg hempty, isValid]
  simp only [hstring, hport]
  rw [Bool.and_eq_true, decide_eq_true_iff, decide_eq_true_iff]
  exact ⟨hsome, Nat.pos_of_ne_zero hpos⟩

theorem missingAsDefault_iff (featureTls : Bool) (v : Value) :
    MissingAsDefault featureTls v ↔
      Json.isEmpty v = true ∨ v.findMember "host" ≠ none ∧ v.findMember "port" ≠ none := by
  by_cases hempty : Json.isEmpty v = true
  · refine iff_of_true ⟨?_, ?_, fun _ => ?_⟩ (Or.inl hempty)
    · rw [ofJson_of_isEmpty hempty]
      exact ⟨fun _ => rfl, fun _ => rfl, fun _ => rfl, fun _ => rfl, fun _ => rfl, fun _ => rfl⟩
    · rw [Daemon.toJSON, Value.complete_of_isEmpty hempty, ← Daemon.toJSON,
        ofJson_toJSON featureTls _ (ofJson_terminated featureTls .null), ofJson_of_isEmpty hempty]
      rfl
    · rw [ofJson_of_isEmpty hempty]
      decide
  · rw [or_iff_right hempty]
    constructor
    · rintro ⟨hagrees, -, -⟩
      rw [ofJson, if_neg hempty] at hagrees
      constructor
      · intro hhost
        have hnull : Json.getString v "host" = none := Json.getWith_of_lacks hhost
        have heq := hagrees.host hhost
        simp only [hnull] at heq
        cases heq
      · intro hport
        have hzero : Json.getUint v "port" 0 = 0 := Json.getWith_of_lacks hport
        have heq : Json.getUint v "port" 0 % 2 ^ 16 = 18081 := hagrees.port hport
        rw [hzero] at heq
        exact absurd heq (by decide)
    · rintro ⟨hhost, hport⟩
      exact ⟨agreesOnMissing_of_has hempty hhost hport, complete_of_has hempty hhost hport,
        isValid_of_given hempty hhost hport⟩

end Daemon

/-! ## The heatmap -/

namespace Job

structure AgreesOnMissing (v : Value) (job job0 : Job) : Prop where
  name : v.findMember "name" = none → job.name = job0.name
  height : v.findMember "height" = none → job.height = job0.height
  radius : v.findMember "radius" = none → job.radius = job0.radius
  x : v.findMember "x" = none → job.x = job0.x
  start : v.findMember "start" = none → job.start = job0.start
  «end» : v.findMember "end" = none → job.«end» = job0.«end»
  minNonce : v.findMember "min_nonce" = none → job.minNonce = job0.minNonce
  maxNonce : v.findMember "max_nonce" = none → job.maxNonce = job0.maxNonce

/-- The keys that are given are good: a name that is not empty, a height that is not 0. -/
structure Given (v : Value) : Prop where
  name : ∀ name, v.findMember "name" = some name → ∃ s, name.asString = some s ∧ cString s ≠ ""
  height : ∀ height, v.findMember "height" = some height → ∃ n, height.asUint = some n ∧ n ≠ 0

/-- There is a file to write, and no run ends with the error of the height. -/
def Renderable (job : Job) : Prop :=
  job.name.getD "" ≠ "" ∧ ∀ size, select job size ≠ .error "image height is not specified"

/-- Missing keys of the `heatmap` object behave like the defaults, which are what a missing object gives. -/
def MissingAsDefault (v : Value) : Prop :=
  AgreesOnMissing v (ofJson v) (ofJson .null) ∧ ofJson (v.complete (ofJson .null).toJSON) = ofJson v ∧
    (Given v → (ofJson v).Renderable)

variable {v : Value} {job : Job}

theorem ofJson_of_isEmpty (h : Json.isEmpty v = true) : ofJson v = default (some "heatmap.png") := if_pos h

theorem select_height_zero (h : job.height = 0) {size : ℕ} (hsize : size ≠ 0) :
    select job size = .error "image height is not specified" := by
  rw [select, sliceBounds, if_neg hsize, if_pos h]
  rfl

theorem select_height_given (h : job.height ≠ 0) (size : ℕ) :
    select job size ≠ .error "image height is not specified" := by
  have hother : ∀ {α : Type} {message : String}, message ≠ "image height is not specified" →
      (Except.error message : Except String α) ≠ .error "image height is not specified" :=
    fun hne heq => hne (Except.error.inj heq)
  rw [select, sliceBounds, if_neg h]
  split
  · exact hother (by decide)
  · dsimp only
    split
    · exact hother (by decide)
    · split
      · exact hother (by decide)
      · show (if _ then _ else _) ≠ _
        split
        · exact hother (by decide)
        · intro h
          cases h

theorem agreesOnMissing_of_has (hempty : ¬ Json.isEmpty v = true) (hname : v.findMember "name" ≠ none)
    (hheight : v.findMember "height" ≠ none) (hradius : v.findMember "radius" ≠ none) :
    AgreesOnMissing v (ofJson v) (ofJson .null) := by
  rw [ofJson, if_neg hempty]
  refine ⟨fun h => absurd h hname, fun h => absurd h hheight, fun h => absurd h hradius, ?_, ?_, ?_, ?_, ?_⟩
  all_goals
    intro h
    exact Json.getWith_of_lacks h

theorem complete_of_has (hempty : ¬ Json.isEmpty v = true) (hname : v.findMember "name" ≠ none)
    (hheight : v.findMember "height" ≠ none) (hradius : v.findMember "radius" ≠ none) :
    ofJson (v.complete (default (some "heatmap.png")).toJSON) = ofJson v := by
  generalize hdefaults : (default (some "heatmap.png")).toJSON = defaults
  have hname' : Json.getString (v.complete defaults) "name" = Json.getString v "name" :=
    Json.getWith_complete fun h => absurd h hname
  have hheight' : Json.getUint (v.complete defaults) "height" 0 = Json.getUint v "height" 0 :=
    Json.getWith_complete fun h => absurd h hheight
  have hradius' : Json.getUint (v.complete defaults) "radius" 0 = Json.getUint v "radius" 0 :=
    Json.getWith_complete fun h => absurd h hradius
  have hinfo : Json.getString (v.complete defaults) "info_file" = Json.getString v "info_file" :=
    Json.getWith_complete fun _ => by rw [← hdefaults]; decide +kernel
  have hx : Json.getUint (v.complete defaults) "x" 0 = Json.getUint v "x" 0 :=
    Json.getWith_complete fun _ => by rw [← hdefaults]; decide +kernel
  have hstart : Json.getInt (v.complete defaults) "start" 0 = Json.getInt v "start" 0 :=
    Json.getWith_complete fun _ => by rw [← hdefaults]; decide +kernel
  have hend : Json.getInt (v.complete defaults) "end" 0 = Json.getInt v "end" 0 :=
    Json.getWith_complete fun _ => by rw [← hdefaults]; decide +kernel
  have hmin : Json.getUint (v.complete defaults) "min_nonce" 0 = Json.getUint v "min_nonce" 0 :=
    Json.getWith_complete fun _ => by rw [← hdefaults]; decide +kernel
  have hmax : Json.getUint (v.complete defaults) "max_nonce" 0 = Json.getUint v "max_nonce" 0 :=
    Json.getWith_complete fun _ => by rw [← hdefaults]; decide +kernel
  rw [ofJson, if_neg (Value.isEmpty_complete hempty defaults), ofJson, if_neg hempty]
  simp only [hname', hheight', hradius', hinfo, hx, hstart, hend, hmin, hmax]

theorem renderable_of_given (hempty : ¬ Json.isEmpty v = true) (hname : v.findMember "name" ≠ none)
    (hheight : v.findMember "height" ≠ none) (hgiven : Given v) : (ofJson v).Renderable := by
  obtain ⟨name, hname⟩ := Option.ne_none_iff_exists'.mp hname
  obtain ⟨height, hheight⟩ := Option.ne_none_iff_exists'.mp hheight
  obtain ⟨s, hs, hsome⟩ := hgiven.name name hname
  obtain ⟨n, hn, hpos⟩ := hgiven.height height hheight
  have hstring : Json.getString v "name" = some s := Json.getWith_of_has hname (by rw [hs]; rfl)
  have huint : Json.getUint v "height" 0 = n := Json.getWith_of_has hheight hn
  rw [ofJson, if_neg hempty]
  refine ⟨?_, select_height_given ?_⟩
  · simp only [hstring]
    exact hsome
  · simp only [huint]
    exact hpos

theorem missingAsDefault_iff (v : Value) :
    MissingAsDefault v ↔ Json.isEmpty v = true ∨
      v.findMember "name" ≠ none ∧ v.findMember "height" ≠ none ∧ v.findMember "radius" ≠ none := by
  by_cases hempty : Json.isEmpty v = true
  · refine iff_of_true ⟨?_, ?_, fun _ => ?_⟩ (Or.inl hempty)
    · rw [ofJson_of_isEmpty hempty]
      exact ⟨fun _ => rfl, fun _ => rfl, fun _ => rfl, fun _ => rfl, fun _ => rfl, fun _ => rfl, fun _ => rfl,
        fun _ => rfl⟩
    · obtain ⟨hname, hinfo⟩ := ofJson_terminated .null
      rw [Job.toJSON, Value.complete_of_isEmpty hempty, ← Job.toJSON, ofJson_toJSON _ hname hinfo,
        ofJson_of_isEmpty hempty]
      rfl
    · rw [ofJson_of_isEmpty hempty]
      exact ⟨by decide, select_height_given (by decide)⟩
  · rw [or_iff_right hempty]
    constructor
    · rintro ⟨hagrees, -, -⟩
      rw [ofJson, if_neg hempty] at hagrees
      refine ⟨?_, ?_, ?_⟩
      · intro hname
        have hnull : Json.getString v "name" = none := Json.getWith_of_lacks hname
        have heq := hagrees.name hname
        simp only [hnull] at heq
        cases heq
      · intro hheight
        have heq : Json.getUint v "height" 0 = 4096 := hagrees.height hheight
        rw [Json.getUint, Json.getWith_of_lacks hheight] at heq
        exact absurd heq (by decide)
      · intro hradius
        have heq : Json.getUint v "radius" 0 = 5 := hagrees.radius hradius
        rw [Json.getUint, Json.getWith_of_lacks hradius] at heq
        exact absurd heq (by decide)
    · rintro ⟨hname, hheight, hradius⟩
      exact ⟨agreesOnMissing_of_has hempty hname hheight hradius, complete_of_has hempty hname hheight hradius,
        renderable_of_given hempty hname hheight⟩

end Job

/-! ## Both -/

/-- **The objects whose missing keys behave like the defaults.** -/
theorem missing_keys_default_iff (featureTls : Bool) (v : Value) :
    (Daemon.MissingAsDefault featureTls v ↔
      Json.isEmpty v = true ∨ v.findMember "host" ≠ none ∧ v.findMember "port" ≠ none) ∧
    (Job.MissingAsDefault v ↔ Json.isEmpty v = true ∨
      v.findMember "name" ≠ none ∧ v.findMember "height" ≠ none ∧ v.findMember "radius" ≠ none) :=
  ⟨Daemon.missingAsDefault_iff featureTls v, Job.missingAsDefault_iff v⟩

/-- A daemon with only a port has no host, which is the offline mode, and a heatmap with only a name has
the height 0, which is an error. -/
theorem missing_host_and_height :
    ¬ Daemon.MissingAsDefault false (.object [("port", .int 18081)]) ∧
      (Config.parse false ⟨true, 0, by decide⟩
        (.object [("daemon", .object [("port", .int 18081)])])).1.isOffline = true ∧
      ¬ Job.MissingAsDefault (.object [("name", .string "heatmap.png")]) ∧
      select (.ofJson (.object [("name", .string "heatmap.png")])) 1 =
        .error "image height is not specified" := by
  refine ⟨?_, by decide +kernel, ?_, Job.select_height_zero rfl one_ne_zero⟩
  · rintro ⟨hagrees, -, -⟩
    exact absurd (hagrees.host rfl) (by decide +kernel)
  · rintro ⟨hagrees, -, -⟩
    exact absurd (hagrees.height rfl) (by decide +kernel)

end NoncesHeatmap
