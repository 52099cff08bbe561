import NoncesHeatmap.Base.Offset
import NoncesHeatmap.Config.Autosave
import NoncesHeatmap.Json.Errors
import NoncesHeatmap.Json.Files
import NoncesHeatmap.Library.Runs

/-! # The configuration file

`ConfigFile::read` parses the file and reports an error with its place. With `autosave` every run writes the
configuration back over the file that it has read, and with it the settings of the log, which a console that is no
terminal has changed before. Unlike the nonces, a configuration that does not parse is not taken for an absent one:
once a writing was cut off, no run of the program starts again. -/

namespace NoncesHeatmap
open Runs
set_option autoImplicit false

namespace ConfigFile
open Json

/-- `GetParseError_En` -/
def getParseError : ParseErrorCode → String
  | .none => "No error."
  | .documentEmpty => "The document is empty."
  | .documentRootNotSingular => "The document root must not be followed by other values."
  | .valueInvalid => "Invalid value."
  | .objectMissName => "Missing a name for object member."
  | .objectMissColon => "Missing a colon after a name of object member."
  | .objectMissCommaOrCurlyBracket => "Missing a comma or \x27\x7d\x27 after an object member."
  | .arrayMissCommaOrSquareBracket => "Missing a comma or \x27]\x27 after an array element."
  | .stringUnicodeEscapeInvalidHex => "Incorrect hex digit after \\u escape in string."
  | .stringUnicodeSurrogateInvalid => "The surrogate pair in string is invalid."
  | .stringEscapeInvalid => "Invalid escape character in string."
  | .stringMissQuotationMark => "Missing a closing quotation mark in string."
  | .stringInvalidEncoding => "Invalid encoding in string."
  | .numberTooBig => "Number too big to be stored in double."
  | .numberMissFraction => "Miss fraction part in number."
  | .numberMissExponent => "Miss exponent in number."
  | .unspecificSyntaxError => "Unspecific syntax error."

/-- `doc.HasParseError()` after `Json::get` -/
def hasParseError (tooBig : Bytes → Bool) (file : Option Bytes) : Option ParseError :=
  match file with
  | none => none
  | some bytes =>
    match parse fileFlags tooBig bytes with
    | .ok _ => none
    | .error e => some e

/-- `ConfigFile::read` with the name of a file: the document for `parse`, or the error. -/
def read (tooBig : Bytes → Bool) (file : Option Bytes) : Except ParseError Value :=
  match Json.get tooBig file with
  | some doc => .ok doc
  | none =>
    match hasParseError tooBig file with
    | some e => .error e
    | none => .ok (.object [])

/-- `doc.GetErrorOffset()` -/
def errorOffset (bytes : Bytes) (e : ParseError) : ℕ := bytes.length - e.rest.length

/-- What `ConfigFile::read` prints for an error. -/
def messages (fileName : Bytes) (content : FileContent) (e : ParseError) : List Bytes :=
  parseErrorMessages fileName content (errorOffset content.bytes e) (ascii (getParseError e.code))

variable {tooBig : Bytes → Bool} {bytes : Bytes}

theorem read_ok {doc : Value} (h : Document fileFlags tooBig bytes doc) :
    read tooBig (some bytes) = .ok (if doc.isObject || doc.isArray then doc else .object []) := by
  have hparse := parse_complete h
  have hget : Json.get tooBig (some bytes) = if doc.isObject || doc.isArray then some doc else none := by
    rw [Json.get, hparse]
  have herror : hasParseError tooBig (some bytes) = none := by rw [hasParseError, hparse]
  rw [read, hget, herror]
  cases doc.isObject || doc.isArray <;> rfl

theorem read_error {e : ParseError} (h : parse fileFlags tooBig bytes = .error e) : read tooBig (some bytes) = .error e := by
  rw [read, Json.get, hasParseError, h]

/-- **A configuration file is read, or its error is shown at its place.** A text that is no document has an error
with a code, at an offset in the text that `convertOffset` always finds. -/
theorem read_reports (tooBig : Bytes → Bool) (fileName : Bytes) (content : FileContent) :
    (∃ doc, Document fileFlags tooBig content.bytes doc ∧
        read tooBig (some content.bytes) = .ok (if doc.isObject || doc.isArray then doc else .object [])) ∨
      (∀ doc, ¬ Document fileFlags tooBig content.bytes doc) ∧
        ∃ e found, read tooBig (some content.bytes) = .error e ∧ e.code ≠ .none ∧
          e.rest = content.bytes.drop (errorOffset content.bytes e) ∧
          Locates content.bytes (errorOffset content.bytes e) found ∧
          messages fileName content e = found.s.map cStr ++ [caret found.pos,
            fileName ++ ascii "<line:" ++ ascii (toString found.line) ++ ascii ", position:" ++
              ascii (toString found.pos) ++ ascii ">: \"" ++ ascii (getParseError e.code) ++ ascii "\""] := by
  cases hparse : parse fileFlags tooBig content.bytes with
  | ok doc => exact Or.inl ⟨doc, parse_sound hparse, read_ok (parse_sound hparse)⟩
  | error e =>
    refine Or.inr ⟨fun doc hdoc => ?_, e, ?_⟩
    · cases hparse.symm.trans (parse_complete hdoc)
    · obtain ⟨hcode, hrest⟩ := parse_error hparse
      obtain ⟨hfound, hlocates⟩ := convertOffset_finds content (errorOffset content.bytes e) []
      have htrue := hfound.mpr (Nat.sub_le _ _)
      refine ⟨_, read_error hparse, hcode, List.suffix_iff_eq_drop.mp hrest, hlocates htrue, ?_⟩
      have heq : convertOffset content.ifstream (errorOffset content.bytes e) [] =
          (true, (convertOffset content.ifstream (errorOffset content.bytes e) []).2) := Prod.ext htrue rfl
      rw [messages, parseErrorMessages, heq]

end ConfigFile

/-! ## The text of a configuration -/

namespace Json
open Daemon (cString stringJSON)

theorem ofBytes_cString {s : String} (h : OfBytes s) : OfBytes (cString s) := by
  refine ofBytes_iff.mpr fun c hc => ?_
  rw [cString, String.toList_ofList] at hc
  exact ofBytes_iff.mp h c (List.takeWhile_subset _ hc)

theorem writable_stringJSON {s : Option String} (h : ∀ t, s = some t → OfBytes t) : Writable (stringJSON s) := by
  cases s with
  | none => trivial
  | some t => exact ofBytes_cString (h t rfl)

theorem writable_nat {n : ℕ} (h : n < 2 ^ 32) : Writable (.int n) :=
  ⟨by omega, by omega⟩

theorem writable_int {n : ℤ} (h : -2 ^ 31 ≤ n ∧ n < 2 ^ 31) : Writable (.int n) :=
  ⟨by omega, by omega⟩

theorem ofBytes_map {s : Option String} (h : ∀ t, s = some t → OfBytes t) : ∀ t, s.map cString = some t → OfBytes t := by
  intro t ht
  obtain ⟨u, hu, rfl⟩ := Option.map_eq_some_iff.mp ht
  exact ofBytes_cString (h u hu)

end Json

namespace Config
open Json

/-- The strings of a configuration are strings of bytes. -/
structure OfBytes (c : Config) : Prop where
  noncesFile : ∀ s, c.noncesFile = some s → Json.OfBytes s
  host : ∀ s, c.daemon.host = some s → Json.OfBytes s
  name : ∀ s, c.job.name = some s → Json.OfBytes s
  infoFile : ∀ s, c.job.infoFile = some s → Json.OfBytes s

theorem writable_daemon (d : Daemon) (h : ∀ s, d.host = some s → Json.OfBytes s) : Writable d.toJSON := by
  have hport : d.port < 2 ^ 32 := d.port_lt.trans (by decide)
  exact ⟨by decide, writable_stringJSON h, by decide, writable_nat hport, by decide, trivial, by decide,
    writable_nat d.concurrency_lt, by decide, writable_nat d.maxRange_lt, by decide, writable_nat d.printSeconds_lt,
    by decide, writable_nat d.timeoutSeconds_lt, trivial⟩

theorem writable_job (job : Job) (hname : ∀ s, job.name = some s → Json.OfBytes s)
    (hinfo : ∀ s, job.infoFile = some s → Json.OfBytes s) : Writable job.toJSON :=
  ⟨by decide, writable_stringJSON hname, by decide, writable_stringJSON hinfo, by decide, writable_nat job.x_lt,
    by decide, writable_nat job.height_lt, by decide, writable_nat job.radius_lt, by decide,
    writable_int job.start_bounds, by decide, writable_int job.end_bounds, by decide, writable_nat job.minNonce_lt,
    by decide, writable_nat job.maxNonce_lt, trivial⟩

theorem writable_getJSON {c : Config} (h : c.OfBytes) (log : Log) : Writable (c.getJSON log) :=
  ⟨by decide, trivial, by decide, trivial, by decide, writable_stringJSON h.noncesFile, by decide,
    writable_daemon c.daemon h.host, by decide, writable_job c.job h.name h.infoFile, by decide, trivial, by decide,
    writable_nat log.verbose_lt, trivial⟩

theorem ofBytes_parse (featureTls : Bool) (log : Log) {doc : Value} (h : Bytewise doc) :
    (parse featureTls log doc).1.OfBytes where
  noncesFile := ofBytes_map fun _ hs => h.getString hs
  host := by
    show ∀ s, (Daemon.ofJson featureTls (Json.getObject doc "daemon")).host = some s → _
    rw [Daemon.ofJson]
    split
    · rintro s ⟨⟩
      show text (ascii "127.0.0.1") = "127.0.0.1"
      decide
    · exact ofBytes_map fun _ hs => (h.getObject "daemon").getString hs
  name := by
    show ∀ s, (Job.ofJson (Json.getObject doc "heatmap")).name = some s → _
    rw [Job.ofJson]
    split
    · rintro s ⟨⟩
      show text (ascii "heatmap.png") = "heatmap.png"
      decide
    · exact ofBytes_map fun _ hs => (h.getObject "heatmap").getString hs
  infoFile := by
    show ∀ s, (Job.ofJson (Json.getObject doc "heatmap")).infoFile = some s → _
    rw [Job.ofJson]
    split
    · rintro s ⟨⟩
    · exact ofBytes_map fun _ hs => (h.getObject "heatmap").getString hs

end Config

/-! ## Runs of the program on one file -/

namespace ConfigFile
open Json

/-- What the writing of the configuration comes to. -/
inductive Writing where
  | written
  | notOpened
  | interrupted (stored : ℕ)
deriving DecidableEq

def Writing.file (text file : Option Bytes) : Writing → Option Bytes
  | .written => text
  | .notOpened => file
  | .interrupted stored => text.map (·.take stored)

/-- How the program is run: whether `ConsoleLog` finds a terminal or a pipe that it can open, and what becomes of the
file. -/
structure Launch where
  console : Bool
  writing : Writing

/-- `App::initLog`: `ConsoleLog::ConsoleLog` turns the colours off where it has no terminal. -/
def initLog (console : Bool) (set : Log) : Log := if console then set else { set with colors := false }

section
variable (featureTls : Bool) (tooBig : Bytes → Bool) (dtoa : String → Bytes) (singleLineArray : Bool) (log : Log)

/-- The configuration of a run that starts with the settings `log`: none if the file does not parse. -/
def load (file : Option Bytes) : Option (Config × Log) :=
  match read tooBig file with
  | .ok doc => some (Config.parse featureTls log doc)
  | .error _ => none

/-- `ConfigFile::save` -/
def save (c : Config) (set : Log) : Option Bytes := Json.save dtoa singleLineArray (c.getJSON set)

/-- The file after `exec()`, which returns 2 if there is no configuration. The log is set up before the file is
written. -/
def exec (launch : Launch) (file : Option Bytes) : Option Bytes :=
  match load featureTls tooBig log file with
  | none => file
  | some (c, set) =>
    if c.autoSave then launch.writing.file (save dtoa singleLineArray c (initLog launch.console set)) file else file

/-- The runs of the program, with what becomes of the configuration in each of them. A writing is interrupted
before its last byte. -/
def machine : Machine (Option Bytes) Launch where
  enabled file launch := ∀ stored c set bytes, launch.writing = .interrupted stored →
    load featureTls tooBig log file = some (c, set) →
    save dtoa singleLineArray c (initLog launch.console set) = some bytes → stored < bytes.length
  next file launch := exec featureTls tooBig dtoa singleLineArray log launch file

end

variable {featureTls : Bool} {tooBig : Bytes → Bool} {dtoa : String → Bytes} {singleLineArray : Bool} {log : Log}
  {file : Option Bytes} {c : Config} {set : Log}

theorem machine_next (launch : Launch) : (machine featureTls tooBig dtoa singleLineArray log).next file launch =
    exec featureTls tooBig dtoa singleLineArray log launch file := rfl

theorem initLog_eq (console : Bool) (set : Log) : initLog console set = { set with colors := set.colors && console } := by
  cases console with
  | false => rw [initLog, if_neg Bool.false_ne_true, Bool.and_false]
  | true => rw [initLog, if_pos rfl, Bool.and_true]

theorem bytewise_read {doc : Value} (h : read tooBig file = .ok doc) : Bytewise doc := by
  rw [read] at h
  split at h
  · next w hget =>
    obtain rfl := Except.ok.inj h
    cases file with
    | none => cases hget
    | some bytes =>
      obtain ⟨⟨_, _, _, hderives, _⟩, -⟩ := get_eq_some.mp hget
      exact hderives.bytewise
  · split at h
    · cases h
    · obtain rfl := Except.ok.inj h
      trivial

/-- What a configuration was read from. -/
theorem load_eq_some (h : load featureTls tooBig log file = some (c, set)) :
    ∃ doc, Bytewise doc ∧ Config.parse featureTls log doc = (c, set) := by
  rw [load] at h
  split at h
  · next doc hread => exact ⟨doc, bytewise_read hread, Option.some.inj h⟩
  · cases h

/-- A file from which a run has the settings of `c`, and those of the log `set`, and writes the documents of `c`. -/
def Keeps (c : Config) (set : Log) (loaded : Option (Config × Log)) : Prop :=
  ∃ c', loaded = some (c', set) ∧ c.Agrees c' ∧ ∀ set', c'.getJSON set' = c.getJSON set'

theorem keeps_refl (h : load featureTls tooBig log file = some (c, set)) :
    Keeps c set (load featureTls tooBig log file) :=
  ⟨c, h, ⟨rfl, rfl, rfl, rfl, rfl, rfl, rfl, rfl, rfl, rfl, rfl⟩, fun _ => rfl⟩

/-- What a run without TLS writes is read again as what it is, with the settings of the log at that time. -/
theorem keeps_getJSON {doc : Value} (h : Config.parse featureTls log doc = (c, set)) (htls : c.daemon.tls = false)
    (set' : Log) : Keeps c set' (some (Config.parse featureTls log (c.getJSON set'))) := by
  have hdaemon : c.daemon = .ofJson featureTls (Json.getObject doc "daemon") := (congrArg (fun p => p.1.daemon) h).symm
  have hjob : c.job = .ofJson (Json.getObject doc "heatmap") := (congrArg (fun p => p.1.job) h).symm
  have hfile : c.noncesFile = (Json.getString doc "nonces_file").map Daemon.cString :=
    (congrArg (fun p => p.1.noncesFile) h).symm
  have hname : Terminated c.job.name ∧ Terminated c.job.infoFile := by
    rw [hjob]
    exact Job.ofJson_terminated _
  have hsecond := parse_getJSON featureTls log c set' (by rw [hfile]; exact terminated_map _)
    (by rw [hdaemon]; exact Daemon.ofJson_terminated featureTls _) hname.1 hname.2
  have hsame : { c.daemon with tls := false } = c.daemon := by rw [← htls]
  have hoffline : ({ c with offline := c.isOffline } : Config).isOffline = c.isOffline := by
    simp [Config.isOffline]
  rw [hsame] at hsecond
  refine ⟨_, congrArg some hsecond, ⟨hoffline, rfl, rfl, rfl, rfl, rfl, rfl, rfl, rfl, rfl, rfl⟩, fun set'' => ?_⟩
  simp only [Config.getJSON, hoffline]

/-- The text that a run writes: the whole is read as the same settings, and no beginning is read at all. -/
theorem save_spec (dtoa : String → Bytes) (singleLineArray : Bool) (h : load featureTls tooBig log file = some (c, set))
    (htls : c.daemon.tls = false) (set' : Log) :
    ∃ text, save dtoa singleLineArray c set' = some text ∧ Keeps c set' (load featureTls tooBig log (some text)) ∧
      ∀ n < text.length, load featureTls tooBig log (some (text.take n)) = none := by
  obtain ⟨doc, hbytes, hparse⟩ := load_eq_some h
  have hconfig : c.OfBytes := by
    have hofBytes := Config.ofBytes_parse featureTls log hbytes
    rwa [hparse] at hofBytes
  obtain ⟨text, hwritten, hwhole, hcut⟩ := get_written tooBig dtoa (fileFormat singleLineArray)
    (Config.writable_getJSON hconfig set') rfl
  refine ⟨text, hwritten, ?_, fun n hn => ?_⟩
  · have hread : load featureTls tooBig log (some text) = some (Config.parse featureTls log (c.getJSON set')) := by
      rw [load, read, hwhole]
    rw [hread]
    exact keeps_getJSON hparse htls set'
  · obtain ⟨e, he⟩ := hcut n hn
    rw [load, read_error he]

/-- Without a configuration nothing is written any more. -/
theorem after_of_none (h : load featureTls tooBig log file = none) (launches : List Launch) :
    (machine featureTls tooBig dtoa singleLineArray log).after file launches = file := by
  induction launches with
  | nil => rfl
  | cons launch launches ih =>
    have hnext : (machine featureTls tooBig dtoa singleLineArray log).next file launch = file := by
      rw [machine_next, exec, h]
    rw [Machine.after_cons, hnext, ih]

/-- A run writes the text of `c`, if it gets to that. -/
theorem exec_eq (h : Keeps c set (load featureTls tooBig log file)) (hsave : c.autoSave = true) (launch : Launch) :
    exec featureTls tooBig dtoa singleLineArray log launch file =
      launch.writing.file (save dtoa singleLineArray c (initLog launch.console set)) file := by
  obtain ⟨c', hload, hagrees, hsame⟩ := h
  have hauto : c'.autoSave = true := hagrees.isAutoSave.trans hsave
  have htext : save dtoa singleLineArray c' (initLog launch.console set) =
      save dtoa singleLineArray c (initLog launch.console set) := by rw [save, save, hsame]
  rw [exec, hload]
  dsimp only
  rw [if_pos hauto, htext]

/-- A run that leaves the colours as they are: it has a terminal, or it does not write the file. -/
def Launch.keepsColors (launch : Launch) : Bool := launch.console || launch.writing = .notOpened

/-- The settings of the log after some runs: the first run without a terminal that writes the file turns the colours
off for good. -/
def setAfter (set : Log) (launches : List Launch) : Log := { set with colors := set.colors && launches.all Launch.keepsColors }

theorem setAfter_nil (set : Log) : setAfter set [] = set := by
  rw [setAfter, List.all_nil, Bool.and_true]

theorem setAfter_written (set : Log) (console : Bool) (launches : List Launch) :
    setAfter set (⟨console, .written⟩ :: launches) = setAfter (initLog console set) launches := by
  simp [setAfter, Launch.keepsColors, initLog_eq, Bool.and_assoc]

theorem setAfter_notOpened (set : Log) (console : Bool) (launches : List Launch) :
    setAfter set (⟨console, .notOpened⟩ :: launches) = setAfter set launches := by
  simp [setAfter, Launch.keepsColors]

theorem runs_keep (hspec : ∀ set', ∃ text, save dtoa singleLineArray c set' = some text ∧
      Keeps c set' (load featureTls tooBig log (some text)) ∧
        ∀ n < text.length, load featureTls tooBig log (some (text.take n)) = none)
    (hsave : c.autoSave = true) {launches : List Launch} (h : Keeps c set (load featureTls tooBig log file))
    (run : (machine featureTls tooBig dtoa singleLineArray log).Run file launches) :
    ((∀ launch ∈ launches, ∀ stored, launch.writing ≠ .interrupted stored) →
        Keeps c (setAfter set launches)
          (load featureTls tooBig log ((machine featureTls tooBig dtoa singleLineArray log).after file launches))) ∧
      ((∃ launch ∈ launches, ∃ stored, launch.writing = .interrupted stored) →
        load featureTls tooBig log ((machine featureTls tooBig dtoa singleLineArray log).after file launches) = none) := by
  induction launches generalizing file set with
  | nil =>
    rw [setAfter_nil]
    exact ⟨fun _ => h, fun ⟨_, hmem, _⟩ => absurd hmem List.not_mem_nil⟩
  | cons launch launches ih =>
    obtain ⟨henabled, hrun⟩ := Machine.run_cons.mp run
    have hnext : (machine featureTls tooBig dtoa singleLineArray log).next file launch =
        launch.writing.file (save dtoa singleLineArray c (initLog launch.console set)) file :=
      (machine_next launch).trans (exec_eq h hsave launch)
    rw [Machine.after_cons, hnext]
    rw [hnext] at hrun
    obtain ⟨text, htext, hwhole, hcut⟩ := hspec (initLog launch.console set)
    obtain ⟨console, writing⟩ := launch
    cases writing with
    | written =>
      rw [htext] at hrun ⊢
      rw [setAfter_written]
      simpa [Writing.file] using ih hwhole hrun
    | notOpened =>
      rw [setAfter_notOpened]
      simpa [Writing.file] using ih h hrun
    | interrupted stored =>
      have hshort : stored < text.length := by
        obtain ⟨c', hload, -, hsame⟩ := h
        refine henabled stored c' set text rfl hload ?_
        rw [save, hsame]
        exact htext
      have hdead : load featureTls tooBig log (Writing.file (some text) file (.interrupted stored)) = none := hcut stored hshort
      refine ⟨fun hno => absurd rfl (hno _ List.mem_cons_self stored), fun _ => ?_⟩
      rw [htext, after_of_none hdead, hdead]

/-- **The configuration over many runs.** If the first run saves automatically and has no TLS, every run has its
settings for as long as no writing of the file is cut off, but for the colours, which a run without a terminal turns
off in the file; and once a writing was cut off, no run ever has a configuration or writes the file again. -/
theorem config_runs (featureTls : Bool) (tooBig : Bytes → Bool) (dtoa : String → Bytes) (singleLineArray : Bool) (log : Log)
    (file : Option Bytes) (c : Config) (set : Log) (hload : load featureTls tooBig log file = some (c, set))
    (hsave : c.autoSave = true) (htls : c.daemon.tls = false) (launches : List Launch)
    (run : (machine featureTls tooBig dtoa singleLineArray log).Run file launches) :
    ((∀ launch ∈ launches, ∀ stored, launch.writing ≠ .interrupted stored) →
        Keeps c { set with colors := set.colors && launches.all Launch.keepsColors }
          (load featureTls tooBig log ((machine featureTls tooBig dtoa singleLineArray log).after file launches))) ∧
      ((∃ launch ∈ launches, ∃ stored, launch.writing = .interrupted stored) → ∀ more,
        (machine featureTls tooBig dtoa singleLineArray log).after file (launches ++ more) =
            (machine featureTls tooBig dtoa singleLineArray log).after file launches ∧
          load featureTls tooBig log
            ((machine featureTls tooBig dtoa singleLineArray log).after file (launches ++ more)) = none) := by
  obtain ⟨hkept, hlost⟩ := runs_keep (save_spec dtoa singleLineArray hload htls) hsave (keeps_refl hload) run
  refine ⟨hkept, fun hcutOff more => ?_⟩
  have hdead := hlost hcutOff
  rw [Machine.after_append, after_of_none hdead]
  exact ⟨rfl, hdead⟩

def started : Log := ⟨true, 0, by decide⟩

/-- Without a file, then with its output in another file and with the configuration that was written; and then with a
beginning of it. -/
theorem config_runs_cut :
    ((∀ launch ∈ [Launch.mk true .written, ⟨false, .written⟩], ∀ stored, launch.writing ≠ .interrupted stored) →
        Keeps (Config.parse true started (.object [])).1 ⟨false, 0, by decide⟩
          (load true (fun _ => false) started ((machine true (fun _ => false) (fun _ => []) false started).after none
            [⟨true, .written⟩, ⟨false, .written⟩]))) ∧
      ((∃ launch ∈ [Launch.mk false .written, ⟨true, .interrupted 10⟩], ∃ stored, launch.writing = .interrupted stored) →
        ∀ more, (machine true (fun _ => false) (fun _ => []) false started).after none
              ([⟨false, .written⟩, ⟨true, .interrupted 10⟩] ++ more) =
            (machine true (fun _ => false) (fun _ => []) false started).after none [⟨false, .written⟩, ⟨true, .interrupted 10⟩] ∧
          load true (fun _ => false) started ((machine true (fun _ => false) (fun _ => []) false started).after none
            ([⟨false, .written⟩, ⟨true, .interrupted 10⟩] ++ more)) = none) := by
  have hsettings : (Config.parse true started (.object [])).2 = started := rfl
  have hload : load true (fun _ => false) started none = some ((Config.parse true started (.object [])).1, started) :=
    congrArg some (Prod.ext rfl hsettings)
  have hsave : (Config.parse true started (.object [])).1.autoSave = true := rfl
  have htls : (Config.parse true started (.object [])).1.daemon.tls = false := rfl
  have hlength : (save (fun _ => []) false (Config.parse true started (.object [])).1 (initLog false started)).map
      List.length = some 537 := by
    decide +kernel
  have hwritten : ∀ file console, (machine true (fun _ => false) (fun _ => []) false started).enabled file ⟨console, .written⟩ :=
    fun _ _ _ _ _ _ hwriting => Writing.noConfusion hwriting
  revert hload hsave htls hlength
  generalize (Config.parse true started (.object [])).1 = c
  intro hload hsave htls hlength
  refine ⟨(config_runs true (fun _ => false) (fun _ => []) false started none _ _ hload hsave htls
      [⟨true, .written⟩, ⟨false, .written⟩] ?_).1,
    (config_runs true (fun _ => false) (fun _ => []) false started none _ _ hload hsave htls
      [⟨false, .written⟩, ⟨true, .interrupted 10⟩] ?_).2⟩
  · exact Machine.run_cons.mpr ⟨hwritten _ _, Machine.run_cons.mpr ⟨hwritten _ _, Machine.run_nil _ _⟩⟩
  · refine Machine.run_cons.mpr ⟨hwritten _ _, Machine.run_cons.mpr ⟨?_, Machine.run_nil _ _⟩⟩
    rintro stored c' set bytes ⟨⟩ hloaded hsaved
    obtain ⟨text, htext, ⟨c'', hload', -, hsame⟩, -⟩ :=
      save_spec (fun _ => []) false hload htls (initLog false started)
    have hexec : exec true (fun _ => false) (fun _ => []) false started ⟨false, .written⟩ none =
        save (fun _ => []) false c (initLog false started) := exec_eq (keeps_refl hload) hsave ⟨false, .written⟩
    rw [machine_next, hexec, htext, hload'] at hloaded
    obtain ⟨rfl, rfl⟩ := Prod.mk.inj (Option.some.inj hloaded)
    obtain rfl : text = bytes := by
      rw [save, hsame] at hsaved
      exact Option.some.inj (htext.symm.trans hsaved)
    rw [htext, Option.map_some] at hlength
    rw [Option.some.inj hlength]
    decide

end ConfigFile
end NoncesHeatmap
