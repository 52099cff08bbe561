import Mathlib.Data.List.Sort
import NoncesHeatmap.Base.Strings
import NoncesHeatmap.Library.Words

/-! # `Env::expand`

The build with `XMRIG_FEATURE_ENV`. The matches of the pattern are collected once, in a map from the text
of a match to the value of its variable; then the variables are replaced one after the other, in the order
of the map, each in the whole text. -/

namespace NoncesHeatmap
set_option autoImplicit false

/-- The values of the table that `createVariables` makes. -/
structure Builtins where
  version : Option Bytes
  kind : Option Bytes
  hostname : Option Bytes
  exe : Option Bytes
  exeDir : Option Bytes
  cwd : Option Bytes
  homeDir : Option Bytes
  tempDir : Option Bytes
  dataDir : Option Bytes

def createVariables (b : Builtins) : StringMap :=
  [("XMRIG_VERSION", b.version), ("XMRIG_KIND", b.kind), ("XMRIG_HOSTNAME", b.hostname), ("XMRIG_EXE", b.exe),
    ("XMRIG_EXE_DIR", b.exeDir), ("XMRIG_CWD", b.cwd), ("XMRIG_HOME_DIR", b.homeDir), ("XMRIG_TEMP_DIR", b.tempDir),
    ("XMRIG_DATA_DIR", b.dataDir)].foldl (fun table entry => table.insert (some (ascii entry.1)) entry.2) .empty

/-- What an expansion reads besides the text. -/
structure Env where
  builtins : Builtins
  extra : StringMap
  getenv : Bytes → Option Bytes

/-- A match of the pattern, with its group 1, or a character that belongs to none. -/
inductive Token where
  | char (c : UInt8)
  | placeholder (name : Bytes)
deriving DecidableEq

namespace Env

/-- `$`, `{` and `}` around a name. -/
def placeholder (name : Bytes) : Bytes := 36 :: 123 :: (name ++ [125])

/-- The match of `env_re` at the head of a text: its group 1 and what follows. -/
def matchHead (text : Bytes) : Option (Bytes × Bytes) :=
  let rest := text.drop 2
  let name := rest.takeWhile (· ≠ 125)
  if text.take 2 = [36, 123] ∧ name ≠ [] ∧ name.length < rest.length then some (name, rest.drop (name.length + 1)) else none

/-- One pass from left to right, for at most `n` tokens. -/
def tokens : ℕ → Bytes → List Token
  | 0, _ => []
  | _ + 1, [] => []
  | n + 1, c :: text =>
    match matchHead (c :: text) with
    | some (name, rest) => .placeholder name :: tokens n rest
    | none => .char c :: tokens n text

/-- The leftmost matches that do not overlap, and the characters between them. -/
def scan (text : Bytes) : List Token := tokens text.length text

/-- Group 1 of a match. -/
def group : Token → Option Bytes
  | .char _ => none
  | .placeholder name => some name

/-- The matches that the `sregex_iterator` goes through. -/
def matched (text : Bytes) : List Bytes := (scan text).filterMap group

def get (env : Env) (name : Bytes) : Option Bytes :=
  match (createVariables env.builtins).find (ofCString name) with
  | some value => value
  | none =>
    match env.extra.find (ofCString name) with
    | some value => value
    | none => (env.getenv name).bind ofCString

/-- The map `vars`: its entries in the order of the keys. -/
def addVar (env : Env) (vars : List (Bytes × Option Bytes)) (name : Bytes) : List (Bytes × Option Bytes) :=
  if placeholder name ∈ vars.map Prod.fst then vars
  else vars.orderedInsert (fun kv kv' => kv.1 < kv'.1) (placeholder name, env.get name)

def vars (env : Env) (text : Bytes) : List (Bytes × Option Bytes) := (matched text).foldl env.addVar []

/-- `std::string::find` -/
def find (text var : Bytes) (pos : ℕ) : Option ℕ := (Words.find var (text.drop pos)).map (pos + ·)

/-- `std::string::replace` -/
def replace (text : Bytes) (pos size : ℕ) (value : Bytes) : Bytes := text.take pos ++ (value ++ text.drop (pos + size))

/-- The `while` loop of one variable, for at most `n` rounds. -/
def replaceLoop (var value : Bytes) : ℕ → Bytes → ℕ → Bytes
  | 0, text, _ => text
  | n + 1, text, pos =>
    match find text var pos with
    | none => text
    | some pos => replaceLoop var value n (replace text pos var.length value) (pos + value.length)

def replaceVar (text : Bytes) (kv : Bytes × Option Bytes) : Bytes :=
  match kv.2 with
  | none => text
  | some value => replaceLoop kv.1 value (text.length + 1) text 0

def expand (env : Env) : Option Bytes → Option Bytes
  | none => none
  | some text => if text.length < 4 then ofCString text else ofCString ((env.vars text).foldl replaceVar text)

/-! ## One pass -/

/-- The value of a variable that is defined in the table, in `extra` or in the environment, be it empty. -/
def value (env : Env) (name : Bytes) : Option Bytes :=
  match (createVariables env.builtins).find (ofCString name) with
  | some value => some (value.getD [])
  | none =>
    match env.extra.find (ofCString name) with
    | some value => some (value.getD [])
    | none => env.getenv name

def render (values : Bytes → Option Bytes) : Token → Bytes
  | .char c => [c]
  | .placeholder name => (values name).getD (placeholder name)

/-- The text with every match replaced that has a value. -/
def substitute (values : Bytes → Option Bytes) (text : Bytes) : Bytes := (scan text).flatMap (render values)

/-- The values of the variables whose placeholders are in `done`. -/
def valuesOf (env : Env) (done : List Bytes) (name : Bytes) : Option Bytes :=
  if placeholder name ∈ done then env.value name else none

end Env
end NoncesHeatmap
