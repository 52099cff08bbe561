import NoncesHeatmap.Heatmap.Job
import NoncesHeatmap.Heatmap.Model

/-! # `Heatmap::render`

The checks, the choice of the slice and of the horizontal scale, and the files that are written. An
iterator is its index. The vector of nonces has fewer than `2^32` elements wherever a result says so.
What `Env::expand` makes of the file name and whether the image can be written are parameters. -/

namespace NoncesHeatmap
set_option autoImplicit false

/-- `std::abs` of an `int32_t`, which wraps at the least one. -/
def abs32 (pos : ℤ) : ℤ := if pos = -2 ^ 31 then pos else |pos|

/-- The conversion of an `int32_t` to `size_t`. -/
def sizeT (pos : ℤ) : ℕ := (pos % 2 ^ 64).toNat

def getIterator (START : Bool) (size : ℕ) (pos : ℤ) : ℕ :=
  if 0 < pos then
    if sizeT pos < size then pos.toNat else size
  else if pos < 0 then
    let pos := abs32 pos
    if sizeT pos < size then size - pos.toNat else 0
  else if START then 0 else size

/-- The scale that `render()` chooses when the job has none. The divisor is a 32-bit product; at 0 the
quotient is infinite and its conversion is undefined, here 0. -/
def autoX (count height : ℕ) : ℕ :=
  max (u32 ⌈Single.div (Single.ofNat count) (Single.ofNat (u32 (height * 2)))⌉.toNat) 1

/-- What `render()` has chosen when its checks are passed: the two iterators and three members. -/
structure Selection where
  first : ℕ
  past : ℕ
  count : ℕ
  x : ℕ
  width : ℕ
deriving DecidableEq

/-- The checks of the nonces, the height, the start and the end. -/
def sliceBounds (job : Job) (size : ℕ) : Except String (ℕ × ℕ) :=
  if size = 0 then .error "nonces array is empty"
  else if job.height = 0 then .error "image height is not specified"
  else
    let first := getIterator true size job.start
    if first = size then .error "invalid start height"
    else
      let past := getIterator false size job.«end»
      if past ≤ first then .error "invalid end height" else .ok (first, past)

def scaled (job : Job) (first past : ℕ) : Selection :=
  let count := u32 (past - first)
  let x := if job.x ≠ 0 then job.x else autoX count job.height
  ⟨first, past, count, x, imageWidth (past - first) x⟩

/-- All checks of `render()`. The size of the image is a product of 64 bits. -/
def select (job : Job) (size : ℕ) : Except String Selection :=
  (sliceBounds job size).bind fun bounds =>
    let s := scaled job bounds.1 bounds.2
    if s.width * job.height * 4 % 2 ^ 64 > MAX then .error "image too big" else .ok s

/-- The members that `genName()` and `saveInfo()` publish. -/
structure Members where
  name : Option String
  count : ℕ
  start : ℕ
  «end» : ℕ
  width : ℕ
  x : ℕ

def nameVariables (job : Job) (s : Selection) (start «end» : ℕ) : List (String × String) :=
  [("WIDTH", toString s.width), ("HEIGHT", toString job.height), ("COUNT", toString s.count),
    ("START", toString start), ("END", toString «end»), ("MIN_NONCE", toString job.minNonce),
    ("MAX_NONCE", toString job.maxNonce), ("RADIUS", toString job.radius), ("X", toString s.x)]

def genName (expand : Option String → List (String × String) → Option String) (job : Job) (s : Selection) :
    Members :=
  let start := u32 s.first
  let «end» := u32 (s.past - 1)
  ⟨expand job.name (nameVariables job s start «end»), s.count, start, «end», s.width, s.x⟩

/-- The document of `saveInfo()`. -/
def info (job : Job) (m : Members) : Value :=
  .object
    [("name", Daemon.stringJSON m.name), ("width", .int m.width), ("height", .int job.height),
      ("count", .int m.count), ("start", .int m.start), ("end", .int m.«end»), ("min_nonce", .int job.minNonce),
      ("max_nonce", .int job.maxNonce), ("radius", .int job.radius), ("x", .int m.x)]

/-- The file of `saveInfo()`. -/
def infoName (job : Job) (m : Members) : String :=
  if job.infoFile.getD "" = "" then m.name.getD "" ++ ".json" else job.infoFile.getD ""

inductive Written (F : Type) where
  | png (fileName : Option String) (hm : HeatmapT F)
  | info (fileName : String) (doc : Value)

/-- The end of `render()`: the exception it left with, if any, and the files it wrote, in order. -/
structure Rendered (F : Type) where
  thrown : Option String
  files : List (Written F)

/-- The instance of `nonces_heatmap` that a job uses. -/
def Job.rows (job : Job) : Rows :=
  if job.minNonce = 0 ∧ job.maxNonce = 0 then defaultRows job.height
  else customRows job.height job.minNonce job.maxNonce

def Selection.slice (s : Selection) (nonces : List ℕ) : List ℕ := (nonces.drop s.first).take (s.past - s.first)

variable {F : Type}

/-- `render()` after the image is drawn; `writepng` is the exception with which it cannot be written. -/
def finish (writepng : Option String → Option String) (job : Job) (m : Members) (hm : HeatmapT F) : Rendered F :=
  match writepng m.name with
  | some what => ⟨some what, []⟩
  | none => ⟨none, [.png m.name hm, .info (infoName job m) (info job m)]⟩

variable [Add F] [LT F] [DecidableLT F] [Zero F]

def render (shade : ℕ → ℕ → F) (expand : Option String → List (String × String) → Option String)
    (writepng : Option String → Option String) (job : Job) (nonces : List ℕ) : Option (Rendered F) :=
  match select job nonces.length with
  | .error what => some ⟨some what, []⟩
  | .ok s =>
    (noncesHeatmap shade job.rows (s.slice nonces) s.x job.height job.radius).map
      (finish writepng job (genName expand job s))

/-! ## What the checks leave -/

variable {job : Job} {size first past : ℕ} {s : Selection}

theorem getIterator_le (START : Bool) (size : ℕ) (pos : ℤ) (hpos : pos < 2 ^ 31) : getIterator START size pos ≤ size := by
  unfold getIterator
  split
  · split
    · next hlt =>
      rw [sizeT] at hlt
      omega
    · exact le_rfl
  · split
    · dsimp only
      split
      · exact Nat.sub_le _ _
      · exact Nat.zero_le _
    · split
      · exact Nat.zero_le _
      · exact le_rfl

theorem sliceBounds_eq (hsize : 0 < size) (hheight : 0 < job.height) :
    sliceBounds job size =
      if getIterator true size job.start < getIterator false size job.«end» then
        .ok (getIterator true size job.start, getIterator false size job.«end»)
      else if getIterator true size job.start = size then .error "invalid start height"
      else .error "invalid end height" := by
  have hpast := getIterator_le false size _ job.end_bounds.2
  simp only [sliceBounds, if_neg hsize.ne', if_neg hheight.ne']
  split_ifs with hfirst hless hempty
  · omega
  · rfl
  · omega
  · rfl
  · rfl
  · omega

theorem sliceBounds_ok (h : sliceBounds job size = .ok (first, past)) :
    0 < job.height ∧ first = getIterator true size job.start ∧ past = getIterator false size job.«end» ∧
      first < past ∧ past ≤ size := by
  simp only [sliceBounds] at h
  split at h
  · cases h
  · split at h
    · cases h
    · next hheight =>
      split at h
      · cases h
      · split at h
        · cases h
        · next hless =>
          obtain ⟨rfl, rfl⟩ : getIterator true size job.start = first ∧ getIterator false size job.«end» = past := by
            simpa using h
          exact ⟨Nat.pos_of_ne_zero hheight, rfl, rfl, not_le.mp hless,
            getIterator_le false size _ job.end_bounds.2⟩

theorem select_ok (h : select job size = .ok s) :
    sliceBounds job size = .ok (s.first, s.past) ∧ s = scaled job s.first s.past ∧
      s.width * job.height * 4 % 2 ^ 64 ≤ MAX := by
  rw [select] at h
  cases hbounds : sliceBounds job size with
  | error what =>
    rw [hbounds] at h
    cases h
  | ok bounds =>
    rw [hbounds] at h
    replace h : (if (scaled job bounds.1 bounds.2).width * job.height * 4 % 2 ^ 64 > MAX then
      .error "image too big" else .ok (scaled job bounds.1 bounds.2) : Except String Selection) = .ok s := h
    split at h
    · cases h
    · next hsize =>
      obtain rfl : scaled job bounds.1 bounds.2 = s := Except.ok.inj h
      exact ⟨rfl, rfl, not_lt.mp hsize⟩

theorem scaled_x_pos (job : Job) (first past : ℕ) : 0 < (scaled job first past).x := by
  show 0 < if job.x ≠ 0 then job.x else _
  split
  · next hx => exact Nat.pos_of_ne_zero hx
  · exact lt_of_lt_of_le Nat.zero_lt_one (le_max_right _ _)

theorem select_x_pos (h : select job size = .ok s) : 0 < s.x := by
  rw [(select_ok h).2.1]
  exact scaled_x_pos job _ _

theorem select_height_pos (h : select job size = .ok s) : 0 < job.height :=
  (sliceBounds_ok (select_ok h).1).1

end NoncesHeatmap
