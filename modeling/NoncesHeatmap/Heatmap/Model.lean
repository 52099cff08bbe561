import NoncesHeatmap.Heatmap.Drawing
import NoncesHeatmap.Library.Single

/-! # `nonces_heatmap`

The loop of the two instances of the template: each nonce that is accepted is drawn in the column of
its index and in the row of its value. A division by zero has no outcome (`none`). The model ends with
the heatmap that is rendered into the image: colours and the writing of the file are left out. -/

namespace NoncesHeatmap
set_option autoImplicit false

def MAX : ℕ := 2 ^ 32 - 1

def div? (a b : ℕ) : Option ℕ := if b = 0 then none else some (a / b)

/-- What an instance of `nonces_heatmap` does with the value of a nonce. -/
structure Rows where
  accepts : ℕ → Bool
  row : ℕ → Option ℕ

/-- `nonces_heatmap<false>` -/
def defaultRows (height : ℕ) : Rows where
  accepts _ := true
  row nonce := (div? MAX height).bind fun step => div? (sub32 MAX nonce) step

/-- `nonces_heatmap<true>`: `range` is a `uint32_t` that is widened. -/
def customRows (height min max : ℕ) : Rows where
  accepts nonce := decide (min ≤ nonce ∧ nonce ≤ max)
  row nonce := (div? (sub32 max min) height).bind fun step => div? (sub32 max nonce) step

structure Point where
  x : ℕ
  y : ℕ
deriving DecidableEq

/-- The call for a nonce that is accepted: both arguments are converted to `unsigned`. -/
def Rows.point (rows : Rows) (x i nonce : ℕ) : Option Point :=
  (div? i x).bind fun column => (rows.row nonce).map fun row => ⟨u32 column, u32 row⟩

/-- The width of the image: the number of nonces and the scale are converted to `float`. A value of
`2^32` or more, whose conversion is undefined, is taken modulo `2^32`. -/
def imageWidth (count x : ℕ) : ℕ := u32 ⌈Single.div (Single.ofNat count) (Single.ofNat x)⌉.toNat

variable {F : Type} [Add F] [LT F] [DecidableLT F]

def drawNonces (rows : Rows) (x : ℕ) (stamp : StampT F) : List ℕ → ℕ → HeatmapT F → Option (HeatmapT F)
  | [], _, hm => some hm
  | nonce :: slice, i, hm =>
    if rows.accepts nonce then
      (rows.point x i nonce).bind fun p =>
        drawNonces rows x stamp slice (i + 1) (heatmapAddPointWithStamp hm p.x p.y stamp)
    else drawNonces rows x stamp slice (i + 1) hm

def noncesHeatmap [Zero F] (shade : ℕ → ℕ → F) (rows : Rows) (slice : List ℕ) (x height radius : ℕ) :
    Option (HeatmapT F) :=
  drawNonces rows x (heatmapStampGen shade radius) slice 0 (heatmapNew F (imageWidth slice.length x) height)

/-! ## The calls -/

/-- The calls of the loop from the index `i` on. -/
def Rows.calls (rows : Rows) (x : ℕ) : List ℕ → ℕ → Option (List Point)
  | [], _ => some []
  | nonce :: slice, i =>
    if rows.accepts nonce then
      (rows.point x i nonce).bind fun p => (calls rows x slice (i + 1)).map fun calls => p :: calls
    else calls rows x slice (i + 1)

def drawCalls (stamp : StampT F) (calls : List Point) (hm : HeatmapT F) : HeatmapT F :=
  calls.foldl (fun hm p => heatmapAddPointWithStamp hm p.x p.y stamp) hm

theorem drawNonces_eq (rows : Rows) (x : ℕ) (stamp : StampT F) (slice : List ℕ) (i : ℕ) (hm : HeatmapT F) :
    drawNonces rows x stamp slice i hm =
      (rows.calls x slice i).map fun calls => drawCalls stamp calls hm := by
  induction slice generalizing i hm with
  | nil => rfl
  | cons nonce slice ih =>
    rw [drawNonces, Rows.calls]
    split
    · cases rows.point x i nonce with
      | none => rfl
      | some p =>
        show drawNonces rows x stamp slice (i + 1) (heatmapAddPointWithStamp hm p.x p.y stamp) = _
        rw [ih, Option.bind_some, Option.map_map]
        rfl
    · exact ih (i + 1) hm

/-- The heatmap of a slice is drawn by its calls. -/
theorem noncesHeatmap_eq [Zero F] (shade : ℕ → ℕ → F) (rows : Rows) (slice : List ℕ) (x height radius : ℕ) :
    noncesHeatmap shade rows slice x height radius = (rows.calls x slice 0).map fun calls =>
      drawCalls (heatmapStampGen shade radius) calls (heatmapNew F (imageWidth slice.length x) height) :=
  drawNonces_eq rows x _ slice 0 _

end NoncesHeatmap
