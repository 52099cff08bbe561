import Mathlib.Logic.Function.Basic
import NoncesHeatmap.Base.Json

/-! # The drawing routines of `heatmap.c`

A buffer is the contents of the floats behind a pointer, together with their number as `calloc` was
given it. The floats are any type with the operations that are used on them: what a stamp contains is
decided by `shade`, the brightness at a squared distance from the centre of a stamp of a radius. All
other numbers are `unsigned`, so their sums, differences and products are taken modulo `2^32`. -/

namespace NoncesHeatmap
open Function
set_option autoImplicit false

def sub32 (a b : ℕ) : ℕ := u32 (a + 2 ^ 32 - b)

theorem sub32_of_le {a b : ℕ} (h : b ≤ a) (ha : a < 2 ^ 32) : sub32 a b = a - b := by
  have hsum : a + 2 ^ 32 - b = a - b + 2 ^ 32 := by omega
  rw [sub32, u32, hsum, Nat.add_mod_right]
  exact Nat.mod_eq_of_lt (by omega)

structure Buffer (F : Type) where
  size : ℕ
  float : ℕ → F

structure HeatmapT (F : Type) where
  buf : Buffer F
  max : F
  w : ℕ
  h : ℕ

structure StampT (F : Type) where
  buf : Buffer F
  w : ℕ
  h : ℕ

def Buffer.calloc (F : Type) [Zero F] (size : ℕ) : Buffer F := ⟨size, fun _ => 0⟩

def Buffer.write {F : Type} (b : Buffer F) (i : ℕ) (value : F) : Buffer F := { b with float := update b.float i value }

def heatmapNew (F : Type) [Zero F] (w h : ℕ) : HeatmapT F := ⟨.calloc F (u32 (w * h)), 0, w, h⟩

def heatmapStampGen {F : Type} [Zero F] (shade : ℕ → ℕ → F) (r : ℕ) : StampT F :=
  let d := u32 (2 * r + 1)
  let square (a : ℕ) : ℕ := u32 (sub32 a r * sub32 a r)
  let stamp := Buffer.calloc F (u32 (d * d))
  let stamp := (List.range d).foldl (fun stamp y =>
    (List.range d).foldl (fun stamp x =>
      stamp.write (u32 (y * d) + x) (shade r (u32 (square x + square y)))) stamp) stamp
  ⟨stamp, d, d⟩

/-- The first pixel of the stamp that is drawn at `x` (`x0`, `y0`). -/
def stampFirst (x size : ℕ) : ℕ := if x < size / 2 then size / 2 - x else 0

/-- The end of the pixels of the stamp that are drawn at `x` (`x1`, `y1`). -/
def stampLast (x size bound : ℕ) : ℕ :=
  if u32 (x + size / 2) < bound then size else u32 (size / 2 + (bound - x))

variable {F : Type}

theorem foldl_size {α : Type} {step : HeatmapT F → α → HeatmapT F}
    (hstep : ∀ h a, (step h a).w = h.w ∧ (step h a).h = h.h) (items : List α) (h : HeatmapT F) :
    (items.foldl step h).w = h.w ∧ (items.foldl step h).h = h.h := by
  induction items generalizing h with
  | nil => exact ⟨rfl, rfl⟩
  | cons a items ih =>
    obtain ⟨hw, hh⟩ := ih (step h a)
    exact ⟨hw.trans (hstep h a).1, hh.trans (hstep h a).2⟩

variable [Add F] [LT F] [DecidableLT F]

/-- `*line += *stampline` with the update of the maximum. -/
def addPixel (stamp : StampT F) (h : HeatmapT F) (line stampline : ℕ) : HeatmapT F :=
  let value := h.buf.float line + stamp.buf.float stampline
  { h with buf := h.buf.write line value, max := if h.max < value then value else h.max }

def heatmapAddPointWithStamp (h : HeatmapT F) (x y : ℕ) (stamp : StampT F) : HeatmapT F :=
  if h.w ≤ x ∨ h.h ≤ y then h
  else
    let x0 := stampFirst x stamp.w
    let y0 := stampFirst y stamp.h
    let x1 := stampLast x stamp.w h.w
    let y1 := stampLast y stamp.h h.h
    (List.range' y0 (y1 - y0)).foldl (fun h iy =>
      let line := u32 (sub32 (u32 (y + iy)) (stamp.h / 2) * h.w) + u32 (x + x0) - stamp.w / 2
      let stampline := u32 (iy * stamp.w) + x0
      (List.range (x1 - x0)).foldl (fun h k => addPixel stamp h (line + k) (stampline + k)) h) h

theorem heatmapAddPointWithStamp_size (h : HeatmapT F) (x y : ℕ) (stamp : StampT F) :
    (heatmapAddPointWithStamp h x y stamp).w = h.w ∧ (heatmapAddPointWithStamp h x y stamp).h = h.h := by
  unfold heatmapAddPointWithStamp
  split
  · exact ⟨rfl, rfl⟩
  · apply foldl_size
    intro h iy
    apply foldl_size
    intro h k
    exact ⟨rfl, rfl⟩

theorem heatmapAddPointWithStamp_outside (h : HeatmapT F) (x y : ℕ) (stamp : StampT F)
    (hout : h.w ≤ x ∨ h.h ≤ y) : heatmapAddPointWithStamp h x y stamp = h := if_pos hout

end NoncesHeatmap
