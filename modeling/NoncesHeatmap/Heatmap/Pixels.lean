import Mathlib.Data.List.ProdSigma
import Mathlib.Data.Nat.Dist
import Mathlib.Data.Nat.ModEq
import NoncesHeatmap.Heatmap.Buffers
import NoncesHeatmap.Library.Scatter

/-! # What is drawn at a pixel

`heatmap_add_point_with_stamp` clips the stamp against the four sides of the heatmap with unsigned
arithmetic and then works on two pointers. Read as a function of the pixel, a call adds to each pixel
within the radius the brightness at its distance, and leaves the other ones and all memory behind the
heatmap alone. -/

namespace NoncesHeatmap
open Scatter
set_option autoImplicit false

/-! ## One call -/

section
variable {F : Type} [Add F] [LT F] [DecidableLT F]

/-- The pixels of the stamp that are drawn by a call, row by row from the first one. -/
def stampPixels (w h x y : ℕ) (stamp : StampT F) : List (ℕ × ℕ) :=
  if w ≤ x ∨ h ≤ y then []
  else
    List.range' (stampFirst y stamp.h) (stampLast y stamp.h h - stampFirst y stamp.h) ×ˢ
      List.range (stampLast x stamp.w w - stampFirst x stamp.w)

/-- The floats that both pointers of the loop are at. -/
def pointers (w x y : ℕ) (stamp : StampT F) (pixel : ℕ × ℕ) : ℕ × ℕ :=
  (u32 (sub32 (u32 (y + pixel.1)) (stamp.h / 2) * w) + u32 (x + stampFirst x stamp.w) - stamp.w / 2 + pixel.2,
    u32 (pixel.1 * stamp.w) + stampFirst x stamp.w + pixel.2)

def touched (w h x y : ℕ) (stamp : StampT F) : List (ℕ × ℕ) := (stampPixels w h x y stamp).map (pointers w x y stamp)

def addPixels (stamp : StampT F) (hm : HeatmapT F) (pairs : List (ℕ × ℕ)) : HeatmapT F :=
  pairs.foldl (fun hm pair => addPixel stamp hm pair.1 pair.2) hm

theorem addPixels_size (stamp : StampT F) (pairs : List (ℕ × ℕ)) (hm : HeatmapT F) :
    (addPixels stamp hm pairs).w = hm.w ∧ (addPixels stamp hm pairs).h = hm.h := by
  rw [addPixels]
  refine foldl_size (fun h pair => ?_) pairs hm
  exact ⟨rfl, rfl⟩

theorem addPixels_buf_size (stamp : StampT F) (pairs : List (ℕ × ℕ)) (hm : HeatmapT F) :
    (addPixels stamp hm pairs).buf.size = hm.buf.size := by
  induction pairs generalizing hm with
  | nil => rfl
  | cons pair pairs ih => exact ih _

theorem addPixels_append (stamp : StampT F) (hm : HeatmapT F) (before after : List (ℕ × ℕ)) :
    addPixels stamp hm (before ++ after) = addPixels stamp (addPixels stamp hm before) after := List.foldl_append

/-- The loop over the rows of the stamp. The heatmap keeps its width, of which each row starts over. -/
theorem rows_loop (w x y : ℕ) (stamp : StampT F) (rows columns : List ℕ) (hm : HeatmapT F) (hw : hm.w = w) :
    rows.foldl (fun h iy =>
      columns.foldl (fun h' k => addPixel stamp h'
        (u32 (sub32 (u32 (y + iy)) (stamp.h / 2) * h.w) + u32 (x + stampFirst x stamp.w) - stamp.w / 2 + k)
        (u32 (iy * stamp.w) + stampFirst x stamp.w + k)) h) hm =
      addPixels stamp hm ((rows ×ˢ columns).map (pointers w x y stamp)) := by
  induction rows generalizing hm with
  | nil => rfl
  | cons iy rows ih =>
    have hrow : columns.foldl (fun h' k => addPixel stamp h'
        (u32 (sub32 (u32 (y + iy)) (stamp.h / 2) * hm.w) + u32 (x + stampFirst x stamp.w) - stamp.w / 2 + k)
        (u32 (iy * stamp.w) + stampFirst x stamp.w + k)) hm =
        addPixels stamp hm ((columns.map (Prod.mk iy)).map (pointers w x y stamp)) := by
      rw [addPixels, List.map_map, List.foldl_map, hw]
      rfl
    rw [List.foldl_cons, hrow, ih _ ((addPixels_size stamp _ hm).1.trans hw), List.product_cons, List.map_append,
      addPixels_append]

/-- The nested loops of a call are one walk over the floats that it touches. -/
theorem heatmapAddPointWithStamp_eq (hm : HeatmapT F) (x y : ℕ) (stamp : StampT F) :
    heatmapAddPointWithStamp hm x y stamp = addPixels stamp hm (touched hm.w hm.h x y stamp) := by
  rw [heatmapAddPointWithStamp, touched, stampPixels]
  split
  · rfl
  · exact rows_loop hm.w x y stamp _ _ hm rfl

theorem addPixels_float (stamp : StampT F) (pairs : List (ℕ × ℕ)) (hm : HeatmapT F) :
    (addPixels stamp hm pairs).buf.float =
      scatter (· + ·) (pairs.map fun pair => (pair.1, stamp.buf.float pair.2)) hm.buf.float := by
  induction pairs generalizing hm with
  | nil => rfl
  | cons pair pairs ih => exact ih _

theorem drawCalls_size (stamp : StampT F) (calls : List Point) (hm : HeatmapT F) :
    (drawCalls stamp calls hm).w = hm.w ∧ (drawCalls stamp calls hm).h = hm.h :=
  foldl_size (fun hm p => heatmapAddPointWithStamp_size hm p.x p.y stamp) calls hm

theorem drawCalls_buf_size (stamp : StampT F) (calls : List Point) (hm : HeatmapT F) :
    (drawCalls stamp calls hm).buf.size = hm.buf.size := by
  induction calls generalizing hm with
  | nil => rfl
  | cons p calls ih =>
    have hcall : (heatmapAddPointWithStamp hm p.x p.y stamp).buf.size = hm.buf.size := by
      rw [heatmapAddPointWithStamp_eq, addPixels_buf_size]
    exact (ih _).trans hcall

/-- What a run of calls accumulates, and where. -/
def drawn (w h : ℕ) (stamp : StampT F) (calls : List Point) : List (ℕ × F) :=
  calls.flatMap fun p => (touched w h p.x p.y stamp).map fun pair => (pair.1, stamp.buf.float pair.2)

theorem drawCalls_float (stamp : StampT F) (calls : List Point) (hm : HeatmapT F) :
    (drawCalls stamp calls hm).buf.float = scatter (· + ·) (drawn hm.w hm.h stamp calls) hm.buf.float := by
  induction calls generalizing hm with
  | nil => rfl
  | cons p calls ih =>
    have hsize := heatmapAddPointWithStamp_size hm p.x p.y stamp
    show (drawCalls stamp calls (heatmapAddPointWithStamp hm p.x p.y stamp)).buf.float = _
    rw [ih, hsize.1, hsize.2, heatmapAddPointWithStamp_eq, addPixels_float, drawn, drawn, List.flatMap_cons, scatter, scatter,
      scatter, List.foldl_append]

end

/-! ## The pixels of a call -/

/-- Sizes with which no sum and no product of a call wraps around. -/
structure Fits (w h r : ℕ) : Prop where
  pixels : w * h < 2 ^ 32
  radius : r ≤ 32767
  width : w + r ≤ 2 ^ 32
  height : h + r ≤ 2 ^ 32

/-- The pixel is in the square that the stamp covers. -/
def Near (r : ℕ) (p : Point) (px py : ℕ) : Prop := Nat.dist p.x px ≤ r ∧ Nat.dist p.y py ≤ r

instance (r : ℕ) (p : Point) (px py : ℕ) : Decidable (Near r p px py) := inferInstanceAs (Decidable (_ ∧ _))

/-- The float of the stamp that is drawn at a pixel. -/
def stampIndex (r : ℕ) (p : Point) (px py : ℕ) : ℕ := (py + r - p.y) * (2 * r + 1) + (px + r - p.x)

variable {F : Type} {stamp : StampT F} {w h r x y px py i s : ℕ} {p : Point}

theorem stampFirst_eq (x r : ℕ) : stampFirst x (2 * r + 1) = r - x := by
  have hhalf : (2 * r + 1) / 2 = r := by omega
  rw [stampFirst, hhalf]
  split <;> omega

/-- One direction of the clipping. -/
theorem span_iff (hx : x < w) (hr : r ≤ 32767) (hw : w + r ≤ 2 ^ 32) :
    r - x ≤ i ∧ i < stampLast x (2 * r + 1) w ↔ ∃ px < w, Nat.dist x px ≤ r ∧ i = px + r - x := by
  have hlast : stampLast x (2 * r + 1) w = min (2 * r + 1) (w + r - x) := by
    have hhalf : (2 * r + 1) / 2 = r := by omega
    rw [stampLast, hhalf, u32_of_lt (by omega : x + r < 2 ^ 32)]
    split
    · omega
    · rw [u32_of_lt (by omega)]
      omega
  rw [hlast]
  simp only [Nat.dist]
  constructor
  · rintro ⟨hmin, hmax⟩
    exact ⟨i + x - r, by omega, by omega, by omega⟩
  · rintro ⟨px, hpx, hdist, rfl⟩
    omega

theorem index_inj {x' y' : ℕ} (hx : x < w) (hx' : x' < w) (h : y * w + x = y' * w + x') : y = y' ∧ x = x' := by
  have hpos : 0 < w := by omega
  have hdiv : (y * w + x) / w = (y' * w + x') / w := by rw [h]
  have hmod : (y * w + x) % w = (y' * w + x') % w := by rw [h]
  rw [Nat.mul_comm y, Nat.mul_comm y', Nat.mul_add_div hpos, Nat.mul_add_div hpos, Nat.div_eq_of_lt hx,
    Nat.div_eq_of_lt hx'] at hdiv
  rw [Nat.mul_comm y, Nat.mul_comm y', Nat.mul_add_mod, Nat.mul_add_mod, Nat.mod_eq_of_lt hx, Nat.mod_eq_of_lt hx'] at hmod
  exact ⟨by omega, hmod⟩

/-- A pixel of the stamp and the pixel of the heatmap that it is drawn at. -/
theorem pointers_eq (hf : Fits w h r) (hw : stamp.w = 2 * r + 1) (hh : stamp.h = 2 * r + 1) (hx : p.x < w)
    (hpx : px < w) (hpy : py < h) (hnear : Near r p px py) :
    pointers w p.x p.y stamp (py + r - p.y, px + r - p.x - (r - p.x)) = (py * w + px, stampIndex r p px py) := by
  obtain ⟨hdx, hdy⟩ := hnear
  simp only [Nat.dist] at hdx hdy
  have hwidth := hf.width
  have hheight := hf.height
  have hradius := hf.radius
  have hindex := index_lt hpx hpy
  have hpixels := hf.pixels
  have hhalf : (2 * r + 1) / 2 = r := by omega
  have hrow : u32 (sub32 (u32 (p.y + (py + r - p.y))) r * w) = py * w := by
    have hsum : p.y + (py + r - p.y) = py + r := by omega
    rw [hsum, u32_of_lt (by omega : py + r < 2 ^ 32), sub32_of_le (Nat.le_add_left r py) (by omega),
      Nat.add_sub_cancel, u32_of_lt (by omega)]
  have hstamp : (py + r - p.y) * (2 * r + 1) < 2 ^ 32 := by
    have hle : (py + r - p.y) * (2 * r + 1) ≤ 65534 * 65535 := Nat.mul_le_mul (by omega) (by omega)
    omega
  rw [pointers, hw, hh, stampFirst_eq, hhalf, hrow, u32_of_lt (by omega : p.x + (r - p.x) < 2 ^ 32), u32_of_lt hstamp,
    stampIndex]
  exact Prod.ext (by dsimp only; omega) (by dsimp only; omega)

theorem mem_stampPixels (hf : Fits w h r) (hw : stamp.w = 2 * r + 1) (hh : stamp.h = 2 * r + 1) {iy k : ℕ} :
    (iy, k) ∈ stampPixels w h p.x p.y stamp ↔
      p.x < w ∧ p.y < h ∧
        ∃ px < w, ∃ py < h, Near r p px py ∧ iy = py + r - p.y ∧ k = px + r - p.x - (r - p.x) := by
  rw [stampPixels, hw, hh, stampFirst_eq, stampFirst_eq]
  split
  · next hout =>
    refine iff_of_false List.not_mem_nil ?_
    rintro ⟨hx, hy, -⟩
    omega
  · next hin =>
    have hx : p.x < w := by omega
    have hy : p.y < h := by omega
    rw [and_iff_right hx, and_iff_right hy, List.mem_product, List.mem_range'_1, List.mem_range]
    constructor
    · rintro ⟨hrows, hcolumns⟩
      obtain ⟨py, hpy, hdy, rfl⟩ := (span_iff hy hf.radius hf.height).mp ⟨hrows.1, by omega⟩
      obtain ⟨px, hpx, hdx, hk⟩ := (span_iff hx hf.radius hf.width).mp ⟨Nat.le_add_right (r - p.x) k, by omega⟩
      exact ⟨px, hpx, py, hpy, ⟨hdx, hdy⟩, rfl, by omega⟩
    · rintro ⟨px, hpx, py, hpy, ⟨hdx, hdy⟩, rfl, rfl⟩
      obtain ⟨hx0, hx1⟩ := (span_iff hx hf.radius hf.width).mpr ⟨px, hpx, hdx, rfl⟩
      obtain ⟨hy0, hy1⟩ := (span_iff hy hf.radius hf.height).mpr ⟨py, hpy, hdy, rfl⟩
      exact ⟨by omega, by omega⟩

/-- The pairs of floats that a call touches: each pixel within the radius with its place in the stamp. -/
theorem mem_touched (hf : Fits w h r) (hw : stamp.w = 2 * r + 1) (hh : stamp.h = 2 * r + 1) :
    (i, s) ∈ touched w h p.x p.y stamp ↔
      p.x < w ∧ p.y < h ∧ ∃ px < w, ∃ py < h, Near r p px py ∧ i = py * w + px ∧ s = stampIndex r p px py := by
  rw [touched, List.mem_map]
  constructor
  · rintro ⟨⟨iy, k⟩, hmem, hpair⟩
    obtain ⟨hx, hy, px, hpx, py, hpy, hnear, rfl, rfl⟩ := (mem_stampPixels hf hw hh).mp hmem
    rw [pointers_eq hf hw hh hx hpx hpy hnear] at hpair
    obtain ⟨hi, hs⟩ := Prod.mk.inj hpair
    exact ⟨hx, hy, px, hpx, py, hpy, hnear, hi.symm, hs.symm⟩
  · rintro ⟨hx, hy, px, hpx, py, hpy, hnear, rfl, rfl⟩
    exact ⟨_, (mem_stampPixels hf hw hh).mpr ⟨hx, hy, px, hpx, py, hpy, hnear, rfl, rfl⟩,
      pointers_eq hf hw hh hx hpx hpy hnear⟩

/-- No float of the heatmap is touched twice by a call. -/
theorem touched_nodup (hf : Fits w h r) (hw : stamp.w = 2 * r + 1) (hh : stamp.h = 2 * r + 1) (p : Point) :
    ((touched w h p.x p.y stamp).map Prod.fst).Nodup := by
  have hpixels : (stampPixels w h p.x p.y stamp).Nodup := by
    rw [stampPixels]
    split
    · exact List.nodup_nil
    · exact List.Nodup.product List.nodup_range' List.nodup_range
  rw [touched, List.map_map]
  refine List.Nodup.map_on ?_ hpixels
  rintro ⟨iy, k⟩ hmem ⟨iy', k'⟩ hmem' heq
  obtain ⟨hx, hy, px, hpx, py, hpy, hnear, rfl, rfl⟩ := (mem_stampPixels hf hw hh).mp hmem
  obtain ⟨-, -, px', hpx', py', hpy', hnear', rfl, rfl⟩ := (mem_stampPixels hf hw hh).mp hmem'
  have heq : py * w + px = py' * w + px' := by
    have hline := congrArg Prod.fst (pointers_eq hf hw hh hx hpx hpy hnear)
    have hline' := congrArg Prod.fst (pointers_eq hf hw hh hx hpx' hpy' hnear')
    exact hline.symm.trans (heq.trans hline')
  obtain ⟨rfl, rfl⟩ := index_inj hpx hpx' heq
  rfl

/-! ## The stamp -/

/-- The square of a difference that has wrapped around. -/
theorem sub32_square {a b : ℕ} (ha : a < 2 ^ 32) (hb : b < 2 ^ 32) :
    u32 (sub32 a b * sub32 a b) = u32 (Nat.dist a b ^ 2) := by
  rw [sq]
  rcases Nat.lt_or_ge a b with hlt | hle
  · have hwrap : sub32 a b + Nat.dist a b = 2 ^ 32 := by
      rw [sub32, u32, Nat.dist_eq_sub_of_le hlt.le, Nat.mod_eq_of_lt (by omega)]
      omega
    generalize sub32 a b = e at hwrap ⊢
    generalize Nat.dist a b = d at hwrap ⊢
    have hleft : (e * e + e * d) % 2 ^ 32 = 0 := by
      rw [← Nat.mul_add, hwrap, Nat.mul_mod_left]
    have hright : (d * d + e * d) % 2 ^ 32 = 0 := by
      rw [← Nat.add_mul, Nat.add_comm, hwrap, Nat.mul_mod_right]
    exact Nat.ModEq.add_right_cancel' (e * d) (hleft.trans hright.symm)
  · rw [sub32_of_le hle ha, Nat.dist_eq_sub_of_le_right hle]

/-- The square of the distance of a pixel from the point of a call. -/
def squareDist (p : Point) (px py : ℕ) : ℕ := Nat.dist p.x px ^ 2 + Nat.dist p.y py ^ 2

/-- Writes one after the other. -/
theorem foldl_write_float {α F : Type} (position : α → ℕ) (value : α → F) (as : List α) (b : Buffer F) :
    (as.foldl (fun b a => b.write (position a) (value a)) b).float =
      scatter (fun _ v => v) (as.map fun a => (position a, value a)) b.float := by
  induction as generalizing b with
  | nil => rfl
  | cons a as ih => exact ih _

theorem stampLoop_float (d : ℕ) (value : ℕ → ℕ → F) (b : Buffer F) :
    ((List.range d).foldl (fun b y =>
      (List.range d).foldl (fun b x => b.write (u32 (y * d) + x) (value x y)) b) b).float =
      scatter (fun _ v => v) ((List.range d ×ˢ List.range d).map fun q => (u32 (q.1 * d) + q.2, value q.2 q.1)) b.float := by
  rw [← foldl_write_float (fun q : ℕ × ℕ => u32 (q.1 * d) + q.2) (fun q => value q.2 q.1)]
  exact congrArg Buffer.float
    (foldl_product (fun (b : Buffer F) q => b.write (u32 (q.1 * d) + q.2) (value q.2 q.1)) (List.range d) (List.range d) b)

theorem heatmapStampGen_float [Zero F] (shade : ℕ → ℕ → F) (hr : r ≤ 32767) (hx : x < 2 * r + 1) (hy : y < 2 * r + 1) :
    (heatmapStampGen shade r).buf.float (y * (2 * r + 1) + x) = shade r (Nat.dist x r ^ 2 + Nat.dist y r ^ 2) := by
  have hside : u32 (2 * r + 1) = 2 * r + 1 := u32_of_lt (by omega)
  have hrow : ∀ y < 2 * r + 1, u32 (y * (2 * r + 1)) = y * (2 * r + 1) := by
    intro y hy
    have hle : y * (2 * r + 1) ≤ 65534 * 65535 := Nat.mul_le_mul (by omega) (by omega)
    exact u32_of_lt (by omega)
  have hsquare : ∀ a < 2 * r + 1, u32 (sub32 a r * sub32 a r) = Nat.dist a r ^ 2 ∧ Nat.dist a r ^ 2 ≤ 2 ^ 30 := by
    intro a ha
    have hdist : Nat.dist a r ≤ 32767 := by
      rw [Nat.dist]
      omega
    have hle : Nat.dist a r ^ 2 ≤ 32767 ^ 2 := Nat.pow_le_pow_left hdist 2
    refine ⟨?_, by omega⟩
    rw [sub32_square (by omega) (by omega), u32_of_lt (by omega)]
  have hvalue : u32 (u32 (sub32 x r * sub32 x r) + u32 (sub32 y r * sub32 y r)) = Nat.dist x r ^ 2 + Nat.dist y r ^ 2 := by
    rw [(hsquare x hx).1, (hsquare y hy).1]
    have hxle := (hsquare x hx).2
    have hyle := (hsquare y hy).2
    exact u32_of_lt (by omega)
  show (List.foldl _ _ _ : Buffer F).float _ = _
  rw [hside, stampLoop_float]
  refine (scatter_of_mem ?_ (List.mem_map.mpr ⟨(y, x), ?_, ?_⟩)).trans (congrArg (shade r) hvalue)
  · rw [List.map_map]
    refine List.Nodup.map_on ?_ (List.Nodup.product List.nodup_range List.nodup_range)
    rintro ⟨y, x⟩ hmem ⟨y', x'⟩ hmem' heq
    obtain ⟨hy, hx⟩ := List.mem_product.mp hmem
    obtain ⟨hy', hx'⟩ := List.mem_product.mp hmem'
    rw [List.mem_range] at hx hy hx' hy'
    have heq : u32 (y * (2 * r + 1)) + x = u32 (y' * (2 * r + 1)) + x' := heq
    rw [hrow y hy, hrow y' hy'] at heq
    obtain ⟨rfl, rfl⟩ := index_inj hx hx' heq
    rfl
  · exact List.mem_product.mpr ⟨List.mem_range.mpr hy, List.mem_range.mpr hx⟩
  · rw [hrow y hy]

/-! ## A run of calls -/

/-- The call draws at the pixel: its point is in the heatmap and the pixel in its square. -/
def Reaches (w h r : ℕ) (p : Point) (px py : ℕ) : Prop := p.x < w ∧ p.y < h ∧ Near r p px py

instance (w h r : ℕ) (p : Point) (px py : ℕ) : Decidable (Reaches w h r p px py) :=
  inferInstanceAs (Decidable (_ ∧ _ ∧ _))

def HeatmapT.heat (hm : HeatmapT F) (px py : ℕ) : F := hm.buf.float (py * hm.w + px)

/-- All floats that a call touches are those of the heatmap and of the stamp. -/
def TouchesInside (hm : HeatmapT F) (stamp : StampT F) (p : Point) : Prop :=
  ∀ pair ∈ touched hm.w hm.h p.x p.y stamp, pair.1 < hm.buf.size ∧ pair.2 < stamp.buf.size

variable [Zero F]

theorem stamp_value (shade : ℕ → ℕ → F) (hr : r ≤ 32767) (hnear : Near r p px py) :
    (heatmapStampGen shade r).buf.float (stampIndex r p px py) = shade r (squareDist p px py) := by
  obtain ⟨hdx, hdy⟩ := hnear
  have hx : Nat.dist (px + r - p.x) r = Nat.dist p.x px := by
    simp only [Nat.dist] at hdx ⊢
    omega
  have hy : Nat.dist (py + r - p.y) r = Nat.dist p.y py := by
    simp only [Nat.dist] at hdy ⊢
    omega
  simp only [Nat.dist] at hdx hdy
  rw [stampIndex, heatmapStampGen_float shade hr (by omega) (by omega), hx, hy, squareDist]

theorem heatmapStampGen_sides (shade : ℕ → ℕ → F) (hr : r ≤ 32767) :
    (heatmapStampGen shade r).w = 2 * r + 1 ∧ (heatmapStampGen shade r).h = 2 * r + 1 := by
  have hside : u32 (2 * r + 1) = 2 * r + 1 := u32_of_lt (by omega)
  exact ⟨hside, hside⟩

/-- What a call brings to a pixel. -/
theorem landing_call (hf : Fits w h r) (shade : ℕ → ℕ → F) (p : Point) (hpx : px < w) :
    landing ((touched w h p.x p.y (heatmapStampGen shade r)).map fun pair =>
        (pair.1, (heatmapStampGen shade r).buf.float pair.2)) (py * w + px) =
      if Reaches w h r p px py ∧ py < h then [shade r (squareDist p px py)] else [] := by
  obtain ⟨hw, hh⟩ := heatmapStampGen_sides shade hf.radius
  split
  · next hreaches =>
    obtain ⟨⟨hx, hy, hnear⟩, hpy⟩ := hreaches
    refine landing_of_mem ?_ (List.mem_map.mpr ⟨(py * w + px, stampIndex r p px py), ?_, ?_⟩)
    · rw [List.map_map]
      exact touched_nodup hf hw hh p
    · exact (mem_touched hf hw hh).mpr ⟨hx, hy, px, hpx, py, hpy, hnear, rfl, rfl⟩
    · rw [stamp_value shade hf.radius hnear]
  · next hnot =>
    refine landing_of_notMem fun v hv => hnot ?_
    obtain ⟨⟨i, s⟩, hmem, hpair⟩ := List.mem_map.mp hv
    obtain ⟨hx, hy, px', hpx', py', hpy', hnear, hi, -⟩ := (mem_touched hf hw hh).mp hmem
    have heq : py' * w + px' = py * w + px := hi.symm.trans (congrArg Prod.fst hpair)
    obtain ⟨rfl, rfl⟩ := index_inj hpx' hpx heq
    exact ⟨⟨hx, hy, hnear⟩, hpy'⟩

theorem touchesInside (hf : Fits w h r) (shade : ℕ → ℕ → F) {hm : HeatmapT F} (hw : hm.w = w) (hh : hm.h = h)
    (hsize : hm.buf.size = w * h) (p : Point) : TouchesInside hm (heatmapStampGen shade r) p := by
  obtain ⟨hside, hside'⟩ := heatmapStampGen_sides shade hf.radius
  rintro ⟨i, s⟩ hmem
  rw [hw, hh] at hmem
  obtain ⟨-, -, px, hpx, py, hpy, ⟨hdx, hdy⟩, rfl, rfl⟩ := (mem_touched hf hside hside').mp hmem
  have hstamp := ((stampFits_iff shade r).mpr hf.radius).size
  simp only [Nat.dist] at hdx hdy
  rw [hsize, hstamp]
  exact ⟨index_lt hpx hpy, index_lt (by omega) (by omega)⟩

theorem landing_drawn (hf : Fits w h r) (shade : ℕ → ℕ → F) (calls : List Point) (hpx : px < w) (hpy : py < h) :
    landing (drawn w h (heatmapStampGen shade r) calls) (py * w + px) =
      (calls.filter fun p => decide (Reaches w h r p px py)).map fun p => shade r (squareDist p px py) := by
  induction calls with
  | nil => rfl
  | cons p calls ih =>
    rw [drawn, List.flatMap_cons, landing_append, landing_call hf shade p hpx, ← drawn, ih]
    by_cases hreaches : Reaches w h r p px py
    · rw [if_pos ⟨hreaches, hpy⟩, List.filter_cons_of_pos (p := fun p => decide (Reaches w h r p px py)) (decide_eq_true hreaches),
        List.map_cons]
      rfl
    · rw [if_neg fun h => hreaches h.1, List.filter_cons_of_neg (p := fun p => decide (Reaches w h r p px py)) (by simpa using hreaches)]
      rfl

variable [Add F] [LT F] [DecidableLT F]

/-- The heat of a pixel: the brightness of all calls that reach it, summed up in their order. -/
theorem drawCalls_heat (hf : Fits w h r) (shade : ℕ → ℕ → F) (calls : List Point) (hpx : px < w) (hpy : py < h) :
    (drawCalls (heatmapStampGen shade r) calls (heatmapNew F w h)).heat px py =
      ((calls.filter fun p => decide (Reaches w h r p px py)).map fun p => shade r (squareDist p px py)).foldl
        (· + ·) 0 := by
  have hw : (drawCalls (heatmapStampGen shade r) calls (heatmapNew F w h)).w = w := (drawCalls_size _ calls _).1
  rw [HeatmapT.heat, drawCalls_float, hw, scatter_apply]
  show List.foldl _ 0 (landing (drawn w h _ calls) (py * w + px)) = _
  rw [landing_drawn hf shade calls hpx hpy]

/-- The image of a slice: the points of its loop, and the heat of every pixel. -/
structure Drawn (shade : ℕ → ℕ → F) (job : Job) (s : Selection) (calls : List Point) (hm : HeatmapT F) : Prop where
  width : hm.w = s.width
  height : hm.h = job.height
  inside : ∀ before after, calls = before ++ after → ∀ p ∈ after,
    TouchesInside (drawCalls (heatmapStampGen shade job.radius) before (heatmapNew F s.width job.height))
      (heatmapStampGen shade job.radius) p
  heat : ∀ px < s.width, ∀ py < job.height, hm.heat px py =
    ((calls.filter fun p => decide (Reaches s.width job.height job.radius p px py)).map fun p =>
      shade job.radius (squareDist p px py)).foldl (· + ·) 0

theorem select_fits {job : Job} {size : ℕ} {s : Selection} (hsize : size < 2 ^ 32) (hselect : select job size = .ok s)
    (hradius : job.radius ≤ 32767) (hheight : job.height < 2 ^ 30) : Fits s.width job.height job.radius := by
  have himage := (imageFits_iff (F := ℕ) hsize hselect).mpr (Or.inl hheight)
  have hpos := select_height_pos hselect
  have hpixels : s.width * job.height * 4 < 2 ^ 32 := by
    rw [← himage.image]
    exact Nat.mod_lt _ (by norm_num)
  have hwidth : s.width * 1 ≤ s.width * job.height := Nat.mul_le_mul_left _ hpos
  exact ⟨by omega, hradius, by omega, by omega⟩

/-- **The pixels of an image.** -/
theorem image_pixels (shade : ℕ → ℕ → F) (job : Job) (nonces : List ℕ) (s : Selection) (hm : HeatmapT F)
    (hsize : nonces.length < 2 ^ 32) (hselect : select job nonces.length = .ok s) (hradius : job.radius ≤ 32767)
    (hheight : job.height < 2 ^ 30)
    (hdrawn : noncesHeatmap shade job.rows (s.slice nonces) s.x job.height job.radius = some hm) :
    ∃ calls, job.rows.calls s.x (s.slice nonces) 0 = some calls ∧ Drawn shade job s calls hm := by
  have hfits := select_fits hsize hselect hradius hheight
  rw [noncesHeatmap_eq, slice_width hsize hselect rfl] at hdrawn
  obtain ⟨calls, hcalls, rfl⟩ := Option.map_eq_some_iff.mp hdrawn
  refine ⟨calls, hcalls, ?_, ?_, ?_, ?_⟩
  · exact (drawCalls_size _ calls _).1
  · exact (drawCalls_size _ calls _).2
  · intro before after _ p _
    refine touchesInside hfits shade (drawCalls_size _ before _).1 (drawCalls_size _ before _).2 ?_ p
    rw [drawCalls_buf_size]
    exact u32_of_lt hfits.pixels
  · intro px hpx py hpy
    exact drawCalls_heat hfits shade calls hpx hpy

/-- Three nonces under the default settings: the lowest one has no row. -/
def threePoints : List Point := [⟨0, 4096⟩, ⟨1, 2048⟩, ⟨2, 0⟩]

theorem three_drawn (shade : ℕ → ℕ → F) :
    noncesHeatmap shade (Job.default none).rows ((⟨0, 3, 3, 1, 3⟩ : Selection).slice [7, 2 ^ 31, 2 ^ 32 - 1]) 1 4096 5 =
      some (drawCalls (heatmapStampGen shade 5) threePoints (heatmapNew F 3 4096)) := by
  have hcalls : (Job.default none).rows.calls 1 [7, 2 ^ 31, 2 ^ 32 - 1] 0 = some threePoints := by decide +kernel
  have hwidth : imageWidth [7, 2 ^ 31, 2 ^ 32 - 1].length 1 = 3 := by decide +kernel
  show noncesHeatmap shade (Job.default none).rows [7, 2 ^ 31, 2 ^ 32 - 1] 1 4096 5 = _
  rw [noncesHeatmap_eq, hcalls, hwidth, Option.map_some]

theorem image_pixels_three : ∃ calls, (Job.default none).rows.calls 1 [7, 2 ^ 31, 2 ^ 32 - 1] 0 = some calls ∧
    Drawn (fun _ d => 50 - d) (Job.default none) ⟨0, 3, 3, 1, 3⟩ calls
      (drawCalls (heatmapStampGen (fun _ d => 50 - d) 5) threePoints (heatmapNew ℕ 3 4096)) :=
  image_pixels (fun _ d => 50 - d) (Job.default none) [7, 2 ^ 31, 2 ^ 32 - 1] ⟨0, 3, 3, 1, 3⟩ _ (by decide)
    (by decide +kernel) (by decide) (by decide) (three_drawn _)

end NoncesHeatmap
