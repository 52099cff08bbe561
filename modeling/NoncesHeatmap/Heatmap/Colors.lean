import Mathlib.Data.UInt
import NoncesHeatmap.Heatmap.Heat

/-! # The colours of an image

`heatmap_render_to` divides the heat of each pixel by the maximum and takes a colour of the scheme for
it. The quotient is at most 1, and the sum that is truncated to an index is a single as long as the
number of colours has 23 bits, so the index stays in the scheme and the hottest pixel gets its last
colour. -/

namespace NoncesHeatmap
open Function Scatter
open Single (Number)
set_option autoImplicit false

structure Colorscheme where
  colors : Buffer UInt8
  ncolors : ℕ

/-- The scheme of the images; `sizeof(mixed_exp_data[0]/4)` is the size of an `int`. -/
def heatmapCsSpectralMixedExp (mixedExpData : ℕ → UInt8) : Colorscheme := ⟨⟨4100, mixedExpData⟩, 4100 / 4⟩

/-- `val` of the loop. -/
def saturated (saturation heat : Number) : Number := (if saturation < heat then saturation else heat) / saturation

/-- The numeral `0.5f`. -/
def half : Number := ⟨1 / 2, by decide +kernel⟩

/-- The conversion of a float that is not negative to `size_t` drops its fraction. -/
def Colorscheme.idx (cs : Colorscheme) (val : Number) : ℕ :=
  ⌊(((cs.ncolors + 2 ^ 64 - 1) % 2 ^ 64 : ℕ) * val + half : Number).val⌋₊

def heatmapRenderSaturatedTo (h : HeatmapT Number) (cs : Colorscheme) (saturation : Number) (colorbuf : Buffer UInt8) :
    Buffer UInt8 :=
  (List.range h.h).foldl (fun out y =>
    (List.range h.w).foldl (fun out x =>
      let idx := cs.idx (saturated saturation (h.buf.float (u32 (y * h.w) + x)))
      (List.range 4).foldl (fun out c =>
        out.write (u32 (u32 (4 * y) * h.w) + 4 * x + c) (cs.colors.float (idx * 4 + c))) out) out) colorbuf

def saturationOf (h : HeatmapT Number) : Number := if 0 < h.max then h.max else 1

def heatmapRenderTo (h : HeatmapT Number) (cs : Colorscheme) (colorbuf : Buffer UInt8) : Buffer UInt8 :=
  heatmapRenderSaturatedTo h cs (saturationOf h) colorbuf

/-- The image of `nonces_heatmap`: the bytes of the vector that is written to the file. -/
def image (cs : Colorscheme) (h : HeatmapT Number) : Buffer UInt8 :=
  heatmapRenderTo h cs (.calloc UInt8 (u32 (u32 (h.w * h.h) * 4)))

/-! ## The index -/

variable {cs : Colorscheme} {saturation heat heat' : Number}

theorem saturated_bounds (hpos : 0 < saturation) (hheat : 0 ≤ heat) :
    0 ≤ saturated saturation heat ∧ saturated saturation heat ≤ 1 := by
  rw [saturated, ← Number.div_same hpos, ← Number.div_of_zero saturation]
  split
  · exact ⟨Number.div_monotone hpos.le hpos.le, le_rfl⟩
  · next hle => exact ⟨Number.div_monotone hheat hpos.le, Number.div_monotone (not_lt.mp hle) hpos.le⟩

theorem saturated_mono (hpos : 0 < saturation) (h : heat ≤ heat') :
    saturated saturation heat ≤ saturated saturation heat' := by
  refine Number.div_monotone ?_ hpos.le
  split
  · next hlt => rw [if_pos (hlt.trans_le h)]
  · next hle =>
    split
    · exact not_lt.mp hle
    · exact h

theorem saturationOf_pos (h : HeatmapT Number) : 0 < saturationOf h := by
  unfold saturationOf
  split
  · next hpos => exact hpos
  · decide +kernel

/-- The colours are there, and the arithmetic of the index is exact at its ends. -/
structure Colorscheme.Valid (cs : Colorscheme) : Prop where
  pos : 0 < cs.ncolors
  small : cs.ncolors ≤ 2 ^ 23
  size : cs.colors.size = 4 * cs.ncolors

theorem heatmapCsSpectralMixedExp_valid (mixedExpData : ℕ → UInt8) : (heatmapCsSpectralMixedExp mixedExpData).Valid :=
  ⟨(by decide : 0 < 4100 / 4), (by decide : 4100 / 4 ≤ 2 ^ 23), rfl⟩

theorem last_eq (hcs : cs.Valid) : (cs.ncolors + 2 ^ 64 - 1) % 2 ^ 64 = cs.ncolors - 1 := by
  obtain ⟨hpos, hle, -⟩ := hcs
  have hsum : cs.ncolors + 2 ^ 64 - 1 = cs.ncolors - 1 + 2 ^ 64 := by omega
  rw [hsum, Nat.add_mod_right]
  exact Nat.mod_eq_of_lt (by omega)

theorem idx_mono {val val' : Number} (h : val ≤ val') : cs.idx val ≤ cs.idx val' :=
  Nat.floor_mono (Number.add_monotone (Number.mul_monotone h (natCast_nonneg _)) half)

theorem idx_zero (cs : Colorscheme) : cs.idx 0 = 0 := by
  have hzero : (((cs.ncolors + 2 ^ 64 - 1) % 2 ^ 64 : ℕ) * 0 + half : Number) = half := by
    have hproduct : (((cs.ncolors + 2 ^ 64 - 1) % 2 ^ 64 : ℕ) : Number) * 0 = 0 := by
      refine Number.ext_val ?_
      rw [Number.val_mul, Number.val_zero, mul_zero, Single.round_zero]
    rw [hproduct]
    decide +kernel
  rw [Colorscheme.idx, hzero]
  decide +kernel

theorem idx_one (hcs : cs.Valid) : cs.idx 1 = cs.ncolors - 1 := by
  have hpos := hcs.pos
  have hle := hcs.small
  have hval : ((cs.ncolors - 1 : ℕ) : Number).val = ((cs.ncolors - 1 : ℕ) : ℚ) := Number.val_natCast_of_le (by omega)
  have hproduct : ((cs.ncolors - 1 : ℕ) : Number) * 1 = (cs.ncolors - 1 : ℕ) := by
    refine Number.ext_val ?_
    rw [Number.val_mul, Number.val_one, mul_one, Number.single]
  have hsum : (((cs.ncolors - 1 : ℕ) : Number) + half).val = ((cs.ncolors - 1 : ℕ) : ℚ) + 1 / 2 := by
    have hbits := Single.round_of_bits ((2 * (cs.ncolors - 1) + 1 : ℕ) : ℤ) (-1)
      (by rw [abs_of_nonneg (Int.natCast_nonneg _)]; omega)
    have hdouble : (((2 * (cs.ncolors - 1) + 1 : ℕ) : ℤ) : ℚ) * 2 ^ (-1 : ℤ) = ((cs.ncolors - 1 : ℕ) : ℚ) + 1 / 2 := by
      push_cast
      norm_num
      ring
    rw [hdouble] at hbits
    rw [Number.val_add, hval]
    exact hbits
  rw [Colorscheme.idx, last_eq hcs, hproduct, hsum]
  refine (Nat.floor_eq_iff (by positivity)).mpr ⟨by linarith, by linarith⟩

/-! ## The bytes -/

variable {w h px py c : ℕ}

theorem heatmapRenderSaturatedTo_size (hm : HeatmapT Number) (cs : Colorscheme) (saturation : Number)
    (colorbuf : Buffer UInt8) : (heatmapRenderSaturatedTo hm cs saturation colorbuf).size = colorbuf.size := by
  unfold heatmapRenderSaturatedTo
  refine foldl_buffer_size (fun b y => ?_) _ _
  refine foldl_buffer_size (fun b x => ?_) _ b
  refine foldl_buffer_size (fun b c => ?_) _ b
  rfl

/-- A byte of the loops: its row, its column and its place in the colour. -/
def colorByte (cs : Colorscheme) (saturation : Number) (hm : HeatmapT Number) (q : (ℕ × ℕ) × ℕ) : ℕ × UInt8 :=
  (u32 (u32 (4 * q.1.1) * hm.w) + 4 * q.1.2 + q.2,
    cs.colors.float (cs.idx (saturated saturation (hm.buf.float (u32 (q.1.1 * hm.w) + q.1.2))) * 4 + q.2))

theorem heatmapRenderSaturatedTo_scatter (hm : HeatmapT Number) (cs : Colorscheme) (saturation : Number)
    (colorbuf : Buffer UInt8) :
    (heatmapRenderSaturatedTo hm cs saturation colorbuf).float =
      scatter (fun _ v => v)
        (((List.range hm.h ×ˢ List.range hm.w) ×ˢ List.range 4).map (colorByte cs saturation hm)) colorbuf.float := by
  have hbytes := foldl_write_float (fun q => (colorByte cs saturation hm q).1) (fun q => (colorByte cs saturation hm q).2)
    ((List.range hm.h ×ˢ List.range hm.w) ×ˢ List.range 4) colorbuf
  rw [← foldl_product, ← foldl_product] at hbytes
  exact hbytes

theorem colorByte_position {hm : HeatmapT Number} (hw : hm.w = w) (hfits : w * h * 4 < 2 ^ 32) (hpx : px < w) (hpy : py < h) :
    (colorByte cs saturation hm ((py, px), c)).1 = 4 * (py * w + px) + c := by
  have hindex := index_lt hpx hpy
  have hrow : py < 2 ^ 30 := by
    have hle : py * 1 ≤ py * w := Nat.mul_le_mul_left _ (by omega)
    omega
  have hline : 4 * py * w = 4 * (py * w) := Nat.mul_assoc 4 py w
  rw [colorByte, hw]
  dsimp only
  rw [u32_of_lt (by omega : 4 * py < 2 ^ 32), hline, u32_of_lt (by omega), Nat.mul_add]

theorem heatmapRenderSaturatedTo_float {hm : HeatmapT Number} (hw : hm.w = w) (hh : hm.h = h) (hfits : w * h * 4 < 2 ^ 32)
    (colorbuf : Buffer UInt8) (hpx : px < w) (hpy : py < h) (hc : c < 4) :
    (heatmapRenderSaturatedTo hm cs saturation colorbuf).float (4 * (py * w + px) + c) =
      cs.colors.float (cs.idx (saturated saturation (hm.heat px py)) * 4 + c) := by
  have hindex := index_lt hpx hpy
  rw [heatmapRenderSaturatedTo_scatter, hw, hh]
  refine scatter_of_mem ?_ (List.mem_map.mpr ⟨((py, px), c), ?_, ?_⟩)
  · rw [List.map_map]
    refine List.Nodup.map_on ?_ ((List.nodup_range.product List.nodup_range).product List.nodup_range)
    rintro ⟨⟨y, x⟩, b⟩ hmem ⟨⟨y', x'⟩, b'⟩ hmem' heq
    simp only [List.mem_product, List.mem_range] at hmem hmem'
    rw [comp_apply, comp_apply, colorByte_position hw hfits hmem.1.2 hmem.1.1, colorByte_position hw hfits hmem'.1.2 hmem'.1.1]
      at heq
    obtain ⟨rfl, rfl⟩ := index_inj hmem.1.2 hmem'.1.2 (by omega : y * w + x = y' * w + x')
    obtain rfl : b = b' := by omega
    rfl
  · simp only [List.mem_product, List.mem_range]
    exact ⟨⟨hpy, hpx⟩, hc⟩
  · refine Prod.ext (colorByte_position hw hfits hpx hpy) ?_
    show cs.colors.float (cs.idx (saturated saturation (hm.buf.float (u32 (py * hm.w) + px))) * 4 + c) = _
    rw [HeatmapT.heat, hw, u32_of_lt (by omega)]

/-! ## The image -/

/-- The index of a pixel. -/
def pixelIdx (cs : Colorscheme) (hm : HeatmapT Number) (px py : ℕ) : ℕ :=
  cs.idx (saturated (saturationOf hm) (hm.heat px py))

/-- The image of a heatmap: every byte, and how the colours go with the heat. -/
structure Coloured (cs : Colorscheme) (w h : ℕ) (hm : HeatmapT Number) (out : Buffer UInt8) : Prop where
  asserted : ∀ px < w, ∀ py < h,
    0 < saturationOf hm ∧ 0 ≤ saturated (saturationOf hm) (hm.heat px py) ∧ pixelIdx cs hm px py < cs.ncolors
  inside : ∀ px < w, ∀ py < h, ∀ c < 4,
    4 * (py * w + px) + c < out.size ∧ pixelIdx cs hm px py * 4 + c < cs.colors.size
  bytes : ∀ px < w, ∀ py < h, ∀ c < 4,
    out.float (4 * (py * w + px) + c) = cs.colors.float (pixelIdx cs hm px py * 4 + c)
  ordered : ∀ px py px' py', hm.heat px py ≤ hm.heat px' py' → pixelIdx cs hm px py ≤ pixelIdx cs hm px' py'
  cold : ∀ px py, hm.heat px py = 0 → pixelIdx cs hm px py = 0
  hottest : ∀ px py, 0 < hm.max → hm.heat px py = hm.max → pixelIdx cs hm px py = cs.ncolors - 1

theorem coloured_of_nonneg (hcs : cs.Valid) {hm : HeatmapT Number} (hw : hm.w = w) (hh : hm.h = h)
    (hfits : w * h * 4 < 2 ^ 32) (hheat : ∀ px py, 0 ≤ hm.heat px py) : Coloured cs w h hm (image cs hm) := by
  have hsaturation := saturationOf_pos hm
  have hlast : ∀ px py, pixelIdx cs hm px py < cs.ncolors := by
    intro px py
    have hle : pixelIdx cs hm px py ≤ cs.idx 1 := idx_mono (saturated_bounds hsaturation (hheat px py)).2
    rw [idx_one hcs] at hle
    have hpos := hcs.pos
    exact lt_of_le_of_lt hle (by omega)
  constructor
  · exact fun px _ py _ => ⟨hsaturation, (saturated_bounds hsaturation (hheat px py)).1, hlast px py⟩
  · intro px hpx py hpy c hc
    have hindex := index_lt hpx hpy
    have hidx := hlast px py
    have hsize : (image cs hm).size = w * h * 4 := by
      rw [image, heatmapRenderTo, heatmapRenderSaturatedTo_size, Buffer.calloc, hw, hh, u32_of_lt (by omega : w * h < 2 ^ 32),
        u32_of_lt hfits]
    rw [hsize, hcs.size]
    exact ⟨by omega, by omega⟩
  · intro px hpx py hpy c hc
    exact heatmapRenderSaturatedTo_float hw hh hfits _ hpx hpy hc
  · exact fun px py px' py' h => idx_mono (saturated_mono hsaturation h)
  · intro px py hzero
    rw [pixelIdx, hzero, saturated, if_neg hsaturation.not_gt, Number.div_of_zero, idx_zero]
  · intro px py hpos hmax
    rw [pixelIdx, hmax, saturationOf, if_pos hpos, saturated, if_neg (lt_irrefl _), Number.div_same hpos, idx_one hcs]

/-- **The colours of an image.** -/
theorem image_coloured (cs : Colorscheme) (hcs : cs.Valid) (job : Job) (nonces : List ℕ) (s : Selection)
    (hm : HeatmapT Number) (hsize : nonces.length < 2 ^ 32) (hselect : select job nonces.length = .ok s)
    (hradius : job.radius ≤ 32767) (hheight : job.height < 2 ^ 30)
    (hdrawn : noncesHeatmap (stampShade linearDist) job.rows (s.slice nonces) s.x job.height job.radius = some hm) :
    Coloured cs s.width job.height hm (image cs hm) := by
  have hfits := select_fits hsize hselect hradius hheight
  have himage := (imageFits_iff (F := ℕ) hsize hselect).mpr (Or.inl hheight)
  rw [noncesHeatmap_eq, slice_width hsize hselect rfl] at hdrawn
  obtain ⟨calls, -, rfl⟩ := Option.map_eq_some_iff.mp hdrawn
  refine coloured_of_nonneg hcs (drawCalls_size _ calls _).1 (drawCalls_size _ calls _).2 ?_ ?_
  · rw [← himage.image]
    exact Nat.mod_lt _ (by norm_num)
  · exact fun px py => (cell_bounds hfits linearDist calls _).1

theorem image_coloured_three :
    Coloured (heatmapCsSpectralMixedExp fun _ => 0) 3 4096
      (drawCalls (heatmapStampGenLinear 5) threePoints (heatmapNew Number 3 4096))
      (image (heatmapCsSpectralMixedExp fun _ => 0)
        (drawCalls (heatmapStampGenLinear 5) threePoints (heatmapNew Number 3 4096))) :=
  image_coloured _ (heatmapCsSpectralMixedExp_valid _) (Job.default none) [7, 2 ^ 31, 2 ^ 32 - 1] ⟨0, 3, 3, 1, 3⟩ _
    (by decide) (by decide +kernel) (by decide) (by decide) (three_drawn _)

end NoncesHeatmap
