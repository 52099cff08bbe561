import NoncesHeatmap.Heatmap.Stamp

/-! # The heat and its maximum

The maximum is raised along with the cells. As no float of a stamp is negative, a cell never falls, and
the maximum is the heat of the hottest pixel after any number of calls. The assertions of the loop hold,
and a cell stops at `2^24`. -/

namespace NoncesHeatmap
open Function Scatter
open Single (Number)
set_option autoImplicit false

section
variable {F : Type} [Add F] [LinearOrder F]

theorem addPixels_max (stamp : StampT F) (pairs : List (ℕ × ℕ)) (hm : HeatmapT F) :
    ((addPixels stamp hm pairs).buf.float, (addPixels stamp hm pairs).max) =
      scatterMax (· + ·) (pairs.map fun pair => (pair.1, stamp.buf.float pair.2)) (hm.buf.float, hm.max) := by
  induction pairs generalizing hm with
  | nil => rfl
  | cons pair pairs ih => exact ih _

theorem drawCalls_max (stamp : StampT F) (calls : List Point) (hm : HeatmapT F) :
    ((drawCalls stamp calls hm).buf.float, (drawCalls stamp calls hm).max) =
      scatterMax (· + ·) (drawn hm.w hm.h stamp calls) (hm.buf.float, hm.max) := by
  induction calls generalizing hm with
  | nil => rfl
  | cons p calls ih =>
    have hsize := heatmapAddPointWithStamp_size hm p.x p.y stamp
    have hcall := addPixels_max stamp (touched hm.w hm.h p.x p.y stamp) hm
    show ((drawCalls stamp calls (heatmapAddPointWithStamp hm p.x p.y stamp)).buf.float,
      (drawCalls stamp calls (heatmapAddPointWithStamp hm p.x p.y stamp)).max) = _
    rw [ih, hsize.1, hsize.2, heatmapAddPointWithStamp_eq, hcall, drawn, drawn, List.flatMap_cons, scatterMax, scatterMax,
      scatterMax, List.foldl_append]

end

/-- The pixels of a heatmap as the floats of its buffer. -/
theorem pixel_iff {w h i : ℕ} : i < w * h ↔ ∃ px < w, ∃ py < h, py * w + px = i := by
  constructor
  · intro hi
    have hw : 0 < w := Nat.pos_of_mul_pos_right (Nat.zero_lt_of_lt hi)
    refine ⟨i % w, Nat.mod_lt i hw, i / w, Nat.div_lt_of_lt_mul hi, ?_⟩
    rw [Nat.mul_comm]
    exact Nat.div_add_mod i w
  · rintro ⟨px, hpx, py, hpy, rfl⟩
    exact index_lt hpx hpy

variable {w h r : ℕ} {distshape : Number → Number}

theorem drawn_position (hf : Fits w h r) {calls : List Point} {item : ℕ × Number}
    (hitem : item ∈ drawn w h (heatmapStampGenNonlinear r distshape) calls) : item.1 < w * h := by
  obtain ⟨hw, hh⟩ := heatmapStampGen_sides (stampShade distshape) hf.radius
  obtain ⟨p, -, hp⟩ := List.mem_flatMap.mp hitem
  obtain ⟨⟨i, s⟩, hmem, rfl⟩ := List.mem_map.mp hp
  obtain ⟨-, -, px, hpx, py, hpy, -, rfl, -⟩ := (mem_touched hf hw hh).mp hmem
  exact index_lt hpx hpy

/-- The floats of the stamp that a call touches are those that its loop has written. -/
theorem touched_bounds (hf : Fits w h r) {p : Point} {pair : ℕ × ℕ}
    (hpair : pair ∈ touched w h p.x p.y (heatmapStampGenNonlinear r distshape)) :
    0 ≤ (heatmapStampGenNonlinear r distshape).buf.float pair.2 ∧
      (heatmapStampGenNonlinear r distshape).buf.float pair.2 ≤ 1 := by
  obtain ⟨hw, hh⟩ := heatmapStampGen_sides (stampShade distshape) hf.radius
  obtain ⟨-, -, px, -, py, -, hnear, -, hs⟩ := (mem_touched hf hw hh).mp hpair
  have hvalue := stamp_value (stampShade distshape) hf.radius hnear
  rw [hs, heatmapStampGenNonlinear, hvalue]
  exact stampShade_bounds distshape r _

theorem drawn_bounds (hf : Fits w h r) {calls : List Point} {item : ℕ × Number}
    (hitem : item ∈ drawn w h (heatmapStampGenNonlinear r distshape) calls) : 0 ≤ item.2 ∧ item.2 ≤ 1 := by
  obtain ⟨p, -, hp⟩ := List.mem_flatMap.mp hitem
  obtain ⟨pair, hmem, rfl⟩ := List.mem_map.mp hp
  exact touched_bounds hf hmem

/-- What the loop asserts about a float of the stamp and about the cell it is added to. -/
def Asserted (stamp : StampT Number) (hm : HeatmapT Number) (pair : ℕ × ℕ) : Prop :=
  0 ≤ stamp.buf.float pair.2 ∧ 0 ≤ (addPixel stamp hm pair.1 pair.2).buf.float pair.1

/-- The heatmap after a run of calls. -/
structure Heated (w h : ℕ) (stamp : StampT Number) (hm : HeatmapT Number) : Prop where
  nonneg : ∀ px py, 0 ≤ hm.heat px py
  bounded : ∀ px py, (hm.heat px py).val ≤ 2 ^ 24
  greatest : 0 < w → 0 < h → IsGreatest {heat | ∃ px < w, ∃ py < h, hm.heat px py = heat} hm.max
  asserted : ∀ (p : Point) (before : List (ℕ × ℕ)) (pair : ℕ × ℕ) (after : List (ℕ × ℕ)),
    touched hm.w hm.h p.x p.y stamp = before ++ pair :: after →
      Asserted stamp (addPixels stamp hm before) pair

theorem cell_bounds (hf : Fits w h r) (distshape : Number → Number) (calls : List Point) (i : ℕ) :
    0 ≤ (drawCalls (heatmapStampGenNonlinear r distshape) calls (heatmapNew Number w h)).buf.float i ∧
      ((drawCalls (heatmapStampGenNonlinear r distshape) calls (heatmapNew Number w h)).buf.float i).val ≤ 2 ^ 24 := by
  rw [drawCalls_float]
  refine scatter_induction (P := fun cell : Number => 0 ≤ cell ∧ cell.val ≤ 2 ^ 24) ?_ ?_ i
  · rintro item hitem cell ⟨hnonneg, hbounded⟩
    obtain ⟨hlow, hhigh⟩ := drawn_bounds hf hitem
    exact ⟨Number.sum_nonneg hnonneg hlow, Number.add_le_two_pow hbounded hhigh⟩
  · intro j
    have hzero : (0 : ℚ) ≤ 2 ^ 24 := by norm_num
    exact ⟨le_rfl, hzero⟩

theorem max_greatest (hf : Fits w h r) (distshape : Number → Number) (calls : List Point) (hw : 0 < w) (hh : 0 < h) :
    IsGreatest ((drawCalls (heatmapStampGenNonlinear r distshape) calls (heatmapNew Number w h)).buf.float ''
      {i | i < w * h}) (drawCalls (heatmapStampGenNonlinear r distshape) calls (heatmapNew Number w h)).max := by
  have hzero : IsGreatest ((fun _ : ℕ => (0 : Number)) '' {i | i < w * h}) 0 := by
    constructor
    · exact ⟨0, Nat.mul_pos hw hh, rfl⟩
    · rintro _ ⟨i, -, rfl⟩
      exact le_rfl
  have hpositions : ∀ item ∈ drawn w h (heatmapStampGenNonlinear r distshape) calls, item.1 ∈ {i | i < w * h} :=
    fun item hitem => drawn_position hf hitem
  have hgreatest := isGreatest_scatterMax (f := (· + ·)) hpositions
    (fun item hitem cell => Number.le_add (drawn_bounds hf hitem).1) hzero
  have hpair : ((drawCalls (heatmapStampGenNonlinear r distshape) calls (heatmapNew Number w h)).buf.float,
      (drawCalls (heatmapStampGenNonlinear r distshape) calls (heatmapNew Number w h)).max) =
        scatterMax (· + ·) (drawn w h (heatmapStampGenNonlinear r distshape) calls) (fun _ => 0, 0) :=
    drawCalls_max (heatmapStampGenNonlinear r distshape) calls (heatmapNew Number w h)
  rw [← hpair] at hgreatest
  exact hgreatest

/-- **The heat and its maximum.** -/
theorem heat_heated (hf : Fits w h r) (distshape : Number → Number) (calls : List Point) :
    Heated w h (heatmapStampGenNonlinear r distshape)
      (drawCalls (heatmapStampGenNonlinear r distshape) calls (heatmapNew Number w h)) := by
  obtain ⟨hw, hh⟩ := drawCalls_size (heatmapStampGenNonlinear r distshape) calls (heatmapNew Number w h)
  have hw : (drawCalls (heatmapStampGenNonlinear r distshape) calls (heatmapNew Number w h)).w = w := hw
  have hh : (drawCalls (heatmapStampGenNonlinear r distshape) calls (heatmapNew Number w h)).h = h := hh
  constructor
  · exact fun px py => (cell_bounds hf distshape calls _).1
  · exact fun px py => (cell_bounds hf distshape calls _).2
  · intro hwpos hhpos
    have hcells := max_greatest hf distshape calls hwpos hhpos
    convert hcells using 1
    ext heat
    simp only [Set.mem_ofPred_eq, Set.mem_image, pixel_iff, HeatmapT.heat, hw]
    constructor
    · rintro ⟨px, hpx, py, hpy, hheat⟩
      exact ⟨_, ⟨px, hpx, py, hpy, rfl⟩, hheat⟩
    · rintro ⟨_, ⟨px, hpx, py, hpy, rfl⟩, hheat⟩
      exact ⟨px, hpx, py, hpy, hheat⟩
  · intro p before pair after htouched
    rw [hw, hh] at htouched
    have hmem : ∀ other ∈ before ++ pair :: after,
        0 ≤ (heatmapStampGenNonlinear r distshape).buf.float other.2 := by
      intro other hother
      rw [← htouched] at hother
      exact (touched_bounds hf hother).1
    have hpair := hmem pair (List.mem_append_right _ List.mem_cons_self)
    refine ⟨hpair, ?_⟩
    rw [addPixel, Buffer.write]
    dsimp only
    rw [update_self, addPixels_float]
    refine Number.sum_nonneg (scatter_induction (P := fun cell : Number => 0 ≤ cell) ?_ ?_ _) hpair
    · intro item hitem cell hcell
      obtain ⟨other, hother, rfl⟩ := List.mem_map.mp hitem
      exact Number.sum_nonneg hcell (hmem other (List.mem_append_left _ hother))
    · exact fun i => (cell_bounds hf distshape calls i).1

theorem heat_heated_three : Heated 3 4096 (heatmapStampGenNonlinear 5 linearDist)
    (drawCalls (heatmapStampGenNonlinear 5 linearDist) threePoints (heatmapNew Number 3 4096)) :=
  heat_heated ⟨by decide, by decide, by decide, by decide⟩ linearDist _

/-! ## The discs -/

/-- A point of the heatmap in whose disc the pixel is. -/
def Lights (w h r : ℕ) (p : Point) (px py : ℕ) : Prop := p.x < w ∧ p.y < h ∧ squareDist p px py < (r + 1) ^ 2

theorem near_of_squareDist {p : Point} {px py : ℕ} (h : squareDist p px py < (r + 1) ^ 2) : Near r p px py := by
  have hx : Nat.dist p.x px ^ 2 < (r + 1) ^ 2 := lt_of_le_of_lt (Nat.le_add_right _ _) h
  have hy : Nat.dist p.y py ^ 2 < (r + 1) ^ 2 := lt_of_le_of_lt (Nat.le_add_left _ _) h
  exact ⟨Nat.le_of_lt_succ (lt_of_pow_lt_pow_left₀ 2 (Nat.zero_le _) hx),
    Nat.le_of_lt_succ (lt_of_pow_lt_pow_left₀ 2 (Nat.zero_le _) hy)⟩

/-- **The lit pixels of an image.** -/
theorem image_lit (job : Job) (nonces : List ℕ) (s : Selection) (hm : HeatmapT Number)
    (hsize : nonces.length < 2 ^ 32) (hselect : select job nonces.length = .ok s) (hradius : job.radius < 2 ^ 12)
    (hheight : job.height < 2 ^ 30)
    (hdrawn : noncesHeatmap (stampShade linearDist) job.rows (s.slice nonces) s.x job.height job.radius = some hm) :
    ∃ calls, job.rows.calls s.x (s.slice nonces) 0 = some calls ∧
      ∀ px < s.width, ∀ py < job.height,
        0 < hm.heat px py ↔ ∃ p ∈ calls, Lights s.width job.height job.radius p px py := by
  have hfits := select_fits hsize hselect (by omega) hheight
  rw [noncesHeatmap_eq, slice_width hsize hselect rfl] at hdrawn
  obtain ⟨calls, hcalls, rfl⟩ := Option.map_eq_some_iff.mp hdrawn
  refine ⟨calls, hcalls, fun px hpx py hpy => ?_⟩
  rw [drawCalls_heat hfits _ calls hpx hpy, Number.foldl_pos_iff ?_ le_rfl, or_iff_right (lt_irrefl _)]
  · constructor
    · rintro ⟨v, hv, hpos⟩
      obtain ⟨p, hp, rfl⟩ := List.mem_map.mp hv
      obtain ⟨hmem, hreaches⟩ := List.mem_filter.mp hp
      obtain ⟨hx, hy, -⟩ := of_decide_eq_true hreaches
      refine ⟨p, hmem, hx, hy, ?_⟩
      by_contra hout
      rw [stampShade_outside hradius (not_lt.mp hout)] at hpos
      exact lt_irrefl _ hpos
    · rintro ⟨p, hmem, hx, hy, hdist⟩
      have hreaches : Reaches s.width job.height job.radius p px py := ⟨hx, hy, near_of_squareDist hdist⟩
      exact ⟨_, List.mem_map.mpr ⟨p, List.mem_filter.mpr ⟨hmem, decide_eq_true hreaches⟩, rfl⟩,
        stampShade_inside hradius hdist⟩
  · intro v hv
    obtain ⟨p, -, rfl⟩ := List.mem_map.mp hv
    exact (stampShade_bounds linearDist _ _).1

theorem image_lit_three : ∃ calls, (Job.default none).rows.calls 1 [7, 2 ^ 31, 2 ^ 32 - 1] 0 = some calls ∧
    ∀ px < 3, ∀ py < 4096, 0 < (drawCalls (heatmapStampGenLinear 5) threePoints (heatmapNew Number 3 4096)).heat px py ↔
      ∃ p ∈ calls, Lights 3 4096 5 p px py :=
  image_lit (Job.default none) [7, 2 ^ 31, 2 ^ 32 - 1] ⟨0, 3, 3, 1, 3⟩ _ (by decide) (by decide +kernel) (by decide)
    (by decide) (three_drawn _)

end NoncesHeatmap
