import NoncesHeatmap.Heatmap.Width

/-! # The buffers of an image

`render()` checks the size of the image in 64 bits and the buffers are sized in 32 bits. The check wraps
only for heights from `2^30` on, and it does not look at the stamp, whose size wraps for a radius from
`2^15` on. -/

namespace NoncesHeatmap
set_option autoImplicit false

variable {F : Type}

/-! ## The stamp -/

theorem foldl_buffer_size {α : Type} {step : Buffer F → α → Buffer F} (hstep : ∀ b a, (step b a).size = b.size)
    (items : List α) (b : Buffer F) : (items.foldl step b).size = b.size := by
  induction items generalizing b with
  | nil => rfl
  | cons a items ih => exact (ih (step b a)).trans (hstep b a)

variable [Zero F]

theorem heatmapStampGen_size (shade : ℕ → ℕ → F) (r : ℕ) :
    (heatmapStampGen shade r).w = u32 (2 * r + 1) ∧
      (heatmapStampGen shade r).buf.size = u32 (u32 (2 * r + 1) * u32 (2 * r + 1)) := by
  refine ⟨rfl, ?_⟩
  unfold heatmapStampGen
  refine foldl_buffer_size (fun b y => ?_) _ _
  refine foldl_buffer_size (fun b x => ?_) _ b
  rfl

/-- The allocation of the stamp and the writes of its loop. -/
structure StampFits (shade : ℕ → ℕ → F) (r : ℕ) : Prop where
  side : (heatmapStampGen shade r).w = 2 * r + 1
  size : (heatmapStampGen shade r).buf.size = (2 * r + 1) * (2 * r + 1)
  writes : ∀ y < (heatmapStampGen shade r).w, ∀ x < (heatmapStampGen shade r).w,
    u32 (y * (heatmapStampGen shade r).w) + x < (heatmapStampGen shade r).buf.size

theorem index_lt {w h x y : ℕ} (hx : x < w) (hy : y < h) : y * w + x < w * h := by
  have hrow : (y + 1) * w ≤ h * w := Nat.mul_le_mul_right w hy
  rw [Nat.add_mul, Nat.one_mul] at hrow
  rw [Nat.mul_comm w h]
  omega

theorem stampFits_iff (shade : ℕ → ℕ → F) (r : ℕ) : StampFits shade r ↔ r ≤ 32767 := by
  obtain ⟨hw, hsize⟩ := heatmapStampGen_size shade r
  constructor
  · intro h
    by_contra hlarge
    have hwrap : (2 * r + 1) * (2 * r + 1) < 2 ^ 32 := by
      rw [← h.size, hsize]
      exact Nat.mod_lt _ (by norm_num)
    have : 65537 * 65537 ≤ (2 * r + 1) * (2 * r + 1) := Nat.mul_le_mul (by omega) (by omega)
    omega
  · intro h
    have hside : u32 (2 * r + 1) = 2 * r + 1 := u32_of_lt (by omega)
    have hsquare : (2 * r + 1) * (2 * r + 1) < 2 ^ 32 := by
      have : (2 * r + 1) * (2 * r + 1) ≤ 65535 * 65535 := Nat.mul_le_mul (by omega) (by omega)
      omega
    rw [hside] at hw hsize
    rw [u32_of_lt hsquare] at hsize
    refine ⟨hw, hsize, ?_⟩
    rw [hw, hsize]
    intro y hy x hx
    have hindex := index_lt hx hy
    rwa [u32_of_lt (by omega)]

/-! ## The image -/

/-- The vector of the image and the heatmap hold every pixel. -/
structure ImageFits (F : Type) [Zero F] (job : Job) (s : Selection) : Prop where
  image : u32 (s.width * job.height * 4) = s.width * job.height * 4
  heatmap : (heatmapNew F s.width job.height).buf.size = s.width * job.height
  pixels : ∀ x < s.width, ∀ y < job.height, y * s.width + x < (heatmapNew F s.width job.height).buf.size ∧
    4 * (y * s.width + x) + 3 < u32 (s.width * job.height * 4)

variable {job : Job} {size : ℕ} {s : Selection}

theorem imageFits_iff (hsize : size < 2 ^ 32) (hselect : select job size = .ok s) :
    ImageFits F job s ↔ job.height < 2 ^ 30 ∨ s.x = 1 ∧ 2 ^ 32 - 128 ≤ s.count := by
  obtain ⟨hcount, hcount32, -, -, hx, hwidth⟩ := select_width hsize hselect
  have hcheck := (select_ok hselect).2.2
  have hwidth32 : s.width < 2 ^ 32 := by
    rw [hwidth]
    exact (imageWidth_cases hcount hcount32 hx).1
  rw [← imageWidth_eq_zero_iff hcount hcount32 hx, ← hwidth]
  constructor
  · intro h
    by_contra hcon
    push Not at hcon
    obtain ⟨hheight, hpos⟩ := hcon
    have hless : s.width * job.height * 4 < 2 ^ 32 := by
      rw [← h.image]
      exact Nat.mod_lt _ (by norm_num)
    have : 1 * 2 ^ 30 ≤ s.width * job.height := Nat.mul_le_mul (Nat.pos_of_ne_zero hpos) hheight
    omega
  · intro h
    have hless : s.width * job.height * 4 < 2 ^ 32 := by
      have hnowrap : s.width * job.height * 4 < 2 ^ 64 := by
        obtain hheight | hzero := h
        · have : s.width * job.height ≤ (2 ^ 32 - 1) * (2 ^ 30 - 1) := Nat.mul_le_mul (by omega) (by omega)
          omega
        · rw [hzero]
          norm_num
      rw [Nat.mod_eq_of_lt hnowrap, MAX] at hcheck
      omega
    have hheatmap : (heatmapNew F s.width job.height).buf.size = s.width * job.height := u32_of_lt (by omega)
    refine ⟨u32_of_lt hless, hheatmap, fun x hx y hy => ?_⟩
    have hindex := index_lt hx hy
    rw [hheatmap, u32_of_lt hless]
    omega

/-- The second computation of the width, from the slice that is drawn. -/
theorem slice_width (hsize : size < 2 ^ 32) (hselect : select job size = .ok s) {nonces : List ℕ}
    (hlength : nonces.length = size) : imageWidth (s.slice nonces).length s.x = s.width := by
  obtain ⟨-, -, hcount, hpast, -, hwidth⟩ := select_width hsize hselect
  have hlength : (s.slice nonces).length = s.count := by
    rw [Selection.slice, List.length_take, List.length_drop, hlength]
    omega
  rw [hlength, hwidth]

/-- All buffers of `nonces_heatmap` for a selection of `nonces`. -/
structure BuffersFit (shade : ℕ → ℕ → F) (job : Job) (s : Selection) (nonces : List ℕ) : Prop where
  width : imageWidth (s.slice nonces).length s.x = s.width
  image : ImageFits F job s
  stamp : StampFits shade job.radius

/-- **The buffers of an image.** -/
theorem buffers_fit_iff (shade : ℕ → ℕ → F) (job : Job) (s : Selection) (nonces : List ℕ)
    (hsize : nonces.length < 2 ^ 32) (hselect : select job nonces.length = .ok s) :
    BuffersFit shade job s nonces ↔
      job.radius ≤ 32767 ∧ (job.height < 2 ^ 30 ∨ s.x = 1 ∧ 2 ^ 32 - 128 ≤ s.count) := by
  rw [← stampFits_iff shade, ← imageFits_iff (F := F) hsize hselect]
  constructor
  · intro h
    exact ⟨h.stamp, h.image⟩
  · rintro ⟨hstamp, himage⟩
    exact ⟨slice_width hsize hselect rfl, himage, hstamp⟩

theorem buffers_fit_iff_three : BuffersFit (fun _ _ => (1 : ℕ)) (Job.default none) ⟨0, 3, 3, 1, 3⟩ [7, 8, 9] :=
  (buffers_fit_iff (fun _ _ => 1) (Job.default none) ⟨0, 3, 3, 1, 3⟩ [7, 8, 9] (by decide) (by decide +kernel)).mpr
    ⟨by decide, Or.inl (by decide)⟩

/-- A stamp of 131073 floats for a square of 65537, and an empty image of 2^62 pixels. -/
theorem buffers_wrap :
    (select { Job.default none with radius := 32768, radius_lt := by decide } 3 = .ok ⟨0, 3, 3, 1, 3⟩ ∧
      (heatmapStampGen (fun _ _ => (1 : ℕ)) 32768).buf.size = 131073 ∧
      ¬ BuffersFit (fun _ _ => (1 : ℕ)) { Job.default none with radius := 32768, radius_lt := by decide }
        ⟨0, 3, 3, 1, 3⟩ [7, 8, 9]) ∧
      (select (Job.columns (2 ^ 31) (by decide)) (2 ^ 31) = .ok ⟨0, 2 ^ 31, 2 ^ 31, 1, 2 ^ 31⟩ ∧
        ¬ ImageFits ℕ (Job.columns (2 ^ 31) (by decide)) ⟨0, 2 ^ 31, 2 ^ 31, 1, 2 ^ 31⟩) := by
  refine ⟨⟨by decide +kernel, ?_, fun h => ?_⟩, by decide +kernel, fun h => ?_⟩
  · exact (heatmapStampGen_size _ _).2
  · exact absurd ((stampFits_iff _ _).mp h.stamp) (by decide)
  · exact absurd h.image (by decide +kernel)

end NoncesHeatmap
