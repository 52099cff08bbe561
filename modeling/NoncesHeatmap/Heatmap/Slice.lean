import NoncesHeatmap.Heatmap.Render

/-! # The slice of the nonces

`start` and `end` select nonces as a Python slice does. Only the least `int32_t`, whose `std::abs` is
itself, is always taken for the first nonce: a slice that starts or ends `2^31` nonces before the end
of a longer list is missed. -/

namespace NoncesHeatmap
set_option autoImplicit false

/-- A bound of the slice `nonces[start:end]`, where 0 stands for a bound that is not given. -/
def sliceIndex (size notGiven : ℕ) (pos : ℤ) : ℕ :=
  if pos = 0 then notGiven else if 0 < pos then min pos.toNat size else (size + pos).toNat

/-- The case of an iterator that is not taken before the end. -/
theorem getIterator_nonneg (START : Bool) (size : ℕ) {pos : ℤ} (hpos : 0 ≤ pos) (hlt : pos < 2 ^ 31) :
    getIterator START size pos = sliceIndex size (if START then 0 else size) pos := by
  rcases hpos.lt_or_eq with hpos | rfl
  · have hsize : sizeT pos = pos.toNat := by
      rw [sizeT, Int.emod_eq_of_lt hpos.le (by omega)]
    rw [getIterator, if_pos hpos, hsize, sliceIndex, if_neg hpos.ne', if_pos hpos]
    split
    · next hless => exact (min_eq_left hless.le).symm
    · next hge => exact (min_eq_right (not_lt.mp hge)).symm
  · rfl

theorem getIterator_neg (START : Bool) (size notGiven : ℕ) {pos : ℤ} (hneg : pos < 0) (hlt : -2 ^ 31 < pos) :
    getIterator START size pos = sliceIndex size notGiven pos := by
  have habs : abs32 pos = -pos := by rw [abs32, if_neg hlt.ne', abs_of_neg hneg]
  have hsize : sizeT (abs32 pos) = (-pos).toNat := by
    rw [habs, sizeT, Int.emod_eq_of_lt (by omega) (by omega)]
  rw [getIterator, if_neg hneg.not_gt, if_pos hneg]
  dsimp only
  rw [hsize, habs, sliceIndex, if_neg hneg.ne, if_neg hneg.not_gt]
  split <;> omega

/-- The least `int32_t` is taken for the first nonce. -/
theorem getIterator_least (START : Bool) {size : ℕ} (hsize : size < 2 ^ 32) : getIterator START size (-2 ^ 31) = 0 := by
  have hlarge : sizeT (abs32 (-2 ^ 31)) = 2 ^ 64 - 2 ^ 31 := by decide
  rw [getIterator, if_neg (by norm_num), if_pos (by norm_num)]
  dsimp only
  rw [hlarge, if_neg (by omega)]

theorem sliceIndex_least (size notGiven : ℕ) : sliceIndex size notGiven (-2 ^ 31) = size - 2 ^ 31 := by
  rw [sliceIndex, if_neg (by norm_num), if_neg (by norm_num)]
  omega

theorem getIterator_eq (START : Bool) {size : ℕ} {pos : ℤ} (hsize : size < 2 ^ 32)
    (hbounds : -2 ^ 31 ≤ pos ∧ pos < 2 ^ 31) (hfar : size ≤ 2 ^ 31 ∨ pos ≠ -2 ^ 31) :
    getIterator START size pos = sliceIndex size (if START then 0 else size) pos := by
  rcases lt_or_ge pos 0 with hneg | hpos
  · rcases hbounds.1.lt_or_eq with hlt | rfl
    · exact getIterator_neg START size _ hneg hlt
    · rw [getIterator_least START hsize, sliceIndex_least]
      rcases hfar with hfar | hfar
      · omega
      · exact absurd rfl hfar
  · exact getIterator_nonneg START size hpos hbounds.2

/-! ## What is drawn -/

def sliceFirst (job : Job) (size : ℕ) : ℕ := sliceIndex size 0 job.start

def slicePast (job : Job) (size : ℕ) : ℕ := sliceIndex size size job.«end»

variable {F : Type} [Add F] [LT F] [DecidableLT F] [Zero F]

/-- `render()` draws and publishes the slice `nonces[start:end]`, or throws before it writes a file. -/
structure RendersSlice (shade : ℕ → ℕ → F) (expand : Option String → List (String × String) → Option String)
    (writepng : Option String → Option String) (job : Job) (nonces : List ℕ) (b e : ℕ) : Prop where
  selected : ∀ first past, sliceBounds job nonces.length = .ok (first, past) ↔ b < e ∧ first = b ∧ past = e
  drawn : ∀ s, select job nonces.length = .ok s → render shade expand writepng job nonces =
    (noncesHeatmap shade job.rows ((nonces.drop b).take (e - b)) s.x job.height job.radius).map
      (finish writepng job (genName expand job s))
  named : ∀ s, select job nonces.length = .ok s → (genName expand job s).start = b ∧
    (genName expand job s).«end» = e - 1 ∧ (genName expand job s).count = e - b ∧ e - b = e - 1 - b + 1
  saved : ∀ s, select job nonces.length = .ok s → ∀ key value,
    (key, value) ∈ [("start", b), ("end", e - 1), ("count", e - b)] →
      (info job (genName expand job s)).findMember key = some (.int value)
  thrown : e ≤ b → ∃ what, render shade expand writepng job nonces = some ⟨some what, []⟩

variable {shade : ℕ → ℕ → F} {expand : Option String → List (String × String) → Option String}
  {writepng : Option String → Option String} {job : Job} {nonces : List ℕ} {b e : ℕ}

theorem render_error {what : String} (h : sliceBounds job nonces.length = .error what) :
    render shade expand writepng job nonces = some ⟨some what, []⟩ := by
  have hselect : select job nonces.length = .error what := by
    rw [select, h]
    rfl
  rw [render, hselect]

theorem render_ok {s : Selection} (h : select job nonces.length = .ok s) :
    render shade expand writepng job nonces =
      (noncesHeatmap shade job.rows (s.slice nonces) s.x job.height job.radius).map
        (finish writepng job (genName expand job s)) := by
  rw [render, h]

/-- The bounds of an empty slice are refused. -/
theorem render_thrown (shade : ℕ → ℕ → F) (expand : Option String → List (String × String) → Option String)
    (writepng : Option String → Option String) (hne : nonces ≠ []) (hheight : 1 ≤ job.height)
    (hempty : getIterator false nonces.length job.«end» ≤ getIterator true nonces.length job.start) :
    ∃ what, sliceBounds job nonces.length = .error what ∧
      render shade expand writepng job nonces = some ⟨some what, []⟩ := by
  have hsize : 0 < nonces.length := List.length_pos_iff.mpr hne
  obtain ⟨what, hwhat⟩ : ∃ what, sliceBounds job nonces.length = .error what := by
    rw [sliceBounds_eq hsize hheight, if_neg hempty.not_gt]
    split
    · exact ⟨_, rfl⟩
    · exact ⟨_, rfl⟩
  exact ⟨what, hwhat, render_error hwhat⟩

/-- A slice whose bounds are found, or that is empty and found to be empty. -/
theorem rendersSlice (hne : nonces ≠ []) (hlen : nonces.length < 2 ^ 32) (hheight : 1 ≤ job.height)
    (hless : b < e ↔ getIterator true nonces.length job.start < getIterator false nonces.length job.«end»)
    (hfound : b < e → getIterator true nonces.length job.start = b ∧ getIterator false nonces.length job.«end» = e) :
    RendersSlice shade expand writepng job nonces b e := by
  have hsize : 0 < nonces.length := List.length_pos_iff.mpr hne
  have hselected : ∀ s, select job nonces.length = .ok s → b < e ∧ s.first = b ∧ s.past = e ∧ e < 2 ^ 32 ∧
      s.count = e - b := by
    intro s hs
    obtain ⟨hbounds, hscaled, -⟩ := select_ok hs
    obtain ⟨-, hfirst, hpast, hlt, hle⟩ := sliceBounds_ok hbounds
    rw [hfirst, hpast] at hlt
    obtain ⟨hb, he⟩ := hfound (hless.mpr hlt)
    have he32 : e < 2 ^ 32 := by omega
    refine ⟨hless.mpr hlt, hfirst.trans hb, hpast.trans he, he32, ?_⟩
    rw [hscaled, hfirst, hpast, hb, he]
    exact u32_of_lt (by omega)
  have hnamed : ∀ s, select job nonces.length = .ok s → (genName expand job s).start = b ∧
      (genName expand job s).«end» = e - 1 ∧ (genName expand job s).count = e - b ∧ e - b = e - 1 - b + 1 := by
    intro s hs
    obtain ⟨hlt, hfirst, hpast, he32, hcount⟩ := hselected s hs
    refine ⟨?_, ?_, hcount, by omega⟩
    · show u32 s.first = b
      rw [hfirst, u32_of_lt (by omega)]
    · show u32 (s.past - 1) = e - 1
      rw [hpast, u32_of_lt (by omega)]
  refine ⟨?_, ?_, hnamed, ?_, ?_⟩
  · intro first past
    rw [sliceBounds_eq hsize hheight]
    by_cases hlt : b < e
    · obtain ⟨hb, he⟩ := hfound hlt
      rw [if_pos (hless.mp hlt), hb, he]
      constructor
      · intro h
        obtain ⟨rfl, rfl⟩ : b = first ∧ e = past := by simpa using h
        exact ⟨hlt, rfl, rfl⟩
      · rintro ⟨-, rfl, rfl⟩
        rfl
    · rw [if_neg (fun h => hlt (hless.mpr h))]
      refine iff_of_false ?_ fun h => hlt h.1
      split <;> simp
  · intro s hs
    obtain ⟨-, hfirst, hpast, -, -⟩ := hselected s hs
    rw [render_ok hs, Selection.slice, hfirst, hpast]
  · intro s hs key value hkey
    obtain ⟨hstart, hend, hcount, -⟩ := hnamed s hs
    simp only [List.mem_cons, Prod.mk.injEq, List.not_mem_nil, or_false] at hkey
    obtain ⟨rfl, rfl⟩ | ⟨rfl, rfl⟩ | ⟨rfl, rfl⟩ := hkey
    · rw [← hstart]
      rfl
    · rw [← hend]
      rfl
    · rw [← hcount]
      rfl
  · intro hge
    have hempty := not_lt.mp (fun h => hge.not_gt (hless.mpr h))
    obtain ⟨what, -, hrender⟩ := render_thrown shade expand writepng hne hheight hempty
    exact ⟨what, hrender⟩

/-- An end `2^31` before the end of the list is taken for the first nonce, and nothing passes. -/
theorem end_missed (hlen : nonces.length < 2 ^ 32) (hend : job.«end» = -2 ^ 31)
    (hcut : sliceFirst job nonces.length < nonces.length - 2 ^ 31) :
    ¬ RendersSlice shade expand writepng job nonces (sliceFirst job nonces.length) (slicePast job nonces.length) := by
  intro h
  have hpast : slicePast job nonces.length = nonces.length - 2 ^ 31 := by
    rw [slicePast, hend, sliceIndex_least]
  have hbounds := (h.selected (sliceFirst job nonces.length) (slicePast job nonces.length)).mpr
    ⟨by rwa [hpast], rfl, rfl⟩
  obtain ⟨-, -, hcode, hlt, -⟩ := sliceBounds_ok hbounds
  rw [hend, getIterator_least _ hlen] at hcode
  omega

/-- A start `2^31` before the end of the list is taken for the first nonce, and too much passes. -/
theorem start_missed (hlen : nonces.length < 2 ^ 32) (hlong : 2 ^ 31 < nonces.length) (hheight : 1 ≤ job.height)
    (hstart : job.start = -2 ^ 31) (hend : job.«end» ≠ -2 ^ 31) :
    ¬ RendersSlice shade expand writepng job nonces (sliceFirst job nonces.length) (slicePast job nonces.length) := by
  intro h
  have hbounds_end := job.end_bounds
  have hcode : getIterator true nonces.length job.start = 0 := by
    rw [hstart, getIterator_least _ hlen]
  have hcode' : getIterator false nonces.length job.«end» = slicePast job nonces.length :=
    getIterator_eq false hlen hbounds_end (Or.inr hend)
  have hfirst : sliceFirst job nonces.length = nonces.length - 2 ^ 31 := by
    rw [sliceFirst, hstart, sliceIndex_least]
  have hpast : 0 < slicePast job nonces.length := by
    rw [slicePast, sliceIndex]
    split_ifs <;> omega
  have hbounds : sliceBounds job nonces.length = .ok (0, slicePast job nonces.length) := by
    rw [sliceBounds_eq (by omega) hheight, hcode, hcode', if_pos hpast]
  obtain ⟨-, hzero, -⟩ := (h.selected _ _).mp hbounds
  omega

/-- **The slice of the nonces.** -/
theorem render_slice_iff (shade : ℕ → ℕ → F) (expand : Option String → List (String × String) → Option String)
    (writepng : Option String → Option String) (job : Job) (nonces : List ℕ) (hne : nonces ≠ [])
    (hlen : nonces.length < 2 ^ 32) (hheight : 1 ≤ job.height) :
    RendersSlice shade expand writepng job nonces (sliceFirst job nonces.length) (slicePast job nonces.length) ↔
      nonces.length ≤ 2 ^ 31 ∨ (job.start ≠ -2 ^ 31 ∧ job.«end» ≠ -2 ^ 31) ∨
        (job.«end» = -2 ^ 31 ∧ nonces.length - 2 ^ 31 ≤ sliceFirst job nonces.length) := by
  have hb : (nonces.length ≤ 2 ^ 31 ∨ job.start ≠ -2 ^ 31) →
      getIterator true nonces.length job.start = sliceFirst job nonces.length :=
    fun hfar => getIterator_eq true hlen job.start_bounds hfar
  have he : (nonces.length ≤ 2 ^ 31 ∨ job.«end» ≠ -2 ^ 31) →
      getIterator false nonces.length job.«end» = slicePast job nonces.length :=
    fun hfar => getIterator_eq false hlen job.end_bounds hfar
  constructor
  · intro h
    by_contra hcon
    push Not at hcon
    obtain ⟨hlong, hleast, hcut⟩ := hcon
    by_cases hend : job.«end» = -2 ^ 31
    · exact end_missed hlen hend (hcut hend) h
    · have hstart : job.start = -2 ^ 31 := by
        by_contra hstart
        exact hend (hleast hstart)
      exact start_missed hlen hlong hheight hstart hend h
  · intro h
    by_cases hfar : nonces.length ≤ 2 ^ 31 ∨ (job.start ≠ -2 ^ 31 ∧ job.«end» ≠ -2 ^ 31)
    · rw [← hb (hfar.imp_right And.left), ← he (hfar.imp_right And.right)]
      exact rendersSlice hne hlen hheight Iff.rfl fun _ => ⟨rfl, rfl⟩
    · -- both slices are empty
      obtain ⟨hend, hcut⟩ := (h.resolve_left fun hshort => hfar (Or.inl hshort)).resolve_left
        fun hboth => hfar (Or.inr hboth)
      have hpast : slicePast job nonces.length = nonces.length - 2 ^ 31 := by
        rw [slicePast, hend, sliceIndex_least]
      have hcode : getIterator false nonces.length job.«end» = 0 := by
        rw [hend, getIterator_least _ hlen]
      refine rendersSlice hne hlen hheight ?_ fun hlt => ?_
      · rw [hcode]
        omega
      · omega

/-- The settings of a job that takes the last nonces. -/
def Job.last (start : ℤ) (h : -2 ^ 31 ≤ start ∧ start < 2 ^ 31) : Job :=
  { Job.default (some "heatmap.png") with start := start, start_bounds := h }

theorem render_slice_iff_three :
    RendersSlice (fun _ _ => (1 : ℕ)) (fun name _ => name) (fun _ => none) (Job.last (-2) (by decide)) [7, 8, 9]
      1 3 :=
  (render_slice_iff (fun _ _ => 1) (fun name _ => name) (fun _ => none) (Job.last (-2) (by decide)) [7, 8, 9]
    (by decide) (by decide) (by decide)).mpr (Or.inl (by decide))

/-- The last `2^31` of `2^31 + 1` nonces are asked for, and all are selected. -/
theorem slice_start_wraps :
    ¬ RendersSlice (fun _ _ => (1 : ℕ)) (fun name _ => name) (fun _ => none) (Job.last (-2 ^ 31) (by decide))
      (List.replicate (2 ^ 31 + 1) 0)
      (sliceFirst (Job.last (-2 ^ 31) (by decide)) (List.replicate (2 ^ 31 + 1) 0).length)
      (slicePast (Job.last (-2 ^ 31) (by decide)) (List.replicate (2 ^ 31 + 1) 0).length) := by
  have hlength : (List.replicate (2 ^ 31 + 1) 0).length = 2 ^ 31 + 1 := List.length_replicate
  generalize List.replicate (2 ^ 31 + 1) 0 = nonces at hlength ⊢
  exact start_missed (by rw [hlength]; norm_num) (by rw [hlength]; norm_num) (by decide) rfl (by decide)

end NoncesHeatmap
