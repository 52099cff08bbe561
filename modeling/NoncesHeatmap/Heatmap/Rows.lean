import NoncesHeatmap.Heatmap.Model

/-! # The rows of the nonces

`range / height` rounds down, so `height` rows of that many nonces leave `range % height` nonces over,
and the range itself has `range + 1` values: the lowest `range % height + 1` nonces of a window are
given the row `height`, which the heatmap does not have. -/

namespace NoncesHeatmap
set_option autoImplicit false

variable {rows : Rows} {x height bottom range nonce i : ℕ} {slice : List ℕ}

theorem div_div_lt_iff {offset : ℕ} (hpos : 0 < height) (hle : height ≤ range) (hoffset : offset ≤ range) :
    (range - offset) / (range / height) < height ↔ range % height < offset := by
  have hstep : 0 < range / height := Nat.div_pos hle hpos
  have hrange : height * (range / height) + range % height = range := Nat.div_add_mod range height
  rw [Nat.div_lt_iff_lt_mul hstep]
  omega

/-- Accepted nonces are those from `bottom` to `bottom + range`, and they are divided into steps of
`range / height` from the top. -/
structure Rows.Scales (rows : Rows) (height bottom range : ℕ) : Prop where
  pos : 0 < height
  le : height ≤ range
  fits : bottom + range < 2 ^ 32
  accepted : ∀ nonce, nonce < 2 ^ 32 → (rows.accepts nonce = true ↔ bottom ≤ nonce ∧ nonce ≤ bottom + range)
  row : ∀ nonce, bottom ≤ nonce → nonce ≤ bottom + range →
    rows.row nonce = some ((bottom + range - nonce) / (range / height))

theorem div?_of_pos {a b : ℕ} (hb : 0 < b) : div? a b = some (a / b) := if_neg hb.ne'

theorem defaultRows_scales (hpos : 1 ≤ height) (hheight : height ≤ MAX) : (defaultRows height).Scales height 0 MAX where
  pos := hpos
  le := hheight
  fits := by decide
  accepted := by
    intro nonce hnonce
    have hmax : nonce ≤ 0 + MAX := by
      rw [MAX]
      omega
    exact ⟨fun _ => ⟨Nat.zero_le nonce, hmax⟩, fun _ => rfl⟩
  row := by
    intro nonce _ hmax
    have hdiff : sub32 MAX nonce = 0 + MAX - nonce := by
      rw [Nat.zero_add] at hmax ⊢
      exact sub32_of_le hmax (by decide)
    show (div? MAX height).bind _ = _
    rw [div?_of_pos hpos, Option.bind_some, div?_of_pos (Nat.div_pos hheight hpos), hdiff]

theorem customRows_scales {min max : ℕ} (hle : min ≤ max) (hmax : max < 2 ^ 32) (hpos : 1 ≤ height)
    (hheight : height ≤ max - min) : (customRows height min max).Scales height min (max - min) where
  pos := hpos
  le := hheight
  fits := by omega
  accepted := by
    intro nonce _
    rw [Nat.add_sub_cancel' hle]
    exact decide_eq_true_iff
  row := by
    intro nonce _ hnonce
    rw [Nat.add_sub_cancel' hle] at hnonce ⊢
    show (div? (sub32 max min) height).bind _ = _
    rw [sub32_of_le hle hmax, sub32_of_le hnonce hmax, div?_of_pos hpos, Option.bind_some,
      div?_of_pos (Nat.div_pos hheight hpos)]

namespace Rows.Scales

/-- The row of an accepted nonce is in the heatmap exactly above the nonces that are left over. -/
theorem row_lt_iff (hs : rows.Scales height bottom range) (hmin : bottom ≤ nonce) (hmax : nonce ≤ bottom + range) :
    (bottom + range - nonce) / (range / height) < height ↔ range % height < nonce - bottom := by
  have hoffset : bottom + range - nonce = range - (nonce - bottom) := by omega
  rw [hoffset]
  exact div_div_lt_iff hs.pos hs.le (by omega)

theorem point_eq (hs : rows.Scales height bottom range) (hx : 0 < x) (hmin : bottom ≤ nonce)
    (hmax : nonce ≤ bottom + range) :
    rows.point x i nonce = some ⟨u32 (i / x), (bottom + range - nonce) / (range / height)⟩ := by
  have hfits := hs.fits
  have hrow : (bottom + range - nonce) / (range / height) < 2 ^ 32 :=
    lt_of_le_of_lt (Nat.div_le_self _ _) (by omega)
  rw [Rows.point, div?_of_pos hx, Option.bind_some, hs.row nonce hmin hmax, Option.map_some, u32_of_lt hrow]

theorem calls_rows (hs : rows.Scales height bottom range) (hx : 0 < x) (hslice : ∀ nonce ∈ slice, nonce < 2 ^ 32)
    (i : ℕ) :
    ∃ calls, rows.calls x slice i = some calls ∧
      calls.map Point.y = (slice.filter rows.accepts).map fun nonce =>
        (bottom + range - nonce) / (range / height) := by
  induction slice generalizing i with
  | nil => exact ⟨[], rfl, rfl⟩
  | cons nonce slice ih =>
    obtain ⟨calls, hcalls, hrows⟩ := ih (fun n hn => hslice n (List.mem_cons_of_mem _ hn)) (i + 1)
    have hnonce := hslice nonce List.mem_cons_self
    by_cases haccept : rows.accepts nonce = true
    · obtain ⟨hmin, hmax⟩ := (hs.accepted nonce hnonce).mp haccept
      refine ⟨⟨u32 (i / x), (bottom + range - nonce) / (range / height)⟩ :: calls, ?_, ?_⟩
      · rw [Rows.calls, if_pos haccept, hs.point_eq hx hmin hmax, Option.bind_some, hcalls, Option.map_some]
      · rw [List.filter_cons_of_pos haccept, List.map_cons, List.map_cons, hrows]
    · refine ⟨calls, ?_, ?_⟩
      · rw [Rows.calls, if_neg haccept, hcalls]
      · rw [List.filter_cons_of_neg haccept, hrows]

end Rows.Scales

/-! ## The calls that stamp -/

/-- The calls that do not return early for their row. -/
def stamped (height : ℕ) (calls : List Point) : List Point := calls.filter fun p => decide (p.y < height)

theorem drawCalls_stamped {F : Type} [Add F] [LT F] [DecidableLT F] (stamp : StampT F) (calls : List Point)
    (hm : HeatmapT F) : drawCalls stamp (stamped hm.h calls) hm = drawCalls stamp calls hm := by
  induction calls generalizing hm with
  | nil => rfl
  | cons p calls ih =>
    have hsize := (heatmapAddPointWithStamp_size hm p.x p.y stamp).2
    have hcons : drawCalls stamp (p :: calls) hm =
        drawCalls stamp calls (heatmapAddPointWithStamp hm p.x p.y stamp) := rfl
    by_cases hp : p.y < hm.h
    · have hkeep : stamped hm.h (p :: calls) = p :: stamped hm.h calls :=
        List.filter_cons_of_pos (decide_eq_true hp)
      rw [hkeep, hcons, ← ih, hsize]
      rfl
    · have hdrop : stamped hm.h (p :: calls) = stamped hm.h calls :=
        List.filter_cons_of_neg (by simpa using hp)
      rw [hdrop, hcons, heatmapAddPointWithStamp_outside _ _ _ _ (Or.inr (not_lt.mp hp))]
      exact ih hm

/-- Every accepted nonce of the slice has its row in the heatmap, and as many points are stamped, as far
as rows go, as nonces are accepted. -/
def RowsKept (rows : Rows) (x height : ℕ) (slice : List ℕ) : Prop :=
  ∃ calls, rows.calls x slice 0 = some calls ∧ (∀ p ∈ calls, p.y < height) ∧
    (stamped height calls).length = (slice.filter rows.accepts).length

theorem rowsKept_iff (hs : rows.Scales height bottom range) (hx : 0 < x) (hslice : ∀ nonce ∈ slice, nonce < 2 ^ 32) :
    RowsKept rows x height slice ↔
      ∀ nonce ∈ slice, rows.accepts nonce = true → range % height < nonce - bottom := by
  obtain ⟨calls, hcalls, hrows⟩ := hs.calls_rows hx hslice 0
  have hmem : (∀ p ∈ calls, p.y < height) ↔
      ∀ nonce ∈ slice, rows.accepts nonce = true → range % height < nonce - bottom := by
    have hall : (∀ y ∈ calls.map Point.y, y < height) ↔ ∀ p ∈ calls, p.y < height := List.forall_mem_map
    rw [← hall, hrows, List.forall_mem_map]
    constructor
    · intro h nonce hnonce haccept
      obtain ⟨hmin, hmax⟩ := (hs.accepted nonce (hslice nonce hnonce)).mp haccept
      exact (hs.row_lt_iff hmin hmax).mp (h nonce (List.mem_filter.mpr ⟨hnonce, haccept⟩))
    · intro h nonce hnonce
      obtain ⟨hnonce, haccept⟩ := List.mem_filter.mp hnonce
      obtain ⟨hmin, hmax⟩ := (hs.accepted nonce (hslice nonce hnonce)).mp haccept
      exact (hs.row_lt_iff hmin hmax).mpr (h nonce hnonce haccept)
  rw [← hmem]
  constructor
  · rintro ⟨calls', hcalls', hkept, -⟩
    have heq : calls' = calls := Option.some.inj (hcalls'.symm.trans hcalls)
    rw [← heq]
    exact hkept
  · intro hkept
    have hstamped : stamped height calls = calls :=
      List.filter_eq_self.mpr fun p hp => decide_eq_true (hkept p hp)
    have hlength : calls.length = (slice.filter rows.accepts).length := by
      simpa using congrArg List.length hrows
    exact ⟨calls, hcalls, hkept, hstamped.symm ▸ hlength⟩

/-- **The nonces that have a row.** -/
theorem rows_kept_iff (x height : ℕ) (slice : List ℕ) (hx : 0 < x) (hpos : 1 ≤ height) (hheight : height ≤ MAX)
    (hslice : ∀ nonce ∈ slice, nonce < 2 ^ 32) :
    (RowsKept (defaultRows height) x height slice ↔ ∀ nonce ∈ slice, MAX % height < nonce) ∧
      ∀ min max, min ≤ max → max < 2 ^ 32 → height ≤ max - min →
        (RowsKept (customRows height min max) x height slice ↔
          ∀ nonce ∈ slice, min ≤ nonce ∧ nonce ≤ max → (max - min) % height < nonce - min) := by
  constructor
  · rw [rowsKept_iff (defaultRows_scales hpos hheight) hx hslice]
    exact ⟨fun h nonce hnonce => h nonce hnonce rfl, fun h nonce hnonce _ => h nonce hnonce⟩
  · intro min max hle hmax hrange
    rw [rowsKept_iff (customRows_scales hle hmax hpos hrange) hx hslice]
    exact forall₂_congr fun nonce _ => imp_congr_left decide_eq_true_iff

/-- Nonces above what is left over, in the default window and in a custom one. -/
theorem rows_kept_iff_4096 :
    RowsKept (defaultRows 4096) 1 4096 [4096, 8292, 2 ^ 32 - 1] ∧
      RowsKept (customRows 4096 100 8292) 1 4096 [4096, 8292, 2 ^ 32 - 1] := by
  obtain ⟨hdefault, hcustom⟩ := rows_kept_iff 1 4096 [4096, 8292, 2 ^ 32 - 1] (by decide) (by decide) (by decide)
    (by decide)
  exact ⟨hdefault.mpr (by decide), (hcustom 100 8292 (by decide) (by decide) (by decide)).mpr (by decide)⟩

/-- The lowest nonce of a window is given the row 4096 of 4096 and the heatmap stays empty. -/
theorem lowest_nonce_lost :
    (defaultRows 4096).row 0 = some 4096 ∧ ¬ RowsKept (defaultRows 4096) 1 4096 [0] ∧
      noncesHeatmap (fun _ _ => 1) (defaultRows 4096) [0] 1 4096 5 = some (heatmapNew ℕ 1 4096) ∧
      ¬ RowsKept (customRows 4096 100 8292) 1 4096 [100] := by
  have hdefault : (defaultRows 4096).calls 1 [0] 0 = some [⟨0, 4096⟩] := by decide
  have hcustom : (customRows 4096 100 8292).calls 1 [100] 0 = some [⟨0, 4096⟩] := by decide
  refine ⟨by decide, ?_, ?_, ?_⟩
  · rintro ⟨calls, hcalls, hkept, -⟩
    obtain rfl : [⟨0, 4096⟩] = calls := Option.some.inj (hdefault.symm.trans hcalls)
    exact absurd (hkept _ List.mem_cons_self) (by decide)
  · have hwidth : imageWidth [0].length 1 = 1 := by decide +kernel
    have hnone : stamped (heatmapNew ℕ 1 4096).h [⟨0, 4096⟩] = [] := by decide
    rw [noncesHeatmap_eq, hdefault, hwidth, Option.map_some, ← drawCalls_stamped, hnone]
    rfl
  · rintro ⟨calls, hcalls, hkept, -⟩
    obtain rfl : [⟨0, 4096⟩] = calls := Option.some.inj (hcustom.symm.trans hcalls)
    exact absurd (hkept _ List.mem_cons_self) (by decide)

end NoncesHeatmap
