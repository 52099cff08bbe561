import NoncesHeatmap.Heatmap.Rows

/-! # The two instances of `nonces_heatmap`

With the widest window the instance that filters takes every nonce and divides by the same step, so both
make the same calls. In either of them a higher nonce is never drawn in a higher row number. -/

namespace NoncesHeatmap
set_option autoImplicit false

variable {rows other : Rows} {x height min max a b : ℕ} {slice : List ℕ}

/-! ## The same calls -/

/-- Instances that agree on the nonces of a slice make the same calls. -/
theorem calls_congr (haccepts : ∀ nonce ∈ slice, rows.accepts nonce = other.accepts nonce)
    (hrow : ∀ nonce ∈ slice, rows.row nonce = other.row nonce) (i : ℕ) :
    rows.calls x slice i = other.calls x slice i := by
  induction slice generalizing i with
  | nil => rfl
  | cons nonce slice ih =>
    have hrest := ih (fun n hn => haccepts n (List.mem_cons_of_mem _ hn))
      (fun n hn => hrow n (List.mem_cons_of_mem _ hn)) (i + 1)
    have hpoint : rows.point x i nonce = other.point x i nonce := by
      rw [Rows.point, Rows.point, hrow nonce List.mem_cons_self]
    rw [Rows.calls, Rows.calls, haccepts nonce List.mem_cons_self, hpoint, hrest]

theorem customRows_full_accepts {nonce : ℕ} (hnonce : nonce < 2 ^ 32) :
    (customRows height 0 MAX).accepts nonce = (defaultRows height).accepts nonce := by
  show decide (0 ≤ nonce ∧ nonce ≤ MAX) = true
  rw [decide_eq_true_iff, MAX]
  omega

/-- The range is widened after the subtraction, which leaves it what it is. -/
theorem customRows_full_row (nonce : ℕ) : (customRows height 0 MAX).row nonce = (defaultRows height).row nonce := by
  show (div? (sub32 MAX 0) height).bind _ = (div? MAX height).bind _
  rw [sub32_of_le (Nat.zero_le MAX) (by decide), Nat.sub_zero]

theorem calls_full (hslice : ∀ nonce ∈ slice, nonce < 2 ^ 32) (i : ℕ) :
    (customRows height 0 MAX).calls x slice i = (defaultRows height).calls x slice i :=
  calls_congr (fun nonce hnonce => customRows_full_accepts (hslice nonce hnonce))
    (fun nonce _ => customRows_full_row nonce) i

/-! ## The order of the rows -/

/-- Both nonces have a row, and the one of `b` is not above that of `a`, also as an `unsigned`. -/
def Rows.Ordered (rows : Rows) (a b : ℕ) : Prop :=
  ∃ rowA rowB, rows.row a = some rowA ∧ rows.row b = some rowB ∧ rowB ≤ rowA ∧ u32 rowB ≤ u32 rowA

/-- A row that is counted in steps of `range / height` down from `top`. -/
def Rows.CountsFrom (rows : Rows) (top range height : ℕ) : Prop :=
  ∀ nonce, rows.row nonce = (div? range height).bind fun step => div? (sub32 top nonce) step

theorem Rows.CountsFrom.row_eq {top range nonce : ℕ} (hrows : rows.CountsFrom top range height) (htop : top < 2 ^ 32)
    (hdivisor : range / height ≠ 0) (hnonce : nonce ≤ top) :
    rows.row nonce = some ((top - nonce) / (range / height)) := by
  have hheight : 0 < height := by
    rw [Nat.pos_iff_ne_zero]
    rintro rfl
    exact hdivisor (Nat.div_zero range)
  rw [hrows nonce, div?_of_pos hheight, Option.bind_some, sub32_of_le hnonce htop,
    div?_of_pos (Nat.pos_of_ne_zero hdivisor)]

theorem Rows.CountsFrom.ordered {top range : ℕ} (hrows : rows.CountsFrom top range height) (htop : top < 2 ^ 32)
    (hdivisor : range / height ≠ 0) (hle : a ≤ b) (hb : b ≤ top) : rows.Ordered a b := by
  have hrow : (top - b) / (range / height) ≤ (top - a) / (range / height) :=
    Nat.div_le_div_right (Nat.sub_le_sub_left hle top)
  have hsmall : ∀ nonce, (top - nonce) / (range / height) < 2 ^ 32 := fun nonce =>
    lt_of_le_of_lt (Nat.div_le_self _ _) (lt_of_le_of_lt (Nat.sub_le top nonce) htop)
  refine ⟨_, _, hrows.row_eq htop hdivisor (hle.trans hb), hrows.row_eq htop hdivisor hb, hrow, ?_⟩
  rw [u32_of_lt (hsmall b), u32_of_lt (hsmall a)]
  exact hrow

theorem defaultRows_ordered (hdivisor : MAX / height ≠ 0) (hle : a ≤ b) (hb : b < 2 ^ 32) :
    (defaultRows height).Ordered a b := by
  have hcounts : (defaultRows height).CountsFrom MAX MAX height := fun _ => rfl
  refine hcounts.ordered (by decide) hdivisor hle ?_
  rw [MAX]
  omega

theorem customRows_ordered (hmax : max < 2 ^ 32) (hdivisor : sub32 max min / height ≠ 0) (hle : a ≤ b)
    (hb : (customRows height min max).accepts b = true) : (customRows height min max).Ordered a b := by
  have hcounts : (customRows height min max).CountsFrom max (sub32 max min) height := fun _ => rfl
  exact hcounts.ordered hmax hdivisor hle (of_decide_eq_true hb).2

/-! ## Both -/

/-- The two instances make the same calls on a heatmap of the same size, which gives the same heatmap. -/
def SamePaths {F : Type} [Add F] [LT F] [DecidableLT F] [Zero F] (shade : ℕ → ℕ → F) (slice : List ℕ)
    (x height radius : ℕ) : Prop :=
  ∃ calls, (defaultRows height).calls x slice 0 = some calls ∧
    (customRows height 0 MAX).calls x slice 0 = some calls ∧
    ∃ hm, hm = drawCalls (heatmapStampGen shade radius) calls (heatmapNew F (imageWidth slice.length x) height) ∧
      noncesHeatmap shade (defaultRows height) slice x height radius = some hm ∧
      noncesHeatmap shade (customRows height 0 MAX) slice x height radius = some hm

/-- **The two rendering paths.** -/
theorem paths_agree {F : Type} [Add F] [LT F] [DecidableLT F] [Zero F] (shade : ℕ → ℕ → F) :
    (∀ slice x height radius, (∀ nonce ∈ slice, nonce < 2 ^ 32) → 1 ≤ x → 1 ≤ height → height ≤ MAX →
      SamePaths shade slice x height radius) ∧
    (∀ height a b, MAX / height ≠ 0 → a ≤ b → b < 2 ^ 32 → (defaultRows height).Ordered a b) ∧
    ∀ height min max a b, max < 2 ^ 32 → sub32 max min / height ≠ 0 → a ≤ b →
      (customRows height min max).accepts a = true → (customRows height min max).accepts b = true →
      (customRows height min max).Ordered a b := by
  refine ⟨?_, ?_, ?_⟩
  · intro slice x height radius hslice hx hpos hheight
    obtain ⟨calls, hcalls, -⟩ := (defaultRows_scales hpos hheight).calls_rows hx hslice 0
    have hfull : (customRows height 0 MAX).calls x slice 0 = some calls := (calls_full hslice 0).trans hcalls
    refine ⟨calls, hcalls, hfull, _, rfl, ?_, ?_⟩
    · rw [noncesHeatmap_eq, hcalls, Option.map_some]
    · rw [noncesHeatmap_eq, hfull, Option.map_some]
  · intro height a b hdivisor hle hb
    exact defaultRows_ordered hdivisor hle hb
  · intro height min max a b hmax hdivisor hle _ hb
    exact customRows_ordered hmax hdivisor hle hb

theorem paths_agree_4096 :
    SamePaths (fun _ _ => (1 : ℕ)) [0, 2 ^ 32 - 1, 7] 2 4096 5 ∧ (defaultRows 4096).Ordered 7 (2 ^ 31) ∧
      (customRows 16 100 200).Ordered 120 180 := by
  obtain ⟨hsame, hdefault, hcustom⟩ := paths_agree fun _ _ => (1 : ℕ)
  exact ⟨hsame _ 2 4096 5 (by decide) (by decide) (by decide) (by decide),
    hdefault 4096 7 (2 ^ 31) (by decide) (by decide) (by decide),
    hcustom 16 100 200 120 180 (by decide) (by decide) (by decide) (by decide) (by decide)⟩

end NoncesHeatmap
