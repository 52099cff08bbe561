import Mathlib.Data.List.Infix

/-! # Replacing a word in a text

* `find w text`: the first occurrence of `w`; `count w text`: the number of positions where it occurs.
* `replaceAll w v text`: the occurrences of `w` replaced by `v` from left to right.
* `Unbordered w`: no two occurrences of `w` overlap, so that what stands before an occurrence, the
  occurrence and what stands after it are searched independently (`replaceAll_middle`, `count_middle`).
* `fill w pieces`: a text with a set of marked occurrences of `w`; `replaceAll_fill_iff`: the marked
  occurrences are replaced and nothing else exactly if there are no others.
-/

namespace NoncesHeatmap.Words
set_option autoImplicit false

universe u
variable {α : Type u}

/-- The word is not empty, and no other prefix of it than the empty one is a proper suffix. -/
structure Unbordered (w : List α) : Prop where
  ne_nil : w ≠ []
  border : ∀ b, b <+: w → b <:+ w → b = [] ∨ b = w

/-- A text in pieces; `none` marks the place of a word. -/
def fill (w : List α) : List (Option (List α)) → List α
  | [] => []
  | none :: pieces => w ++ fill w pieces
  | some x :: pieces => x ++ fill w pieces

def marks (pieces : List (Option (List α))) : ℕ := pieces.countP Option.isNone

@[simp] theorem marks_none (pieces : List (Option (List α))) : marks (none :: pieces) = marks pieces + 1 :=
  List.countP_cons_of_pos rfl

@[simp] theorem marks_some (x : List α) (pieces : List (Option (List α))) : marks (some x :: pieces) = marks pieces :=
  List.countP_cons_of_neg Bool.false_ne_true

theorem length_fill (w v : List α) (pieces : List (Option (List α))) :
    (fill v pieces).length + marks pieces * w.length = (fill w pieces).length + marks pieces * v.length := by
  induction pieces with
  | nil => simp [marks, fill]
  | cons piece pieces ih =>
    cases piece with
    | none =>
      rw [fill, fill, marks_none, List.length_append, List.length_append, Nat.add_mul, Nat.add_mul]
      omega
    | some x =>
      rw [fill, fill, marks_some, List.length_append, List.length_append]
      omega

/-- A text with a marked word changes when the word is removed. -/
theorem fill_ne_fill_nil {w : List α} (hw : w ≠ []) {pieces : List (Option (List α))} (h : 0 < marks pieces) :
    fill w pieces ≠ fill [] pieces := by
  intro heq
  have hlength := length_fill w [] pieces
  rw [← heq, List.length_nil, Nat.mul_zero] at hlength
  have hpos : 0 < marks pieces * w.length := Nat.mul_pos h (List.length_pos_of_ne_nil hw)
  omega

/-! ## Occurrences do not overlap -/

/-- An occurrence that starts inside an occurrence would overlap it. -/
theorem Unbordered.not_inside {w z : List α} (hw : Unbordered w) (hne : z ≠ []) (hlt : z.length < w.length)
    (hz : z <:+ w) (y : List α) : ¬ w <+: z ++ y := by
  intro h
  have hprefix : z <+: w := List.prefix_of_prefix_length_le (List.prefix_append z y) h hlt.le
  obtain rfl | rfl := hw.border z hprefix hz
  · exact hne rfl
  · exact hlt.false

/-- An occurrence that starts before an occurrence ends before it. -/
theorem Unbordered.before {w x : List α} (hw : Unbordered w) (hne : x ≠ []) {y : List α} (h : w <+: x ++ (w ++ y)) :
    w <+: x := by
  obtain hle | hlt := Nat.le_total w.length x.length
  · exact List.prefix_of_prefix_length_le h (List.prefix_append _ _) hle
  · obtain ⟨b, rfl⟩ := List.prefix_of_prefix_length_le (List.prefix_append _ _) h hlt
    have hb : b <+: x ++ b := by
      have hb' : b <+: x ++ b ++ y := (List.prefix_append_right_inj x).mp h
      exact List.prefix_of_prefix_length_le hb' (List.prefix_append _ _) (by simp)
    obtain rfl | hself := hw.border b hb (List.suffix_append x b)
    · rw [List.append_nil]
    · exact absurd (List.append_left_eq_self.mp hself.symm) hne

/-- What follows an occurrence at the head of a text. -/
theorem drop_occurrence {w rest text : List α} {c : α} (hw : w ≠ []) (h : w ++ rest = c :: text) :
    text.drop (w.length - 1) = rest := by
  cases w with
  | nil => exact absurd rfl hw
  | cons a w =>
    obtain ⟨-, rfl⟩ := List.cons.inj h
    simp

/-! ## Searching and replacing -/

variable [DecidableEq α]

def find (w : List α) : List α → Option ℕ
  | [] => if w = [] then some 0 else none
  | c :: text => if w <+: c :: text then some 0 else (find w text).map (· + 1)

def count (w : List α) : List α → ℕ
  | [] => 0
  | c :: text => (if w <+: c :: text then 1 else 0) + count w text

def replaceAll (w v : List α) : List α → List α
  | [] => []
  | c :: text => if w <+: c :: text then v ++ replaceAll w v (text.drop (w.length - 1)) else c :: replaceAll w v text
termination_by text => text.length

theorem find_eq_none_iff {w text : List α} (hw : w ≠ []) :
    find w text = none ↔ ¬ w <:+: text := by
  induction text with
  | nil =>
    rw [find, if_neg hw]
    exact iff_of_true rfl fun h => hw (List.eq_nil_of_infix_nil h)
  | cons c text ih =>
    rw [find, List.infix_cons_iff]
    by_cases hprefix : w <+: c :: text
    · rw [if_pos hprefix]
      exact iff_of_false (by simp) fun h => h (Or.inl hprefix)
    · rw [if_neg hprefix, Option.map_eq_none_iff, ih]
      exact not_congr (or_iff_right hprefix).symm

/-- The first occurrence of a word is where nothing before it completes one. -/
theorem find_append {w x : List α} (hw : w ≠ []) (h : ¬ w <:+: x ++ w.dropLast) (y : List α) :
    find w (x ++ (w ++ y)) = some x.length := by
  induction x with
  | nil =>
    cases w with
    | nil => exact absurd rfl hw
    | cons a w => exact if_pos (List.prefix_append _ _)
  | cons c x ih =>
    have hnot : ¬ w <+: c :: (x ++ (w ++ y)) := by
      intro hprefix
      apply h
      apply List.IsPrefix.isInfix
      have hshort : c :: x ++ w.dropLast <+: c :: (x ++ (w ++ y)) := by
        rw [List.cons_append, List.cons_prefix_cons]
        refine ⟨rfl, (List.prefix_append_right_inj x).mpr ?_⟩
        exact (List.dropLast_prefix w).trans (List.prefix_append w y)
      refine List.prefix_of_prefix_length_le hprefix hshort ?_
      rw [List.length_append, List.length_dropLast, List.length_cons]
      omega
    have hrest : ¬ w <:+: x ++ w.dropLast := fun hoccurs => h (List.infix_cons hoccurs)
    show find w (c :: (x ++ (w ++ y))) = _
    rw [find, if_neg hnot, ih hrest]
    rfl

theorem replaceAll_nil (w v : List α) : replaceAll w v [] = [] := by rw [replaceAll]

theorem replaceAll_cons_of_not {w : List α} (v : List α) {c : α} {text : List α} (h : ¬ w <+: c :: text) :
    replaceAll w v (c :: text) = c :: replaceAll w v text := by
  rw [replaceAll, if_neg h]

theorem replaceAll_head {w : List α} (hw : w ≠ []) (v y : List α) :
    replaceAll w v (w ++ y) = v ++ replaceAll w v y := by
  cases w with
  | nil => exact absurd rfl hw
  | cons a w =>
    have hprefix : a :: w <+: a :: (w ++ y) := List.prefix_append (a :: w) y
    rw [List.cons_append, replaceAll, if_pos hprefix]
    simp

/-! ## The first occurrence -/

theorem replaceAll_of_find_none {w : List α} (v : List α) {text : List α} (h : find w text = none) :
    replaceAll w v text = text := by
  induction text with
  | nil => exact replaceAll_nil w v
  | cons c text ih =>
    rw [find] at h
    split at h
    · cases h
    · next hne => rw [replaceAll_cons_of_not v hne, ih (Option.map_eq_none_iff.mp h)]

theorem replaceAll_of_find_some {w : List α} (hw : w ≠ []) (v : List α) {text : List α} {i : ℕ}
    (h : find w text = some i) :
    ∃ x y, text = x ++ w ++ y ∧ x.length = i ∧ replaceAll w v text = x ++ v ++ replaceAll w v y := by
  induction text generalizing i with
  | nil =>
    rw [find, if_neg hw] at h
    cases h
  | cons c text ih =>
    rw [find] at h
    split at h
    · next hprefix =>
      obtain ⟨y, hy⟩ := hprefix
      refine ⟨[], y, hy.symm, Option.some.inj h, ?_⟩
      rw [← hy]
      exact replaceAll_head hw v y
    · next hne =>
      obtain ⟨j, hj, rfl⟩ := Option.map_eq_some_iff.mp h
      obtain ⟨x, y, htext, hx, hreplace⟩ := ih hj
      refine ⟨c :: x, y, ?_, ?_, ?_⟩
      · rw [htext]
        rfl
      · rw [List.length_cons, hx]
      · rw [replaceAll_cons_of_not v hne, hreplace]
        rfl

/-! ## Both sides of an occurrence -/

theorem Unbordered.replaceAll_middle {w : List α} (hw : Unbordered w) (v x y : List α) :
    replaceAll w v (x ++ (w ++ y)) = replaceAll w v x ++ (v ++ replaceAll w v y) := by
  induction x using replaceAll.induct w with
  | case1 => rw [replaceAll_nil, List.nil_append, List.nil_append, replaceAll_head hw.ne_nil]
  | case2 c text hprefix ih =>
    obtain ⟨rest, hrest⟩ := hprefix
    rw [drop_occurrence hw.ne_nil hrest] at ih
    rw [← hrest, List.append_assoc, replaceAll_head hw.ne_nil, replaceAll_head hw.ne_nil, ih, List.append_assoc]
  | case3 c text hne ih =>
    have hne' : ¬ w <+: c :: (text ++ (w ++ y)) := fun h => hne (hw.before (List.cons_ne_nil c text) h)
    rw [List.cons_append, replaceAll_cons_of_not v hne', ih, replaceAll_cons_of_not v hne, List.cons_append]

theorem Unbordered.count_inside {w z : List α} (hw : Unbordered w) (hlt : z.length < w.length) (hz : z <:+ w) (y : List α) :
    count w (z ++ y) = count w y := by
  induction z with
  | nil => rfl
  | cons c z ih =>
    have hne := hw.not_inside (List.cons_ne_nil c z) hlt hz y
    rw [List.cons_append] at hne
    rw [List.cons_append, count, if_neg hne, Nat.zero_add]
    exact ih (Nat.lt_of_succ_lt hlt) ((List.suffix_cons c z).trans hz)

theorem Unbordered.count_head {w : List α} (hw : Unbordered w) (y : List α) : count w (w ++ y) = 1 + count w y := by
  cases w with
  | nil => exact absurd rfl hw.ne_nil
  | cons a w =>
    rw [List.cons_append, count, ← List.cons_append, if_pos (List.prefix_append _ _),
      hw.count_inside (Nat.lt_succ_self _) (List.suffix_cons a w)]

theorem Unbordered.count_middle {w : List α} (hw : Unbordered w) (x y : List α) :
    count w (x ++ (w ++ y)) = count w x + 1 + count w y := by
  induction x with
  | nil => rw [List.nil_append, hw.count_head, count, Nat.zero_add]
  | cons c x ih =>
    have hiff : w <+: c :: (x ++ (w ++ y)) ↔ w <+: c :: x :=
      ⟨fun h => hw.before (List.cons_ne_nil c x) h, fun h => List.prefix_append_of_prefix h⟩
    rw [List.cons_append, count, ih, count]
    simp only [hiff]
    omega

/-- No occurrence starts where the first letter of the word does not stand. -/
theorem count_append_of_notMem {a : α} {w x : List α} (h : a ∉ x) (y : List α) :
    count (a :: w) (x ++ y) = count (a :: w) y := by
  induction x with
  | nil => rfl
  | cons c x ih =>
    have hne : ¬ a :: w <+: c :: (x ++ y) := fun hprefix => h (List.mem_cons.mpr (Or.inl (List.cons_prefix_cons.mp hprefix).1))
    rw [List.cons_append, count, if_neg hne, Nat.zero_add]
    exact ih fun hmem => h (List.mem_cons_of_mem c hmem)

/-! ## Texts without an occurrence, and lengths -/

theorem replaceAll_of_count {w : List α} (v : List α) {text : List α} (h : count w text = 0) :
    replaceAll w v text = text := by
  induction text with
  | nil => exact replaceAll_nil w v
  | cons c text ih =>
    rw [count] at h
    have hne : ¬ w <+: c :: text := by
      intro hprefix
      rw [if_pos hprefix] at h
      omega
    rw [replaceAll_cons_of_not v hne, ih (by omega)]

theorem replaceAll_self {w : List α} (hw : w ≠ []) (text : List α) : replaceAll w w text = text := by
  induction text using replaceAll.induct w with
  | case1 => exact replaceAll_nil w w
  | case2 c text hprefix ih =>
    obtain ⟨rest, hrest⟩ := hprefix
    rw [drop_occurrence hw hrest] at ih
    rw [← hrest, replaceAll_head hw, ih]
  | case3 c text hne ih => rw [replaceAll_cons_of_not w hne, ih]

theorem Unbordered.length_replaceAll {w : List α} (hw : Unbordered w) (v text : List α) :
    (replaceAll w v text).length + count w text * w.length = text.length + count w text * v.length := by
  induction text using replaceAll.induct w with
  | case1 => simp [replaceAll_nil, count]
  | case2 c text hprefix ih =>
    obtain ⟨rest, hrest⟩ := hprefix
    rw [drop_occurrence hw.ne_nil hrest] at ih
    rw [← hrest, replaceAll_head hw.ne_nil, hw.count_head, List.length_append, List.length_append, Nat.add_mul, Nat.add_mul]
    omega
  | case3 c text hne ih =>
    rw [replaceAll_cons_of_not v hne, count, if_neg hne, Nat.zero_add, List.length_cons, List.length_cons]
    omega

/-- A replacement of the same length that changes nothing has nothing to replace. -/
theorem Unbordered.count_eq_zero {w v : List α} (hw : Unbordered w) (hne : v ≠ w) (hlength : v.length = w.length)
    {text : List α} (h : replaceAll w v text = text) : count w text = 0 := by
  induction text with
  | nil => rfl
  | cons c text ih =>
    by_cases hprefix : w <+: c :: text
    · obtain ⟨rest, hrest⟩ := hprefix
      rw [← hrest, replaceAll_head hw.ne_nil] at h
      exact absurd (List.append_inj_left h hlength) hne
    · rw [replaceAll_cons_of_not v hprefix] at h
      rw [count, if_neg hprefix, Nat.zero_add]
      exact ih (List.cons.inj h).2

/-! ## Marked occurrences -/

theorem Unbordered.marks_le_count {w : List α} (hw : Unbordered w) (x : List α) (pieces : List (Option (List α))) :
    marks pieces ≤ count w (x ++ fill w pieces) := by
  induction pieces generalizing x with
  | nil => exact Nat.zero_le _
  | cons piece pieces ih =>
    cases piece with
    | none =>
      have := ih []
      rw [List.nil_append] at this
      rw [fill, hw.count_middle, marks_none]
      omega
    | some y =>
      rw [fill, marks_some, ← List.append_assoc]
      exact ih (x ++ y)

theorem Unbordered.replaceAll_marks {w : List α} (hw : Unbordered w) (v x : List α) {pieces : List (Option (List α))}
    (h : count w (x ++ fill w pieces) = marks pieces) : replaceAll w v (x ++ fill w pieces) = x ++ fill v pieces := by
  induction pieces generalizing x with
  | nil => exact replaceAll_of_count v h
  | cons piece pieces ih =>
    cases piece with
    | none =>
      have hle := hw.marks_le_count [] pieces
      rw [List.nil_append] at hle
      rw [fill, hw.count_middle, marks_none] at h
      have hx : count w x = 0 := by omega
      have hrest : count w ([] ++ fill w pieces) = marks pieces := by
        rw [List.nil_append]
        omega
      have hfill : replaceAll w v (fill w pieces) = fill v pieces := ih [] hrest
      rw [fill, fill, hw.replaceAll_middle, replaceAll_of_count v hx, hfill]
    | some y =>
      rw [fill, marks_some, ← List.append_assoc] at h
      rw [fill, fill, ← List.append_assoc, ← List.append_assoc]
      exact ih (x ++ y) h

/-- If the word and its replacement have one length, every occurrence keeps its place. -/
theorem Unbordered.count_of_same_length {w v : List α} (hw : Unbordered w) (hne : v ≠ w) (hlength : v.length = w.length)
    (x : List α) {pieces : List (Option (List α))} (h : replaceAll w v (x ++ fill w pieces) = x ++ fill v pieces) :
    count w (x ++ fill w pieces) = marks pieces := by
  have hkeep : ∀ text : List α, (replaceAll w v text).length = text.length := by
    intro text
    have := hw.length_replaceAll v text
    rw [hlength] at this
    omega
  induction pieces generalizing x with
  | nil => exact hw.count_eq_zero hne hlength h
  | cons piece pieces ih =>
    cases piece with
    | none =>
      rw [fill, fill, hw.replaceAll_middle] at h
      obtain ⟨hx, hrest⟩ := List.append_inj h (hkeep x)
      have hfill : count w ([] ++ fill w pieces) = marks pieces := ih [] (List.append_cancel_left hrest)
      rw [List.nil_append] at hfill
      rw [fill, hw.count_middle, marks_none, hw.count_eq_zero hne hlength hx, hfill]
      omega
    | some y =>
      rw [fill, fill, ← List.append_assoc, ← List.append_assoc] at h
      rw [fill, marks_some, ← List.append_assoc]
      exact ih (x ++ y) h

/-- The marked occurrences are replaced and nothing else, if and only if there are no others. -/
theorem Unbordered.replaceAll_fill_iff {w v : List α} (hw : Unbordered w) (pieces : List (Option (List α))) :
    replaceAll w v (fill w pieces) = fill v pieces ↔ v = w ∨ count w (fill w pieces) = marks pieces := by
  constructor
  · intro h
    by_cases hne : v = w
    · exact Or.inl hne
    refine Or.inr ?_
    by_cases hlength : v.length = w.length
    · exact hw.count_of_same_length hne hlength [] h
    · -- Both sides have the same length, and each replacement changes it by the same amount.
      have hreplace := hw.length_replaceAll v (fill w pieces)
      have hfill := length_fill w v pieces
      have hle : marks pieces ≤ count w (fill w pieces) := hw.marks_le_count [] pieces
      rw [h] at hreplace
      obtain ⟨k, hk⟩ := Nat.exists_eq_add_of_le hle
      rw [hk, Nat.add_mul, Nat.add_mul] at hreplace
      have hzero : k * w.length = k * v.length := by omega
      have hk0 : k = 0 := by
        by_contra hpos
        exact hlength (Nat.eq_of_mul_eq_mul_left (Nat.pos_of_ne_zero hpos) hzero).symm
      rw [hk, hk0, Nat.add_zero]
  · rintro (rfl | hcount)
    · exact replaceAll_self hw.ne_nil _
    · exact hw.replaceAll_marks v [] hcount

end NoncesHeatmap.Words
