import NoncesHeatmap.Base.Json
import NoncesHeatmap.Base.Strings
import NoncesHeatmap.Library.Words

/-! # Stripping escape sequences

The loop of `LogPrivate::print` that takes the colours out of a line. A sequence goes from `CSI` to the
next `m`. Without an `m` the length of the erased part wraps around: the rest of the text goes, and at the
head of a text nothing does. -/

namespace NoncesHeatmap
set_option autoImplicit false

def esc : UInt8 := 27
def bracket : UInt8 := 91
def letterM : UInt8 := 109

/-- `CSI` -/
def csi : Bytes := [esc, bracket]

def npos : ℕ := 2 ^ 64 - 1

/-- `txt.find('m', i)` -/
def findM (txt : Bytes) (i : ℕ) : ℕ := (((txt.drop i).findIdx? (· = letterM)).map fun k => i + k).getD npos

/-- `txt.erase(i, n)` -/
def erase (i n : ℕ) (txt : Bytes) : Bytes := txt.take i ++ txt.drop (i + n)

/-- One round of the loop; `none` when the condition fails. -/
def stripStep (txt : Bytes) : Option Bytes :=
  (Words.find csi txt).map fun i => erase i (u64 (findM txt i + 2 ^ 64 - i + 1)) txt

/-- The loop, of which `fuel` bounds the rounds. -/
def strip : ℕ → Bytes → Option Bytes
  | 0, _ => none
  | fuel + 1, txt =>
    match stripStep txt with
    | none => some txt
    | some txt => strip fuel txt

/-! ## Sequences that are left open -/

/-- Every sequence of a text has its `m`, or the one that has none stands behind a newline. `before` is what
is left of the text so far, and `inside` is the rest of a sequence. -/
def sequencesEnd (before : Bytes) : Bool → Bytes → Bool
  | false, [] => true
  | true, [] => decide (before.getLast? = some newline)
  | true, c :: txt => sequencesEnd before (decide (c ≠ letterM)) txt
  | false, c :: txt =>
    if c = bracket ∧ before.getLast? = some esc then sequencesEnd before.dropLast true txt
    else sequencesEnd (before ++ [c]) false txt

variable {before out u v txt : Bytes} {c : UInt8} {fuel : ℕ}

theorem sequencesEnd_inside (hu : letterM ∉ u) (txt : Bytes) :
    sequencesEnd before true (u ++ txt) = sequencesEnd before true txt := by
  induction u with
  | nil => rfl
  | cons c u ih =>
    rw [List.mem_cons, not_or] at hu
    obtain ⟨hc, hu⟩ := hu
    have hin : decide (c ≠ letterM) = true := decide_eq_true (Ne.symm hc)
    show sequencesEnd before (decide (c ≠ letterM)) (u ++ txt) = _
    rw [hin, ih hu]

theorem sequencesEnd_closed (hu : letterM ∉ u) : sequencesEnd before true (u ++ letterM :: v) = sequencesEnd before false v := by
  rw [sequencesEnd_inside hu]
  rfl

theorem sequencesEnd_open (hu : letterM ∉ u) :
    sequencesEnd before true u = decide (before.getLast? = some newline) := by
  have hend : sequencesEnd before true (u ++ []) = sequencesEnd before true [] := sequencesEnd_inside hu []
  rw [List.append_nil] at hend
  exact hend

/-- A text whose last `m` is followed by a newline has no sequence that is left open. -/
theorem sequencesEnd_clear (inside : Bool) (before u : Bytes) :
    sequencesEnd before inside (u ++ [letterM, newline]) = true := by
  induction u generalizing before inside with
  | nil =>
    cases inside with
    | true => rfl
    | false =>
      show (if letterM = bracket ∧ _ then _ else sequencesEnd (before ++ [letterM]) false [newline]) = true
      rw [if_neg fun h => absurd h.1 (by decide)]
      show (if newline = bracket ∧ _ then _ else _) = true
      rw [if_neg fun h => absurd h.1 (by decide)]
      rfl
  | cons c u ih =>
    cases inside with
    | true => exact ih _ before
    | false =>
      show (if _ then _ else _) = true
      split
      · exact ih true before.dropLast
      · exact ih false (before ++ [c])

theorem sequencesEnd_plain {w : Bytes} (hw : esc ∉ w) (hbefore : before.getLast? ≠ some esc) (txt : Bytes) :
    sequencesEnd before false (w ++ txt) = sequencesEnd (before ++ w) false txt := by
  induction w generalizing before with
  | nil => rw [List.nil_append, List.append_nil]
  | cons c w ih =>
    rw [List.mem_cons, not_or] at hw
    have hc : ¬ (c = bracket ∧ before.getLast? = some esc) := fun h => hbefore h.2
    have hlast : (before ++ [c]).getLast? ≠ some esc := by
      rw [List.getLast?_concat]
      exact fun h => hw.1 (Option.some.inj h).symm
    have hstep : sequencesEnd before false (c :: (w ++ txt)) = sequencesEnd (before ++ [c]) false (w ++ txt) := if_neg hc
    rw [List.cons_append, hstep, ih hw.2 hlast, List.append_assoc]
    rfl

theorem sequencesEnd_sequence (hu : letterM ∉ u) (before txt : Bytes) :
    sequencesEnd before false (csi ++ (u ++ letterM :: txt)) = sequencesEnd before false txt := by
  have hesc : sequencesEnd before false (esc :: bracket :: (u ++ letterM :: txt)) =
      sequencesEnd (before ++ [esc]) false (bracket :: (u ++ letterM :: txt)) :=
    if_neg fun h => absurd h.1 (by decide)
  have hbracket : sequencesEnd (before ++ [esc]) false (bracket :: (u ++ letterM :: txt)) =
      sequencesEnd (before ++ [esc]).dropLast true (u ++ letterM :: txt) := if_pos ⟨rfl, List.getLast?_concat⟩
  show sequencesEnd before false (esc :: bracket :: (u ++ letterM :: txt)) = _
  rw [hesc, hbracket, List.dropLast_concat, sequencesEnd_closed hu]

/-- Plain text in front makes no difference when it does not end a line. -/
theorem sequencesEnd_shift {front : Bytes} (hesc : front.getLast? ≠ some esc) (hline : front.getLast? ≠ some newline)
    (before : Bytes) (inside : Bool) (txt : Bytes) :
    sequencesEnd (front ++ before) inside txt = sequencesEnd before inside txt := by
  have hlast : ∀ (before : Bytes) (b : UInt8), front.getLast? ≠ some b →
      ((front ++ before).getLast? = some b ↔ before.getLast? = some b) := by
    intro before b hb
    rw [List.getLast?_append]
    cases hcase : before.getLast? with
    | none =>
      rw [Option.none_or]
      exact iff_of_false hb (by simp)
    | some last => rw [Option.some_or]
  induction txt generalizing before inside with
  | nil =>
    cases inside with
    | true => exact decide_eq_decide.mpr (hlast before newline hline)
    | false => rfl
  | cons c txt ih =>
    cases inside with
    | true => exact ih before _
    | false =>
      by_cases hc : c = bracket ∧ before.getLast? = some esc
      · have hc' : c = bracket ∧ (front ++ before).getLast? = some esc := ⟨hc.1, (hlast before esc hesc).mpr hc.2⟩
        have hne : before ≠ [] := by
          rintro rfl
          cases hc.2
        have hleft : sequencesEnd (front ++ before) false (c :: txt) = sequencesEnd (front ++ before).dropLast true txt :=
          if_pos hc'
        have hright : sequencesEnd before false (c :: txt) = sequencesEnd before.dropLast true txt := if_pos hc
        rw [hleft, hright, List.dropLast_append_of_ne_nil hne, ih]
      · have hc' : ¬ (c = bracket ∧ (front ++ before).getLast? = some esc) :=
          fun h => hc ⟨h.1, (hlast before esc hesc).mp h.2⟩
        have hleft : sequencesEnd (front ++ before) false (c :: txt) = sequencesEnd (front ++ before ++ [c]) false txt :=
          if_neg hc'
        have hright : sequencesEnd before false (c :: txt) = sequencesEnd (before ++ [c]) false txt := if_neg hc
        rw [hleft, hright, List.append_assoc, ih]

/-! ## One round -/

/-- No `CSI` in a text. -/
def Clean (txt : Bytes) : Prop := ¬ csi <:+: txt

theorem csi_ne_nil : csi ≠ [] := by decide

theorem stripStep_clean (h : Clean txt) : stripStep txt = none := by
  rw [stripStep, (Words.find_eq_none_iff csi_ne_nil).mpr h]
  rfl

theorem find_csi (h : Clean (out ++ [esc])) (u : Bytes) : Words.find csi (out ++ (csi ++ u)) = some out.length :=
  Words.find_append csi_ne_nil h u

theorem drop_csi (out u : Bytes) : (out ++ (csi ++ u)).drop out.length = csi ++ u := List.drop_left

theorem take_csi (out u : Bytes) : (out ++ (csi ++ u)).take out.length = out := List.take_left

theorem findIdx_csi (u : Bytes) :
    (csi ++ u).findIdx? (· = letterM) = (u.findIdx? (· = letterM)).map (· + 2) := by
  rw [csi, List.cons_append, List.cons_append, List.nil_append, List.findIdx?_cons, List.findIdx?_cons,
    if_neg (by decide), if_neg (by decide), Option.map_map]
  rfl

theorem findIdx_closed (hu : letterM ∉ u) (v : Bytes) :
    (u ++ letterM :: v).findIdx? (· = letterM) = some u.length := by
  induction u with
  | nil => rfl
  | cons c u ih =>
    rw [List.mem_cons, not_or] at hu
    obtain ⟨hc, hu⟩ := hu
    rw [List.cons_append, List.findIdx?_cons, if_neg (by simpa using Ne.symm hc), ih hu]
    rfl

theorem stripStep_closed (h : Clean (out ++ [esc])) (hu : letterM ∉ u)
    (hlength : (out ++ (csi ++ (u ++ letterM :: v))).length < 2 ^ 64) :
    stripStep (out ++ (csi ++ (u ++ letterM :: v))) = some (out ++ v) := by
  have hsizes : out.length + (u.length + 3 + v.length) < 2 ^ 64 := by
    simp only [List.length_append, List.length_cons, csi, List.length_nil] at hlength
    omega
  have hm : findM (out ++ (csi ++ (u ++ letterM :: v))) out.length = out.length + (u.length + 2) := by
    rw [findM, drop_csi, findIdx_csi, findIdx_closed hu]
    rfl
  have hcount : u64 (out.length + (u.length + 2) + 2 ^ 64 - out.length + 1) = u.length + 3 := by
    have hsum : out.length + (u.length + 2) + 2 ^ 64 - out.length + 1 = u.length + 3 + 2 ^ 64 := by omega
    rw [hsum, u64_add_two_pow (by omega)]
  have hrest : (out ++ (csi ++ (u ++ letterM :: v))).drop (out.length + (u.length + 3)) = v := by
    rw [← List.drop_drop, drop_csi]
    have hsplit : csi ++ (u ++ letterM :: v) = csi ++ u ++ [letterM] ++ v := by simp
    rw [hsplit]
    exact List.drop_left' (by simp [csi])
  rw [stripStep, find_csi h, Option.map_some, hm, hcount, erase, take_csi, hrest]

/-- Without an `m` the rest of the text is erased, and nothing when the sequence is at the head. -/
theorem stripStep_open (h : Clean (out ++ [esc])) (hu : letterM ∉ u)
    (hlength : (out ++ (csi ++ u)).length < 2 ^ 64) :
    stripStep (out ++ (csi ++ u)) = some (if out = [] then csi ++ u else out) := by
  have hnone : u.findIdx? (· = letterM) = none := by
    rw [List.findIdx?_eq_none_iff]
    intro c hc
    have hne : c ≠ letterM := fun heq => hu (heq ▸ hc)
    exact decide_eq_false hne
  have hm : findM (out ++ (csi ++ u)) out.length = npos := by
    rw [findM, drop_csi, findIdx_csi, hnone]
    rfl
  rw [stripStep, find_csi h, Option.map_some, hm, erase, take_csi]
  by_cases hout : out = []
  · subst hout
    rfl
  · have hpos := List.length_pos_of_ne_nil hout
    have hle : out.length ≤ (out ++ (csi ++ u)).length := by
      rw [List.length_append]
      omega
    have hcount : u64 (npos + 2 ^ 64 - out.length + 1) = 2 ^ 64 - out.length := by
      have hsum : npos + 2 ^ 64 - out.length + 1 = 2 ^ 64 - out.length + 2 ^ 64 := by
        rw [npos]
        omega
      rw [hsum, u64_add_two_pow (by omega)]
    have hrest : (out ++ (csi ++ u)).drop (out.length + (2 ^ 64 - out.length)) = [] :=
      List.drop_eq_nil_of_le (by omega)
    rw [hcount, hrest, List.append_nil, if_neg hout]

/-! ## The loop -/

theorem strip_clean (h : Clean txt) (fuel : ℕ) : strip (fuel + 1) txt = some txt := by
  rw [strip, stripStep_clean h]

theorem strip_succ {next : Bytes} (h : stripStep txt = some next) (fuel : ℕ) : strip (fuel + 1) txt = strip fuel next := by
  rw [strip, h]

/-- When the loop ends, no `CSI` is left. -/
theorem clean_of_strip {result : Bytes} (h : strip fuel txt = some result) : Clean result := by
  induction fuel generalizing txt with
  | zero => cases h
  | succ fuel ih =>
    rw [strip] at h
    split at h
    · next hnone =>
      obtain rfl := Option.some.inj h
      exact (Words.find_eq_none_iff csi_ne_nil).mp (Option.map_eq_none_iff.mp hnone)
    · exact ih h

theorem mem_of_strip {result : Bytes} {b : UInt8} (h : strip fuel txt = some result) (hb : b ∈ result) : b ∈ txt := by
  induction fuel generalizing txt with
  | zero => cases h
  | succ fuel ih =>
    rw [strip] at h
    split at h
    · rw [Option.some.inj h]
      exact hb
    · next next hstep =>
      obtain ⟨i, -, rfl⟩ := Option.map_eq_some_iff.mp hstep
      obtain htake | hdrop := List.mem_append.mp (ih h)
      · exact List.mem_of_mem_take htake
      · exact List.mem_of_mem_drop hdrop

/-- A sequence without an `m` at the head of the text: the loop does not end. -/
theorem strip_hangs (hu : letterM ∉ u) (hlength : (csi ++ u).length < 2 ^ 64) (fuel : ℕ) : strip fuel (csi ++ u) = none := by
  have hclean : Clean ([] ++ [esc]) := by
    show ¬ csi <:+: [esc]
    decide
  have hstep := stripStep_open hclean hu hlength
  rw [List.nil_append, if_pos rfl] at hstep
  induction fuel with
  | zero => rfl
  | succ fuel ih => rw [strip_succ hstep, ih]

/-- The loop ends, and what it leaves ends a line. -/
def StripsToLine (txt : Bytes) : Prop := ∃ fuel result, strip fuel txt = some result ∧ result.getLast? = some newline

theorem stripsToLine_succ {next : Bytes} (h : stripStep txt = some next) : StripsToLine txt ↔ StripsToLine next := by
  constructor
  · rintro ⟨fuel, result, hstrip, hlast⟩
    cases fuel with
    | zero => cases hstrip
    | succ fuel =>
      rw [strip_succ h] at hstrip
      exact ⟨fuel, result, hstrip, hlast⟩
  · rintro ⟨fuel, result, hstrip, hlast⟩
    exact ⟨fuel + 1, result, (strip_succ h fuel).trans hstrip, hlast⟩

theorem stripsToLine_clean (h : Clean txt) : StripsToLine txt ↔ txt.getLast? = some newline := by
  constructor
  · rintro ⟨fuel, result, hstrip, hlast⟩
    cases fuel with
    | zero => cases hstrip
    | succ fuel =>
      rw [strip_clean h] at hstrip
      rw [Option.some.inj hstrip]
      exact hlast
  · intro hlast
    exact ⟨1, txt, strip_clean h 0, hlast⟩

theorem Clean.left (h : Clean (out ++ v)) : Clean out := fun hoccurs => h (hoccurs.trans (List.prefix_append out v).isInfix)

/-- A byte that completes no `CSI`. -/
theorem Clean.snoc (h : Clean out) (hc : ¬ (c = bracket ∧ out.getLast? = some esc)) : Clean (out ++ [c]) := by
  intro hoccurs
  obtain hsuffix | hold := List.infix_concat_iff.mp hoccurs
  · obtain hnil | ⟨w, hw, hesc⟩ := List.suffix_concat_iff.mp hsuffix
    · exact csi_ne_nil hnil
    · obtain ⟨rfl, hc'⟩ : [esc] = w ∧ bracket = c := by
        have hw' : [esc] ++ [bracket] = w ++ [c] := hw
        obtain ⟨hleft, hright⟩ := List.append_inj' hw' rfl
        exact ⟨hleft, List.singleton_inj.mp hright⟩
      obtain ⟨x, rfl⟩ := hesc
      exact hc ⟨hc'.symm, List.getLast?_concat⟩
  · exact h hold

/-- A sequence that has no `m` is left open. -/
theorem stripsToLine_open (h : Clean (out ++ [esc])) (hu : letterM ∉ u) (hlength : (out ++ (csi ++ u)).length < 2 ^ 64) :
    StripsToLine (out ++ (csi ++ u)) ↔ out.getLast? = some newline := by
  have hclean : Clean out := h.left
  by_cases hout : out = []
  · subst hout
    refine iff_of_false ?_ (by simp)
    rintro ⟨fuel, result, hstrip, -⟩
    rw [List.nil_append] at hstrip hlength
    rw [strip_hangs hu hlength] at hstrip
    cases hstrip
  · have hstep := stripStep_open h hu hlength
    rw [if_neg hout] at hstep
    rw [stripsToLine_succ hstep, stripsToLine_clean hclean]

/-- A line that ends behind a sequence ends a line without it. -/
theorem getLast?_closed (h : (out ++ (csi ++ (u ++ letterM :: v))).getLast? = some newline) :
    (out ++ v).getLast? = some newline := by
  have hsplit : out ++ (csi ++ (u ++ letterM :: v)) = out ++ csi ++ u ++ [letterM] ++ v := by simp
  rw [hsplit, List.getLast?_append] at h
  rw [List.getLast?_append]
  cases hv : v.getLast? with
  | none =>
    rw [hv, Option.none_or, List.getLast?_concat] at h
    exact absurd (Option.some.inj h) (by decide)
  | some last =>
    rw [hv] at h
    exact h

/-- By induction on the text that is left: `out` has no `CSI`. -/
theorem stripsToLine_append (hout : Clean out) (hlength : (out ++ txt).length < 2 ^ 64)
    (hline : (out ++ txt).getLast? = some newline) :
    StripsToLine (out ++ txt) ↔ sequencesEnd out false txt = true := by
  induction hn : txt.length using Nat.strong_induction_on generalizing out txt with
  | _ n ih =>
    cases txt with
    | nil =>
      rw [List.append_nil] at hline ⊢
      rw [stripsToLine_clean hout]
      exact iff_of_true hline rfl
    | cons c txt =>
      by_cases hc : c = bracket ∧ out.getLast? = some esc
      · have hend : sequencesEnd out false (c :: txt) = sequencesEnd out.dropLast true txt := if_pos hc
        obtain ⟨rfl, hlast⟩ := hc
        obtain ⟨out, rfl⟩ : ∃ out', out = out' ++ [esc] :=
          ⟨out.dropLast, (List.dropLast_append_getLast? esc hlast).symm⟩
        have hsplit : out ++ [esc] ++ bracket :: txt = out ++ (csi ++ txt) := by simp [csi]
        rw [hend, List.dropLast_concat, hsplit]
        rw [hsplit] at hlength hline
        by_cases hm : letterM ∈ txt
        · obtain ⟨u, v, rfl, hu⟩ := List.eq_append_cons_of_mem hm
          rw [sequencesEnd_closed hu, stripsToLine_succ (stripStep_closed hout hu hlength)]
          have hclean : Clean out := hout.left
          refine ih v.length ?_ hclean ?_ (getLast?_closed hline) rfl
          · rw [← hn]
            simp
            omega
          · simp at hlength ⊢
            omega
        · rw [sequencesEnd_open hm, stripsToLine_open hout hm hlength, decide_eq_true_iff]
      · have hend : sequencesEnd out false (c :: txt) = sequencesEnd (out ++ [c]) false txt := if_neg hc
        have hsplit : out ++ c :: txt = out ++ [c] ++ txt := by simp
        rw [hend, hsplit]
        rw [hsplit] at hlength hline
        refine ih txt.length ?_ (hout.snoc hc) hlength hline rfl
        rw [← hn, List.length_cons]
        omega

end NoncesHeatmap
