import NoncesHeatmap.Base.Env

/-! # The matches of a text

`Scans text ts`: reading `text` from left to right gives the tokens `ts`. It is what `tokens` computes, and
the induction that facts about the matches of a text go by. -/

namespace NoncesHeatmap.Env
open Words
set_option autoImplicit false

/-! ## The pattern -/

theorem takeWhile_closed {name : Bytes} (h : 125 ∉ name) (rest : Bytes) :
    (name ++ 125 :: rest).takeWhile (· ≠ 125) = name := by
  rw [List.takeWhile_append_of_pos]
  · simp
  · intro c hc
    exact decide_eq_true fun heq => h (heq ▸ hc)

/-- A run of characters that does not reach the end of the text ends at a `}`. -/
theorem exists_closed {text : Bytes} (h : (text.takeWhile (· ≠ 125)).length < text.length) :
    ∃ rest, text = text.takeWhile (· ≠ 125) ++ 125 :: rest := by
  induction text with
  | nil => cases h
  | cons c text ih =>
    by_cases hc : c = 125
    · subst hc
      exact ⟨text, rfl⟩
    · have hcons : (c :: text).takeWhile (· ≠ 125) = c :: text.takeWhile (· ≠ 125) :=
        List.takeWhile_cons_of_pos (decide_eq_true hc)
      rw [hcons] at h ⊢
      obtain ⟨rest, hrest⟩ := ih (Nat.lt_of_succ_lt_succ h)
      exact ⟨rest, congrArg (c :: ·) hrest⟩

/-- The pattern `\$\{([^}]+)\}`. -/
theorem matchHead_eq_some_iff {text name rest : Bytes} :
    matchHead text = some (name, rest) ↔ text = placeholder name ++ rest ∧ name ≠ [] ∧ 125 ∉ name := by
  rw [matchHead]
  constructor
  · intro h
    split at h
    · next hmatch =>
      obtain ⟨hhead, hne, hlt⟩ := hmatch
      obtain ⟨hname, hrest⟩ := Prod.mk.inj (Option.some.inj h)
      obtain ⟨rest', hclosed⟩ := exists_closed hlt
      rw [hname] at hclosed hrest hne
      have hrest' : rest' = rest := by
        rw [hclosed] at hrest
        simpa using hrest
      refine ⟨?_, hne, fun hmem => ?_⟩
      · rw [← List.take_append_drop 2 text, hhead, hclosed, hrest', placeholder]
        simp
      · rw [← hname] at hmem
        simpa using List.mem_takeWhile_imp hmem
    · cases h
  · rintro ⟨rfl, hne, hclosed⟩
    have hdrop : (placeholder name ++ rest).drop 2 = name ++ 125 :: rest := by simp [placeholder]
    rw [hdrop, takeWhile_closed hclosed, if_pos ⟨rfl, hne, by simp⟩]
    simp

theorem unbordered_placeholder {name : Bytes} (h : 125 ∉ name) : Unbordered (placeholder name) where
  ne_nil := List.cons_ne_nil _ _
  border b hbegin hend := by
    by_contra hne
    push Not at hne
    have hlast : b.getLast hne.1 = 125 := by
      rw [hend.getLast hne.1]
      simp [placeholder]
    have hinit : b <+: 36 :: 123 :: name := by
      have hlt : b.length ≤ (36 :: 123 :: name).length := by
        have hle := hbegin.length_le
        have hlength : b.length ≠ (placeholder name).length := fun heq => hne.2 (hbegin.eq_of_length heq)
        simp only [placeholder, List.length_cons, List.length_append, List.length_nil] at hle hlength ⊢
        omega
      exact List.prefix_of_prefix_length_le hbegin ⟨[125], rfl⟩ hlt
    have hmem : (125 : UInt8) ∈ 36 :: 123 :: name := hinit.subset (hlast ▸ List.getLast_mem hne.1)
    simp [h] at hmem

theorem placeholder_injective : Function.Injective placeholder := by
  intro a b h
  have h' : a ++ [125] = b ++ [125] := (List.cons.inj (List.cons.inj h).2).2
  exact List.append_cancel_right h'

/-! ## The tokens of a text -/

inductive Scans : Bytes → List Token → Prop
  | nil : Scans [] []
  | char {c : UInt8} {text : Bytes} {ts : List Token} (hmatch : matchHead (c :: text) = none) (rest : Scans text ts) :
      Scans (c :: text) (.char c :: ts)
  | placeholder {name text : Bytes} {ts : List Token} (hne : name ≠ []) (hclosed : 125 ∉ name) (rest : Scans text ts) :
      Scans (placeholder name ++ text) (.placeholder name :: ts)

theorem scans_tokens {n : ℕ} {text : Bytes} (h : text.length ≤ n) : Scans text (tokens n text) := by
  induction n generalizing text with
  | zero =>
    rw [List.length_eq_zero_iff.mp (Nat.le_zero.mp h)]
    exact .nil
  | succ n ih =>
    cases text with
    | nil => exact .nil
    | cons c text =>
      rw [tokens]
      split
      · next name rest hmatch =>
        obtain ⟨heq, hne, hclosed⟩ := matchHead_eq_some_iff.mp hmatch
        have hle : rest.length ≤ n := by
          have hlength := congrArg List.length heq
          simp only [placeholder, List.length_append, List.length_cons] at h hlength
          omega
        rw [heq]
        exact .placeholder hne hclosed (ih hle)
      · next hmatch => exact .char hmatch (ih (Nat.le_of_succ_le_succ h))

theorem scans_scan (text : Bytes) : Scans text (scan text) := scans_tokens le_rfl

namespace Scans
variable {text : Bytes} {ts : List Token}

theorem flatMap_render (h : Scans text ts) : ts.flatMap (render fun _ => none) = text := by
  induction h with
  | nil => rfl
  | char _ _ ih => rw [List.flatMap_cons, ih, render, List.singleton_append]
  | placeholder _ _ _ ih => rw [List.flatMap_cons, ih, render, Option.getD_none]

theorem match_mem {name : Bytes} (h : Scans text ts) (hmem : .placeholder name ∈ ts) :
    name ≠ [] ∧ 125 ∉ name ∧ Env.placeholder name <:+: text := by
  induction h with
  | nil => cases hmem
  | char _ _ ih =>
    obtain hmem | hmem := List.mem_cons.mp hmem
    · cases hmem
    · obtain ⟨hne, hclosed, hin⟩ := ih hmem
      exact ⟨hne, hclosed, hin.trans (List.suffix_cons _ _).isInfix⟩
  | placeholder hne hclosed _ ih =>
    obtain hmem | hmem := List.mem_cons.mp hmem
    · cases hmem
      exact ⟨hne, hclosed, (List.prefix_append _ _).isInfix⟩
    · obtain ⟨hne, hclosed, hin⟩ := ih hmem
      exact ⟨hne, hclosed, hin.trans (List.suffix_append _ _).isInfix⟩

theorem char_of_ne {c : UInt8} (h : Scans (c :: text) ts) (hc : c ≠ 36) : ∃ rest, ts = .char c :: rest := by
  generalize heq : c :: text = whole at h
  cases h with
  | nil => cases heq
  | char _ _ =>
    obtain ⟨rfl, -⟩ := List.cons.inj heq
    exact ⟨_, rfl⟩
  | placeholder _ _ _ => exact absurd (List.cons.inj heq).1 hc

/-- A text without `}` has no match. -/
theorem flatMap_open (h : Scans text ts) (hopen : 125 ∉ text) (values : Bytes → Option Bytes) :
    ts.flatMap (render values) = text := by
  refine Eq.trans (List.flatMap_congr fun token htoken => ?_) h.flatMap_render
  cases token with
  | char c => rw [render, render]
  | placeholder name =>
    have hin := (h.match_mem htoken).2.2
    exact absurd (hin.subset (by simp [Env.placeholder])) hopen

end Scans

theorem mem_matched {text name : Bytes} : name ∈ matched text ↔ .placeholder name ∈ scan text := by
  rw [matched, List.mem_filterMap]
  constructor
  · rintro ⟨token, hmem, htoken⟩
    cases token with
    | char c => cases htoken
    | placeholder n =>
      cases htoken
      exact hmem
  · intro h
    exact ⟨_, h, rfl⟩

/-! ## Placeholders among plain values -/

theorem not_other_head {name other : Bytes} (hne : name ≠ []) (hclosed : 125 ∉ name) (hne' : other ≠ [])
    (hclosed' : 125 ∉ other) (hother : name ≠ other) (rest : Bytes) : ¬ placeholder name <+: placeholder other ++ rest := by
  rintro ⟨z, hz⟩
  have hmatch : matchHead (placeholder name ++ z) = some (name, z) := matchHead_eq_some_iff.mpr ⟨rfl, hne, hclosed⟩
  have hmatch' : matchHead (placeholder other ++ rest) = some (other, rest) :=
    matchHead_eq_some_iff.mpr ⟨rfl, hne', hclosed'⟩
  rw [hz, hmatch'] at hmatch
  exact hother (Prod.mk.inj (Option.some.inj hmatch)).1.symm

/-- A `$` that begins no match begins no placeholder in the text with plain values either. -/
theorem Scans.not_placeholder_head {values : Bytes → Option Bytes} {text name : Bytes} {ts : List Token} (h : Scans text ts)
    (hplain : ∀ other value, .placeholder other ∈ ts → values other = some value → value ≠ [] ∧ 123 ∉ value)
    (hne : name ≠ []) (hclosed : 125 ∉ name) {c : UInt8} (hmatch : matchHead (c :: text) = none) :
    ¬ Env.placeholder name <+: c :: ts.flatMap (render values) := by
  rintro ⟨z, hz⟩
  obtain ⟨hc, hbrace⟩ := List.cons.inj hz
  cases h with
  | nil => cases hbrace
  | @placeholder other text ts _ _ hrest =>
    -- What follows the `$` is a placeholder or a value, and neither begins with a brace.
    rw [List.flatMap_cons, render] at hbrace
    cases hvalue : values other with
    | none =>
      rw [hvalue] at hbrace
      cases hbrace
    | some value =>
      obtain ⟨hfull, hplain⟩ := hplain other value List.mem_cons_self hvalue
      obtain ⟨first, value', rfl⟩ := List.exists_cons_of_ne_nil hfull
      rw [hvalue] at hbrace
      obtain rfl := (List.cons.inj hbrace).1
      exact hplain List.mem_cons_self
  | @char d text ts _ hrest =>
    rw [List.flatMap_cons] at hbrace
    obtain ⟨rfl, hname⟩ := List.cons.inj hbrace
    replace hname : name ++ [125] ++ z = ts.flatMap (render values) := hname
    by_cases hclose : 125 ∈ text
    · obtain ⟨group, rest, rfl, hgroup⟩ := List.eq_append_cons_of_mem hclose
      by_cases hempty : group = []
      · subst hempty
        obtain ⟨ts, rfl⟩ := hrest.char_of_ne (by decide)
        obtain ⟨first, name, rfl⟩ := List.exists_cons_of_ne_nil hne
        obtain rfl := (List.cons.inj hname).1
        exact hclosed List.mem_cons_self
      · have hsome : matchHead (c :: 123 :: (group ++ 125 :: rest)) = some (group, rest) := by
          rw [matchHead_eq_some_iff, ← hc]
          exact ⟨by simp [Env.placeholder], hempty, hgroup⟩
        rw [hsome] at hmatch
        cases hmatch
    · rw [hrest.flatMap_open hclose values] at hname
      refine hclose ?_
      rw [← hname]
      simp

/-- In a text with plain values a placeholder that is not replaced occurs only where it is matched. -/
theorem Scans.count_render {values : Bytes → Option Bytes} {text name : Bytes} {ts : List Token} (h : Scans text ts)
    (hplain : ∀ other, .placeholder other ∈ ts → 36 ∉ other ∧
      ∀ value, values other = some value → value ≠ [] ∧ 36 ∉ value ∧ 123 ∉ value)
    (hne : name ≠ []) (hclosed : 125 ∉ name) (hname : values name = none) :
    count (Env.placeholder name) (ts.flatMap (render values)) = (ts.filterMap group).count name := by
  have hunbordered := unbordered_placeholder hclosed
  induction h with
  | nil => rfl
  | @placeholder other text ts hne' hclosed' _ ih =>
    obtain ⟨hdollar, hvalues⟩ := hplain other List.mem_cons_self
    have hrest := ih fun o ho => hplain o (List.mem_cons_of_mem _ ho)
    rw [List.flatMap_cons, List.filterMap_cons_some (show group (.placeholder other) = some other from rfl), render]
    by_cases hother : other = name
    · subst hother
      rw [hname, Option.getD_none, hunbordered.count_head, hrest, List.count_cons_self, Nat.add_comm]
    · rw [List.count_cons_of_ne hother, ← hrest]
      cases hvalue : values other with
      | none =>
        have hhead : ¬ Env.placeholder name <+: 36 :: (123 :: (other ++ [125]) ++ ts.flatMap (render values)) :=
          not_other_head hne hclosed hne' hclosed' (Ne.symm hother) _
        have htail : (36 : UInt8) ∉ 123 :: (other ++ [125]) := by simp [hdollar]
        show count (Env.placeholder name) (36 :: (123 :: (other ++ [125]) ++ _)) = _
        rw [count, if_neg hhead, Nat.zero_add]
        exact count_append_of_notMem htail _
      | some value => exact count_append_of_notMem (hvalues value hvalue).2.1 _
  | @char c text ts hmatch hrest ih =>
    have hvalues : ∀ other value, .placeholder other ∈ ts → values other = some value → value ≠ [] ∧ 123 ∉ value := by
      intro other value hother hvalue
      obtain ⟨hfull, -, hbrace⟩ := (hplain other (List.mem_cons_of_mem _ hother)).2 value hvalue
      exact ⟨hfull, hbrace⟩
    have hhead := hrest.not_placeholder_head hvalues hne hclosed hmatch
    rw [List.flatMap_cons, render, List.singleton_append, count, if_neg hhead, Nat.zero_add, List.filterMap_cons_none rfl]
    exact ih fun o ho => hplain o (List.mem_cons_of_mem _ ho)

end NoncesHeatmap.Env
