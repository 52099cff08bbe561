import Mathlib.Data.List.TakeWhile
import Mathlib.Data.List.Count

/-! # Lines of a text

`Line sep text before line after`: the text has a line between two separators, or the ends of the text.
The separator that ends a line counts as its last position.
-/

namespace NoncesHeatmap.Lines
set_option autoImplicit false

universe u
variable {α : Type u} {sep : α} {text before line after rest : List α} {offset : ℕ}

/-- What stands before a line. -/
def Begins (sep : α) (before : List α) : Prop := before = [] ∨ ∃ earlier, before = earlier ++ [sep]

structure Line (sep : α) (text before line after : List α) : Prop where
  split : text = before ++ line ++ after
  free : sep ∉ line
  begins : Begins sep before
  ends : after = [] ∨ ∃ later, after = sep :: later

/-- A position of the line, its end included. -/
def Within (before line : List α) (offset : ℕ) : Prop :=
  before.length ≤ offset ∧ offset ≤ before.length + line.length

/-- The rest of a text that has no separator is its last line. -/
theorem Line.last (hsplit : text = before ++ rest) (hbegins : Begins sep before) (hfree : sep ∉ rest) :
    Line sep text before rest [] :=
  ⟨by rw [hsplit, List.append_nil], hfree, hbegins, Or.inl rfl⟩

theorem Line.next (hsplit : text = before ++ (line ++ sep :: rest)) (hbegins : Begins sep before) (hfree : sep ∉ line) :
    Line sep text before line (sep :: rest) :=
  ⟨by rw [hsplit, List.append_assoc], hfree, hbegins, Or.inr ⟨rest, rfl⟩⟩

/-- The separators before a position are those before its line. -/
theorem Line.count_take [BEq α] [LawfulBEq α] (h : Line sep text before line after) (hoffset : Within before line offset) :
    (text.take offset).count sep = before.count sep := by
  obtain ⟨hmin, hmax⟩ := hoffset
  have htake : text.take offset = before ++ line.take (offset - before.length) := by
    rw [h.split, List.append_assoc, List.take_append, List.take_of_length_le hmin, List.take_append]
    have hzero : offset - before.length - line.length = 0 := by omega
    rw [hzero, List.take_zero, List.append_nil]
  have hfree : sep ∉ line.take (offset - before.length) := fun hmem => h.free (List.mem_of_mem_take hmem)
  rw [htake, List.count_append, List.count_eq_zero_of_not_mem hfree, Nat.add_zero]

/-- The element at a position of a line, or what ends the line. -/
theorem Line.getElem? (h : Line sep text before line after) (hmin : before.length ≤ offset) :
    (offset < before.length + line.length → (line)[offset - before.length]? = text[offset]?) ∧
      (offset = before.length + line.length → text[offset]? = none ∨ text[offset]? = some sep) := by
  have hrest : text[offset]? = (line ++ after)[offset - before.length]? := by
    rw [h.split, List.append_assoc, List.getElem?_append_right hmin]
  constructor
  · intro hlt
    rw [hrest, List.getElem?_append_left (by omega)]
  · intro heq
    have hend : offset - before.length = line.length := by omega
    rw [hrest, hend, List.getElem?_append_right le_rfl, Nat.sub_self]
    obtain rfl | ⟨later, rfl⟩ := h.ends
    · exact Or.inl rfl
    · exact Or.inr rfl

end NoncesHeatmap.Lines
