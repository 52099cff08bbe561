import Mathlib.Data.List.TakeWhile

/-! # Strings as bytes, and maps of them

A C string is the list of its bytes before the terminator; `none` is the null pointer, or a null `String`.
`StringMap` is a `std::map<String, String>` in the order of `String::operator<`, which takes a null or empty
string to be neither less nor greater than any other. -/

namespace NoncesHeatmap
set_option autoImplicit false

abbrev Bytes := List UInt8

def ascii (s : String) : Bytes := s.toList.map fun c => UInt8.ofNat c.toNat

def newline : UInt8 := 10

/-- What is read of a `char` array: the bytes before the first NUL. -/
def cStr (s : Bytes) : Bytes := s.takeWhile (· ≠ 0)

/-- `String(const char *)`: a string without characters is null. -/
def ofCString (s : Bytes) : Option Bytes := if s = [] then none else some s

/-- `String::operator<` -/
def StringLess (a b : Option Bytes) : Prop := a.getD [] ≠ [] ∧ b.getD [] ≠ [] ∧ a.getD [] < b.getD []

instance (a b : Option Bytes) : Decidable (StringLess a b) := inferInstanceAs (Decidable (_ ∧ _ ∧ _))

theorem StringLess.trans {a b c : Option Bytes} (hab : StringLess a b) (hbc : StringLess b c) : StringLess a c :=
  ⟨hab.1, hbc.2.1, List.lt_trans hab.2.2 hbc.2.2⟩

structure StringMap where
  entries : List (Option Bytes × Option Bytes)
  sorted : entries.Pairwise fun a b => StringLess a.1 b.1

namespace StringMap

def empty : StringMap := ⟨[], List.Pairwise.nil⟩

/-- The entries before the lower bound of a key, and those from it on. -/
def below (m : StringMap) (key : Option Bytes) : List (Option Bytes × Option Bytes) :=
  m.entries.takeWhile fun entry => StringLess entry.1 key

def above (m : StringMap) (key : Option Bytes) : List (Option Bytes × Option Bytes) :=
  m.entries.dropWhile fun entry => StringLess entry.1 key

def find (m : StringMap) (key : Option Bytes) : Option (Option Bytes) :=
  match m.above key with
  | [] => none
  | entry :: _ => if StringLess key entry.1 then none else some entry.2

theorem below_append_above (m : StringMap) (key : Option Bytes) : m.below key ++ m.above key = m.entries :=
  List.takeWhile_append_dropWhile

theorem below_less {m : StringMap} {key : Option Bytes} {entry : Option Bytes × Option Bytes} (h : entry ∈ m.below key) :
    StringLess entry.1 key :=
  of_decide_eq_true (List.mem_takeWhile_imp (p := fun entry : Option Bytes × Option Bytes => decide (StringLess entry.1 key)) h)

/-- A key that is not found is less than every entry from its lower bound on. -/
theorem less_above {m : StringMap} {key : Option Bytes} (h : m.find key = none) : ∀ entry ∈ m.above key, StringLess key entry.1 := by
  have hsorted := m.sorted
  rw [← m.below_append_above key, List.pairwise_append] at hsorted
  obtain ⟨-, habove, -⟩ := hsorted
  rw [find] at h
  split at h
  · next hempty =>
    rw [hempty]
    exact fun _ hentry => absurd hentry List.not_mem_nil
  · next first rest hfirst =>
    split at h
    · next hless =>
      rw [hfirst, List.pairwise_cons] at habove
      rw [hfirst]
      intro entry hentry
      obtain rfl | hentry := List.mem_cons.mp hentry
      · exact hless
      · exact hless.trans (habove.1 entry hentry)
    · cases h

/-- `std::map::insert`: a key that is found stays as it is. -/
def insert (m : StringMap) (key value : Option Bytes) : StringMap :=
  if h : m.find key = none then
    { entries := m.below key ++ (key, value) :: m.above key
      sorted := by
        have hsorted := m.sorted
        rw [← m.below_append_above key, List.pairwise_append] at hsorted
        obtain ⟨hbelow, habove, hcross⟩ := hsorted
        refine List.pairwise_append.mpr ⟨hbelow, List.pairwise_cons.mpr ⟨less_above h, habove⟩, ?_⟩
        intro entry hentry other hother
        obtain rfl | hother := List.mem_cons.mp hother
        · exact below_less hentry
        · exact hcross entry hentry other hother }
  else m

end StringMap
end NoncesHeatmap
