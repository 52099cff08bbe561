import NoncesHeatmap.Base.Json

/-! # The nonces file

`Nonces::load` takes every element of the array for an unsigned number without a test, and the assertion
that would test it is compiled out. What `GetUint()` finds in a value of another type is the parameter
`raw`. A file is the document it holds, if it can be read and parsed. -/

namespace NoncesHeatmap.Nonces
set_option autoImplicit false

/-- `Json::get` -/
def document (file : Option Value) : Option Value := file.filter fun doc => doc.isObject || doc.isArray

def getUint (raw : Value → ℕ) (nonce : Value) : ℕ := nonce.asUint.getD (u32 (raw nonce))

/-- The elements that `GetUint()` is applied to. -/
def readElements (file : Option Value) : List Value :=
  match document file with
  | some doc => doc.getArray
  | none => []

/-- `load()` into `m_data`. -/
def load (raw : Value → ℕ) (file : Option Value) (data : List ℕ) : List ℕ :=
  match document file with
  | some doc => if doc.isArray then doc.getArray.map (getUint raw) else data
  | none => data

/-- The document of `save()`. -/
def save (data : List ℕ) : Value := .array (data.map fun nonce : ℕ => .int nonce)

/-- A fresh object is left empty or has exactly the numbers of the array, and nothing else is read as a
number. -/
structure LoadsWhole (raw : Value → ℕ) (file : Option Value) : Prop where
  data : load raw file [] = [] ∨
    ∃ elements, file = some (.array elements) ∧ elements.map Value.asUint = (load raw file []).map some
  read : ∀ nonce ∈ readElements file, nonce.asUint ≠ none

theorem load_array (raw : Value → ℕ) (elements : List Value) (data : List ℕ) :
    load raw (some (.array elements)) data = elements.map (getUint raw) := rfl

theorem getUint_eq {raw : Value → ℕ} {nonce : Value} (h : nonce.asUint ≠ none) :
    nonce.asUint = some (getUint raw nonce) := by
  obtain ⟨n, hn⟩ := Option.ne_none_iff_exists'.mp h
  rw [getUint, hn]
  rfl

/-- A file that is no array is not read. -/
theorem load_other {raw : Value → ℕ} {file : Option Value} (h : ∀ elements, file ≠ some (.array elements))
    (data : List ℕ) : load raw file data = data ∧ readElements file = [] := by
  cases file with
  | none => exact ⟨rfl, rfl⟩
  | some doc =>
    cases doc with
    | array elements => exact absurd rfl (h elements)
    | object members => exact ⟨rfl, rfl⟩
    | _ => exact ⟨rfl, rfl⟩

theorem loadsWhole_iff (raw : Value → ℕ) (file : Option Value) :
    LoadsWhole raw file ↔ ∀ elements, file = some (.array elements) → ∀ nonce ∈ elements, nonce.asUint ≠ none := by
  constructor
  · rintro h elements rfl
    exact h.read
  · intro h
    by_cases harray : ∃ elements, file = some (.array elements)
    · obtain ⟨elements, rfl⟩ := harray
      have hread := h elements rfl
      refine ⟨Or.inr ⟨elements, rfl, ?_⟩, hread⟩
      rw [load_array, List.map_map]
      exact List.map_congr_left fun nonce hnonce => getUint_eq (hread nonce hnonce)
    · push Not at harray
      obtain ⟨hload, hread⟩ := load_other harray []
      refine ⟨Or.inl hload, ?_⟩
      rw [hread]
      exact fun nonce hnonce => absurd hnonce List.not_mem_nil

theorem load_save (raw : Value → ℕ) {data : List ℕ} (h : ∀ nonce ∈ data, nonce < 2 ^ 32) (old : List ℕ) :
    load raw (some (save data)) old = data := by
  rw [save, load_array]
  induction data with
  | nil => rfl
  | cons nonce data ih =>
    have hnonce : getUint raw (.int nonce) = nonce := by
      rw [getUint, Value.asUint_nat (h nonce List.mem_cons_self)]
      rfl
    rw [List.map_cons, List.map_cons, hnonce, ih fun n hn => h n (List.mem_cons_of_mem _ hn)]

/-- **The nonces file is loaded as a whole or not at all.** -/
theorem loads_whole_iff (raw : Value → ℕ) :
    (∀ file, LoadsWhole raw file ↔
      ∀ elements, file = some (.array elements) → ∀ nonce ∈ elements, nonce.asUint ≠ none) ∧
      ∀ data : List ℕ, (∀ nonce ∈ data, nonce < 2 ^ 32) → load raw (some (save data)) [] = data :=
  ⟨loadsWhole_iff raw, fun _ h => load_save raw h []⟩

theorem loads_whole_iff_two :
    LoadsWhole (fun _ => 0) (some (.array [.int 5, .int 4294967295])) ∧
      load (fun _ => 0) (some (save [5, 4294967295])) [] = [5, 4294967295] :=
  ⟨((loads_whole_iff fun _ => 0).1 _).mpr (by rintro _ ⟨⟩; decide), (loads_whole_iff fun _ => 0).2 _ (by decide)⟩

/-- A number of 33 bits in the array. -/
theorem load_reinterprets :
    ¬ LoadsWhole (fun _ => 0) (some (.array [.int 5, .int 4294967296])) ∧
      load (fun _ => 0) (some (.array [.int 5, .int 4294967296])) [] = [5, 0] := by
  refine ⟨fun h => ?_, by decide⟩
  exact absurd rfl (h.read (.int 4294967296) (List.mem_cons_of_mem _ (List.mem_singleton_self _)))

end NoncesHeatmap.Nonces
