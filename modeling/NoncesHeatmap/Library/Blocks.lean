import Mathlib.Algebra.BigOperators.Group.Finset.Basic
import Mathlib.Algebra.Order.Interval.Finset.Basic
import Mathlib.Data.List.GetD
import Mathlib.Order.Interval.Finset.Nat
import Mathlib.Tactic.NormNum

/-! # Blocks of memory

Ranges of addresses of one size, which do not overlap and lie between 1 and a limit (`Placed`). Each block
is cut into `per` chunks of `size` bytes, which are numbered through all blocks (`chunkAt`):

* `Placed.length_mul_le`: all blocks together have no more bytes than there are addresses.
* `chunkAt_within`: a chunk is inside its block.
* `Placed.chunks_apart`: two chunks of different numbers do not overlap.
-/

namespace NoncesHeatmap.Blocks
set_option autoImplicit false

/-- The ranges of `size` bytes from `a` and from `b` on do not overlap. -/
def Apart (size a b : ℕ) : Prop := a + size ≤ b ∨ b + size ≤ a

theorem Apart.symm {size a b : ℕ} (h : Apart size a b) : Apart size b a := Or.symm h

theorem Apart.ne {size a b : ℕ} (hsize : 0 < size) (h : Apart size a b) : a ≠ b := by
  rintro rfl
  obtain h | h := h
  · omega
  · omega

structure Placed (limit size : ℕ) (blocks : List ℕ) : Prop where
  inside : ∀ block ∈ blocks, 1 ≤ block ∧ block + size ≤ limit
  apart : blocks.Pairwise (Apart size)

theorem placed_nil (limit size : ℕ) : Placed limit size [] := ⟨fun _ h => absurd h List.not_mem_nil, List.Pairwise.nil⟩

variable {limit size per : ℕ} {blocks : List ℕ}

theorem Placed.snoc (h : Placed limit size blocks) {block : ℕ} (hinside : 1 ≤ block ∧ block + size ≤ limit)
    (hapart : ∀ other ∈ blocks, Apart size other block) : Placed limit size (blocks ++ [block]) := by
  refine ⟨?_, ?_⟩
  · intro other hother
    obtain hold | hnew := List.mem_append.mp hother
    · exact h.inside other hold
    · rw [List.mem_singleton.mp hnew]
      exact hinside
  · rw [List.pairwise_append]
    refine ⟨h.apart, List.pairwise_singleton _ _, fun other hother new hnew => ?_⟩
    rw [List.mem_singleton.mp hnew]
    exact hapart other hother

theorem Placed.apart_getElem (h : Placed limit size blocks) {i j : ℕ} (hi : i < blocks.length) (hj : j < blocks.length)
    (hne : i ≠ j) : Apart size blocks[i] blocks[j] := by
  obtain hlt | hgt := Nat.lt_or_gt_of_ne hne
  · exact List.pairwise_iff_getElem.mp h.apart i j hi hj hlt
  · exact (List.pairwise_iff_getElem.mp h.apart j i hj hi hgt).symm

/-- By counting the addresses of the blocks. -/
theorem Placed.length_mul_le (h : Placed limit size blocks) : blocks.length * size ≤ limit - 1 := by
  have hdisjoint : ∀ i ∈ (Finset.univ : Finset (Fin blocks.length)), ∀ j ∈ Finset.univ, i ≠ j →
      Disjoint (Finset.Ico blocks[i] (blocks[i] + size)) (Finset.Ico blocks[j] (blocks[j] + size)) := by
    intro i _ j _ hne
    rw [Finset.disjoint_left]
    intro address hi hj
    rw [Finset.mem_Ico] at hi hj
    have hapart := h.apart_getElem i.isLt j.isLt fun heq => hne (Fin.ext heq)
    obtain h | h := hapart
    · exact absurd hi.2 (not_lt.mpr (h.trans hj.1))
    · exact absurd hj.2 (not_lt.mpr (h.trans hi.1))
  have hsubset : (Finset.univ.biUnion fun i : Fin blocks.length => Finset.Ico blocks[i] (blocks[i] + size)) ⊆
      Finset.Ico 1 limit := by
    intro address hmem
    obtain ⟨i, -, hi⟩ := Finset.mem_biUnion.mp hmem
    obtain ⟨hmin, hmax⟩ := h.inside blocks[i] (List.getElem_mem i.isLt)
    rw [Finset.mem_Ico] at hi ⊢
    omega
  have hcard := Finset.card_le_card hsubset
  rw [Finset.card_biUnion hdisjoint, Nat.card_Ico] at hcard
  simpa using hcard

/-! ## Chunks -/

/-- The address of a chunk. -/
def chunkAt (blocks : List ℕ) (per size i : ℕ) : ℕ := blocks.getD (i / per) 0 + i % per * size

theorem div_lt_length {i : ℕ} (hi : i < blocks.length * per) : i / per < blocks.length :=
  Nat.div_lt_of_lt_mul (by rwa [Nat.mul_comm])

theorem chunkAt_append {i : ℕ} (hi : i < blocks.length * per) (more : List ℕ) :
    chunkAt (blocks ++ more) per size i = chunkAt blocks per size i := by
  rw [chunkAt, chunkAt, List.getD_append _ _ _ _ (div_lt_length hi)]

theorem chunkAt_within (blocks : List ℕ) (size : ℕ) (hper : 0 < per) (i : ℕ) :
    blocks.getD (i / per) 0 ≤ chunkAt blocks per size i ∧
      chunkAt blocks per size i + size ≤ blocks.getD (i / per) 0 + per * size := by
  have hrest : (i % per + 1) * size ≤ per * size := Nat.mul_le_mul_right size (Nat.mod_lt i hper)
  rw [Nat.add_mul, Nat.one_mul] at hrest
  rw [chunkAt]
  omega

theorem Placed.chunks_apart (h : Placed limit (per * size) blocks) (hper : 0 < per) {i j : ℕ}
    (hi : i < blocks.length * per) (hj : j < blocks.length * per) (hne : i ≠ j) :
    Apart size (chunkAt blocks per size i) (chunkAt blocks per size j) := by
  by_cases hblock : i / per = j / per
  · have hrest : i % per ≠ j % per := by
      intro heq
      apply hne
      rw [← Nat.div_add_mod i per, ← Nat.div_add_mod j per, hblock, heq]
    rw [Apart, chunkAt, chunkAt, hblock]
    obtain hlt | hgt := Nat.lt_or_gt_of_ne hrest
    · have hmul : (i % per + 1) * size ≤ j % per * size := Nat.mul_le_mul_right size hlt
      rw [Nat.add_mul, Nat.one_mul] at hmul
      omega
    · have hmul : (j % per + 1) * size ≤ i % per * size := Nat.mul_le_mul_right size hgt
      rw [Nat.add_mul, Nat.one_mul] at hmul
      omega
  · have hi' := div_lt_length hi
    have hj' := div_lt_length hj
    have hapart := h.apart_getElem hi' hj' hblock
    obtain ⟨himin, himax⟩ := chunkAt_within blocks size hper i
    obtain ⟨hjmin, hjmax⟩ := chunkAt_within blocks size hper j
    rw [List.getD_eq_getElem _ _ hi'] at himin himax
    rw [List.getD_eq_getElem _ _ hj'] at hjmin hjmax
    obtain h | h := hapart
    · exact Or.inl (by omega)
    · exact Or.inr (by omega)

end NoncesHeatmap.Blocks
