import Mathlib.Data.Finset.Max
import Std.Data.TreeMap.Lemmas
import NoncesHeatmap.Base.Json
import NoncesHeatmap.Library.Blocks
import NoncesHeatmap.Library.Runs

/-! # `MemPool`

Chunks of `CHUNK_SIZE` bytes, which are cut out of blocks of `INIT_SIZE` chunks. A pointer is its address.
Where `m_data[index]` puts a new block is a parameter of `allocate()`. `NetBuffer` has one pool. -/

namespace NoncesHeatmap
open Runs Blocks
set_option autoImplicit false

/-- `m_data` is a map whose keys are 0, 1, 2, and so on: the list of the addresses of its arrays. -/
structure MemPool where
  used : Std.TreeMap ℕ ℕ
  data : List ℕ
  free : Finset ℕ

namespace MemPool

def empty : MemPool := ⟨∅, [], ∅⟩

variable (CHUNK_SIZE INIT_SIZE : ℕ)

def freeSize (pool : MemPool) : ℕ := u64 (pool.free.card * CHUNK_SIZE)

def size (pool : MemPool) : ℕ := u64 (u64 (pool.data.length * CHUNK_SIZE) * INIT_SIZE)

def resize (block : ℕ) (pool : MemPool) : MemPool :=
  let index := pool.data.length
  { pool with
    data := pool.data ++ [block]
    free := (List.range INIT_SIZE).foldl (fun free i => insert (u64 (u64 (index * INIT_SIZE) + i)) free) pool.free }

/-- The chunk `i` is taken. `none` is an undefined access to a block that does not exist. -/
def take (i : ℕ) (pool : MemPool) : Option (ℕ × MemPool) :=
  let r := i / INIT_SIZE
  pool.data[r]?.map fun data =>
    let ptr := data + u64 ((i - r * INIT_SIZE) * CHUNK_SIZE)
    (ptr, { pool with used := pool.used.insertIfNew ptr i, free := pool.free.erase i })

/-- `none` is also the first element of a set that is empty. -/
def allocate (block : ℕ) (pool : MemPool) : Option (ℕ × MemPool) :=
  let pool := if pool.free = ∅ then resize INIT_SIZE block pool else pool
  if h : pool.free.Nonempty then take CHUNK_SIZE INIT_SIZE (pool.free.min' h) pool else none

/-- `m_used[ptr]` is 0 for a pointer that is not in the map, which the assertion excludes. -/
def deallocate (ptr : ℕ) (pool : MemPool) : MemPool :=
  if ptr = 0 then pool
  else { pool with free := insert (pool.used[ptr]?.getD 0) pool.free, used := pool.used.erase ptr }

end MemPool

/-- Whether the assertion in `NetBuffer::destroy` holds. -/
def destroyAsserts (CHUNK_SIZE INIT_SIZE : ℕ) (pool : Option MemPool) : Prop :=
  match pool with
  | none => True
  | some pool => pool.freeSize CHUNK_SIZE = pool.size CHUNK_SIZE INIT_SIZE

/-! ## Calls -/

/-- The pool, and the chunks that were handed out and not yet given back. -/
structure PoolState where
  pool : MemPool
  live : Finset ℕ

inductive PoolCall where
  | allocate (block : ℕ)
  | deallocate (ptr : ℕ)

namespace PoolState
variable (CHUNK_SIZE INIT_SIZE : ℕ)

def start : PoolState := ⟨.empty, ∅⟩

/-- A new array is an object of its own: it is at an address and does not overlap the others. -/
def Fresh (block : ℕ) (pool : MemPool) : Prop :=
  (1 ≤ block ∧ block + INIT_SIZE * CHUNK_SIZE ≤ 2 ^ 64) ∧
    ∀ other ∈ pool.data, Apart (INIT_SIZE * CHUNK_SIZE) other block

def enabled (s : PoolState) : PoolCall → Prop
  | .allocate block => s.pool.free = ∅ → Fresh CHUNK_SIZE INIT_SIZE block s.pool
  | .deallocate ptr => ptr = 0 ∨ ptr ∈ s.live

def next (s : PoolState) : PoolCall → PoolState
  | .allocate block =>
    match s.pool.allocate CHUNK_SIZE INIT_SIZE block with
    | some (ptr, pool) => ⟨pool, insert ptr s.live⟩
    | none => s
  | .deallocate ptr => ⟨s.pool.deallocate ptr, s.live.erase ptr⟩

def machine : Machine PoolState PoolCall where
  enabled := enabled CHUNK_SIZE INIT_SIZE
  next := next CHUNK_SIZE INIT_SIZE

end PoolState

/-! ## The invariant -/

namespace MemPool
variable {CHUNK_SIZE INIT_SIZE : ℕ} {pool : MemPool} {i j ptr block : ℕ}

def chunk (CHUNK_SIZE INIT_SIZE : ℕ) (pool : MemPool) (i : ℕ) : ℕ := chunkAt pool.data INIT_SIZE CHUNK_SIZE i

/-- Each chunk is free, or is used under its address. -/
structure Valid (CHUNK_SIZE INIT_SIZE : ℕ) (pool : MemPool) : Prop where
  placed : Placed (2 ^ 64) (INIT_SIZE * CHUNK_SIZE) pool.data
  free_lt : ∀ i ∈ pool.free, i < pool.data.length * INIT_SIZE
  used_iff : ∀ ptr i, pool.used[ptr]? = some i ↔
    i < pool.data.length * INIT_SIZE ∧ i ∉ pool.free ∧ ptr = pool.chunk CHUNK_SIZE INIT_SIZE i
  count : pool.free.card + pool.used.size = pool.data.length * INIT_SIZE

theorem valid_empty : Valid CHUNK_SIZE INIT_SIZE empty where
  placed := placed_nil _ _
  free_lt i hi := absurd hi (Finset.notMem_empty i)
  used_iff ptr i := by
    have hnone : empty.used[ptr]? = none := Std.TreeMap.getElem?_emptyc
    rw [hnone]
    exact iff_of_false (by simp) (by simp [empty])
  count := by simp [empty]

/-- All bytes of the blocks have addresses. -/
theorem Valid.bytes_lt (h : Valid CHUNK_SIZE INIT_SIZE pool) :
    pool.data.length * INIT_SIZE * CHUNK_SIZE < 2 ^ 64 := by
  have hle := h.placed.length_mul_le
  rw [← Nat.mul_assoc] at hle
  omega

theorem Valid.chunk_inj (h : Valid CHUNK_SIZE INIT_SIZE pool) (hchunk : 1 ≤ CHUNK_SIZE) (hinit : 1 ≤ INIT_SIZE)
    (hi : i < pool.data.length * INIT_SIZE) (hj : j < pool.data.length * INIT_SIZE)
    (heq : pool.chunk CHUNK_SIZE INIT_SIZE i = pool.chunk CHUNK_SIZE INIT_SIZE j) : i = j := by
  by_contra hne
  exact (h.placed.chunks_apart hinit hi hj hne).ne hchunk heq

/-! ## `resize` -/

theorem mem_emplaced (first : ℕ) (free : Finset ℕ) (count x : ℕ) :
    x ∈ (List.range count).foldl (fun free i => insert (u64 (u64 first + i)) free) free ↔
      x ∈ free ∨ ∃ i < count, x = u64 (u64 first + i) := by
  induction count with
  | zero => simp
  | succ count ih =>
    rw [List.range_succ, List.foldl_append, List.foldl_cons, List.foldl_nil, Finset.mem_insert, ih]
    constructor
    · rintro (rfl | hfree | ⟨i, hi, rfl⟩)
      · exact Or.inr ⟨count, Nat.lt_succ_self count, rfl⟩
      · exact Or.inl hfree
      · exact Or.inr ⟨i, Nat.lt_succ_of_lt hi, rfl⟩
    · rintro (hfree | ⟨i, hi, rfl⟩)
      · exact Or.inr (Or.inl hfree)
      · obtain hlt | rfl := Nat.lt_succ_iff_lt_or_eq.mp hi
        · exact Or.inr (Or.inr ⟨i, hlt, rfl⟩)
        · exact Or.inl rfl

/-- The new block has the chunks that follow those of the blocks before it. -/
theorem resize_free (block : ℕ) (hempty : pool.free = ∅) (hfit : pool.data.length * INIT_SIZE + INIT_SIZE ≤ 2 ^ 64) :
    (resize INIT_SIZE block pool).free =
      Finset.Ico (pool.data.length * INIT_SIZE) (pool.data.length * INIT_SIZE + INIT_SIZE) := by
  have hnumber : ∀ i < INIT_SIZE,
      u64 (u64 (pool.data.length * INIT_SIZE) + i) = pool.data.length * INIT_SIZE + i := by
    intro i hi
    rw [u64_of_lt (by omega : pool.data.length * INIT_SIZE < 2 ^ 64), u64_of_lt (by omega)]
  ext x
  show x ∈ (List.range INIT_SIZE).foldl _ pool.free ↔ _
  rw [mem_emplaced, hempty, Finset.mem_Ico]
  constructor
  · rintro (hnone | ⟨i, hi, rfl⟩)
    · exact absurd hnone (Finset.notMem_empty x)
    · rw [hnumber i hi]
      omega
  · rintro ⟨hmin, hmax⟩
    refine Or.inr ⟨x - pool.data.length * INIT_SIZE, by omega, ?_⟩
    rw [hnumber _ (by omega)]
    omega

theorem valid_resize (h : Valid CHUNK_SIZE INIT_SIZE pool) (hchunk : 1 ≤ CHUNK_SIZE) (hempty : pool.free = ∅)
    (hfresh : PoolState.Fresh CHUNK_SIZE INIT_SIZE block pool) :
    Valid CHUNK_SIZE INIT_SIZE (resize INIT_SIZE block pool) := by
  have hplaced : Placed (2 ^ 64) (INIT_SIZE * CHUNK_SIZE) (pool.data ++ [block]) :=
    h.placed.snoc hfresh.1 hfresh.2
  have hlength : (pool.data ++ [block]).length * INIT_SIZE = pool.data.length * INIT_SIZE + INIT_SIZE := by
    rw [List.length_append, List.length_singleton, Nat.add_mul, Nat.one_mul]
  have hfit : pool.data.length * INIT_SIZE + INIT_SIZE ≤ 2 ^ 64 := by
    have hbytes := hplaced.length_mul_le
    rw [← Nat.mul_assoc, hlength] at hbytes
    have hle := Nat.le_mul_of_pos_right (pool.data.length * INIT_SIZE + INIT_SIZE) hchunk
    omega
  have hfree := resize_free block hempty hfit
  refine ⟨hplaced, ?_, ?_, ?_⟩
  · intro i hi
    rw [hfree, Finset.mem_Ico] at hi
    exact lt_of_lt_of_eq hi.2 hlength.symm
  · intro ptr i
    show pool.used[ptr]? = some i ↔ i < (pool.data ++ [block]).length * INIT_SIZE ∧ i ∉ _ ∧
      ptr = chunkAt (pool.data ++ [block]) INIT_SIZE CHUNK_SIZE i
    rw [h.used_iff, hempty, hfree, hlength, Finset.mem_Ico]
    constructor
    · rintro ⟨hi, -, hptr⟩
      rw [chunkAt_append hi]
      exact ⟨by omega, by omega, hptr⟩
    · rintro ⟨hi, hnot, hptr⟩
      have hold : i < pool.data.length * INIT_SIZE := by omega
      rw [chunkAt_append hold] at hptr
      exact ⟨hold, Finset.notMem_empty i, hptr⟩
  · have hcount := h.count
    rw [hempty, Finset.card_empty] at hcount
    show (resize INIT_SIZE block pool).free.card + pool.used.size = (pool.data ++ [block]).length * INIT_SIZE
    rw [hfree, Nat.card_Ico, hlength]
    omega

/-! ## `allocate` -/

theorem Valid.not_used (h : Valid CHUNK_SIZE INIT_SIZE pool) (hchunk : 1 ≤ CHUNK_SIZE) (hinit : 1 ≤ INIT_SIZE)
    (hi : i ∈ pool.free) : pool.used[pool.chunk CHUNK_SIZE INIT_SIZE i]? = none := by
  rw [Option.eq_none_iff_forall_ne_some]
  intro j hused
  obtain ⟨hj, hnot, heq⟩ := (h.used_iff _ j).mp hused
  exact hnot (h.chunk_inj hchunk hinit (h.free_lt i hi) hj heq ▸ hi)

/-- A free chunk is taken out of its block. -/
theorem take_eq (h : Valid CHUNK_SIZE INIT_SIZE pool) (hi : i ∈ pool.free) :
    take CHUNK_SIZE INIT_SIZE i pool =
      some (pool.chunk CHUNK_SIZE INIT_SIZE i,
        { pool with
          used := pool.used.insertIfNew (pool.chunk CHUNK_SIZE INIT_SIZE i) i
          free := pool.free.erase i }) := by
  have hlt := h.free_lt i hi
  have hblock := div_lt_length hlt
  have hrest : i - i / INIT_SIZE * INIT_SIZE = i % INIT_SIZE := by
    have hdiv := Nat.div_add_mod' i INIT_SIZE
    omega
  have hoffset : i % INIT_SIZE * CHUNK_SIZE < 2 ^ 64 := by
    have hle : i % INIT_SIZE * CHUNK_SIZE ≤ pool.data.length * INIT_SIZE * CHUNK_SIZE :=
      Nat.mul_le_mul_right CHUNK_SIZE ((Nat.mod_le i INIT_SIZE).trans hlt.le)
    exact lt_of_le_of_lt hle h.bytes_lt
  have haddress : pool.data[i / INIT_SIZE] + u64 ((i - i / INIT_SIZE * INIT_SIZE) * CHUNK_SIZE) =
      pool.chunk CHUNK_SIZE INIT_SIZE i := by
    rw [hrest, u64_of_lt hoffset, chunk, chunkAt, List.getD_eq_getElem _ _ hblock]
  rw [take, List.getElem?_eq_getElem hblock, Option.map_some, haddress]

theorem valid_take (h : Valid CHUNK_SIZE INIT_SIZE pool) (hchunk : 1 ≤ CHUNK_SIZE) (hinit : 1 ≤ INIT_SIZE)
    (hi : i ∈ pool.free) :
    Valid CHUNK_SIZE INIT_SIZE
      { pool with
        used := pool.used.insertIfNew (pool.chunk CHUNK_SIZE INIT_SIZE i) i
        free := pool.free.erase i } := by
  have hnone := h.not_used hchunk hinit hi
  have hnot : pool.chunk CHUNK_SIZE INIT_SIZE i ∉ pool.used := by
    rw [Std.TreeMap.mem_iff_isSome_getElem?, hnone]
    exact Bool.false_ne_true
  refine ⟨h.placed, fun j hj => h.free_lt j (Finset.mem_of_mem_erase hj), ?_, ?_⟩
  · intro ptr j
    show (pool.used.insertIfNew _ i)[ptr]? = some j ↔ j < pool.data.length * INIT_SIZE ∧ j ∉ pool.free.erase i ∧
      ptr = pool.chunk CHUNK_SIZE INIT_SIZE j
    rw [Std.TreeMap.getElem?_insertIfNew, Finset.mem_erase]
    by_cases hptr : pool.chunk CHUNK_SIZE INIT_SIZE i = ptr
    · subst hptr
      rw [if_pos ⟨Std.ReflCmp.compare_self, hnot⟩]
      constructor
      · intro heq
        obtain rfl := Option.some.inj heq
        exact ⟨h.free_lt i hi, fun hmem => hmem.1 rfl, rfl⟩
      · rintro ⟨hj, -, heq⟩
        rw [h.chunk_inj hchunk hinit (h.free_lt i hi) hj heq]
    · rw [if_neg fun hmem => hptr (Std.LawfulEqCmp.eq_of_compare hmem.1), h.used_iff]
      refine and_congr_right fun _ => ?_
      constructor
      · rintro ⟨hfree, heq⟩
        exact ⟨fun hmem => hfree hmem.2, heq⟩
      · rintro ⟨herase, heq⟩
        refine ⟨fun hmem => herase ⟨?_, hmem⟩, heq⟩
        rintro rfl
        exact hptr heq.symm
  · have hcount := h.count
    have hcard := Finset.card_erase_add_one hi
    show (pool.free.erase i).card + (pool.used.insertIfNew _ i).size = pool.data.length * INIT_SIZE
    rw [Std.TreeMap.size_insertIfNew, if_neg hnot]
    omega

/-- A pool with a free chunk: the pool itself, or what `resize()` makes of it. -/
theorem grow_cases (h : Valid CHUNK_SIZE INIT_SIZE pool) (hchunk : 1 ≤ CHUNK_SIZE) (hinit : 1 ≤ INIT_SIZE)
    (hfresh : pool.free = ∅ → PoolState.Fresh CHUNK_SIZE INIT_SIZE block pool) :
    ∃ grown, grown = (if pool.free = ∅ then resize INIT_SIZE block pool else pool) ∧
      Valid CHUNK_SIZE INIT_SIZE grown ∧ grown.free.Nonempty ∧ grown.used = pool.used ∧
      (grown.data = pool.data ∨ pool.free = ∅ ∧ grown.data = pool.data ++ [block]) := by
  refine ⟨_, rfl, ?_⟩
  by_cases hempty : pool.free = ∅
  · rw [if_pos hempty]
    have hvalid := valid_resize h hchunk hempty (hfresh hempty)
    have hnonempty : 0 < (resize INIT_SIZE block pool).free.card := by
      have hcount := h.count
      have hcount' := hvalid.count
      have hlength : (resize INIT_SIZE block pool).data.length = pool.data.length + 1 := List.length_append
      have hused : (resize INIT_SIZE block pool).used.size = pool.used.size := rfl
      rw [hempty, Finset.card_empty] at hcount
      rw [hlength, Nat.add_mul, Nat.one_mul] at hcount'
      omega
    exact ⟨hvalid, Finset.card_pos.mp hnonempty, rfl, Or.inr ⟨hempty, rfl⟩⟩
  · rw [if_neg hempty]
    exact ⟨h, Finset.nonempty_iff_ne_empty.mpr hempty, rfl, Or.inl rfl⟩

theorem Valid.chunk_ne_zero (h : Valid CHUNK_SIZE INIT_SIZE pool) (hinit : 1 ≤ INIT_SIZE)
    (hi : i < pool.data.length * INIT_SIZE) : pool.chunk CHUNK_SIZE INIT_SIZE i ≠ 0 := by
  have hblock := div_lt_length hi
  have haddress := (h.placed.inside _ (List.getElem_mem hblock)).1
  have hwithin := (chunkAt_within pool.data CHUNK_SIZE hinit i).1
  rw [List.getD_eq_getElem _ _ hblock] at hwithin
  show chunkAt pool.data INIT_SIZE CHUNK_SIZE i ≠ 0
  omega

/-- What `allocate()` does: it hands out a chunk that is at an address and is not used, and adds a block
only when no chunk is free. -/
theorem allocate_cases (h : Valid CHUNK_SIZE INIT_SIZE pool) (hchunk : 1 ≤ CHUNK_SIZE) (hinit : 1 ≤ INIT_SIZE)
    (hfresh : pool.free = ∅ → PoolState.Fresh CHUNK_SIZE INIT_SIZE block pool) :
    ∃ ptr pool', allocate CHUNK_SIZE INIT_SIZE block pool = some (ptr, pool') ∧
      Valid CHUNK_SIZE INIT_SIZE pool' ∧ ptr ≠ 0 ∧ pool.used[ptr]? = none ∧
      (∃ i, pool'.used = pool.used.insertIfNew ptr i) ∧
      (pool'.data = pool.data ∨ pool.free = ∅ ∧ pool'.data = pool.data ++ [block]) := by
  obtain ⟨grown, hgrown, hvalid, hnonempty, hused, hdata⟩ := grow_cases h hchunk hinit hfresh
  have hmin := Finset.min'_mem grown.free hnonempty
  have hnone := hvalid.not_used hchunk hinit hmin
  have htake : allocate CHUNK_SIZE INIT_SIZE block pool =
      take CHUNK_SIZE INIT_SIZE (grown.free.min' hnonempty) grown := by
    rw [allocate, ← hgrown]
    exact dif_pos hnonempty
  rw [hused] at hnone
  refine ⟨_, _, htake.trans (take_eq hvalid hmin), valid_take hvalid hchunk hinit hmin,
    hvalid.chunk_ne_zero hinit (hvalid.free_lt _ hmin), hnone, ⟨grown.free.min' hnonempty, ?_⟩, hdata⟩
  rw [← hused]

/-! ## `deallocate` -/

theorem used_size_pos (h : ptr ∈ pool.used) : 0 < pool.used.size := by
  rw [Nat.pos_iff_ne_zero]
  intro hzero
  have hempty : pool.used.isEmpty = true := by
    rw [Std.TreeMap.isEmpty_eq_size_eq_zero, hzero]
    rfl
  exact Std.TreeMap.not_mem_of_isEmpty hempty h

theorem valid_deallocate (h : Valid CHUNK_SIZE INIT_SIZE pool) (hchunk : 1 ≤ CHUNK_SIZE) (hinit : 1 ≤ INIT_SIZE)
    (hptr : ptr ≠ 0) (hused : pool.used[ptr]? = some i) :
    Valid CHUNK_SIZE INIT_SIZE (deallocate ptr pool) := by
  obtain ⟨hi, hnot, heq⟩ := (h.used_iff ptr i).mp hused
  have hdeallocate : deallocate ptr pool =
      { pool with free := insert i pool.free, used := pool.used.erase ptr } := by
    rw [deallocate, if_neg hptr, hused]
    rfl
  rw [hdeallocate]
  refine ⟨h.placed, ?_, ?_, ?_⟩
  · intro j hj
    obtain rfl | hj := Finset.mem_insert.mp hj
    · exact hi
    · exact h.free_lt j hj
  · intro other j
    show (pool.used.erase ptr)[other]? = some j ↔ j < pool.data.length * INIT_SIZE ∧ j ∉ insert i pool.free ∧
      other = pool.chunk CHUNK_SIZE INIT_SIZE j
    rw [Std.TreeMap.getElem?_erase, Finset.mem_insert]
    by_cases hother : ptr = other
    · subst hother
      rw [if_pos Std.ReflCmp.compare_self]
      refine iff_of_false (by simp) ?_
      rintro ⟨hj, hfree, heq'⟩
      exact hfree (Or.inl (h.chunk_inj hchunk hinit hj hi (heq'.symm.trans heq)))
    · rw [if_neg fun hcompare => hother (Std.LawfulEqCmp.eq_of_compare hcompare), h.used_iff]
      refine and_congr_right fun _ => ?_
      constructor
      · rintro ⟨hfree, heq'⟩
        refine ⟨?_, heq'⟩
        rintro (rfl | hmem)
        · exact hother (heq.trans heq'.symm)
        · exact hfree hmem
      · rintro ⟨hinsert, heq'⟩
        exact ⟨fun hmem => hinsert (Or.inr hmem), heq'⟩
  · have hcount := h.count
    have hmem : ptr ∈ pool.used := by
      rw [Std.TreeMap.mem_iff_isSome_getElem?, hused]
      rfl
    have hsize := used_size_pos hmem
    show (insert i pool.free).card + (pool.used.erase ptr).size = pool.data.length * INIT_SIZE
    rw [Finset.card_insert_of_notMem hnot, Std.TreeMap.size_erase,
      if_pos (show pool.used.contains ptr = true from hmem)]
    omega

end MemPool

/-! ## Runs -/

namespace PoolState
open MemPool
variable {CHUNK_SIZE INIT_SIZE : ℕ} {s : PoolState}

/-- What is live for the callers is what the pool has as used. -/
structure Consistent (CHUNK_SIZE INIT_SIZE : ℕ) (s : PoolState) : Prop where
  valid : s.pool.Valid CHUNK_SIZE INIT_SIZE
  live_iff : ∀ ptr, ptr ∈ s.live ↔ ptr ∈ s.pool.used
  live_card : s.live.card = s.pool.used.size

/-- What the pool guarantees in a state. -/
structure Sound (CHUNK_SIZE INIT_SIZE : ℕ) (s : PoolState) : Prop where
  disjoint : ∀ i ∈ s.pool.free, ∀ ptr : ℕ, s.pool.used[ptr]? ≠ some i
  indices : ∀ i, (i ∈ s.pool.free ∨ ∃ ptr : ℕ, s.pool.used[ptr]? = some i) ↔ i < s.pool.data.length * INIT_SIZE
  inside : ∀ ptr ∈ s.live, ∃ i data, s.pool.used[ptr]? = some i ∧ s.pool.data[i / INIT_SIZE]? = some data ∧
    data ≤ ptr ∧ ptr + CHUNK_SIZE ≤ data + INIT_SIZE * CHUNK_SIZE
  apart : ∀ ptr ∈ s.live, ∀ other ∈ s.live, ptr ≠ other → Apart CHUNK_SIZE ptr other
  sizes : s.pool.freeSize CHUNK_SIZE + CHUNK_SIZE * s.live.card = s.pool.size CHUNK_SIZE INIT_SIZE
  released : destroyAsserts CHUNK_SIZE INIT_SIZE (some s.pool) ↔ s.live = ∅

/-- What a call does: a chunk that is handed out is not live, a block is added only when no chunk is free,
and the assertion in `deallocate()` holds. -/
def Keeps (CHUNK_SIZE INIT_SIZE : ℕ) (s : PoolState) : PoolCall → Prop
  | .allocate block => ∃ ptr pool, s.pool.allocate CHUNK_SIZE INIT_SIZE block = some (ptr, pool) ∧ ptr ≠ 0 ∧
      ptr ∉ s.live ∧ (pool.data = s.pool.data ∨ s.pool.free = ∅ ∧ pool.data = s.pool.data ++ [block])
  | .deallocate ptr => (ptr = 0 ∨ ptr ∈ s.pool.used) ∧ (s.pool.deallocate ptr).data = s.pool.data

theorem consistent_start (CHUNK_SIZE INIT_SIZE : ℕ) : Consistent CHUNK_SIZE INIT_SIZE start where
  valid := valid_empty
  live_iff _ := iff_of_false (Finset.notMem_empty _) Std.TreeMap.not_mem_emptyc
  live_card := rfl

theorem mem_used_iff {pool : MemPool} {ptr : ℕ} : ptr ∈ pool.used ↔ ∃ i, pool.used[ptr]? = some i := by
  rw [Std.TreeMap.mem_iff_isSome_getElem?, Option.isSome_iff_exists]

theorem consistent_allocate (h : Consistent CHUNK_SIZE INIT_SIZE s) (hchunk : 1 ≤ CHUNK_SIZE) (hinit : 1 ≤ INIT_SIZE)
    {block : ℕ} (henabled : enabled CHUNK_SIZE INIT_SIZE s (.allocate block)) :
    Consistent CHUNK_SIZE INIT_SIZE (next CHUNK_SIZE INIT_SIZE s (.allocate block)) ∧
      Keeps CHUNK_SIZE INIT_SIZE s (.allocate block) := by
  obtain ⟨ptr, pool, hallocate, hvalid, hne, hnone, ⟨i, hused⟩, hdata⟩ := allocate_cases h.valid hchunk hinit henabled
  have hnot : ptr ∉ s.pool.used := by
    rw [mem_used_iff, hnone]
    rintro ⟨j, hj⟩
    cases hj
  have hlive : ptr ∉ s.live := fun hmem => hnot ((h.live_iff ptr).mp hmem)
  refine ⟨?_, ptr, pool, hallocate, hne, hlive, hdata⟩
  rw [next, hallocate]
  refine ⟨hvalid, ?_, ?_⟩
  · intro other
    show other ∈ insert ptr s.live ↔ other ∈ pool.used
    rw [hused, Std.TreeMap.mem_insertIfNew, Finset.mem_insert, h.live_iff, Std.LawfulEqCmp.compare_eq_iff_eq]
    exact or_congr_left eq_comm
  · show (insert ptr s.live).card = pool.used.size
    rw [hused, Std.TreeMap.size_insertIfNew, if_neg hnot, Finset.card_insert_of_notMem hlive, h.live_card]

theorem consistent_deallocate (h : Consistent CHUNK_SIZE INIT_SIZE s) (hchunk : 1 ≤ CHUNK_SIZE)
    (hinit : 1 ≤ INIT_SIZE) {ptr : ℕ} (henabled : enabled CHUNK_SIZE INIT_SIZE s (.deallocate ptr)) :
    Consistent CHUNK_SIZE INIT_SIZE (next CHUNK_SIZE INIT_SIZE s (.deallocate ptr)) ∧
      Keeps CHUNK_SIZE INIT_SIZE s (.deallocate ptr) := by
  have hdata : (s.pool.deallocate ptr).data = s.pool.data := by
    rw [deallocate]
    split <;> rfl
  have hused : ptr = 0 ∨ ptr ∈ s.pool.used := henabled.imp_right (h.live_iff ptr).mp
  refine ⟨?_, hused, hdata⟩
  by_cases hptr : ptr = 0
  · have hnot : ptr ∉ s.live := by
      rw [h.live_iff, mem_used_iff]
      rintro ⟨i, hi⟩
      obtain ⟨hlt, -, heq⟩ := (h.valid.used_iff ptr i).mp hi
      exact h.valid.chunk_ne_zero hinit hlt (heq.symm.trans hptr)
    have hsame : next CHUNK_SIZE INIT_SIZE s (.deallocate ptr) = s := by
      rw [next, deallocate, if_pos hptr, Finset.erase_eq_of_notMem hnot]
    rw [hsame]
    exact h
  · have hmem := hused.resolve_left hptr
    obtain ⟨i, hi⟩ := mem_used_iff.mp hmem
    have hpool : (s.pool.deallocate ptr).used = s.pool.used.erase ptr := by rw [deallocate, if_neg hptr]
    refine ⟨valid_deallocate h.valid hchunk hinit hptr hi, ?_, ?_⟩
    · intro other
      show other ∈ s.live.erase ptr ↔ other ∈ (s.pool.deallocate ptr).used
      rw [hpool, Std.TreeMap.mem_erase, Finset.mem_erase, h.live_iff, Ne, Ne, Std.LawfulEqCmp.compare_eq_iff_eq]
      exact and_congr_left' (not_congr eq_comm)
    · show (s.live.erase ptr).card = (s.pool.deallocate ptr).used.size
      rw [hpool, Std.TreeMap.size_erase, if_pos (show s.pool.used.contains ptr = true from hmem),
        Finset.card_erase_of_mem ((h.live_iff ptr).mpr hmem), h.live_card]

theorem consistent_next (hchunk : 1 ≤ CHUNK_SIZE) (hinit : 1 ≤ INIT_SIZE) (s : PoolState) (call : PoolCall)
    (h : Consistent CHUNK_SIZE INIT_SIZE s) (henabled : (machine CHUNK_SIZE INIT_SIZE).enabled s call) :
    Consistent CHUNK_SIZE INIT_SIZE ((machine CHUNK_SIZE INIT_SIZE).next s call) ∧ Keeps CHUNK_SIZE INIT_SIZE s call := by
  cases call with
  | allocate block => exact consistent_allocate h hchunk hinit henabled
  | deallocate ptr => exact consistent_deallocate h hchunk hinit henabled

theorem size_eq (h : s.pool.Valid CHUNK_SIZE INIT_SIZE) (hinit : 1 ≤ INIT_SIZE) :
    s.pool.size CHUNK_SIZE INIT_SIZE = s.pool.data.length * INIT_SIZE * CHUNK_SIZE := by
  have hbytes := h.bytes_lt
  have hcomm : s.pool.data.length * CHUNK_SIZE * INIT_SIZE = s.pool.data.length * INIT_SIZE * CHUNK_SIZE :=
    Nat.mul_right_comm _ _ _
  have hle := Nat.le_mul_of_pos_right (s.pool.data.length * CHUNK_SIZE) hinit
  have hinner : s.pool.data.length * CHUNK_SIZE < 2 ^ 64 := by omega
  rw [MemPool.size, u64_of_lt hinner, hcomm, u64_of_lt hbytes]

theorem freeSize_eq (h : s.pool.Valid CHUNK_SIZE INIT_SIZE) :
    s.pool.freeSize CHUNK_SIZE = s.pool.free.card * CHUNK_SIZE := by
  have hbytes := h.bytes_lt
  have hle : s.pool.free.card * CHUNK_SIZE ≤ s.pool.data.length * INIT_SIZE * CHUNK_SIZE :=
    Nat.mul_le_mul_right CHUNK_SIZE (h.count ▸ Nat.le_add_right _ _)
  rw [MemPool.freeSize, u64_of_lt (by omega)]

theorem Consistent.sound (h : Consistent CHUNK_SIZE INIT_SIZE s) (hchunk : 1 ≤ CHUNK_SIZE) (hinit : 1 ≤ INIT_SIZE) :
    Sound CHUNK_SIZE INIT_SIZE s := by
  have hvalid := h.valid
  have hsizes : s.pool.freeSize CHUNK_SIZE + CHUNK_SIZE * s.live.card = s.pool.size CHUNK_SIZE INIT_SIZE := by
    rw [freeSize_eq hvalid, size_eq hvalid hinit, h.live_card, Nat.mul_comm CHUNK_SIZE, ← Nat.add_mul, hvalid.count]
  have hused : ∀ ptr ∈ s.live, ∃ i, s.pool.used[ptr]? = some i := fun ptr hptr =>
    mem_used_iff.mp ((h.live_iff ptr).mp hptr)
  refine ⟨?_, ?_, ?_, ?_, hsizes, ?_⟩
  · intro i hi ptr hptr
    exact ((hvalid.used_iff ptr i).mp hptr).2.1 hi
  · intro i
    constructor
    · rintro (hfree | ⟨ptr, hptr⟩)
      · exact hvalid.free_lt i hfree
      · exact ((hvalid.used_iff ptr i).mp hptr).1
    · intro hi
      by_cases hfree : i ∈ s.pool.free
      · exact Or.inl hfree
      · exact Or.inr ⟨_, (hvalid.used_iff _ i).mpr ⟨hi, hfree, rfl⟩⟩
  · intro ptr hptr
    obtain ⟨i, hi⟩ := hused ptr hptr
    obtain ⟨hlt, -, rfl⟩ := (hvalid.used_iff ptr i).mp hi
    have hblock := div_lt_length hlt
    have hwithin := chunkAt_within s.pool.data CHUNK_SIZE hinit i
    rw [List.getD_eq_getElem _ _ hblock] at hwithin
    exact ⟨i, _, hi, List.getElem?_eq_getElem hblock, hwithin⟩
  · intro ptr hptr other hother hne
    obtain ⟨i, hi⟩ := hused ptr hptr
    obtain ⟨j, hj⟩ := hused other hother
    obtain ⟨hilt, -, rfl⟩ := (hvalid.used_iff ptr i).mp hi
    obtain ⟨hjlt, -, rfl⟩ := (hvalid.used_iff other j).mp hj
    exact hvalid.placed.chunks_apart hinit hilt hjlt fun heq => hne (by rw [heq])
  · show s.pool.freeSize CHUNK_SIZE = s.pool.size CHUNK_SIZE INIT_SIZE ↔ s.live = ∅
    rw [← hsizes, ← Finset.card_eq_zero]
    constructor
    · intro heq
      have hzero : CHUNK_SIZE * s.live.card = 0 := by omega
      exact (Nat.mul_eq_zero.mp hzero).resolve_left (by omega)
    · intro hzero
      rw [hzero, Nat.mul_zero, Nat.add_zero]

/-- **No chunk is handed out twice.** -/
theorem pool_sound (CHUNK_SIZE INIT_SIZE : ℕ) (hchunk : 1 ≤ CHUNK_SIZE) (hinit : 1 ≤ INIT_SIZE) (calls : List PoolCall)
    (hrun : (machine CHUNK_SIZE INIT_SIZE).Run start calls) :
    Sound CHUNK_SIZE INIT_SIZE ((machine CHUNK_SIZE INIT_SIZE).after start calls) ∧
      (machine CHUNK_SIZE INIT_SIZE).EachStep (Keeps CHUNK_SIZE INIT_SIZE) start calls := by
  have hstart := consistent_start CHUNK_SIZE INIT_SIZE
  constructor
  · exact (hrun.invariant (fun s call h he => (consistent_next hchunk hinit s call h he).1) hstart).sound hchunk hinit
  · exact hrun.eachStep (consistent_next hchunk hinit) hstart

/-- The first chunk of a block of two is given back. -/
theorem pool_sound_two :
    Sound 8 2 ((machine 8 2).after start [.allocate 4096, .allocate 0, .deallocate 4096]) ∧
      (machine 8 2).EachStep (Keeps 8 2) start [.allocate 4096, .allocate 0, .deallocate 4096] := by
  refine pool_sound 8 2 (by decide) (by decide) _ ⟨?_, ?_, ?_, trivial⟩
  · exact fun _ => ⟨by decide, fun other hother => absurd hother List.not_mem_nil⟩
  · intro hempty
    exact absurd hempty (by decide +kernel)
  · exact Or.inr (by decide +kernel)

end PoolState
end NoncesHeatmap
