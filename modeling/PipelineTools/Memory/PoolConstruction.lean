import PipelineTools.Memory.MemPool
import Mathlib.Data.List.Nodup

/-!
# Construction of a memory pool

The constructor of `MemPool` may throw in three places: at a zero factor, when `data_` is resized
and when a pointer is pushed to the queue of free blocks. `MemPool.make` is the constructor without
the last two, for which the memory of the machine decides. The product of the factors is computed in
`size_t`, as are the indices of the blocks; `blocksInside_make_iff` says when the pool that comes
out is sound.
-/

set_option autoImplicit false

namespace PipelineTools.Memory

/-- The exceptions of the constructor. -/
inductive ConstructException where
  | pool (e : MemPoolException)
  | length_error
  | bad_alloc
  deriving DecidableEq

/-- What the standard containers of the pool do when they grow: the exception of `data_.resize(n)`,
and of `free_blocks_.push` onto a queue of `n` pointers, if there is one. -/
structure Allocation where
  resize : Nat → Option ConstructException
  push : Nat → Option ConstructException

namespace MemPool

/-- The loop `free_blocks_.push(&data_[i * block_size_])`, from `i` on with `left` turns to go. -/
def pushBlocks (mem : Allocation) (block_size : Nat) :
    Nat → Nat → List Nat → Except ConstructException (List Nat)
  | 0, _, free => .ok free
  | left + 1, i, free =>
    match mem.push free.length with
    | some e => .error e
    | none => pushBlocks mem block_size left (i + 1) (free ++ [i * block_size % 2 ^ 64])

/-- The constructor. An exception leaves no pool. -/
def construct (mem : Allocation) (block_size block_count : Nat) (loc : MemoryLocation) :
    Except ConstructException MemPool :=
  if block_size = 0 ∨ block_count = 0 then
    .error (.pool (.invalid_argument "allocation_size and allocation_count must be > 0"))
  else
    match mem.resize (block_size * block_count % 2 ^ 64) with
    | some e => .error e
    | none => do
      let free ← pushBlocks mem block_size block_count 0 []
      .ok
        { block_size := block_size
          block_count := block_count
          location := loc
          data_size := block_size * block_count % 2 ^ 64
          free_blocks := free }

/-- The loop throws if one of its pushes does, and otherwise pushes all blocks. -/
theorem pushBlocks_cases (mem : Allocation) (block_size left i : Nat) (free : List Nat) :
    ((∃ k < left, (mem.push (free.length + k)).isSome) ∧
        ∃ e, pushBlocks mem block_size left i free = .error e) ∨
      (¬(∃ k < left, (mem.push (free.length + k)).isSome) ∧
        pushBlocks mem block_size left i free =
          .ok (free ++ (List.range' i left).map fun k => k * block_size % 2 ^ 64)) := by
  induction left generalizing i free with
  | zero =>
    right
    refine ⟨?_, by rw [pushBlocks, List.range'_zero, List.map_nil, List.append_nil]⟩
    rintro ⟨k, hk, -⟩
    omega
  | succ left ih =>
    rw [pushBlocks, Nat.exists_lt_succ_left]
    cases hpush : mem.push free.length with
    | some e =>
      exact .inl ⟨.inl rfl, e, rfl⟩
    | none =>
      have hrest := ih (i + 1) (free ++ [i * block_size % 2 ^ 64])
      simp only [List.length_append, List.length_singleton, Nat.add_assoc, Nat.add_comm 1] at hrest
      rcases hrest with ⟨hthrow, he⟩ | ⟨hno, hok⟩
      · exact .inl ⟨.inr hthrow, he⟩
      · refine .inr ⟨not_or.2 ⟨Bool.false_ne_true, hno⟩, ?_⟩
        simp only [hok]
        rw [List.range'_succ, List.map_cons, List.append_assoc, List.singleton_append]

/-- The memory does not suffice for the pool: `data_` cannot be resized to the product, as it is
computed in `size_t`, or a pointer cannot be pushed. -/
def Insufficient (mem : Allocation) (block_size block_count : Nat) : Prop :=
  (mem.resize (block_size * block_count % 2 ^ 64)).isSome ∨
    ∃ k < block_count, (mem.push k).isSome

/-- The constructor throws if a factor is zero or the memory does not suffice, and otherwise makes
the pool of `MemPool.make`. -/
theorem construct_cases (mem : Allocation) (block_size block_count : Nat) (loc : MemoryLocation) :
    ((block_size = 0 ∨ block_count = 0 ∨ Insufficient mem block_size block_count) ∧
        ∃ e, construct mem block_size block_count loc = .error e) ∨
      (¬(block_size = 0 ∨ block_count = 0 ∨ Insufficient mem block_size block_count) ∧
        ∃ pool, make block_size block_count loc = .ok pool ∧
          construct mem block_size block_count loc = .ok pool) := by
  rw [construct, ← or_assoc]
  by_cases hzero : block_size = 0 ∨ block_count = 0
  · rw [if_pos hzero]
    exact .inl ⟨.inl hzero, _, rfl⟩
  · rw [if_neg hzero, or_iff_right hzero, Insufficient]
    cases hresize : mem.resize (block_size * block_count % 2 ^ 64) with
    | some e => exact .inl ⟨.inl rfl, e, rfl⟩
    | none =>
      rw [or_iff_right (by simp : ¬(none : Option ConstructException).isSome)]
      have hloop := pushBlocks_cases mem block_size block_count 0 []
      simp only [List.length_nil, Nat.zero_add, List.nil_append] at hloop
      rcases hloop with ⟨hthrow, e, he⟩ | ⟨hno, hok⟩
      · refine .inl ⟨hthrow, e, ?_⟩
        simp only [he]
        rfl
      · refine .inr ⟨hno, _, if_neg hzero, ?_⟩
        simp only [hok]
        rw [List.range_eq_range']
        rfl

/-- The vector of the pool has room for all blocks, and the pointers in the queue are the starts of
`block_count` ranges of `block_size` elements in it that do not meet. -/
structure BlocksInside (pool : MemPool) (block_size block_count : Nat) : Prop where
  size : block_size * block_count ≤ pool.data_size
  count : pool.free_blocks.length = block_count
  inside : ∀ p ∈ pool.free_blocks, p + block_size ≤ pool.data_size
  disjoint : pool.free_blocks.Pairwise fun p q => p + block_size ≤ q ∨ q + block_size ≤ p

/-- A pool that is made is sound exactly when the product does not wrap. -/
theorem blocksInside_make_iff {block_size block_count : Nat} {loc : MemoryLocation}
    {pool : MemPool} (hmake : make block_size block_count loc = .ok pool) :
    pool.BlocksInside block_size block_count ↔ block_size * block_count < 2 ^ 64 := by
  by_cases hzero : block_size = 0 ∨ block_count = 0
  · rw [make, if_pos hzero] at hmake
    cases hmake
  · rw [make, if_neg hzero] at hmake
    obtain rfl := Except.ok.inj hmake
    constructor
    · intro h
      exact Nat.lt_of_le_of_lt h.size (Nat.mod_lt _ (Nat.two_pow_pos 64))
    · intro hwrap
      have hdata : block_size * block_count % 2 ^ 64 = block_size * block_count :=
        Nat.mod_eq_of_lt hwrap
      have hfree := free_blocks_of_lt hwrap
      have hsize : 0 < block_size := by omega
      refine ⟨?_, ?_, ?_, ?_⟩
      · exact Nat.le_of_eq hdata.symm
      · rw [List.length_map, List.length_range]
      · intro p hp
        simp only [hfree, hdata] at hp ⊢
        exact poolBlocks_inside hp
      · simp only [hfree]
        apply (poolBlocks_nodup hsize block_count).pairwise_of_forall_ne
        intro p hp q hq hpq
        exact poolBlocks_disjoint hp hq hpq

/-- The constructor throws or makes a sound pool exactly when a factor is zero, the memory does not
suffice, or the product of the factors is below `2 ^ 64`. -/
theorem construct_safe_iff (mem : Allocation) (block_size block_count : Nat)
    (loc : MemoryLocation) :
    ((∃ e, construct mem block_size block_count loc = .error e) ∨
        ∃ pool, construct mem block_size block_count loc = .ok pool ∧
          pool.BlocksInside block_size block_count) ↔
      block_size = 0 ∨ block_count = 0 ∨ Insufficient mem block_size block_count ∨
        block_size * block_count < 2 ^ 64 := by
  have hcases := construct_cases mem block_size block_count loc
  rcases hcases with ⟨hthrow, he⟩ | ⟨hno, pool, hmake, hok⟩
  · refine ⟨fun _ => ?_, fun _ => .inl he⟩
    rcases hthrow with hsize | hcount | hmem
    · exact .inl hsize
    · exact .inr (.inl hcount)
    · exact .inr (.inr (.inl hmem))
  · rw [not_or, not_or] at hno
    rw [or_iff_right hno.1, or_iff_right hno.2.1, or_iff_right hno.2.2,
      ← blocksInside_make_iff hmake, hok]
    constructor
    · rintro (⟨e, he⟩ | ⟨pool', hpool', hinside⟩)
      · cases he
      · obtain rfl := Except.ok.inj hpool'
        exact hinside
    · intro hinside
      exact .inr ⟨pool, rfl, hinside⟩

/-- Memory that always suffices. -/
def ample : Allocation := ⟨fun _ => none, fun _ => none⟩

/-- Two blocks whose total size wraps to 2. -/
theorem construct_wraps :
    ¬((∃ e, construct ample (2 ^ 63 + 1) 2 .Host = .error e) ∨
      ∃ pool, construct ample (2 ^ 63 + 1) 2 .Host = .ok pool ∧
        pool.BlocksInside (2 ^ 63 + 1) 2) := by
  have hpool : construct ample (2 ^ 63 + 1) 2 .Host =
      .ok ⟨2 ^ 63 + 1, 2, .Host, 2, [0, 2 ^ 63 + 1]⟩ := rfl
  rw [hpool]
  rintro (⟨e, he⟩ | ⟨pool, hok, hinside⟩)
  · cases he
  · obtain rfl := Except.ok.inj hok
    exact absurd hinside.size (by decide)

end MemPool

end PipelineTools.Memory
