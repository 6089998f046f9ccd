import PipelineTools.Memory.OwnershipSteps
import PipelineTools.Library.Runs
import Mathlib.Data.List.Nodup
import Mathlib.Algebra.Order.Ring.Nat

/-!
# The memory pool

A `MemPool` hands out `unique_buffer`s over blocks of its one vector `data_`; their deleter pushes
the block back to the pool's queue of free blocks. The buffers are then moved, swapped, reset,
released and converted like any others, so a block comes back exactly when the object that owns it
at last gives it up.

Each operation is one step: `allocate` and the deleter take the pool's mutex, and every other
operation works on objects of its caller. A run of any number of threads is therefore a sequence of
operations, and `run_conserved` is about every such sequence.
-/

set_option autoImplicit false

namespace PipelineTools.Memory

open PipelineTools.Library

/-- The exceptions of `MemPool`. -/
inductive MemPoolException where
  | invalid_argument (what : String)
  | runtime_error (what : String)
deriving DecidableEq

/-- The deleter of a pool's buffers. -/
inductive PoolDeleter where
  | release_block
deriving DecidableEq

/-- The members of a pool. A pointer is an index into `data_`, of which only the size is kept. -/
structure MemPool where
  block_size : Nat
  block_count : Nat
  location : MemoryLocation
  data_size : Nat
  free_blocks : List Nat

namespace MemPool

/-- The constructor. Sizes and indices are of type `size_t`. -/
def make (block_size block_count : Nat) (loc : MemoryLocation) :
    Except MemPoolException MemPool :=
  if block_size = 0 ∨ block_count = 0 then
    .error (.invalid_argument "allocation_size and allocation_count must be > 0")
  else
    .ok
      { block_size := block_size
        block_count := block_count
        location := loc
        data_size := block_size * block_count % 2 ^ 64
        free_blocks := (List.range block_count).map fun i => i * block_size % 2 ^ 64 }

def allocate (pool : MemPool) :
    Except MemPoolException (UniqueBuffer PoolDeleter) × MemPool :=
  match pool.free_blocks with
  | [] => (.error (.runtime_error "MemPool: out of buffers"), pool)
  | ptr :: rest =>
      (.ok ⟨some ptr, pool.block_size, pool.location, some .release_block⟩,
        { pool with free_blocks := rest })

def release_block (pool : MemPool) (p : Nat) : MemPool :=
  { pool with free_blocks := pool.free_blocks ++ [p] }

def capacity (pool : MemPool) : Nat := pool.block_count

def available (pool : MemPool) : Nat := pool.free_blocks.length

/-- Run the deleter of a buffer on its pointer. -/
def runDeleter (pool : MemPool) : PoolDeleter × Nat → MemPool
  | (.release_block, p) => pool.release_block p

theorem foldl_runDeleter (pool : MemPool) (calls : Calls PoolDeleter) :
    calls.foldl runDeleter pool =
      { pool with free_blocks := pool.free_blocks ++ calls.map Prod.snd } := by
  induction calls generalizing pool with
  | nil => simp
  | cons call calls ih =>
    obtain ⟨⟨⟩, p⟩ := call
    rw [List.foldl_cons, ih]
    simp [runDeleter, release_block]

end MemPool

/-- The blocks of a pool, as the indices at which they start. -/
def poolBlocks (block_size block_count : Nat) : List Nat :=
  (List.range block_count).map fun i => i * block_size

theorem poolBlocks_nodup {block_size : Nat} (hsize : 0 < block_size) (block_count : Nat) :
    (poolBlocks block_size block_count).Nodup := by
  apply List.nodup_range.map
  intro i j hij
  exact Nat.eq_of_mul_eq_mul_right hsize hij

/-- Two blocks are one, or one ends before the other begins. -/
theorem poolBlocks_disjoint {block_size block_count p q : Nat}
    (hp : p ∈ poolBlocks block_size block_count) (hq : q ∈ poolBlocks block_size block_count)
    (hpq : p ≠ q) : p + block_size ≤ q ∨ q + block_size ≤ p := by
  obtain ⟨i, -, rfl⟩ := List.mem_map.1 hp
  obtain ⟨j, -, rfl⟩ := List.mem_map.1 hq
  rcases Nat.lt_trichotomy i j with hij | hij | hij
  · left
    have hmul := Nat.mul_le_mul_right block_size (Nat.succ_le_of_lt hij)
    rw [Nat.succ_mul] at hmul
    exact hmul
  · exact absurd (by rw [hij]) hpq
  · right
    have hmul := Nat.mul_le_mul_right block_size (Nat.succ_le_of_lt hij)
    rw [Nat.succ_mul] at hmul
    exact hmul

theorem poolBlocks_inside {block_size block_count p : Nat}
    (hp : p ∈ poolBlocks block_size block_count) : p + block_size ≤ block_size * block_count := by
  obtain ⟨i, hi, rfl⟩ := List.mem_map.1 hp
  have hmul := Nat.mul_le_mul_right block_size (Nat.succ_le_of_lt (List.mem_range.1 hi))
  rw [Nat.succ_mul, Nat.mul_comm block_count] at hmul
  exact hmul

/-- The indices of the blocks do not wrap if the size of the pool does not. -/
theorem free_blocks_of_lt {block_size block_count : Nat}
    (hwrap : block_size * block_count < 2 ^ 64) :
    ((List.range block_count).map fun i => i * block_size % 2 ^ 64) =
      poolBlocks block_size block_count := by
  apply List.map_congr_left
  intro i hi
  have hlt := poolBlocks_inside (List.mem_map_of_mem (f := fun i => i * block_size) hi)
  apply Nat.mod_eq_of_lt
  omega

/-- A pool and the buffer objects of its users. -/
structure PoolState (U S R : Type) where
  pool : MemPool
  objects : Objects U S R PoolDeleter

/-- What users of a pool do: allocate a buffer, or use the buffers they have. -/
inductive PoolOp (U S R : Type) where
  | allocate (this : U)
  | buffer (op : BufferOp U S R)

namespace PoolState

variable {U S R : Type} [DecidableEq U] [DecidableEq S] [DecidableEq R] {s s' : PoolState U S R}

/-- One operation. An `allocate` that throws constructs no buffer. -/
def step (s : PoolState U S R) : PoolOp U S R → Option (PoolState U S R)
  | .allocate this =>
      if this ∉ s.objects.uniqueLive then
        match s.pool.allocate with
        | (.ok b, pool) => some ⟨pool, s.objects.addUnique this b⟩
        | (.error _, pool) => some ⟨pool, s.objects⟩
      else none
  | .buffer op =>
      (s.objects.step op).map fun r => ⟨r.2.foldl MemPool.runDeleter s.pool, r.1⟩

/-- The number of blocks of the pool that an object owns. -/
def outstanding (s : PoolState U S R) (block_size block_count : Nat) : Nat :=
  ((poolBlocks block_size block_count).filter fun p => 0 < s.objects.owned p).length

/-- What the pool and its buffers keep. -/
structure Inv (block_size block_count : Nat) (s : PoolState U S R) : Prop where
  size : s.pool.block_size = block_size ∧ s.pool.block_count = block_count ∧
    s.pool.data_size = block_size * block_count
  counted : s.objects.Counted none
  buffers : ∀ o p, (s.objects.contents o).ptr = some p →
    (s.objects.contents o).count = block_size ∧
      (s.objects.contents o).deleter = some .release_block
  conserved : ∀ p, s.pool.free_blocks.count p + s.objects.owned p =
    (poolBlocks block_size block_count).count p

variable {block_size block_count : Nat}

theorem Inv.sound (hi : s.Inv block_size block_count) (hsize : 0 < block_size) :
    s.objects.Sound := by
  intro o p hp
  obtain ⟨hcount, hdel⟩ := hi.buffers o p hp
  rw [hcount, hdel]
  exact ⟨hsize, rfl⟩

theorem Inv.buffer (hi : s.Inv block_size block_count) (hsize : 0 < block_size)
    {op : BufferOp U S R} (hstep : s.step (.buffer op) = some s') :
    s'.Inv block_size block_count := by
  obtain ⟨⟨objects, calls⟩, hop, hs'⟩ := Option.map_eq_some_iff.1 hstep
  obtain ⟨hmoves, hcounted⟩ := Objects.step_moves hi.counted (hi.sound hsize) hop
  simp only [MemPool.foldl_runDeleter] at hs'
  rw [← hs']
  refine ⟨hi.size, hcounted, ?_, ?_⟩
  · intro o p hp
    obtain ⟨o', ho'⟩ := hmoves.same o p hp
    rw [← ho'] at hp ⊢
    exact hi.buffers o' p hp
  · intro p
    have hcount := hmoves.count p
    have hold := hi.conserved p
    simp only [List.count_append]
    omega

/-- The buffer that `allocate` returns owns the first free block. -/
theorem Inv.allocate (hi : s.Inv block_size block_count) {this : U}
    (hstep : s.step (.allocate this) = some s') : s'.Inv block_size block_count := by
  by_cases hthis : this ∉ s.objects.uniqueLive
  · simp only [step, if_pos hthis] at hstep
    cases hfree : s.pool.free_blocks with
    | nil =>
      simp only [MemPool.allocate, hfree, Option.some.injEq] at hstep
      rw [← hstep]
      exact hi
    | cons ptr rest =>
      simp only [MemPool.allocate, hfree, Option.some.injEq] at hstep
      have hself := Objects.contents_addUnique_self (s := s.objects) this
        ⟨some ptr, s.pool.block_size, s.pool.location, some .release_block⟩
      rw [← hstep]
      refine ⟨hi.size, ?_, ?_, ?_⟩
      · exact hi.counted.of_eq (fun h => rfl) rfl rfl
      · intro o p hp
        by_cases ho : o = .unique this
        · rw [ho, hself]
          exact ⟨hi.size.1, rfl⟩
        · rw [Objects.contents_addUnique_of_ne ho] at hp ⊢
          exact hi.buffers o p hp
      -- the first free block becomes the block of the new buffer
      · intro p
        have hframe : ∀ o, o ∉ [Owner.unique this] → ((s.objects.addUnique this
            ⟨some ptr, s.pool.block_size, s.pool.location, some .release_block⟩).contents o).ptr =
              (s.objects.contents o).ptr := by
          intro o ho
          rw [Objects.contents_addUnique_of_ne (List.mem_singleton.not.1 ho)]
        have hchange := Objects.owned_change (List.nodup_singleton _) hframe p
        have hbefore : (s.objects.contents (.unique this)).ptr = none := by
          simp [Objects.contents, hthis]
        have hold := hi.conserved p
        rw [hfree, List.count_cons] at hold
        simp only [List.countP_singleton, hself, hbefore] at hchange
        by_cases hp : ptr = p
        · simp [UniqueBuffer.released, hp] at hchange hold ⊢
          omega
        · simp [UniqueBuffer.released, hp] at hchange hold ⊢
          omega
  · simp [step, hthis] at hstep

theorem inv_step (hi : s.Inv block_size block_count) (hsize : 0 < block_size)
    {op : PoolOp U S R} (hstep : s.step op = some s') : s'.Inv block_size block_count := by
  cases op with
  | allocate this => exact hi.allocate hstep
  | buffer op => exact hi.buffer hsize hstep

omit [DecidableEq S] in
theorem owned_init (p : Nat) : (Objects.init : Objects U S R PoolDeleter).owned p = 0 := by
  have hnone : ¬ 0 < (Objects.init : Objects U S R PoolDeleter).owned p := by
    rw [Objects.owned, refCount_pos_iff]
    rintro ⟨o, -, ho⟩
    cases o <;> simp [Objects.contents, Objects.init] at ho
  omega

/-- A pool whose size does not wrap starts with all its blocks free. -/
theorem inv_make (hwrap : block_size * block_count < 2 ^ 64) {loc : MemoryLocation}
    {pool : MemPool} (hmake : MemPool.make block_size block_count loc = .ok pool) :
    0 < block_size ∧
      (⟨pool, Objects.init⟩ : PoolState U S R).Inv block_size block_count := by
  by_cases hzero : block_size = 0 ∨ block_count = 0
  · simp [MemPool.make, hzero] at hmake
  · simp only [MemPool.make, if_neg hzero, Except.ok.injEq] at hmake
    have hfree : pool.free_blocks = poolBlocks block_size block_count := by
      rw [← hmake]
      exact free_blocks_of_lt hwrap
    refine ⟨by omega, ?_, ?_, ?_, ?_⟩
    · rw [← hmake]
      exact ⟨rfl, rfl, Nat.mod_eq_of_lt hwrap⟩
    · exact Objects.counted_init
    · intro o p hp
      cases o <;> simp [Objects.contents, Objects.init] at hp
    · intro p
      rw [hfree, owned_init]
      omega

theorem inv_run (hwrap : block_size * block_count < 2 ^ 64) {loc : MemoryLocation}
    {pool : MemPool} (hmake : MemPool.make block_size block_count loc = .ok pool)
    {ops : List (PoolOp U S R)} (hrun : runFrom step ⟨pool, Objects.init⟩ ops = some s) :
    0 < block_size ∧ s.Inv block_size block_count := by
  obtain ⟨hsize, hinit⟩ := inv_make (U := U) (S := S) (R := R) hwrap hmake
  refine ⟨hsize, ?_⟩
  exact runFrom_invariant (fun _ _ _ hi hstep => inv_step hi hsize hstep) hinit hrun

/-! ### Conservation and exclusivity -/

/-- What a pool promises: its free blocks and those its buffers own partition its blocks, each block
has one owner, `available` counts the others, and `allocate` throws when there are none. -/
structure Conserved (block_size block_count : Nat) (s : PoolState U S R) : Prop where
  free_nodup : s.pool.free_blocks.Nodup
  free_block : ∀ p ∈ s.pool.free_blocks, p ∈ poolBlocks block_size block_count
  owned_block : ∀ o p, (s.objects.contents o).ptr = some p →
    p ∈ poolBlocks block_size block_count
  covered : ∀ p ∈ poolBlocks block_size block_count,
    p ∈ s.pool.free_blocks ∨ ∃ o, (s.objects.contents o).ptr = some p
  not_free : ∀ o p, (s.objects.contents o).ptr = some p → p ∉ s.pool.free_blocks
  one_owner : ∀ o o' p, (s.objects.contents o).ptr = some p →
    (s.objects.contents o').ptr = some p → o = o'
  /-- The ranges of two owners are disjoint and inside `data_`. -/
  disjoint : ∀ o o' p p', o ≠ o' → (s.objects.contents o).ptr = some p →
    (s.objects.contents o').ptr = some p' →
    p + (s.objects.contents o).count ≤ p' ∨ p' + (s.objects.contents o').count ≤ p
  inside : ∀ o p, (s.objects.contents o).ptr = some p →
    p + (s.objects.contents o).count ≤ s.pool.data_size
  available_eq : s.pool.available = block_count - s.outstanding block_size block_count
  outstanding_le : s.outstanding block_size block_count ≤ block_count
  throws_iff : (∃ e, s.pool.allocate.1 = .error e) ↔
    s.outstanding block_size block_count = block_count
  throws_unchanged : ∀ e, s.pool.allocate.1 = .error e →
    s.pool.allocate.2 = s.pool ∧ e = .runtime_error "MemPool: out of buffers"

theorem Inv.count_le_one (hi : s.Inv block_size block_count) (hsize : 0 < block_size) (p : Nat) :
    s.pool.free_blocks.count p + s.objects.owned p ≤ 1 := by
  rw [hi.conserved p]
  exact List.nodup_iff_count_le_one.1 (poolBlocks_nodup hsize block_count) p

theorem Inv.owned_mem (hi : s.Inv block_size block_count) {p : Nat}
    (hp : 0 < s.objects.owned p) : p ∈ poolBlocks block_size block_count := by
  apply List.count_pos_iff.1
  rw [← hi.conserved p]
  omega

/-- The free queue holds the blocks that no object owns, in some order. -/
theorem Inv.free_perm (hi : s.Inv block_size block_count) (hsize : 0 < block_size) :
    s.pool.free_blocks.Perm
      ((poolBlocks block_size block_count).filter fun p => ¬ 0 < s.objects.owned p) := by
  apply List.perm_iff_count.2
  intro p
  have hp := hi.conserved p
  have hle := hi.count_le_one hsize p
  -- an owned block has no place left in the queue
  by_cases howned : 0 < s.objects.owned p
  · have hnone : ((poolBlocks block_size block_count).filter fun p =>
        ¬ 0 < s.objects.owned p).count p = 0 := by
      apply List.count_eq_zero.2
      intro hmem
      simp [howned.ne'] at hmem
    omega
  · rw [List.count_filter (by simpa using howned)]
    omega

theorem Inv.available_add_outstanding (hi : s.Inv block_size block_count)
    (hsize : 0 < block_size) :
    s.pool.available + s.outstanding block_size block_count = block_count := by
  have hperm := (hi.free_perm hsize).length_eq
  have hsplit := List.length_eq_length_filter_add (l := poolBlocks block_size block_count)
    fun p => decide (0 < s.objects.owned p)
  have hblocks : (poolBlocks block_size block_count).length = block_count := by
    simp [poolBlocks]
  rw [MemPool.available, outstanding, hperm]
  simp only [decide_not] at hsplit ⊢
  omega

theorem Inv.conserved_state (hi : s.Inv block_size block_count) (hsize : 0 < block_size) :
    s.Conserved block_size block_count := by
  have howner : ∀ o p, (s.objects.contents o).ptr = some p →
      p ∈ poolBlocks block_size block_count := by
    intro o p hp
    exact hi.owned_mem (Objects.owned_pos hp)
  have hone : ∀ o o' p, (s.objects.contents o).ptr = some p →
      (s.objects.contents o').ptr = some p → o = o' := by
    intro o o' p hp hp'
    have hle := hi.count_le_one hsize p
    apply eq_of_refCount_le_one (f := fun o => (s.objects.contents o).ptr) (c := p)
    · exact (Nat.le_add_left _ _).trans hle
    · exact Objects.mem_owners hp
    · exact hp
    · exact Objects.mem_owners hp'
    · exact hp'
  have hsum := hi.available_add_outstanding hsize
  refine ⟨?_, ?_, howner, ?_, ?_, hone, ?_, ?_, ?_, ?_, ?_, ?_⟩
  · apply List.nodup_iff_count_le_one.2
    intro p
    exact (Nat.le_add_right _ _).trans (hi.count_le_one hsize p)
  · intro p hp
    have hmem := (hi.free_perm hsize).mem_iff.1 hp
    exact (List.mem_filter.1 hmem).1
  -- each block is counted once, in the queue or at its owner
  · intro p hp
    have hcount := List.count_pos_iff.2 hp
    rw [← hi.conserved p] at hcount
    rcases Nat.eq_zero_or_pos (s.objects.owned p) with hzero | hpos
    · left
      apply List.count_pos_iff.1
      omega
    · right
      obtain ⟨o, -, ho⟩ := refCount_pos_iff.1 hpos
      exact ⟨o, ho⟩
  · intro o p hp hfree
    have hcount := List.count_pos_iff.2 hfree
    have hpos := Objects.owned_pos hp
    have hle := hi.count_le_one hsize p
    omega
  -- owners of different blocks, whose ranges do not meet
  · intro o o' p p' hne hp hp'
    rw [(hi.buffers o p hp).1, (hi.buffers o' p' hp').1]
    apply poolBlocks_disjoint (howner o p hp) (howner o' p' hp')
    rintro rfl
    exact hne (hone o o' p hp hp')
  · intro o p hp
    rw [(hi.buffers o p hp).1, hi.size.2.2]
    exact poolBlocks_inside (howner o p hp)
  · omega
  · omega
  -- `allocate` throws on an empty queue only
  · cases hfree : s.pool.free_blocks with
    | nil =>
      simp only [MemPool.available, hfree, List.length_nil] at hsum
      simp [MemPool.allocate, hfree]
      omega
    | cons p rest =>
      simp only [MemPool.available, hfree, List.length_cons] at hsum
      simp [MemPool.allocate, hfree]
      omega
  · intro e he
    cases hfree : s.pool.free_blocks with
    | nil =>
      simp only [MemPool.allocate, hfree, Except.error.injEq] at he
      exact ⟨by simp [MemPool.allocate, hfree], he.symm⟩
    | cons p rest => simp [MemPool.allocate, hfree] at he

/-- In every state of every run over a pool whose size does not wrap, blocks are conserved. -/
theorem run_conserved (hwrap : block_size * block_count < 2 ^ 64) {loc : MemoryLocation}
    {pool : MemPool} (hmake : MemPool.make block_size block_count loc = .ok pool)
    {ops : List (PoolOp U S R)} (hrun : runFrom step ⟨pool, Objects.init⟩ ops = some s) :
    s.Conserved block_size block_count := by
  obtain ⟨hsize, hi⟩ := inv_run hwrap hmake hrun
  exact hi.conserved_state hsize

/-- Two blocks of four elements. -/
def samplePool : MemPool := ⟨4, 2, .Host, 8, [0, 4]⟩

/-- Both blocks are taken, a third `allocate` throws, and one block comes back through a copied
`shared_buffer`. -/
def sampleOps : List (PoolOp Nat Nat Nat) :=
  [.allocate 0, .allocate 1, .allocate 2, .buffer (.sharedFromUnique 0 0),
    .buffer (.sharedCopy 1 0), .buffer (.sharedReset 0), .buffer (.sharedDestroy 1)]

theorem sampleOps_conserved :
    ((runFrom step ⟨samplePool, Objects.init⟩ sampleOps).get (by decide)).Conserved 4 2 :=
  run_conserved (by decide) (show MemPool.make 4 2 .Host = .ok samplePool from rfl)
    (Option.some_get _).symm

end PoolState

end PipelineTools.Memory
