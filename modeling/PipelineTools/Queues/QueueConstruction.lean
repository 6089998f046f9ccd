import PipelineTools.Library.BitSmearing
import PipelineTools.Queues.Linearization

/-!
# The constructor of the reader-writer queue

`ceilToPow2` is computed on machine words: it is the least power of two that is not below its
argument, and zero if there is none (`ceilToPow2_spec`). The constructor makes one block for small
sizes and a circular list of blocks for others; the result is ready for its two threads, and its
blocks are enough for the `size` that was asked for (`ready_make`).
-/

set_option autoImplicit false

namespace PipelineTools.Queues.Moodycamel

open PipelineTools.Library

variable {α : Type}

/-- `ceilToPow2`, for a `size_t` of eight bytes. -/
def ceilToPow2 (x : BitVec 64) : BitVec 64 :=
  let x := x - 1
  let x := x ||| (x >>> 1)
  let x := x ||| (x >>> 2)
  let x := x ||| (x >>> 4)
  let x := [1, 2, 4].foldl (fun (x : BitVec 64) (i : Nat) => x ||| (x >>> (i <<< 3))) x
  x + 1

/-- Memory without blocks. -/
def noBlocks : Nat → Block α := fun _ => makeBlock 0

/-- One turn of the loop that makes the blocks: the last block is linked to the new one, and the
new one to the first. -/
def addBlock (capacity : Nat) (blocks : Nat → Block α) (i : Nat) : Nat → Block α :=
  let blocks := Function.update blocks i { makeBlock capacity with next := 0 }
  if i = 0 then blocks
  else Function.update blocks (i - 1) { blocks (i - 1) with next := i }

/-- The constructor, when there is memory for all blocks. Where the count of the blocks comes out as
zero there is no block that `frontBlock` could be. -/
def ReaderWriterQueue.make (maxBlockSize size : Nat) : ReaderWriterQueue α :=
  let maxBlockSize_ : BitVec 64 := .ofNat 64 maxBlockSize
  let size_ : BitVec 64 := .ofNat 64 size
  let largestBlockSize := ceilToPow2 (size_ + 1)
  if largestBlockSize > maxBlockSize_ * 2 then
    let initialBlockCount := ((size_ + maxBlockSize_ * 2 - 3) / (maxBlockSize_ - 1)).toNat
    { blocks := (List.range initialBlockCount).foldl (addBlock maxBlockSize) noBlocks
      allocated := initialBlockCount
      frontBlock := 0
      tailBlock := 0
      largestBlockSize := maxBlockSize }
  else
    { blocks := Function.update noBlocks 0 { makeBlock largestBlockSize.toNat with next := 0 }
      allocated := 1
      frontBlock := 0
      tailBlock := 0
      largestBlockSize := largestBlockSize.toNat }

/-! ## The size of a block -/

/-- The sum wraps around only if it is `2 ^ 64`. -/
theorem toNat_ceilToPow2 (x : BitVec 64) :
    ∃ n, n ≤ 64 ∧ (ceilToPow2 x).toNat = 2 ^ n % 2 ^ 64 ∧ (x - 1).toNat < 2 ^ n ∧
      ∀ m, (x - 1).toNat < 2 ^ m → n ≤ m := by
  have h := (((((smeared_one (x - 1).toNat).double).double).double).double).double.double
  obtain ⟨n, hle, hpow, hlt, hmin⟩ := h.succ_eq (x - 1).isLt
  refine ⟨n, hle, ?_, hlt, hmin⟩
  rw [← hpow]
  simp only [ceilToPow2, List.foldl_cons, List.foldl_nil, BitVec.toNat_add, BitVec.toNat_or,
    BitVec.toNat_ushiftRight]
  rfl

/-- The least power of two that is not below the argument, if it is a machine word. -/
theorem exists_toNat_ceilToPow2 {x : BitVec 64} (hone : 1 ≤ x.toNat) (hsmall : x.toNat ≤ 2 ^ 63) :
    ∃ n, (ceilToPow2 x).toNat = 2 ^ n ∧ x.toNat ≤ 2 ^ n ∧ ∀ m, x.toNat ≤ 2 ^ m → n ≤ m := by
  obtain ⟨n, hle, hpow, hlt, hmin⟩ := toNat_ceilToPow2 x
  have hsub : (x - 1).toNat = x.toNat - 1 := by bv_omega
  rw [hsub] at hlt hmin
  have hn : n ≤ 63 := hmin 63 (by omega)
  have hword : 2 ^ n < 2 ^ 64 := Nat.pow_lt_pow_right (by decide) (by omega)
  refine ⟨n, ?_, by omega, ?_⟩
  · rw [hpow, Nat.mod_eq_of_lt hword]
  · intro m hm
    exact hmin m (by omega)

/-- All 64 bits of `x - 1` are smeared, and adding one wraps around. -/
theorem ceilToPow2_eq_zero {x : BitVec 64} (hx : x.toNat = 0 ∨ 2 ^ 63 < x.toNat) :
    ceilToPow2 x = 0 := by
  obtain ⟨n, hle, hpow, hlt, hmin⟩ := toNat_ceilToPow2 x
  have hlarge : 2 ^ 63 ≤ (x - 1).toNat := by
    rcases hx with hzero | hlarge
    · bv_omega
    · bv_omega
  have hn : n = 64 := by
    by_contra hne
    have hpow63 : 2 ^ n ≤ 2 ^ 63 := Nat.pow_le_pow_right (by decide) (by omega)
    omega
  apply BitVec.eq_of_toNat_eq
  rw [hpow, hn]
  rfl

/-- `ceilToPow2` is the least power of two that is not below its argument; it is zero if that is no
machine word. -/
theorem ceilToPow2_spec (x : BitVec 64) :
    (1 ≤ x.toNat → x.toNat ≤ 2 ^ 63 → ∃ n, (ceilToPow2 x).toNat = 2 ^ n ∧ x.toNat ≤ 2 ^ n ∧
      ∀ m, x.toNat ≤ 2 ^ m → n ≤ m) ∧
    (x.toNat = 0 ∨ 2 ^ 63 < x.toNat → ceilToPow2 x = 0) :=
  ⟨exists_toNat_ceilToPow2, ceilToPow2_eq_zero⟩

/-! ## The blocks -/

/-- The list of the blocks that the loop has made. -/
theorem foldl_addBlock (capacity n : Nat) :
    ∀ i < n, (List.range n).foldl (addBlock (α := α) capacity) noBlocks i =
      { makeBlock capacity with next := if i + 1 = n then 0 else i + 1 } := by
  induction n with
  | zero =>
    intro i hi
    omega
  | succ n ih =>
    intro i hi
    rw [List.range_succ, List.foldl_append, List.foldl_cons, List.foldl_nil]
    generalize hblocks : (List.range n).foldl (addBlock (α := α) capacity) noBlocks = blocks at ih
    rw [addBlock]
    by_cases hn : n = 0
    · subst hn
      obtain rfl : i = 0 := by omega
      rw [if_pos rfl, Function.update_self]
      rfl
    · rw [if_neg hn]
      by_cases hlast : i = n
      · subst hlast
        rw [Function.update_of_ne (by omega), Function.update_self, if_pos rfl]
      · by_cases hprev : i = n - 1
        · -- the block before the new one
          subst hprev
          have hsucc : n - 1 + 1 = n := by omega
          rw [Function.update_self, Function.update_of_ne hlast, ih (n - 1) (by omega), hsucc]
          simp
        · rw [Function.update_of_ne hprev, Function.update_of_ne hlast, ih i (by omega),
            if_neg (by omega), if_neg (by omega)]

/-- Blocks that are linked in the order of their numbers. -/
theorem links_range' {next : Nat → Nat} {a n e : Nat}
    (h : ∀ i, a ≤ i → i < a + n → next i = if i + 1 = a + n then e else i + 1) :
    Links next (List.range' a n) e := by
  induction n generalizing a with
  | zero => trivial
  | succ n ih =>
    rw [List.range'_succ]
    refine ⟨?_, ih ?_⟩
    · rw [h a (Nat.le_refl _) (by omega)]
      cases n with
      | zero =>
        rw [if_pos (by omega)]
        rfl
      | succ n =>
        rw [if_neg (by omega), List.range'_succ]
        rfl
    · intro i hle hlt
      rw [h i (by omega) (by omega)]
      have hsame : a + (n + 1) = a + 1 + n := by omega
      rw [hsame]

/-- All blocks are empty, and the first one is the front and the tail block. -/
def Layout.initial (count : Nat) : Layout α := ⟨[0], List.range' 1 (count - 1), fun _ => .empty⟩

theorem Layout.ring_initial {count : Nat} (hcount : 1 ≤ count) :
    (Layout.initial count : Layout α).ring = List.range' 0 count := by
  obtain ⟨n, rfl⟩ : ∃ n, count = n + 1 := ⟨count - 1, by omega⟩
  rw [List.range'_succ]
  rfl

/-- A ring of `count` new blocks. -/
theorem ready_of_blocks {lim : Limits} {capacity k count : Nat} (hcapacity : capacity = 2 ^ k)
    (htwo : 2 ≤ capacity) (hcount : 1 ≤ count)
    (hguaranteed : lim.guaranteed ≤ max 1 (count - 1) * (capacity - 1))
    (hmaximal : count * (capacity - 1) ≤ lim.maximal) :
    Ready lim (capacity - 1)
      ⟨(List.range count).foldl (addBlock (α := α) capacity) noBlocks, count, 0, 0, capacity⟩
      (.initial count) := by
  have hblocks := foldl_addBlock (α := α) capacity count
  generalize (List.range count).foldl (addBlock (α := α) capacity) noBlocks = blocks at hblocks
  have hring := Layout.ring_initial (α := α) hcount
  have hmem : ∀ b ∈ (Layout.initial count : Layout α).ring, b < count := by
    intro b hb
    rw [hring, List.mem_range'_1] at hb
    omega
  have hmask : ∀ b ∈ (Layout.initial count : Layout α).ring,
      (blocks b).sizeMask = capacity - 1 := by
    intro b hb
    rw [hblocks b (hmem b hb)]
    rfl
  refine ⟨⟨rfl, rfl, ?_, ?_, hmem, ?_, ?_, ?_, ?_, by omega, ?_, ?_⟩, ⟨?_, ?_⟩, ?_, rfl⟩
  · rw [hring]
    -- each block is followed by the next one, and the last by the first
    apply links_range'
    intro i hle hlt
    show (blocks i).next = _
    rw [hblocks i (by omega), Nat.zero_add]
  · rw [hring]
    exact List.nodup_range'
  · intro b hb
    show Shows (blocks b) _ _ _
    rw [hblocks b (hmem b hb)]
    -- every block is new and empty
    have hshows : Shows (makeBlock capacity : Block α) .empty 0 [] := shows_makeBlock hcapacity
    exact { hshows with }
  · intro b hb hne
    exact absurd (List.mem_singleton.1 hb) hne
  · intro hne
    exact absurd rfl hne
  · intro b hb
    rfl
  · intro b hb
    rw [hmask b hb]
  · exact ⟨by show capacity - 1 + 1 ≤ capacity; omega, k, hcapacity⟩
  · rw [hring, List.length_range']
    -- room for the guaranteed elements
    exact hguaranteed
  · intro hnot
    -- and no more room than the limit says
    have hmasks : (Layout.initial count : Layout α).ring.map (fun b => (blocks b).sizeMask) =
        List.replicate count (capacity - 1) := by
      rw [List.eq_replicate_iff]
      refine ⟨by rw [List.length_map, hring, List.length_range'], ?_⟩
      intro m hm
      obtain ⟨b, hb, rfl⟩ := List.mem_map.1 hm
      exact hmask b hb
    show (((Layout.initial count : Layout α).ring.map fun b => (blocks b).sizeMask).sum) ≤ _
    rw [hmasks, List.sum_replicate_nat]
    exact hmaximal
  · rw [hring, List.length_range']

/-! ## The constructor -/

/-- What a queue made for `size` elements promises. -/
def limitsOf (α : Type) (maxBlockSize size : Nat) (mayGrow mayFail : Prop) : Limits where
  guaranteed := size
  maximal :=
    let q : ReaderWriterQueue α := .make maxBlockSize size
    q.allocated * (q.largestBlockSize - 1)
  mayGrow := mayGrow
  mayFail := mayFail

/-- The spare block leaves room for `size` elements in the others. -/
theorem initialBlockCount_spec {maxBlockSize size : Nat} (htwo : 2 ≤ maxBlockSize) :
    size ≤ ((size + maxBlockSize * 2 - 3) / (maxBlockSize - 1) - 1) * (maxBlockSize - 1) := by
  have hpos : 0 < maxBlockSize - 1 := by omega
  have hdiv := Nat.div_add_mod (size + maxBlockSize * 2 - 3) (maxBlockSize - 1)
  have hmod := Nat.mod_lt (size + maxBlockSize * 2 - 3) hpos
  generalize (size + maxBlockSize * 2 - 3) / (maxBlockSize - 1) = n at hdiv ⊢
  rw [Nat.mul_comm] at hdiv
  rw [Nat.sub_mul]
  omega

/-- Up to `2 ^ 62` for a block and below `2 ^ 63` for the size, the arithmetic does not wrap
around. -/
theorem make_eq {maxBlockSize size : Nat} (htwo : 2 ≤ maxBlockSize) (hmax : maxBlockSize ≤ 2 ^ 62)
    (hone : 1 ≤ size) (hsmall : size < 2 ^ 63) {n : Nat}
    (hceil : (ceilToPow2 (BitVec.ofNat 64 size + 1)).toNat = 2 ^ n) :
    (.make maxBlockSize size : ReaderWriterQueue α) =
      if 2 ^ n > maxBlockSize * 2 then
        let count := (size + maxBlockSize * 2 - 3) / (maxBlockSize - 1)
        ⟨(List.range count).foldl (addBlock maxBlockSize) noBlocks, count, 0, 0, maxBlockSize⟩
      else ⟨(List.range 1).foldl (addBlock (2 ^ n)) noBlocks, 1, 0, 0, 2 ^ n⟩ := by
  have hsize : (BitVec.ofNat 64 size).toNat = size := by
    rw [BitVec.toNat_ofNat]
    exact Nat.mod_eq_of_lt (by omega)
  have hblock : (BitVec.ofNat 64 maxBlockSize).toNat = maxBlockSize := by
    rw [BitVec.toNat_ofNat]
    exact Nat.mod_eq_of_lt (by omega)
  have hdouble : (BitVec.ofNat 64 maxBlockSize * 2).toNat = maxBlockSize * 2 := by
    rw [BitVec.toNat_mul, hblock]
    exact Nat.mod_eq_of_lt (by show maxBlockSize * 2 < 2 ^ 64; omega)
  have hless : (BitVec.ofNat 64 maxBlockSize - 1).toNat = maxBlockSize - 1 := by
    bv_omega
  have hsum : (BitVec.ofNat 64 size + BitVec.ofNat 64 maxBlockSize * 2 - 3).toNat =
      size + maxBlockSize * 2 - 3 := by
    bv_omega
  have hcount : ((BitVec.ofNat 64 size + BitVec.ofNat 64 maxBlockSize * 2 - 3) /
      (BitVec.ofNat 64 maxBlockSize - 1)).toNat =
      (size + maxBlockSize * 2 - 3) / (maxBlockSize - 1) := by
    rw [BitVec.toNat_udiv, hsum, hless]
  rw [ReaderWriterQueue.make]
  simp only [gt_iff_lt, BitVec.lt_def, hdouble, hceil, hcount]
  rfl

/-- Either there is a list of blocks, or one block with room for one element more than `size`. -/
theorem exists_make_eq {maxBlockSize k size : Nat} (hmax : maxBlockSize = 2 ^ k) (hk : 1 ≤ k)
    (hle : k ≤ 62) (hone : 1 ≤ size) (hsmall : size < 2 ^ 63) : ∃ n, size + 1 ≤ 2 ^ n ∧
      (.make maxBlockSize size : ReaderWriterQueue α) =
        if 2 ^ n > maxBlockSize * 2 then
          let count := (size + maxBlockSize * 2 - 3) / (maxBlockSize - 1)
          ⟨(List.range count).foldl (addBlock maxBlockSize) noBlocks, count, 0, 0, maxBlockSize⟩
        else ⟨(List.range 1).foldl (addBlock (2 ^ n)) noBlocks, 1, 0, 0, 2 ^ n⟩ := by
  have hword : (BitVec.ofNat 64 size + 1).toNat = size + 1 := by
    rw [BitVec.toNat_add, BitVec.toNat_ofNat]
    show (size % 2 ^ 64 + 1) % 2 ^ 64 = size + 1
    omega
  obtain ⟨n, hceil, hsize, -⟩ := exists_toNat_ceilToPow2 (x := BitVec.ofNat 64 size + 1)
    (by omega) (by omega)
  have htwo : 2 ≤ maxBlockSize := by
    rw [hmax]
    exact Nat.le_self_pow (by omega) 2
  have hbound : maxBlockSize ≤ 2 ^ 62 := by
    rw [hmax]
    exact Nat.pow_le_pow_right (by decide) hle
  exact ⟨n, hword ▸ hsize, make_eq htwo hbound hone hsmall hceil⟩

/-- The queue made for `size` elements is ready, and keeps what `limitsOf` says. -/
theorem ready_make {maxBlockSize k size : Nat} (hmax : maxBlockSize = 2 ^ k) (hk : 1 ≤ k)
    (hle : k ≤ 62) (hone : 1 ≤ size) (hsmall : size < 2 ^ 63) (mayGrow mayFail : Prop) :
    ∃ least g, Ready (limitsOf α maxBlockSize size mayGrow mayFail) least
      (.make maxBlockSize size : ReaderWriterQueue α) g := by
  obtain ⟨n, hsize, hmade⟩ := exists_make_eq (α := α) hmax hk hle hone hsmall
  have htwo : 2 ≤ maxBlockSize := by
    rw [hmax]
    exact Nat.le_self_pow (by omega) 2
  by_cases hlarge : 2 ^ n > maxBlockSize * 2
  · -- a list of blocks
    have hcount : size ≤
        ((size + maxBlockSize * 2 - 3) / (maxBlockSize - 1) - 1) * (maxBlockSize - 1) :=
      initialBlockCount_spec htwo
    have hmake : (.make maxBlockSize size : ReaderWriterQueue α) =
        ⟨(List.range ((size + maxBlockSize * 2 - 3) / (maxBlockSize - 1))).foldl
          (addBlock maxBlockSize) noBlocks,
          (size + maxBlockSize * 2 - 3) / (maxBlockSize - 1), 0, 0, maxBlockSize⟩ :=
      hmade.trans (if_pos hlarge)
    have hmaximal : (limitsOf α maxBlockSize size mayGrow mayFail).maximal =
        (size + maxBlockSize * 2 - 3) / (maxBlockSize - 1) * (maxBlockSize - 1) := by
      show (ReaderWriterQueue.make maxBlockSize size : ReaderWriterQueue α).allocated *
        ((ReaderWriterQueue.make maxBlockSize size : ReaderWriterQueue α).largestBlockSize - 1) = _
      rw [hmake]
    rw [hmake]
    generalize (size + maxBlockSize * 2 - 3) / (maxBlockSize - 1) = count at *
    refine ⟨_, _, ready_of_blocks hmax htwo ?_ ?_ (Nat.le_of_eq hmaximal.symm)⟩
    · by_contra hzero
      obtain rfl : count = 0 := by omega
      omega
    · exact Nat.le_trans hcount (Nat.mul_le_mul_right _ (Nat.le_max_right _ _))
  · -- one block
    have hmake : (.make maxBlockSize size : ReaderWriterQueue α) =
        ⟨(List.range 1).foldl (addBlock (2 ^ n)) noBlocks, 1, 0, 0, 2 ^ n⟩ :=
      hmade.trans (if_neg hlarge)
    have hmaximal : (limitsOf α maxBlockSize size mayGrow mayFail).maximal = 1 * (2 ^ n - 1) := by
      show (ReaderWriterQueue.make maxBlockSize size : ReaderWriterQueue α).allocated *
        ((ReaderWriterQueue.make maxBlockSize size : ReaderWriterQueue α).largestBlockSize - 1) = _
      rw [hmake]
    rw [hmake]
    refine ⟨_, _, ready_of_blocks rfl (by omega) (Nat.le_refl _) ?_ (Nat.le_of_eq hmaximal.symm)⟩
    show size ≤ max 1 (1 - 1) * (2 ^ n - 1)
    rw [max_eq_left (by omega)]
    omega

end PipelineTools.Queues.Moodycamel
