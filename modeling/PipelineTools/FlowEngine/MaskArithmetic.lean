import PipelineTools.FlowEngine.AggregatorRounds

/-!
# Where the mask arithmetic of the aggregator is faithful

The mask of a producer is an `int` shift converted to `size_t`, and the completion test compares
`state` with a power of two that is computed in floating point, converted to `int` and decremented.
`register_producer` sets no limit to the number of producers. `faithfulMasks_iff` says up to which
number the arithmetic does what the bit mask is for: 30. From there on the three operations fail one
after the other (`masks_break_from_31`).
-/

set_option autoImplicit false

namespace PipelineTools.FlowEngine

/-- Each producer of the aggregator has its own bit, and the completion test is defined and
recognises the states in which all of these bits are set. A state has no other bits: it is made of
the masks. -/
structure FaithfulMasks {V : Type} (agg : Aggregator V) : Prop where
  bit : ∀ id < agg.producerCount, ∃ idx, producerMask id = some idx ∧
    ∀ i, idx.getLsbD i = decide (i = id)
  disjoint : ∀ id < agg.producerCount, ∀ id' < agg.producerCount, id ≠ id' → ∀ idx idx',
    producerMask id = some idx → producerMask id' = some idx' → idx &&& idx' = 0
  full : ∃ full, fullMask agg.producerCount = some full ∧ ∀ state : BitVec 64,
    (∀ i, state.getLsbD i = true → i < agg.producerCount) →
      (state = full ↔ ∀ id < agg.producerCount, state.getLsbD id = true)

theorem getLsbD_twoPow_of_lt {id : Nat} (h : id < 64) (i : Nat) :
    (BitVec.twoPow 64 id).getLsbD i = decide (i = id) := by
  rw [BitVec.getLsbD_twoPow, decide_eq_true h, Bool.true_and]
  exact decide_eq_decide.2 eq_comm

theorem le_30_of_fullMask {n : Nat} {full : BitVec 64} (h : fullMask n = some full) : n ≤ 30 := by
  by_contra hlt
  rw [fullMask_eq_none_of_le (by omega)] at h
  cases h

/-- The arithmetic is faithful for up to 30 registered producers. -/
theorem faithfulMasks_iff (V : Type) (n : Nat) :
    FaithfulMasks (Aggregator.registered n : Aggregator V) ↔ n ≤ 30 := by
  rw [registered_eq]
  constructor
  · rintro ⟨-, -, full, hfull, -⟩
    exact le_30_of_fullMask hfull
  · intro hn
    have hmask : ∀ id < n, producerMask id = some (BitVec.twoPow 64 id) := by
      intro id hid
      exact producerMask_eq (by omega)
    refine ⟨?_, ?_, _, fullMask_eq hn, ?_⟩
    · intro id (hid : id < n)
      exact ⟨_, hmask id hid, getLsbD_twoPow_of_lt (by omega)⟩
    -- two single bits at different places
    · intro id (hid : id < n) id' (hid' : id' < n) hne idx idx' hidx hidx'
      rw [hmask id hid, Option.some.injEq] at hidx
      rw [hmask id' hid', Option.some.injEq] at hidx'
      rw [← hidx, ← hidx', and_twoPow_eq_zero_iff _ (by omega), getLsbD_twoPow_of_lt (by omega)]
      exact decide_eq_false hne.symm
    · intro state hlow
      have hwidth : n ≤ 64 := by omega
      exact eq_fullMask_iff hwidth hlow

/-- With 31 producers the completion test is undefined, with 32 the mask of the last one covers 33
bits, and with 33 the shift is undefined. -/
theorem masks_break_from_31 :
    (¬ ∀ n, 1 ≤ n → FaithfulMasks (Aggregator.registered n : Aggregator Nat)) ∧
      fullMask 31 = none ∧ producerMask 31 = some 0xFFFFFFFF80000000 ∧ producerMask 32 = none := by
  refine ⟨fun h => ?_, by decide, by decide, by decide⟩
  obtain ⟨full, hfull, -⟩ := (h 31 (by decide)).full
  rw [registered_eq, fullMask_eq_none] at hfull
  cases hfull

end PipelineTools.FlowEngine
