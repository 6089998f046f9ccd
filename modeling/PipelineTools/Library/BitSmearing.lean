import Mathlib.Algebra.Order.Ring.Int
import Mathlib.Data.Nat.Find

/-!
# Smearing bits to the right

`Smeared w x y` says that a bit of `y` is set if one of the `w` bits of `x` from there on is.
Shifting `y` by `w` and combining it with itself doubles `w`. Once `w` reaches the length of `x` all
bits below the highest one are set, and the number that follows is the least power of two above
`x`.
-/

set_option autoImplicit false

namespace PipelineTools.Library

/-- A bit of `y` is set if one of the next `w` bits of `x` is. -/
def Smeared (w x y : Nat) : Prop :=
  ∀ i, y.testBit i = true ↔ ∃ d, d < w ∧ x.testBit (i + d) = true

theorem smeared_one (x : Nat) : Smeared 1 x x := by
  intro i
  constructor
  · intro h
    exact ⟨0, Nat.one_pos, h⟩
  · rintro ⟨d, hd, h⟩
    obtain rfl : d = 0 := by omega
    exact h

theorem Smeared.double {w x y : Nat} (h : Smeared w x y) : Smeared (w + w) x (y ||| y >>> w) := by
  intro i
  rw [Nat.testBit_or, Nat.testBit_shiftRight, Bool.or_eq_true, h i, h (w + i)]
  constructor
  · rintro (⟨d, hd, hbit⟩ | ⟨d, hd, hbit⟩)
    · exact ⟨d, by omega, hbit⟩
    · refine ⟨w + d, by omega, ?_⟩
      rw [← Nat.add_assoc, Nat.add_comm i w]
      exact hbit
  · rintro ⟨d, hd, hbit⟩
    by_cases hlt : d < w
    · exact .inl ⟨d, hlt, hbit⟩
    · refine .inr ⟨d - w, by omega, ?_⟩
      have hsame : w + i + (d - w) = i + d := by omega
      rw [hsame]
      exact hbit

/-- The bits from `i` on are not all zero exactly if the number is at least `2 ^ i`. -/
theorem exists_testBit_iff {w x i : Nat} (hx : x < 2 ^ w) :
    (∃ d, d < w ∧ x.testBit (i + d) = true) ↔ 2 ^ i ≤ x := by
  constructor
  · rintro ⟨d, -, hbit⟩
    by_contra hlt
    have hsmall : x < 2 ^ (i + d) :=
      Nat.lt_of_lt_of_le (Nat.lt_of_not_le hlt) (Nat.pow_le_pow_right (by decide) (by omega))
    rw [Nat.testBit_lt_two_pow hsmall] at hbit
    cases hbit
  · intro hle
    by_contra hnone
    have hzero : ∀ j, j ≥ i → x.testBit j = false := by
      intro j hj
      by_cases hlarge : j < i + w
      · by_contra hbit
        rw [Bool.not_eq_false] at hbit
        apply hnone
        refine ⟨j - i, by omega, ?_⟩
        have hsame : i + (j - i) = j := by omega
        rw [hsame]
        exact hbit
      · apply Nat.testBit_lt_two_pow
        exact Nat.lt_of_lt_of_le hx (Nat.pow_le_pow_right (by decide) (by omega))
    have hlt := Nat.lt_pow_two_of_testBit x hzero
    omega

/-- All bits below the highest one are set: the next number is the least power of two above. -/
theorem Smeared.succ_eq {w x y : Nat} (h : Smeared w x y) (hx : x < 2 ^ w) :
    ∃ n, n ≤ w ∧ y + 1 = 2 ^ n ∧ x < 2 ^ n ∧ ∀ m, x < 2 ^ m → n ≤ m := by
  have hex : ∃ n, x < 2 ^ n := ⟨w, hx⟩
  have hspec := Nat.find_spec hex
  have hmin : ∀ m, x < 2 ^ m → Nat.find hex ≤ m := fun m hm => Nat.find_min' hex hm
  have hy : y = 2 ^ Nat.find hex - 1 := by
    apply Nat.eq_of_testBit_eq
    intro i
    rw [Nat.testBit_two_pow_sub_one, Bool.eq_iff_iff, h i, exists_testBit_iff hx, decide_eq_true_eq]
    constructor
    · intro hle
      by_contra hge
      have hpow : 2 ^ Nat.find hex ≤ 2 ^ i := Nat.pow_le_pow_right (by decide) (by omega)
      omega
    · intro hlt
      by_contra hle
      have hfind := hmin i (Nat.lt_of_not_le hle)
      omega
  have hpos := Nat.two_pow_pos (Nat.find hex)
  exact ⟨Nat.find hex, hmin w hx, by omega, hspec, hmin⟩

end PipelineTools.Library
