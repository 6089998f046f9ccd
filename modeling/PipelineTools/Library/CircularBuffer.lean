import Mathlib.Algebra.Order.Ring.Int
import Mathlib.Data.List.Basic
import Mathlib.Logic.Function.Basic

/-!
# Circular buffers

A buffer has `size` slots, and a slot holds an object or nothing. Positions in the buffer count on
without end, and the slot of a position is its remainder. `Window` says that the objects `items`
stand at the positions from `first` on and that all other slots are empty; `Window.push` and
`Window.pop` are the two ways to change it.

The remainders alone tell two positions apart if they are less than `size` away from each other
(`mod_eq_mod_iff`), and whether the next position after the last meets the first
(`succ_mod_eq_iff`).
-/

set_option autoImplicit false

namespace PipelineTools.Library

universe u

variable {α : Type u} {size : Nat}

/-! ## Positions -/

/-- Positions less than `size` apart have the same slot only if they are the same. -/
theorem mod_eq_mod_iff {a b : Nat} (hle : a ≤ b) (hlt : b < a + size) :
    a % size = b % size ↔ a = b := by
  constructor
  · intro h
    have hdvd : size ∣ b - a := Nat.dvd_of_mod_eq_zero (Nat.sub_mod_eq_zero_of_mod_eq h.symm)
    have hzero : b - a = 0 := Nat.eq_zero_of_dvd_of_lt hdvd (by omega)
    omega
  · rintro rfl
    rfl

/-- Behind `b` comes the slot of `a` exactly if there are `size` positions from `a` to `b`. -/
theorem succ_mod_eq_iff {a b : Nat} (hle : a ≤ b) (hlt : b < a + size) :
    (b + 1) % size = a % size ↔ b + 1 = a + size := by
  rw [← Nat.add_mod_right a size]
  constructor
  · intro h
    by_contra hne
    have hsame := (mod_eq_mod_iff (a := b + 1) (b := a + size) (by omega) (by omega)).1 h
    exact hne hsame
  · intro h
    rw [h]

/-- The mask of a buffer whose size is a power of two wraps an index around. -/
theorem succ_and_mask {mask k : Nat} (hsize : mask + 1 = 2 ^ k) (n : Nat) :
    (n % (mask + 1) + 1) &&& mask = (n + 1) % (mask + 1) := by
  obtain rfl : mask = 2 ^ k - 1 := by omega
  rw [Nat.and_two_pow_sub_one_eq_mod, hsize, Nat.mod_add_mod]

/-! ## Contents -/

/-- The objects in the slots of the positions from `first` on are `items`; the other slots are
empty. -/
structure Window (size : Nat) (data : Nat → Option α) (first : Nat) (items : List α) : Prop where
  fits : items.length ≤ size
  live : ∀ i (h : i < items.length), data ((first + i) % size) = some items[i]
  free : ∀ i, items.length ≤ i → i < size → data ((first + i) % size) = none

namespace Window

variable {data : Nat → Option α} {first : Nat} {items : List α} {x : α}

theorem empty (h : ∀ i, data i = none) (first : Nat) : Window size data first [] where
  fits := Nat.zero_le _
  live i hi := absurd hi (Nat.not_lt_zero i)
  free _ _ _ := h _

/-- The first object. -/
theorem head (h : Window size data first (x :: items)) : data (first % size) = some x := by
  have hlive := h.live 0 (by simp)
  simpa using hlive

/-- The slot behind the last object is empty. -/
theorem next_free (h : Window size data first items) (hroom : items.length < size) :
    data ((first + items.length) % size) = none :=
  h.free items.length (Nat.le_refl _) hroom

/-- Two positions of the buffer have different slots. -/
private theorem slot_ne {i j : Nat} (hne : i ≠ j) (hi : i < size) (hj : j < size) :
    (first + i) % size ≠ (first + j) % size := by
  intro h
  rcases Nat.lt_or_gt_of_ne hne with hlt | hlt
  · have hsame := (mod_eq_mod_iff (a := first + i) (b := first + j) (by omega) (by omega)).1 h
    omega
  · have hsame := (mod_eq_mod_iff (a := first + j) (b := first + i) (by omega) (by omega)).1 h.symm
    omega

theorem push (h : Window size data first items) (hroom : items.length < size) (x : α) :
    Window size (Function.update data ((first + items.length) % size) (some x)) first
      (items ++ [x]) where
  fits := by
    rw [List.length_append, List.length_singleton]
    exact hroom
  live i hi := by
    rw [List.length_append, List.length_singleton] at hi
    by_cases heq : i = items.length
    · subst heq
      simp
    · have hlt : i < items.length := by omega
      rw [Function.update_of_ne (slot_ne heq (by omega) hroom), h.live i hlt,
        List.getElem_append_left hlt]
  free i hi hsize := by
    rw [List.length_append, List.length_singleton] at hi
    rw [Function.update_of_ne (slot_ne (by omega) hsize hroom)]
    exact h.free i (by omega) hsize

theorem pop (h : Window size data first (x :: items)) :
    Window size (Function.update data (first % size) none) (first + 1) items := by
  have hfits : items.length < size := h.fits
  have hslot : ∀ i, (first + 1 + i) % size = (first + (i + 1)) % size := by
    intro i
    rw [Nat.add_assoc, Nat.add_comm 1 i]
  have hfirst : first % size = (first + 0) % size := rfl
  refine ⟨Nat.le_of_lt hfits, ?_, ?_⟩
  · intro i hi
    rw [hslot, hfirst, Function.update_of_ne (slot_ne (by omega) (by omega) (by omega)),
      h.live (i + 1) (by simpa using hi)]
    rfl
  · intro i hi hsize
    by_cases hlast : i + 1 = size
    · -- the slot that has just become empty
      rw [hslot, hlast, Nat.add_mod_right, Function.update_self]
    · rw [hslot, hfirst, Function.update_of_ne (slot_ne (by omega) (by omega) (by omega))]
      exact h.free (i + 1) (by simpa using hi) (by omega)

end Window

end PipelineTools.Library
