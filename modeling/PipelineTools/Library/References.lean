import Mathlib.Data.Finset.Card
import Mathlib.Data.List.Count
import Mathlib.Data.List.Dedup

/-!
# Counting references

Holders of type `α` each refer to at most one object of type `β`; `refCount A f c` is the number of
holders in `A` that refer to `c` under `f`. A step of a program changes what a few named holders
refer to. `refCount_change` turns such a step into one equation between the counts before and after,
whatever the other holders are; `refCount_pos_iff` and `eq_of_refCount_le_one` read a count back.
-/

set_option autoImplicit false

namespace PipelineTools.Library

universe u v

variable {α : Type u} {β : Type v} [DecidableEq β]

/-- The number of holders in `A` that refer to `c`. -/
def refCount (A : Finset α) (f : α → Option β) (c : β) : Nat :=
  (A.filter fun x => f x = some c).card

theorem refCount_pos_iff {A : Finset α} {f : α → Option β} {c : β} :
    0 < refCount A f c ↔ ∃ x ∈ A, f x = some c := by
  rw [refCount, Finset.card_pos]
  constructor
  · rintro ⟨x, hx⟩
    exact ⟨x, Finset.mem_filter.1 hx⟩
  · rintro ⟨x, hx⟩
    exact ⟨x, Finset.mem_filter.2 hx⟩

/-- An object with at most one reference has at most one holder. -/
theorem eq_of_refCount_le_one {A : Finset α} {f : α → Option β} {c : β} (h : refCount A f c ≤ 1)
    {x y : α} (hx : x ∈ A) (hfx : f x = some c) (hy : y ∈ A) (hfy : f y = some c) : x = y := by
  apply Finset.card_le_one.1 h
  · exact Finset.mem_filter.2 ⟨hx, hfx⟩
  · exact Finset.mem_filter.2 ⟨hy, hfy⟩

theorem refCount_le_card (A : Finset α) (f : α → Option β) (c : β) : refCount A f c ≤ A.card :=
  Finset.card_filter_le _ _

/-- Holders that refer to nothing may be added without a change of the count. -/
theorem refCount_eq_of_subset {A B : Finset α} {f : α → Option β} (hAB : A ⊆ B)
    (hf : ∀ x, x ∉ A → f x = none) (c : β) : refCount A f c = refCount B f c := by
  have hsame : (A.filter fun x => f x = some c) = B.filter fun x => f x = some c := by
    ext x
    simp only [Finset.mem_filter]
    constructor
    · rintro ⟨hx, hfx⟩
      exact ⟨hAB hx, hfx⟩
    · rintro ⟨-, hfx⟩
      by_contra hx
      have hnone := hf x (fun hA => hx ⟨hA, hfx⟩)
      simp [hnone] at hfx
  rw [refCount, refCount, hsame]

/-- The count splits into the named holders and the rest. -/
theorem refCount_eq_countP_add [DecidableEq α] {B : Finset α} {M : List α} (hM : M.Nodup)
    (hB : ∀ x ∈ M, x ∈ B) (f : α → Option β) (c : β) :
    refCount B f c =
      M.countP (fun x => f x = some c) +
        ((B \ M.toFinset).filter fun x => f x = some c).card := by
  have hsplit : (B.filter fun x => f x = some c) =
      (M.toFinset.filter fun x => f x = some c) ∪
        (B \ M.toFinset).filter fun x => f x = some c := by
    rw [← Finset.filter_union, Finset.union_sdiff_of_subset]
    intro x hx
    exact hB x (List.mem_toFinset.1 hx)
  have hdisjoint : Disjoint (M.toFinset.filter fun x => f x = some c)
      ((B \ M.toFinset).filter fun x => f x = some c) :=
    Finset.disjoint_filter_filter Finset.disjoint_sdiff
  have hnamed : (M.toFinset.filter fun x => f x = some c).card =
      M.countP (fun x => f x = some c) := by
    have hlist : (M.toFinset.filter fun x => f x = some c) =
        (M.filter fun x => f x = some c).toFinset := by
      ext x
      simp
    rw [hlist, List.toFinset_card_of_nodup (hM.filter _), List.countP_eq_length_filter]
  rw [refCount, hsplit, Finset.card_union_of_disjoint hdisjoint, hnamed]

/-- Only the holders in `M` change: the counts before and after differ as those of `M` do. -/
theorem refCount_change [DecidableEq α] {A A' : Finset α} {f f' : α → Option β} {M : List α}
    (hM : M.Nodup) (hf : ∀ x, x ∉ A → f x = none) (hf' : ∀ x, x ∉ A' → f' x = none)
    (hframe : ∀ x, x ∉ M → f' x = f x) (c : β) :
    refCount A' f' c + M.countP (fun x => f x = some c) =
      refCount A f c + M.countP (fun x => f' x = some c) := by
  let B := A ∪ A' ∪ M.toFinset
  have hMB : ∀ x ∈ M, x ∈ B := by
    intro x hx
    exact Finset.mem_union_right _ (List.mem_toFinset.2 hx)
  have hA : A ⊆ B := Finset.subset_union_left.trans Finset.subset_union_left
  have hA' : A' ⊆ B := Finset.subset_union_right.trans Finset.subset_union_left
  have hrest : ((B \ M.toFinset).filter fun x => f' x = some c) =
      (B \ M.toFinset).filter fun x => f x = some c := by
    apply Finset.filter_congr
    intro x hx
    have hx' : x ∉ M := fun h => (Finset.mem_sdiff.1 hx).2 (List.mem_toFinset.2 h)
    rw [hframe x hx']
  rw [refCount_eq_of_subset hA hf, refCount_eq_of_subset hA' hf', refCount_eq_countP_add hM hMB f,
    refCount_eq_countP_add hM hMB f', hrest]
  omega

end PipelineTools.Library
