import Mathlib.Data.List.Nodup
import Mathlib.Logic.Function.Basic

/-!
# Circular linked lists

`Links next as e` says that following `next` from the first of the nodes `as` leads through all of
them in order and from the last one to `e`. A circular list is one that leads back to its own first
node; it may be entered at the second node (`links_rotate`), and a new node may be put behind any
of its nodes (`links_insert`).
-/

set_option autoImplicit false

namespace PipelineTools.Library

universe u

variable {A : Type u}

/-- Following `next` leads through the nodes `as` and then to `e`. -/
def Links (next : A → A) : List A → A → Prop
  | [], _ => True
  | a :: as, e => next a = as.headD e ∧ Links next as e

variable {next next' : A → A} {as bs : List A} {a b e : A}

theorem links_append : Links next (as ++ bs) e ↔ Links next as (bs.headD e) ∧ Links next bs e := by
  induction as with
  | nil => simp [Links]
  | cons a as ih =>
    rw [List.cons_append, Links, Links, ih, and_assoc]
    cases as with
    | nil => rfl
    | cons c as => rfl

/-- Only the nodes of the list count. -/
theorem Links.congr (h : Links next as e) (hsame : ∀ a ∈ as, next' a = next a) :
    Links next' as e := by
  induction as with
  | nil => trivial
  | cons a as ih =>
    rw [List.forall_mem_cons] at hsame
    exact ⟨by rw [hsame.1, h.1], ih h.2 hsame.2⟩

/-- A circular list may be entered one node later. -/
theorem links_rotate (h : Links next (a :: b :: as) a) : Links next (b :: as ++ [a]) b := by
  obtain ⟨hab, hrest⟩ := h
  rw [links_append]
  exact ⟨hrest, hab, trivial⟩

/-- A node put behind `a`. -/
theorem links_insert [DecidableEq A] (h : Links next (as ++ a :: bs) e)
    (hnodup : (as ++ a :: bs).Nodup) (hb : b ∉ as ++ a :: bs) (hnext : next b = next a) :
    Links (Function.update next a b) (as ++ a :: b :: bs) e := by
  rw [links_append] at h ⊢
  obtain ⟨hfirst, ha, hrest⟩ := h
  have ha' : a ∉ as := fun hmem => (List.disjoint_of_nodup_append hnodup) hmem (by simp)
  have hbs : a ∉ bs := (List.nodup_cons.1 (List.Nodup.of_append_right hnodup)).1
  have hba : b ≠ a := fun heq => hb (by simp [heq])
  refine ⟨hfirst.congr ?_, ?_, ?_, hrest.congr ?_⟩
  · intro c hc
    have hne : c ≠ a := fun heq => ha' (heq ▸ hc)
    exact Function.update_of_ne hne _ _
  · exact Function.update_self _ _ _
  · rw [Function.update_of_ne hba, hnext, ha]
  · intro c hc
    have hne : c ≠ a := fun heq => hbs (heq ▸ hc)
    exact Function.update_of_ne hne _ _

end PipelineTools.Library
