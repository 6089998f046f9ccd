import Mathlib.Data.List.Basic
import Mathlib.Order.Basic

/-!
# Paths of an ordered graph in depth-first order

Each vertex of an ordered graph has a list of successors, in which a vertex may occur more than
once. A path from a vertex is the list of the positions of the edges it takes, so parallel edges
give different paths. `visits` is what a depth-first traversal that keeps no record of visited
vertices comes to, and `depthFirst` lists the paths from a vertex in the order of this traversal
(`depthFirst_follow`): each path once, in lexicographic order (`depthFirst_sorted`), and, when a
rank drops along every edge, all of them (`mem_depthFirst_iff`).
-/

set_option autoImplicit false

namespace PipelineTools.Library

universe u

variable {V : Type u} (next : V → List V)

/-- The vertex at the end of a path. -/
def follow : V → List Nat → Option V
  | v, [] => some v
  | v, k :: ks => (next v)[k]?.bind fun w => follow w ks

/-- The paths of fewer than `n` edges, in depth-first order. -/
def depthFirst : Nat → V → List (List Nat)
  | 0, _ => []
  | n + 1, v =>
    [] :: (next v).zipIdx.flatMap fun e => (depthFirst n e.1).map fun ks => e.2 :: ks

/-- The vertices that a depth-first traversal comes to, each with its depth. -/
def visits : Nat → Nat → V → List (Nat × V)
  | 0, _, _ => []
  | n + 1, depth, v => (depth, v) :: (next v).flatMap fun w => visits n (depth + 1) w

/-- The vertices on all paths from `v` have a property. -/
def Throughout (P : V → Prop) (v : V) : Prop := ∀ p w, follow next v p = some w → P w

/-- A path comes before those that continue it, and otherwise the first edge in which two paths
differ decides. -/
theorem depthFirst_sorted (n : Nat) (v : V) :
    (depthFirst next n v).Pairwise (List.Lex (· < ·)) := by
  induction n generalizing v with
  | zero => exact .nil
  | succ n ih =>
    refine List.pairwise_cons.2 ⟨?_, List.pairwise_flatMap.2 ⟨?_, ?_⟩⟩
    · intro p hp
      obtain ⟨e, -, hp⟩ := List.mem_flatMap.1 hp
      obtain ⟨ks, -, rfl⟩ := List.mem_map.1 hp
      exact .nil
    · intro e _
      exact List.pairwise_map.2 ((ih e.1).imp fun h => .cons h)
    · -- Edges are tried in the order of their positions.
      have hpositions : (next v).zipIdx.Pairwise fun e e' => e.2 < e'.2 := by
        rw [← List.pairwise_map (f := Prod.snd), List.zipIdx_map_snd]
        exact List.pairwise_lt_range'
      refine hpositions.imp ?_
      intro e e' hlt p hp p' hp'
      obtain ⟨ks, -, rfl⟩ := List.mem_map.1 hp
      obtain ⟨ks', -, rfl⟩ := List.mem_map.1 hp'
      exact .rel hlt

/-- The traversal comes to the ends of the paths, in their order. -/
theorem depthFirst_follow (n depth : Nat) (v : V) :
    (depthFirst next n v).map
        (fun p => (follow next v p).map fun w => (depth + p.length, w)) =
      (visits next n depth v).map some := by
  induction n generalizing depth v with
  | zero => rfl
  | succ n ih =>
    rw [depthFirst, visits, List.map_cons, List.map_cons, List.map_flatMap, List.map_flatMap]
    congr 1
    have hvertices : (next v).flatMap (fun w => (visits next n (depth + 1) w).map some) =
        (next v).zipIdx.flatMap fun e => (visits next n (depth + 1) e.1).map some := by
      conv_lhs => rw [← List.zipIdx_map_fst 0 (next v), List.flatMap_map]
    rw [hvertices]
    refine List.flatMap_congr ?_
    rintro ⟨w, k⟩ he
    have hget := List.mem_zipIdx_iff_getElem?.1 he
    rw [← ih (depth + 1) w, List.map_map]
    refine List.map_congr_left ?_
    intro ks _
    simp only [Function.comp_apply, follow, hget, Option.bind_some, List.length_cons]
    have hdepth : depth + (ks.length + 1) = depth + 1 + ks.length := by omega
    rw [hdepth]

variable {next}

/-- What holds throughout holds of the vertex, and throughout from its successors. -/
theorem throughout_iff {P : V → Prop} {v : V} :
    Throughout next P v ↔ P v ∧ ∀ w ∈ next v, Throughout next P w := by
  constructor
  · intro h
    refine ⟨h [] v rfl, ?_⟩
    intro w hw p x hx
    obtain ⟨k, hk⟩ := List.mem_iff_getElem?.1 hw
    refine h (k :: p) x ?_
    rw [follow, hk]
    exact hx
  · rintro ⟨hv, hnext⟩ p x hx
    cases p with
    | nil =>
      obtain rfl := Option.some.inj hx
      exact hv
    | cons k p =>
      obtain ⟨w, hk, hw⟩ := Option.bind_eq_some_iff.1 hx
      exact hnext w (List.mem_of_getElem? hk) p x hw

theorem mem_depthFirst_iff (rank : V → Nat) (hrank : ∀ v, ∀ w ∈ next v, rank w < rank v)
    {n : Nat} {v : V} (hn : rank v < n) (p : List Nat) :
    p ∈ depthFirst next n v ↔ (follow next v p).isSome := by
  induction n generalizing v p with
  | zero => exact absurd hn (Nat.not_lt_zero _)
  | succ n ih =>
    cases p with
    | nil => simp [depthFirst, follow]
    | cons k ks =>
      have hbelow : ∀ w ∈ next v, (ks ∈ depthFirst next n w ↔ (follow next w ks).isSome) := by
        intro w hw
        have hlt := hrank v w hw
        exact ih (by omega) ks
      constructor
      · intro hmem
        rcases List.mem_cons.1 hmem with hnil | hmem
        · cases hnil
        · obtain ⟨⟨w, i⟩, he, hks⟩ := List.mem_flatMap.1 hmem
          obtain ⟨ks', hks', heq⟩ := List.mem_map.1 hks
          cases heq
          have hget := List.mem_zipIdx_iff_getElem?.1 he
          rw [follow, hget]
          exact (hbelow w (List.mem_of_getElem? hget)).1 hks'
      · intro hsome
        cases hget : (next v)[k]? with
        | none =>
          rw [follow, hget] at hsome
          cases hsome
        | some w =>
          rw [follow, hget] at hsome
          have hks := (hbelow w (List.mem_of_getElem? hget)).2 hsome
          refine List.mem_cons_of_mem _ (List.mem_flatMap.2 ⟨(w, k), ?_, ?_⟩)
          · exact List.mem_zipIdx_iff_getElem?.2 hget
          · exact List.mem_map.2 ⟨ks, hks, rfl⟩

/-- Counting elements by what stands for them in another list. -/
theorem countP_of_map_some {A B : Type*} {xs : List A} {ys : List B} {f : B → Option A}
    (h : xs.map some = ys.map f) (p : A → Bool) : xs.countP p = ys.countP fun y => (f y).any p := by
  calc xs.countP p = (xs.map some).countP fun o => o.any p := by
        rw [List.countP_map]
        rfl
    _ = (ys.map f).countP fun o => o.any p := by rw [h]
    _ = ys.countP fun y => (f y).any p := by
        rw [List.countP_map]
        rfl

end PipelineTools.Library
