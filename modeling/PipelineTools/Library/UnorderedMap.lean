import Mathlib.Data.List.Nodup
import Mathlib.Data.List.Perm.Basic
import Mathlib.Data.List.TakeWhile

/-!
# The node order of a hash map

`UnorderedMap V` models `std::unordered_map<size_t, V>` as libstdc++ lays it out: one singly linked
list of nodes in iteration order, cut into buckets by the key modulo the bucket count. A new node
goes to the front of its bucket, or to the front of the whole list when its bucket is empty; a
rehash relinks the nodes one after the other into the new buckets by the same rule.

What the iteration order is matters only to code that observes it. The lemmas used elsewhere say
which keys and values a map holds: insertion of a fresh key adds one node (`insert_perm`), keys
stay distinct (`keys_nodup_insert`), `clear` empties the map and keeps the buckets.
-/

set_option autoImplicit false

namespace PipelineTools.Library

universe u v

/-- A hash map keyed by `size_t` with the identity hash. -/
structure UnorderedMap (V : Type u) where
  /-- Number of buckets; `1` before the first insertion. -/
  bucketCount : Nat := 1
  /-- Elements that fit before the next rehash. -/
  nextResize : Nat := 0
  /-- The nodes in iteration order. -/
  nodes : List (Nat × V) := []

namespace UnorderedMap

variable {V : Type u}

/-- Put a node at the front of its bucket, or at the front of the list if the bucket is empty. -/
def link (buckets : Nat) (node : Nat × V) (nodes : List (Nat × V)) : List (Nat × V) :=
  let other := nodes.takeWhile fun p => p.1 % buckets ≠ node.1 % buckets
  if other.length = nodes.length then node :: nodes
  else other ++ node :: nodes.drop other.length

/-- Relink all nodes into `buckets` buckets, in their old iteration order. -/
def relink (buckets : Nat) (nodes : List (Nat × V)) : List (Nat × V) :=
  nodes.foldl (fun acc node => link buckets node acc) []

/-- The bucket counts the rehash policy passes through as elements are added one at a time. -/
def primes : List Nat :=
  [2, 3, 5, 7, 11, 13, 29, 59, 127, 257, 541, 1109, 2357, 5087, 10273, 20753, 42043]

/-- Least bucket count of the table that is at least `n`. -/
def nextBucketCount (n : Nat) : Nat :=
  (primes.find? fun p => n ≤ p).getD n

/-- Rehash before an insertion that would exceed the load factor `1`. -/
def reserveOne (m : UnorderedMap V) : UnorderedMap V :=
  if m.nextResize < m.nodes.length + 1 then
    let needed := max (m.nodes.length + 1) (if m.nextResize = 0 then 11 else 0)
    if m.bucketCount ≤ needed then
      let buckets := nextBucketCount (max (needed + 1) (m.bucketCount * 2))
      { bucketCount := buckets, nextResize := buckets, nodes := relink buckets m.nodes }
    else { m with nextResize := m.bucketCount }
  else m

/-- Keys in iteration order. -/
def keys (m : UnorderedMap V) : List Nat := m.nodes.map Prod.fst

/-- Values in iteration order. -/
def values (m : UnorderedMap V) : List V := m.nodes.map Prod.snd

/-- `m[key] = value`. -/
def insertOrAssign (m : UnorderedMap V) (key : Nat) (value : V) : UnorderedMap V :=
  if key ∈ m.keys then
    { m with nodes := m.nodes.map fun p => if p.1 = key then (key, value) else p }
  else
    let m := m.reserveOne
    { m with nodes := link m.bucketCount (key, value) m.nodes }

/-- `m.clear()`: the nodes go, the buckets stay. -/
def clear (m : UnorderedMap V) : UnorderedMap V := { m with nodes := [] }

theorem link_perm (buckets : Nat) (node : Nat × V) (nodes : List (Nat × V)) :
    (link buckets node nodes).Perm (node :: nodes) := by
  unfold link
  extract_lets other
  split
  · exact List.Perm.refl _
  · have hsplit : nodes = other ++ nodes.drop other.length := by
      have hpre : other <+: nodes := List.takeWhile_prefix _
      obtain ⟨rest, hrest⟩ := hpre
      rw [← hrest, List.drop_left]
    conv_rhs => rw [hsplit]
    exact List.perm_middle

theorem relink_perm (buckets : Nat) (nodes : List (Nat × V)) :
    (relink buckets nodes).Perm nodes := by
  have key : ∀ (nodes acc : List (Nat × V)),
      (nodes.foldl (fun acc node => link buckets node acc) acc).Perm (nodes ++ acc) := by
    intro nodes
    induction nodes with
    | nil => exact fun acc => List.Perm.refl _
    | cons node nodes ih =>
      intro acc
      refine (ih _).trans ?_
      refine (List.Perm.append_left nodes (link_perm buckets node acc)).trans ?_
      exact List.perm_middle
  simpa [relink] using key nodes []

theorem reserveOne_perm (m : UnorderedMap V) : m.reserveOne.nodes.Perm m.nodes := by
  rw [reserveOne]
  by_cases hfull : m.nextResize < m.nodes.length + 1
  · rw [if_pos hfull]
    extract_lets needed
    split
    · exact relink_perm _ _
    · exact List.Perm.refl _
  · rw [if_neg hfull]

/-- Inserting a fresh key adds one node. -/
theorem insert_perm {m : UnorderedMap V} {key : Nat} (h : key ∉ m.keys) (value : V) :
    (m.insertOrAssign key value).nodes.Perm ((key, value) :: m.nodes) := by
  rw [insertOrAssign]
  rw [if_neg h]
  exact (link_perm _ _ _).trans ((reserveOne_perm m).cons _)

theorem keys_insert_perm {m : UnorderedMap V} {key : Nat} (h : key ∉ m.keys) (value : V) :
    (m.insertOrAssign key value).keys.Perm (key :: m.keys) := by
  simpa [keys] using (insert_perm h value).map Prod.fst

theorem keys_nodup_insert {m : UnorderedMap V} {key : Nat} (h : key ∉ m.keys) (value : V)
    (hm : m.keys.Nodup) : (m.insertOrAssign key value).keys.Nodup :=
  (keys_insert_perm h value).nodup_iff.2 (List.nodup_cons.2 ⟨h, hm⟩)

theorem nodes_insert_ne_nil (m : UnorderedMap V) (key : Nat) (value : V) :
    (m.insertOrAssign key value).nodes ≠ [] := by
  by_cases h : key ∈ m.keys
  · rw [insertOrAssign, if_pos h]
    simpa [keys] using List.ne_nil_of_mem h
  · exact fun hnil => List.cons_ne_nil _ _ ((hnil ▸ insert_perm h value).nil_eq).symm

/-! ## Insertion of a list of keys -/

/-- `m[key] = value` for each of the pairs, in order. -/
def insertAll (m : UnorderedMap V) (l : List (Nat × V)) : UnorderedMap V :=
  l.foldl (fun m p => m.insertOrAssign p.1 p.2) m

/-- The map with a function applied to its nodes. -/
def mapNodes {W : Type v} (g : Nat → V → W) (m : UnorderedMap V) : UnorderedMap W :=
  { bucketCount := m.bucketCount, nextResize := m.nextResize,
    nodes := m.nodes.map fun p => (p.1, g p.1 p.2) }

section MapNodes

variable {W : Type v} (g : Nat → V → W)

@[simp] theorem keys_mapNodes (m : UnorderedMap V) : (m.mapNodes g).keys = m.keys := by
  simp [keys, mapNodes, Function.comp_def]

theorem link_mapNodes (buckets key : Nat) (v : V) (nodes : List (Nat × V)) :
    link buckets (key, g key v) (nodes.map fun p => (p.1, g p.1 p.2)) =
      (link buckets (key, v) nodes).map fun p => (p.1, g p.1 p.2) := by
  unfold link
  extract_lets other other'
  have hother : other = other'.map fun p => (p.1, g p.1 p.2) := by
    simp only [other, other', List.takeWhile_map]
    rfl
  rw [hother, List.length_map, List.length_map]
  by_cases hall : other'.length = nodes.length
  · rw [if_pos hall, if_pos hall]
    rfl
  · rw [if_neg hall, if_neg hall, List.map_append, List.map_cons, List.map_drop]

theorem relink_mapNodes (buckets : Nat) (nodes : List (Nat × V)) :
    relink buckets (nodes.map fun p => (p.1, g p.1 p.2)) =
      (relink buckets nodes).map fun p => (p.1, g p.1 p.2) := by
  have key : ∀ (nodes acc : List (Nat × V)),
      (nodes.map fun p => (p.1, g p.1 p.2)).foldl (fun acc node => link buckets node acc)
          (acc.map fun p => (p.1, g p.1 p.2)) =
        (nodes.foldl (fun acc node => link buckets node acc) acc).map
          fun p => (p.1, g p.1 p.2) := by
    intro nodes
    induction nodes with
    | nil => exact fun acc => rfl
    | cons node nodes ih =>
      intro acc
      rw [List.map_cons, List.foldl_cons, List.foldl_cons, link_mapNodes g buckets node.1 node.2]
      exact ih _
  exact key nodes []

theorem reserveOne_mapNodes (m : UnorderedMap V) :
    (m.mapNodes g).reserveOne = m.reserveOne.mapNodes g := by
  unfold reserveOne mapNodes
  rw [List.length_map]
  by_cases hfull : m.nextResize < m.nodes.length + 1
  · rw [if_pos hfull, if_pos hfull]
    extract_lets needed
    by_cases hgrow : m.bucketCount ≤ needed
    · rw [if_pos hgrow, if_pos hgrow, relink_mapNodes]
    · rw [if_neg hgrow, if_neg hgrow]
  · rw [if_neg hfull, if_neg hfull]

/-- Where the nodes go does not depend on the values. -/
theorem insert_mapNodes (m : UnorderedMap V) (key : Nat) (v : V) :
    (m.mapNodes g).insertOrAssign key (g key v) = (m.insertOrAssign key v).mapNodes g := by
  unfold insertOrAssign
  rw [keys_mapNodes]
  by_cases hkey : key ∈ m.keys
  · rw [if_pos hkey, if_pos hkey]
    simp only [mapNodes, List.map_map]
    congr 1
    apply List.map_congr_left
    intro p _
    simp only [Function.comp_apply]
    by_cases hp : p.1 = key
    · rw [if_pos hp, if_pos hp]
    · rw [if_neg hp, if_neg hp]
  · rw [if_neg hkey, if_neg hkey, reserveOne_mapNodes]
    exact congrArg
      (fun nodes => UnorderedMap.mk m.reserveOne.bucketCount m.reserveOne.nextResize nodes)
      (link_mapNodes g m.reserveOne.bucketCount key v m.reserveOne.nodes)

end MapNodes

@[simp] theorem nodes_clear (m : UnorderedMap V) : m.clear.nodes = [] := rfl

@[simp] theorem keys_clear (m : UnorderedMap V) : m.clear.keys = [] := rfl

end UnorderedMap

end PipelineTools.Library
