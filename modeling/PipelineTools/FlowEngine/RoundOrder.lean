import PipelineTools.FlowEngine.AggregatorRounds
import PipelineTools.Library.InsertionOrder

/-!
# The order in which a round leaves the map

An aggregator keeps the values of a round in a hash map and empties it at the end of the round, but
the map keeps its buckets. So the iteration order at the end of a round depends on the arrival order
of the round and on the bucket count that the earlier rounds left behind; `arrangement` gives it in
terms of the ids.

A map starts with 13 buckets, and gets 29 and then 59 of them when it is full, so with at most 30
producers there are three cases. With room for all the ids it is the arrival order reversed. With
14 to 29 producers the first round of an aggregator rehashes once: the arrivals from the 14th on
come first, reversed, and then the first 13, grouped by their residues modulo 13. With 30 producers
there is a second rehash, and in 29 buckets the ids 0 and 29 collide.
-/

set_option autoImplicit false

namespace PipelineTools.FlowEngine

open PipelineTools.Library

variable {κ : Type} {β : κ → Type} {σ ε : Type} {t : Ty κ} {V : Type}

/-- The ids in the order in which a map with `buckets` buckets, empty at the beginning of the round,
iterates over them at the end, for at most 30 producers that arrive in the order `ids`. -/
def arrangement (buckets n : Nat) (ids : List Nat) : List Nat :=
  if n ≤ max 13 buckets then ids.reverse
  else if n ≤ 29 then (ids.drop 13).reverse ++ groupedBy (· % 13) (ids.take 13)
  else ids.drop 29 ++
    groupedBy (· % 29) ((groupedBy (· % 13) (ids.take 13)).reverse ++ (ids.drop 13).take 16)

/-- The one order of arrivals that `arrangement` turns into `0`, …, `n - 1`. -/
def ascendingFrom (buckets n : Nat) : List Nat :=
  if n ≤ max 13 buckets then (List.range n).reverse
  else if n ≤ 29 then (List.range n).drop (n - 13) ++ ((List.range n).take (n - 13)).reverse
  else (List.range' 1 13).reverse ++ (List.range' 14 16 ++ [0])

/-! ## Filling an empty map -/

/-- The nodes of the ids `ids`, each with its value. -/
def nodesOf (v : Nat → V) (ids : List Nat) : List (Nat × V) := ids.map fun i => (i, v i)

theorem nodesOf_append (v : Nat → V) (xs ys : List Nat) :
    nodesOf v (xs ++ ys) = nodesOf v xs ++ nodesOf v ys := List.map_append

theorem fst_nodesOf (v : Nat → V) (ids : List Nat) : (nodesOf v ids).map Prod.fst = ids := by
  rw [nodesOf, List.map_map]
  exact List.map_id _

theorem snd_nodesOf (v : Nat → V) (ids : List Nat) : (nodesOf v ids).map Prod.snd = ids.map v := by
  rw [nodesOf, List.map_map]
  rfl

theorem grouped_nodesOf (b : Nat) (v : Nat → V) (ids : List Nat) :
    UnorderedMap.grouped b (nodesOf v ids) = nodesOf v (groupedBy (· % b) ids) :=
  (map_groupedBy (f := fun p : Nat × V => p.1 % b) (fun i => (i, v i)) ids).symm

/-- Ids below the bucket count do not collide. -/
theorem groupedBy_of_lt {b : Nat} {ids : List Nat} (hids : ids.Nodup) (hlt : ∀ i ∈ ids, i < b) :
    groupedBy (· % b) ids = ids := by
  refine groupedBy_eq_self ?_
  have hmod : ids.map (· % b) = ids := by
    conv_rhs => rw [← List.map_id ids]
    exact List.map_congr_left fun i hi => Nat.mod_eq_of_lt (hlt i hi)
  rw [hmod]
  exact hids

/-- The map has `b` buckets, and looks as if it had been filled by `ids` with no rehash. -/
abbrev Filled (v : Nat → V) (m : UnorderedMap V) (b : Nat) (ids : List Nat) : Prop :=
  m.FilledBy b (nodesOf v ids)

namespace Filled

variable {v : Nat → V} {m : UnorderedMap V} {b : Nat} {ids : List Nat}

theorem nodes_eq (h : Filled v m b ids) :
    m.nodes = nodesOf v (groupedBy (· % b) ids).reverse := by
  rw [UnorderedMap.FilledBy.nodes_eq h, grouped_nodesOf, nodesOf, nodesOf, List.map_reverse]

theorem values_eq (h : Filled v m b ids) :
    m.values = (groupedBy (· % b) ids).reverse.map v := by
  rw [UnorderedMap.values, h.nodes_eq, snd_nodesOf]

theorem mem_keys_iff (h : Filled v m b ids) (i : Nat) : i ∈ m.keys ↔ i ∈ ids := by
  rw [UnorderedMap.keys, (h.nodes_perm.map Prod.fst).mem_iff, fst_nodesOf]

theorem insertAll (h : Filled v m b ids) {more : List Nat} (hnodup : (ids ++ more).Nodup)
    (hroom : (ids ++ more).length ≤ b) :
    Filled v (m.insertAll (nodesOf v more)) b (ids ++ more) := by
  rw [Filled, nodesOf_append]
  refine UnorderedMap.FilledBy.insertAll h ?_ ?_
  · rw [fst_nodesOf, fst_nodesOf]
    exact hnodup
  · rw [nodesOf, nodesOf, List.length_map, List.length_map, ← List.length_append]
    exact hroom

/-- More ids for a full map: a rehash, and then insertions that have room. -/
theorem insertAll_full (h : Filled v m b ids) (hfull : ids.length = b) (hpos : 0 < b) {b' : Nat}
    (hb' : UnorderedMap.nextBucketCount (max (b + 2) (b * 2)) = b') {more : List Nat}
    (hne : more ≠ []) (hnodup : (ids ++ more).Nodup) (hroom : (ids ++ more).length ≤ b') :
    Filled v (m.insertAll (nodesOf v more)) b'
      ((groupedBy (· % b) ids).reverse ++ more) := by
  obtain ⟨i, more, rfl⟩ := List.exists_cons_of_ne_nil hne
  rw [List.length_append, List.length_cons] at hroom
  have hi : i ∉ m.keys := by
    rw [h.mem_keys_iff]
    exact fun hmem => (List.nodup_append.1 hnodup).2.2 i hmem i List.mem_cons_self rfl
  have hlength : (nodesOf v ids).length = b := by
    rw [nodesOf, List.length_map, hfull]
  have hfirst :
      Filled v (m.insertOrAssign i (v i)) b' ((groupedBy (· % b) ids).reverse ++ [i]) := by
    rw [Filled, nodesOf_append, ← h.nodes_eq]
    exact h.insert_full hi hlength hpos hb' (by omega) (v i)
  have hassoc : (groupedBy (· % b) ids).reverse ++ i :: more =
      (groupedBy (· % b) ids).reverse ++ [i] ++ more := by
    rw [List.append_assoc, List.singleton_append]
  have hperm : ((groupedBy (· % b) ids).reverse ++ [i] ++ more).Perm (ids ++ i :: more) := by
    rw [← hassoc]
    exact ((List.reverse_perm _).trans (groupedBy_perm _ ids)).append_right _
  rw [hassoc]
  refine hfirst.insertAll (hperm.nodup_iff.2 hnodup) ?_
  rw [hperm.length_eq, List.length_append, List.length_cons]
  exact hroom

end Filled

theorem nextBucketCount_of_13 : UnorderedMap.nextBucketCount (max (13 + 2) (13 * 2)) = 29 := rfl

theorem nextBucketCount_of_29 : UnorderedMap.nextBucketCount (max (29 + 2) (29 * 2)) = 59 := rfl

/-- Into a new map, 13 ids go without a rehash. -/
theorem filled_first {v : Nat → V} {ids : List Nat} (hne : ids ≠ []) (hnodup : ids.Nodup)
    (hlength : ids.length ≤ 13) :
    Filled v (({} : UnorderedMap V).insertAll (nodesOf v ids)) 13 ids := by
  obtain ⟨i, ids, rfl⟩ := List.exists_cons_of_ne_nil hne
  have hfirst : Filled v (({} : UnorderedMap V).insertOrAssign i (v i)) 13 [i] :=
    UnorderedMap.filledBy_first i (v i)
  exact hfirst.insertAll hnodup hlength

theorem insertAll_append (m : UnorderedMap V) (v : Nat → V) (xs ys : List Nat) :
    m.insertAll (nodesOf v (xs ++ ys)) =
      (m.insertAll (nodesOf v xs)).insertAll (nodesOf v ys) := by
  rw [UnorderedMap.insertAll, nodesOf_append, List.foldl_append]
  rfl

/-! ## The order of a round -/

/-- A map that is empty between rounds: a new one, or one with buckets for all the ids. -/
inductive Emptied (n : Nat) : UnorderedMap V → Prop
  | new : Emptied n {}
  | cleared {m : UnorderedMap V} {b : Nat} : m.FilledBy b [] → n ≤ b → Emptied n m

section Order

variable {n : Nat} {v : Nat → V} {ids : List Nat}

theorem values_of_room {m : UnorderedMap V} {b : Nat} (hids : ids.Perm (List.range n)) (hn : n ≤ b)
    (h : Filled v m b ids) : m.values = ids.reverse.map v := by
  rw [h.values_eq, groupedBy_of_lt (hids.nodup_iff.2 List.nodup_range)]
  intro i hi
  have hin := List.mem_range.1 (hids.mem_iff.1 hi)
  omega

/-- The first round of 14 to 29 producers. -/
theorem values_of_oneRehash (hids : ids.Perm (List.range n)) (hlow : 14 ≤ n) (hn : n ≤ 29) :
    (({} : UnorderedMap V).insertAll (nodesOf v ids)).values =
      ((ids.drop 13).reverse ++ groupedBy (· % 13) (ids.take 13)).map v := by
  have hnodup : ids.Nodup := hids.nodup_iff.2 List.nodup_range
  have hlength : ids.length = n := by
    rw [hids.length_eq, List.length_range]
  have htake : (ids.take 13).length = 13 := by
    rw [List.length_take]
    omega
  have hdrop : ids.drop 13 ≠ [] := by
    rw [ne_eq, List.drop_eq_nil_iff]
    omega
  have hsplit : ids.take 13 ++ ids.drop 13 = ids := List.take_append_drop 13 ids
  have hfirst : Filled v (({} : UnorderedMap V).insertAll (nodesOf v (ids.take 13))) 13
      (ids.take 13) := by
    refine filled_first ?_ (hnodup.sublist (List.take_sublist 13 ids)) htake.le
    exact List.ne_nil_of_length_pos (by omega)
  have hsecond := hfirst.insertAll_full htake (by decide) nextBucketCount_of_13 hdrop
    (by rw [hsplit]; exact hnodup) (by rw [hsplit]; omega)
  rw [← insertAll_append, hsplit] at hsecond
  -- no ids collide in 29 buckets
  have hperm : ((groupedBy (· % 13) (ids.take 13)).reverse ++ ids.drop 13).Perm ids := by
    conv_rhs => rw [← hsplit]
    exact ((List.reverse_perm _).trans (groupedBy_perm _ _)).append_right _
  rw [values_of_room (hperm.trans hids) hn hsecond, List.reverse_append, List.reverse_reverse]

/-- The first round of 30 producers. -/
theorem values_of_twoRehashes (hids : ids.Perm (List.range 30)) :
    (({} : UnorderedMap V).insertAll (nodesOf v ids)).values =
      (ids.drop 29 ++ groupedBy (· % 29)
        ((groupedBy (· % 13) (ids.take 13)).reverse ++ (ids.drop 13).take 16)).map v := by
  have hnodup : ids.Nodup := hids.nodup_iff.2 List.nodup_range
  have hlength : ids.length = 30 := by
    rw [hids.length_eq, List.length_range]
  have htake : (ids.take 13).length = 13 := by
    rw [List.length_take]
    omega
  have hmiddle : (ids.drop 13).take 16 ≠ [] := by
    refine List.ne_nil_of_length_pos ?_
    rw [List.length_take, List.length_drop]
    omega
  obtain ⟨i, hlast⟩ : ∃ i, ids.drop 29 = [i] := by
    refine List.length_eq_one_iff.1 ?_
    rw [List.length_drop]
    omega
  have hfront : ids.take 13 ++ (ids.drop 13).take 16 = ids.take 29 := by
    rw [show 29 = 13 + 16 from rfl, List.take_add]
  have hsplit : ids.take 29 ++ ids.drop 29 = ids := List.take_append_drop 29 ids
  have hfirst : Filled v (({} : UnorderedMap V).insertAll (nodesOf v (ids.take 13))) 13
      (ids.take 13) := by
    refine filled_first ?_ (hnodup.sublist (List.take_sublist 13 ids)) htake.le
    exact List.ne_nil_of_length_pos (by omega)
  have hsecond := hfirst.insertAll_full htake (by decide) nextBucketCount_of_13 hmiddle
    (by rw [hfront]; exact hnodup.sublist (List.take_sublist 29 ids))
    (by rw [hfront, List.length_take]; omega)
  rw [← insertAll_append, hfront] at hsecond
  generalize hsorted : (groupedBy (· % 13) (ids.take 13)).reverse ++ (ids.drop 13).take 16 = mid
    at hsecond ⊢
  have hperm : mid.Perm (ids.take 29) := by
    rw [← hsorted, ← hfront]
    exact ((List.reverse_perm _).trans (groupedBy_perm _ _)).append_right _
  have hmid : mid.length = 29 := by
    rw [hperm.length_eq, List.length_take]
    omega
  have hall : (mid ++ ids.drop 29).Perm ids := by
    conv_rhs => rw [← hsplit]
    exact hperm.append_right _
  have hne : ids.drop 29 ≠ [] := by
    rw [hlast]
    exact List.cons_ne_nil i []
  have hthird := hsecond.insertAll_full hmid (by decide) nextBucketCount_of_29 hne
    (hall.nodup_iff.2 hnodup) (by rw [hall.length_eq]; omega)
  rw [← insertAll_append, hsplit] at hthird
  -- no ids collide in 59 buckets
  have hrest : ((groupedBy (· % 29) mid).reverse ++ ids.drop 29).Perm (List.range 30) := by
    refine List.Perm.trans ?_ (hall.trans hids)
    exact ((List.reverse_perm _).trans (groupedBy_perm _ _)).append_right _
  rw [values_of_room hrest (by decide) hthird, List.reverse_append, List.reverse_reverse, hlast,
    List.reverse_singleton]

/-- At the end of a round of at most 30 producers, the map iterates over them in this order. -/
theorem values_insertAll {m : UnorderedMap V} (hm : Emptied n m) (hpos : 1 ≤ n) (hn : n ≤ 30)
    (hids : ids.Perm (List.range n)) :
    (m.insertAll (nodesOf v ids)).values = (arrangement m.bucketCount n ids).map v := by
  have hnodup : ids.Nodup := hids.nodup_iff.2 List.nodup_range
  have hlength : ids.length = n := by
    rw [hids.length_eq, List.length_range]
  cases hm with
  | @cleared _ b hfilled hroom =>
    rw [arrangement, hfilled.bucketCount, if_pos (by omega)]
    have hempty : Filled v m b [] := hfilled
    exact values_of_room hids hroom (hempty.insertAll hnodup (by rw [List.nil_append]; omega))
  | new =>
    show _ = (arrangement 1 n ids).map v
    rw [arrangement]
    by_cases hsmall : n ≤ 13
    · rw [if_pos (by omega)]
      exact values_of_room hids hsmall
        (filled_first (List.ne_nil_of_length_pos (by omega)) hnodup (by omega))
    · rw [if_neg (by omega)]
      by_cases hmiddle : n ≤ 29
      · rw [if_pos hmiddle]
        exact values_of_oneRehash hids (by omega) hmiddle
      · obtain rfl : n = 30 := by omega
        rw [if_neg hmiddle]
        exact values_of_twoRehashes hids

/-- In every round but the first of 14 producers or more, it is the arrival order reversed. -/
theorem arrangement_eq_reverse {m : UnorderedMap V} (hm : Emptied n m) (h : n ≤ 13 ∨ m ≠ {})
    (ids : List Nat) : arrangement m.bucketCount n ids = ids.reverse := by
  rw [arrangement]
  rcases h with hsmall | hold
  · exact if_pos (le_max_of_le_left hsmall)
  · cases hm with
    | new => exact absurd rfl hold
    | cleared hfilled hroom =>
      rw [hfilled.bucketCount]
      exact if_pos (le_max_of_le_right hroom)

end Order

/-! ## The order that ends in ascending ids -/

theorem groupedBy_eq_iff {b : Nat} {l g : List Nat} (hg : (g.map (· % b)).Nodup) :
    groupedBy (· % b) l = g ↔ l = g := by
  constructor
  · rintro rfl
    have hl : (l.map (· % b)).Nodup := ((groupedBy_perm _ l).map _).nodup_iff.1 hg
    exact (groupedBy_eq_self hl).symm
  · rintro rfl
    exact groupedBy_eq_self hg

theorem length_of_perm_range {n : Nat} {ids : List Nat} (hids : ids.Perm (List.range n)) :
    ids.length = n := by
  rw [hids.length_eq, List.length_range]

/-- With one rehash. -/
theorem oneRehash_eq_iff {n : Nat} {ids : List Nat} (hids : ids.Perm (List.range n))
    (hlow : 14 ≤ n) :
    (ids.drop 13).reverse ++ groupedBy (· % 13) (ids.take 13) = List.range n ↔
      ids = (List.range n).drop (n - 13) ++ ((List.range n).take (n - 13)).reverse := by
  have hlength := length_of_perm_range hids
  -- 13 ids in a row do not collide
  have hlast : (((List.range n).drop (n - 13)).map (· % 13)).Nodup := by
    refine List.Nodup.map_on ?_ (List.nodup_range.sublist (List.drop_sublist _ _))
    intro i hi j hj heq
    rw [List.range_eq_range', List.drop_range', List.mem_range'_1] at hi hj
    omega
  have hsplit : (List.range n).take (n - 13) ++ (List.range n).drop (n - 13) = List.range n :=
    List.take_append_drop _ _
  have hlengths : (ids.drop 13).reverse.length = ((List.range n).take (n - 13)).length := by
    rw [List.length_reverse, List.length_drop, List.length_take, List.length_range]
    omega
  have hfront : ((List.range n).drop (n - 13)).length = 13 := by
    rw [List.length_drop, List.length_range]
    omega
  constructor
  · intro h
    rw [← hsplit] at h
    obtain ⟨hdrop, hgroup⟩ := List.append_inj h hlengths
    rw [groupedBy_eq_iff hlast] at hgroup
    rw [← hgroup, ← hdrop, List.reverse_reverse, List.take_append_drop]
  · intro h
    have htake : ids.take 13 = (List.range n).drop (n - 13) := by
      rw [h, List.take_left' hfront]
    have hdrop : ids.drop 13 = ((List.range n).take (n - 13)).reverse := by
      rw [h, List.drop_left' hfront]
    rw [htake, hdrop, List.reverse_reverse, (groupedBy_eq_iff hlast).2 rfl, hsplit]

/-- With two rehashes. -/
theorem twoRehashes_eq_iff {ids : List Nat} (hids : ids.Perm (List.range 30)) :
    ids.drop 29 ++ groupedBy (· % 29)
        ((groupedBy (· % 13) (ids.take 13)).reverse ++ (ids.drop 13).take 16) = List.range 30 ↔
      ids = (List.range' 1 13).reverse ++ (List.range' 14 16 ++ [0]) := by
  have hlength := length_of_perm_range hids
  have hall : ((List.range' 1 29).map (· % 29)).Nodup := by decide
  have hfirst : (((List.range' 1 13).reverse).map (· % 13)).Nodup := by decide
  constructor
  · intro h
    have hsplit : List.range 30 = [0] ++ List.range' 1 29 := rfl
    rw [hsplit] at h
    obtain ⟨hdrop, hgroup⟩ := List.append_inj h (by rw [List.length_drop]; simp [hlength])
    rw [groupedBy_eq_iff hall] at hgroup
    have hmiddle : List.range' 1 29 = List.range' 1 13 ++ List.range' 14 16 := rfl
    rw [hmiddle] at hgroup
    obtain ⟨hsorted, htake⟩ := List.append_inj hgroup (by
      rw [List.length_reverse, (groupedBy_perm _ _).length_eq, List.length_take]
      simp [hlength])
    rw [List.reverse_eq_iff, groupedBy_eq_iff hfirst] at hsorted
    have hids' : ids = ids.take 13 ++ ((ids.drop 13).take 16 ++ ids.drop 29) := by
      conv_lhs => rw [← List.take_append_drop 13 ids, ← List.take_append_drop 16 (ids.drop 13)]
      rw [List.drop_drop]
    rw [hids', hsorted, htake, hdrop]
  · rintro rfl
    decide

/-- The only order of arrivals after which the ids ascend. -/
theorem arrangement_eq_range_iff {buckets n : Nat} {ids : List Nat} (hn : n ≤ 30)
    (hids : ids.Perm (List.range n)) :
    arrangement buckets n ids = List.range n ↔ ids = ascendingFrom buckets n := by
  rw [arrangement, ascendingFrom]
  by_cases hroom : n ≤ max 13 buckets
  · rw [if_pos hroom, if_pos hroom, List.reverse_eq_iff]
  · rw [if_neg hroom, if_neg hroom]
    by_cases hmiddle : n ≤ 29
    · rw [if_pos hmiddle, if_pos hmiddle]
      exact oneRehash_eq_iff hids (by omega)
    · obtain rfl : n = 30 := by omega
      rw [if_neg hmiddle, if_neg hmiddle]
      exact twoRehashes_eq_iff hids

/-- No id gets lost. -/
theorem arrangement_perm {buckets n : Nat} {ids : List Nat} (hids : ids.Perm (List.range n)) :
    (arrangement buckets n ids).Perm (List.range n) := by
  refine List.Perm.trans ?_ hids
  have hlength := length_of_perm_range hids
  have hgrouped : ∀ b (l : List Nat), (groupedBy (· % b) l).reverse.Perm l := fun b l =>
    (List.reverse_perm _).trans (groupedBy_perm _ l)
  rw [arrangement]
  by_cases hroom : n ≤ max 13 buckets
  · rw [if_pos hroom]
    exact List.reverse_perm ids
  · rw [if_neg hroom]
    by_cases hmiddle : n ≤ 29
    · rw [if_pos hmiddle]
      conv_rhs => rw [← List.take_append_drop 13 ids]
      exact List.perm_append_comm.trans
        ((groupedBy_perm _ _).append (List.reverse_perm _))
    · rw [if_neg hmiddle]
      have hids' : ids.take 13 ++ (ids.drop 13).take 16 ++ ids.drop 29 = ids := by
        conv_rhs => rw [← List.take_append_drop 13 ids, ← List.take_append_drop 16 (ids.drop 13)]
        rw [List.drop_drop, List.append_assoc]
      conv_rhs => rw [← hids']
      refine List.perm_append_comm.trans (List.Perm.append_right _ ?_)
      exact (groupedBy_perm _ _).trans ((hgrouped 13 _).append_right _)

/-! ## The map between rounds -/

/-- The map of an aggregator with `n` producers, at any time. -/
structure Buckets (n : Nat) (m : UnorderedMap V) : Prop where
  filled : m = {} ∨ ∃ b nodes, m.FilledBy b nodes ∧ (b = 13 ∨ b = 29 ∨ b = 59)
  emptied : m.nodes = [] → Emptied n m

namespace Buckets

variable {n : Nat} {m : UnorderedMap V}

theorem insert (h : Buckets n m) {key : Nat} (hkey : key ∉ m.keys) (hlength : m.nodes.length < 30)
    (v : V) : Buckets n (m.insertOrAssign key v) where
  filled := by
    right
    rcases h.filled with rfl | ⟨b, nodes, hfilled, hb⟩
    · exact ⟨13, _, UnorderedMap.filledBy_first key v, .inl rfl⟩
    · have hfits := hfilled.fits
      rw [hfilled.length_eq] at hlength
      by_cases hroom : nodes.length < b
      · exact ⟨b, _, hfilled.insert hkey hroom v, hb⟩
      -- a full map has 13 or 29 nodes
      · have hfull : nodes.length = b := by omega
        rcases hb with rfl | rfl | rfl
        · exact ⟨29, _, hfilled.insert_full hkey hfull (by decide) rfl (by decide) v,
            .inr (.inl rfl)⟩
        · exact ⟨59, _, hfilled.insert_full hkey hfull (by decide) rfl (by decide) v,
            .inr (.inr rfl)⟩
        · omega
  emptied hnil := by
    have hperm := UnorderedMap.insert_perm hkey v
    rw [hnil] at hperm
    exact absurd hperm.nil_eq (List.cons_ne_nil _ _).symm

/-- The end of a round of all producers. -/
theorem clear (h : Buckets n m) (hpos : 1 ≤ n) (hlength : n ≤ m.nodes.length) :
    Buckets n m.clear := by
  rcases h.filled with rfl | ⟨b, nodes, hfilled, hb⟩
  · exact absurd hlength (by show ¬ n ≤ 0; omega)
  · have hfits := hfilled.fits
    rw [hfilled.length_eq] at hlength
    exact ⟨.inr ⟨b, [], hfilled.clear, hb⟩,
      fun _ => .cleared hfilled.clear (by omega)⟩

end Buckets

section Reached

variable [DecidableEq κ] {n : Nat} (process : List (t.Val β) → Process σ ε (t.Val β))

/-- The aggregator after the calls `ds`, with `n` producers registered before them. -/
def Rounds.after (n : Nat) (u : σ) (ds : List (Delivery β)) : Rounds t β σ :=
  ds.foldl (Rounds.call process) (Rounds.start t n u)

variable {process}

theorem fresh_of_bit {s : Rounds t β σ} (hinv : RoundInv n s) (hn : n ≤ 30) {k : Nat} (hk : k < n)
    (hbit : s.agg.state &&& BitVec.twoPow 64 k = 0) :
    s.agg.state.getLsbD k = false ∧ k ∉ s.agg.latest.keys ∧ s.agg.latest.nodes.length < 30 := by
  have hfresh := (and_twoPow_eq_zero_iff s.agg.state (by omega)).1 hbit
  have hkey : k ∉ s.agg.latest.keys := by
    rw [← hinv.collected.bits, hfresh]
    exact Bool.false_ne_true
  refine ⟨hfresh, hkey, ?_⟩
  have hsub : k :: s.agg.latest.keys ⊆ List.range n := by
    intro i hi
    rcases List.mem_cons.1 hi with rfl | hi
    · exact List.mem_range.2 hk
    · exact List.mem_range.2 (hinv.collected.below i hi)
  have hle := (List.subperm_of_subset
    (List.nodup_cons.2 ⟨hkey, hinv.collected.nodup⟩) hsub).length_le
  rw [List.length_range, List.length_cons, UnorderedMap.keys, List.length_map] at hle
  omega

/-- One call keeps the map in order. -/
theorem buckets_call (hpos : 1 ≤ n) (hn : n ≤ 30) {s : Rounds t β σ} {d : Delivery β}
    (hinv : RoundInv n s) (hd : d.producerId < n) (h : Buckets n s.agg.latest) :
    Buckets n (s.call process d).agg.latest := by
  have hmaskD : producerMask d.producerId = some (BitVec.twoPow 64 d.producerId) :=
    producerMask_eq (by omega)
  have hstep : Aggregator.Step t t id id process s.agg d.input d.producerId s.user
      (s.response process d) := Aggregator.step_processAny t t id id process _ _ _ _
  show Buckets n (s.response process d).2.1.latest
  generalize s.response process d = r at hstep
  cases hstep with
  | shift _ => exact h
  | repeated _ _ => exact h
  | badCast _ _ _ => exact h
  | overflow hmask hbit _ _ =>
    rw [hmask, Option.some.injEq] at hmaskD
    subst hmaskD
    obtain ⟨-, hkey, hlength⟩ := fresh_of_bit hinv hn hd hbit
    exact h.insert hkey hlength _
  | stored hmask hbit _ _ _ =>
    rw [hmask, Option.some.injEq] at hmaskD
    subst hmaskD
    obtain ⟨-, hkey, hlength⟩ := fresh_of_bit hinv hn hd hbit
    exact h.insert hkey hlength _
  -- the values of all producers are in the map before it is cleared
  | @completed idx full v hmask hbit ha hfull heq =>
    rw [hmask, Option.some.injEq] at hmaskD
    subst hmaskD
    obtain ⟨hfresh, hkey, hlength⟩ := fresh_of_bit hinv hn hd hbit
    have hcol := hinv.collected.store (by omega) hd ha hfresh
    rw [hinv.collected.count, fullMask_eq hn, Option.some.injEq] at hfull
    subst hfull
    have hall := (hcol.values_perm ((hcol.full_iff hn).1 heq)).1
    rw [UnorderedMap.values, List.length_map] at hall
    exact (h.insert hkey hlength v).clear hpos hall.ge

/-- Whatever the aggregator was called with before. -/
theorem buckets_after (hpos : 1 ≤ n) (hn : n ≤ 30) (u : σ) {ds : List (Delivery β)}
    (hds : ∀ d ∈ ds, d.producerId < n) :
    RoundInv n (Rounds.after process n u ds) ∧
      Buckets n (Rounds.after process n u ds).agg.latest := by
  induction ds using List.reverseRecOn with
  | nil =>
    have hstart : (Rounds.start t n u : Rounds t β σ).agg.latest = {} := by
      rw [Rounds.start, registered_eq]
    refine ⟨roundInv_start hpos u, ?_⟩
    rw [Rounds.after, List.foldl_nil, hstart]
    exact ⟨.inl rfl, fun _ => .new⟩
  | append_singleton ds d ih =>
    rw [List.forall_mem_append, List.forall_mem_singleton] at hds
    obtain ⟨hinv, hbuckets⟩ := ih hds.1
    rw [Rounds.after, List.foldl_concat]
    exact ⟨(roundLaw_step hpos (by omega) hinv hds.2 (.inl hn)).2,
      buckets_call hpos hn hinv hds.2 hbuckets⟩

theorem producerCount_processAny {inp out : Ty κ} {toOut : inp.Val β → out.Val β}
    {toIn : out.Val β → inp.Val β} {process : List (inp.Val β) → Process σ ε (out.Val β)}
    (agg : Aggregator (out.Val β)) (a : Any β) (producerId : Nat) (u : σ) :
    (agg.processAny inp out toOut toIn process a producerId u).2.1.producerCount =
      agg.producerCount := by
  have hstep := Aggregator.step_processAny inp out toOut toIn process agg a producerId u
  generalize agg.processAny inp out toOut toIn process a producerId u = r at hstep
  cases hstep with
  | shift _ => rfl
  | repeated _ _ => rfl
  | badCast _ _ _ => rfl
  | overflow _ _ _ _ => rfl
  | stored _ _ _ _ _ => rfl
  | completed _ _ _ _ _ => rfl

/-- Also without a mask of all producers, no bit is set before a value has arrived. -/
theorem state_after_of_large (hn : 31 ≤ n) (u : σ) (ds : List (Delivery β)) :
    (Rounds.after process n u ds).agg.producerCount = n ∧
      ((Rounds.after process n u ds).agg.latest.nodes = [] →
        (Rounds.after process n u ds).agg.state = 0) := by
  induction ds using List.reverseRecOn with
  | nil =>
    rw [Rounds.after, List.foldl_nil, Rounds.start, registered_eq]
    exact ⟨rfl, fun _ => rfl⟩
  | append_singleton ds d ih =>
    obtain ⟨hcount, hstate⟩ := ih
    rw [Rounds.after, List.foldl_concat]
    change (Rounds.call process (Rounds.after process n u ds) d).agg.producerCount = n ∧ _
    refine ⟨(producerCount_processAny _ _ _ _).trans hcount, ?_⟩
    have hfull : fullMask (Rounds.after process n u ds).agg.producerCount = none := by
      rw [hcount, fullMask_eq_none_of_le hn]
    show ((Rounds.after process n u ds).response process d).2.1.latest.nodes = [] →
      ((Rounds.after process n u ds).response process d).2.1.state = 0
    rw [Rounds.response]
    generalize Rounds.after process n u ds = s at hstate hfull
    have hstep := Aggregator.step_processAny t t id id process s.agg d.input d.producerId s.user
    generalize s.agg.processAny t t id id process d.input d.producerId s.user = r at hstep
    cases hstep with
    | shift _ => exact hstate
    | repeated _ _ => exact hstate
    | badCast _ _ _ => exact hstate
    -- the map is not empty any more
    | overflow _ _ _ _ =>
      exact fun hnil => absurd hnil (UnorderedMap.nodes_insert_ne_nil _ _ _)
    | stored _ _ _ hsome _ =>
      rw [hfull] at hsome
      cases hsome
    | completed _ _ _ hsome _ =>
      rw [hfull] at hsome
      cases hsome

end Reached

end PipelineTools.FlowEngine
