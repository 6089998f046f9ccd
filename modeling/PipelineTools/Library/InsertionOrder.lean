import PipelineTools.Library.UnorderedMap
import Mathlib.Data.List.Induction

/-!
# The node order of a hash map filled with fresh keys

A map of `b` buckets that is filled with fresh keys, one after the other, and without a rehash,
iterates over them from the last group to the first, where a group are the keys of one residue
modulo `b`, the groups stand in the order of their first keys, and within a group the keys are
iterated from the last to the first. So the order is the reverse of `grouped b`, and it is the
reverse of the insertion order when the residues are distinct.

A rehash does to the nodes, in their iteration order, what inserting them into an empty map of the
new bucket count would do. `FilledBy` says that a map looks as if it had been filled by a list of
nodes without a rehash; an insertion with room extends the list (`FilledBy.insert`), one without
replaces it by the old iteration order (`FilledBy.insert_full`).
-/

set_option autoImplicit false

namespace PipelineTools.Library

universe u v w

/-! ## Grouping a list -/

section Grouped

variable {α : Type u} {γ : Type v} [DecidableEq γ] (f : α → γ)

/-- The elements of `l` by the values of `f` on them, in the order in which these values first
occur; elements of the same value keep their order. -/
def groupedBy (l : List α) : List α :=
  (l.map f).eraseDups.flatMap fun c => l.filter fun a => f a = c

@[simp] theorem groupedBy_nil : groupedBy f [] = [] := rfl

theorem eraseDups_concat_of_mem {l : List γ} {c : γ} (h : c ∈ l) :
    (l ++ [c]).eraseDups = l.eraseDups := by
  have hnone : [c].removeAll l = [] := by simp [List.removeAll, h]
  rw [List.eraseDups_append, hnone, List.eraseDups_nil, List.append_nil]

theorem eraseDups_concat_of_notMem {l : List γ} {c : γ} (h : c ∉ l) :
    (l ++ [c]).eraseDups = l.eraseDups ++ [c] := by
  have hone : [c].removeAll l = [c] := by simp [List.removeAll, h]
  rw [List.eraseDups_append, hone]
  rfl

theorem nodup_eraseDups (l : List γ) : l.eraseDups.Nodup := by
  induction l using List.reverseRecOn with
  | nil => exact List.nodup_nil
  | append_singleton l c ih =>
    by_cases hc : c ∈ l
    · rw [eraseDups_concat_of_mem hc]
      exact ih
    · rw [eraseDups_concat_of_notMem hc]
      refine List.nodup_append.2 ⟨ih, List.nodup_singleton c, ?_⟩
      rintro d hd e he rfl
      rw [List.mem_singleton.1 he, List.mem_eraseDups] at hd
      exact hc hd

variable {f}

/-- An element of a new group comes last. -/
theorem groupedBy_concat_of_notMem {l : List α} {x : α} (h : f x ∉ l.map f) :
    groupedBy f (l ++ [x]) = groupedBy f l ++ [x] := by
  have hold : ∀ c ∈ (l.map f).eraseDups,
      (l ++ [x]).filter (fun a => f a = c) = l.filter fun a => f a = c := by
    intro c hc
    have hne : f x ≠ c := fun heq => h (heq ▸ List.mem_eraseDups.1 hc)
    rw [List.filter_append, List.filter_singleton]
    simp [hne]
  have hnew : (l ++ [x]).filter (fun a => f a = f x) = [x] := by
    have hnone : l.filter (fun a => f a = f x) = [] := by
      refine List.filter_eq_nil_iff.2 fun a ha => ?_
      simpa using fun heq : f a = f x => h (heq ▸ List.mem_map_of_mem ha)
    rw [List.filter_append, hnone, List.filter_singleton]
    simp
  rw [groupedBy, List.map_append, List.map_singleton, eraseDups_concat_of_notMem h,
    List.flatMap_append, List.flatMap_congr hold, List.flatMap_singleton, hnew]
  rfl

/-- An element of an old group comes last in its group. -/
theorem groupedBy_concat_of_mem {l : List α} {x : α} (h : f x ∈ l.map f) :
    ∃ before group after, groupedBy f l = before ++ group ++ after ∧ group ≠ [] ∧
      (∀ a ∈ group, f a = f x) ∧ (∀ a ∈ after, f a ≠ f x) ∧
      groupedBy f (l ++ [x]) = before ++ (group ++ [x]) ++ after := by
  obtain ⟨cs, ds, hsplit⟩ := List.append_of_mem (List.mem_eraseDups.2 h)
  have hnodup := nodup_eraseDups (l.map f)
  rw [hsplit] at hnodup
  have hcs : f x ∉ cs := fun hmem =>
    (List.nodup_append.1 hnodup).2.2 _ hmem _ List.mem_cons_self rfl
  have hds : f x ∉ ds := (List.nodup_cons.1 (List.nodup_append.1 hnodup).2.1).1
  have hother : ∀ {es : List γ}, f x ∉ es → ∀ c ∈ es,
      (l ++ [x]).filter (fun a => f a = c) = l.filter fun a => f a = c := by
    intro es hes c hc
    have hne : f x ≠ c := fun heq => hes (heq ▸ hc)
    rw [List.filter_append, List.filter_singleton]
    simp [hne]
  refine ⟨cs.flatMap fun c => l.filter fun a => f a = c, l.filter fun a => f a = f x,
    ds.flatMap fun c => l.filter fun a => f a = c, ?_, ?_, ?_, ?_, ?_⟩
  · rw [groupedBy, hsplit, List.flatMap_append, List.flatMap_cons, List.append_assoc]
  · obtain ⟨a, ha, hax⟩ := List.mem_map.1 h
    exact List.ne_nil_of_mem (List.mem_filter.2 ⟨ha, by simpa using hax⟩)
  · intro a ha
    simpa using (List.mem_filter.1 ha).2
  · intro a ha heq
    obtain ⟨c, hc, hac⟩ := List.mem_flatMap.1 ha
    have hfc : f a = c := by simpa using (List.mem_filter.1 hac).2
    exact hds (heq ▸ hfc ▸ hc)
  · have hlast : (l ++ [x]).filter (fun a => f a = f x) = l.filter (fun a => f a = f x) ++ [x] := by
      rw [List.filter_append, List.filter_singleton]
      simp
    rw [groupedBy, List.map_append, List.map_singleton, eraseDups_concat_of_mem h, hsplit,
      List.flatMap_append, List.flatMap_cons, List.flatMap_congr (hother hcs),
      List.flatMap_congr (hother hds), hlast, ← List.append_assoc]

variable (f) in
theorem groupedBy_perm (l : List α) : (groupedBy f l).Perm l := by
  induction l using List.reverseRecOn with
  | nil => exact List.Perm.refl _
  | append_singleton l x ih =>
    by_cases h : f x ∈ l.map f
    · obtain ⟨before, group, after, hl, -, -, -, hx⟩ := groupedBy_concat_of_mem h
      rw [hl] at ih
      have hmove : (before ++ (group ++ [x]) ++ after).Perm (before ++ group ++ after ++ [x]) := by
        rw [← List.append_assoc, List.append_assoc _ [x] after]
        refine (List.Perm.append_left _ List.perm_append_comm).trans ?_
        rw [← List.append_assoc]
      rw [hx]
      exact hmove.trans (ih.append_right _)
    · rw [groupedBy_concat_of_notMem h]
      exact ih.append_right _

/-- Where all values are distinct there is nothing to group. -/
theorem groupedBy_eq_self {l : List α} (h : (l.map f).Nodup) : groupedBy f l = l := by
  induction l using List.reverseRecOn with
  | nil => rfl
  | append_singleton l x ih =>
    rw [List.map_append, List.map_singleton] at h
    obtain ⟨hl, -, hdisjoint⟩ := List.nodup_append.1 h
    have hx : f x ∉ l.map f := fun hmem => hdisjoint _ hmem _ (List.mem_singleton.2 rfl) rfl
    rw [groupedBy_concat_of_notMem hx, ih hl]

/-- Grouping commutes with a map that keeps the values. -/
theorem map_groupedBy {δ : Type w} (g : δ → α) (l : List δ) :
    (groupedBy (f ∘ g) l).map g = groupedBy f (l.map g) := by
  rw [groupedBy, groupedBy, List.map_flatMap, List.map_map]
  refine List.flatMap_congr fun c _ => ?_
  rw [List.filter_map]
  rfl

end Grouped

namespace UnorderedMap

variable {V : Type u}

/-- Nodes, or keys, by their buckets. -/
def grouped (b : Nat) (nodes : List (Nat × V)) : List (Nat × V) :=
  groupedBy (fun p => p.1 % b) nodes

theorem link_of_free {b : Nat} {node : Nat × V} {nodes : List (Nat × V)}
    (h : ∀ p ∈ nodes, p.1 % b ≠ node.1 % b) : link b node nodes = node :: nodes := by
  have hall : (nodes.takeWhile fun p => p.1 % b ≠ node.1 % b) = nodes := by
    rw [List.takeWhile_eq_self_iff]
    intro p hp
    simpa using h p hp
  simp only [link]
  rw [hall, if_pos rfl]

theorem link_of_match {b : Nat} {node p : Nat × V} {front rest : List (Nat × V)}
    (hfront : ∀ q ∈ front, q.1 % b ≠ node.1 % b) (hp : p.1 % b = node.1 % b) :
    link b node (front ++ p :: rest) = front ++ node :: p :: rest := by
  have hstart :
      ((front ++ p :: rest).takeWhile fun q => q.1 % b ≠ node.1 % b) = front := by
    rw [List.takeWhile_append_of_pos (fun q hq => by simpa using hfront q hq),
      List.takeWhile_cons_of_neg (by simpa using hp), List.append_nil]
  simp only [link]
  rw [hstart, if_neg (by simp), List.drop_left]

/-- Linking one more node extends the list that was grouped. -/
theorem link_grouped (b : Nat) (node : Nat × V) (nodes : List (Nat × V)) :
    link b node (grouped b nodes).reverse = (grouped b (nodes ++ [node])).reverse := by
  by_cases h : node.1 % b ∈ nodes.map fun p => p.1 % b
  · obtain ⟨before, group, after, hnodes, hne, hgroup, hafter, hnode⟩ :=
      groupedBy_concat_of_mem (f := fun p : Nat × V => p.1 % b) (x := node) h
    obtain ⟨init, last, rfl⟩ := List.eq_nil_or_concat' group |>.resolve_left hne
    rw [grouped, grouped, hnodes, hnode]
    simp only [List.reverse_append, List.reverse_singleton, List.cons_append, List.nil_append]
    refine link_of_match (fun q hq => hafter q (List.mem_reverse.1 hq)) ?_
    exact hgroup last (List.mem_append_right _ (List.mem_singleton.2 rfl))
  · rw [grouped, grouped, groupedBy_concat_of_notMem h, List.reverse_append]
    refine link_of_free fun p hp heq => h ?_
    have hmem := (groupedBy_perm _ nodes).mem_iff.1 (List.mem_reverse.1 hp)
    exact List.mem_map.2 ⟨p, hmem, heq⟩

/-- A rehash is as good as filling an empty map. -/
theorem relink_eq (b : Nat) (nodes : List (Nat × V)) :
    relink b nodes = (grouped b nodes).reverse := by
  induction nodes using List.reverseRecOn with
  | nil => rfl
  | append_singleton nodes node ih =>
    rw [relink, List.foldl_concat, ← link_grouped]
    exact congrArg (link b node) ih

/-- The map has `b` buckets, and looks as if it had been filled by `nodes` with no rehash. -/
structure FilledBy (m : UnorderedMap V) (b : Nat) (nodes : List (Nat × V)) : Prop where
  bucketCount : m.bucketCount = b
  nextResize : m.nextResize = b
  nodes_eq : m.nodes = (grouped b nodes).reverse
  fits : nodes.length ≤ b

namespace FilledBy

variable {m : UnorderedMap V} {b : Nat} {nodes : List (Nat × V)} {key : Nat}

theorem nodes_perm (h : FilledBy m b nodes) : m.nodes.Perm nodes := by
  rw [h.nodes_eq]
  exact (List.reverse_perm _).trans (groupedBy_perm _ nodes)

theorem length_eq (h : FilledBy m b nodes) : m.nodes.length = nodes.length := h.nodes_perm.length_eq

theorem insert (h : FilledBy m b nodes) (hkey : key ∉ m.keys) (hroom : nodes.length < b) (v : V) :
    FilledBy (m.insertOrAssign key v) b (nodes ++ [(key, v)]) := by
  have hreserve : m.reserveOne = m := by
    rw [reserveOne, if_neg]
    rw [h.nextResize, h.length_eq]
    omega
  have hinsert : m.insertOrAssign key v =
      { m with nodes := link m.bucketCount (key, v) m.nodes } := by
    rw [insertOrAssign, if_neg hkey, hreserve]
  rw [hinsert]
  refine ⟨h.bucketCount, h.nextResize, ?_, ?_⟩
  · show link m.bucketCount (key, v) m.nodes = _
    rw [h.bucketCount, h.nodes_eq, link_grouped]
  · rw [List.length_append, List.length_singleton]
    exact hroom

/-- An insertion into a full map rehashes. -/
theorem insert_full (h : FilledBy m b nodes) (hkey : key ∉ m.keys) (hfull : nodes.length = b)
    (hpos : 0 < b) {b' : Nat} (hb' : nextBucketCount (max (b + 2) (b * 2)) = b') (hlt : b < b')
    (v : V) : FilledBy (m.insertOrAssign key v) b' (m.nodes ++ [(key, v)]) := by
  have hreserve : m.reserveOne =
      { bucketCount := b', nextResize := b', nodes := relink b' m.nodes } := by
    have hneeded : max (m.nodes.length + 1) (if m.nextResize = 0 then 11 else 0) = b + 1 := by
      rw [h.nextResize, if_neg (by omega), h.length_eq, hfull]
      omega
    rw [reserveOne, if_pos (by rw [h.nextResize, h.length_eq]; omega)]
    simp only
    rw [hneeded, h.bucketCount, if_pos (by omega), hb']
  have hinsert : m.insertOrAssign key v =
      { bucketCount := b', nextResize := b', nodes := link b' (key, v) (relink b' m.nodes) } := by
    rw [insertOrAssign, if_neg hkey, hreserve]
  rw [hinsert]
  refine ⟨rfl, rfl, ?_, ?_⟩
  · show link b' (key, v) (relink b' m.nodes) = _
    rw [relink_eq, link_grouped]
  · rw [List.length_append, List.length_singleton, h.length_eq]
    omega

/-- The nodes go, the buckets stay. -/
theorem clear (h : FilledBy m b nodes) : FilledBy m.clear b [] :=
  ⟨h.bucketCount, h.nextResize, rfl, Nat.zero_le b⟩

/-- Fresh keys that the map has room for. -/
theorem insertAll (h : FilledBy m b nodes) {l : List (Nat × V)}
    (hfresh : (nodes.map Prod.fst ++ l.map Prod.fst).Nodup) (hroom : nodes.length + l.length ≤ b) :
    FilledBy (m.insertAll l) b (nodes ++ l) := by
  induction l using List.reverseRecOn with
  | nil =>
    rw [List.append_nil]
    exact h
  | append_singleton l p ih =>
    rw [List.map_append, ← List.append_assoc] at hfresh
    obtain ⟨hl, -, hp⟩ := List.nodup_append.1 hfresh
    rw [List.length_append, List.length_singleton] at hroom
    have hfilled := ih hl (by omega)
    rw [UnorderedMap.insertAll, List.foldl_concat, ← List.append_assoc]
    refine hfilled.insert ?_ (by rw [List.length_append]; omega) p.2
    intro hmem
    rw [keys, (hfilled.nodes_perm.map Prod.fst).mem_iff, List.map_append] at hmem
    exact hp _ hmem _ (List.mem_singleton.2 rfl) rfl

end FilledBy

/-- The first insertion makes 13 buckets. -/
theorem filledBy_first (key : Nat) (v : V) :
    FilledBy (({} : UnorderedMap V).insertOrAssign key v) 13 [(key, v)] where
  bucketCount := rfl
  nextResize := rfl
  nodes_eq := by
    rw [grouped, groupedBy_eq_self (by simp)]
    rfl
  fits := Nat.succ_le_succ (Nat.zero_le 12)

end UnorderedMap

end PipelineTools.Library
