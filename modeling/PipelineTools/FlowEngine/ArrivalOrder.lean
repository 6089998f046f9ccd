import PipelineTools.FlowEngine.RoundOrder

/-!
# The order of collected values

An aggregator hands its `process` the values of a round in the iteration order of its map, which
depends on the order of the deliveries. `handed` is the vector of the first invocation in a
sequence of deliveries; in any round of at most 30 producers it lists the values by `arrangement`
(`handed_eq`), which is the arrival order reversed but for the first round of 14 producers or more.

So a position in the vector does not identify a producer. `identified_iff` says for which arrival
orders and values it happens to; when the values are distinct there is one such order
(`keepsPlaces_iff_of_distinct`). Two deliveries in ascending order are already handed over the wrong
way round (`ascending_not_identified`).
-/

set_option autoImplicit false

namespace PipelineTools.FlowEngine

open PipelineTools.Library

variable {κ : Type} {β : κ → Type} {σ ε : Type} {t : Ty κ}

/-- The producers `ids` deliver their values `v`, in this order. -/
def deliveriesOf (v : Nat → t.Val β) (ids : List Nat) : List (Delivery β) :=
  ids.map fun id => ⟨.val t (v id), id⟩

/-- The values of the producers `0`, …, `n - 1`, by position. -/
def byProducer (v : Nat → t.Val β) (n : Nat) : List (Any β) :=
  (List.range n).map fun id => .val t (v id)

/-- At every position of the arrangement stands an id whose value is that of the position. -/
def KeepsPlaces (v : Nat → t.Val β) (buckets n : Nat) (ids : List Nat) : Prop :=
  (arrangement buckets n ids).map v = (List.range n).map v

/-- No value of a round has arrived yet. -/
def Rounds.BetweenRounds (s : Rounds t β σ) : Prop := s.agg.latest.nodes = []

/-- Distinct values keep their places in one order of arrivals only. -/
theorem keepsPlaces_iff_of_distinct {v : Nat → t.Val β} {buckets n : Nat} {ids : List Nat}
    (hn : n ≤ 30) (hids : ids.Perm (List.range n))
    (hv : ∀ i < n, ∀ j < n, v i = v j → i = j) :
    KeepsPlaces v buckets n ids ↔ ids = ascendingFrom buckets n := by
  rw [← arrangement_eq_range_iff hn hids, KeepsPlaces]
  have hperm : (arrangement buckets n ids).Perm (List.range n) := arrangement_perm hids
  generalize arrangement buckets n ids = placed at hperm
  refine ⟨fun h => ?_, congrArg _⟩
  refine List.ext_getElem hperm.length_eq fun k hk hk' => ?_
  have hvalue : v placed[k] = v (List.range n)[k] := by
    rw [← List.getElem_map v (h := by simpa using hk),
      ← List.getElem_map v (h := by simpa using hk')]
    exact List.getElem_of_eq h _
  refine hv _ ?_ _ ?_ hvalue
  · exact List.mem_range.1 (hperm.mem_iff.1 (List.getElem_mem hk))
  · exact List.mem_range.1 (List.getElem_mem hk')

variable [DecidableEq κ] (process : List (t.Val β) → Process σ ε (t.Val β))

/-- The vector that the first invocation of `process` is handed in the course of the calls;
undefined behaviour ends them. -/
def handed : Rounds t β σ → List (Delivery β) → Option (List (Any β))
  | _, [] => none
  | s, d :: ds =>
    match (s.response process d).1.call with
    | some c => some c.args
    | none =>
      match (s.response process d).1.result with
      | .error (.undefined _) => none
      | _ => handed (s.call process d) ds

variable {process} {n : Nat}

variable (process) in
/-- The first delivery of a producer in a round. -/
theorem response_fresh (hn : n ≤ 30) {s : Rounds t β σ} (hinv : RoundInv n s) {i : Nat}
    (hi : i < n) (hfresh : firstTyped t s.since i = none) (w : t.Val β) :
    Collected n (s.agg.store i (BitVec.twoPow 64 i) w) (s.since ++ [⟨.val t w, i⟩]) ∧
      (Covers t n (s.since ++ [⟨.val t w, i⟩]) →
        s.response process ⟨.val t w, i⟩ =
          (s.agg.store i (BitVec.twoPow 64 i) w).complete t t id process s.user) ∧
      (¬ Covers t n (s.since ++ [⟨.val t w, i⟩]) →
        s.response process ⟨.val t w, i⟩ =
          (⟨none, .ok .empty⟩, s.agg.store i (BitVec.twoPow 64 i) w, s.user)) := by
  have hbit : s.agg.state.getLsbD i = false := by
    rw [← Bool.not_eq_true, hinv.collected.bits, hinv.collected.mem_keys_iff, hfresh]
    exact Bool.false_ne_true
  have hzero := (and_twoPow_eq_zero_iff s.agg.state (by omega)).2 hbit
  have hcol := hinv.collected.store (d := ⟨.val t w, i⟩) (by omega) hi rfl hbit
  have hfull := hcol.full_iff hn
  have hresponse : s.response process ⟨.val t w, i⟩ =
      if (s.agg.store i (BitVec.twoPow 64 i) w).state = BitVec.ofNat 64 (2 ^ n - 1) then
        (s.agg.store i (BitVec.twoPow 64 i) w).complete t t id process s.user
      else (⟨none, .ok .empty⟩, s.agg.store i (BitVec.twoPow 64 i) w, s.user) := by
    simp only [Rounds.response, Aggregator.processAny, producerMask_eq (by omega : i < 31), hzero,
      ne_eq, not_true_eq_false, if_false, anyCastWithInfo_val_self, hinv.collected.count,
      fullMask_eq hn, id]
  refine ⟨hcol, fun hc => ?_, fun hc => ?_⟩
  · rw [hresponse, if_pos (hfull.2 hc)]
  · rw [hresponse, if_neg fun h => hc (hfull.1 h)]

theorem firstTyped_deliveriesOf (v : Nat → t.Val β) (ids : List Nat) (i : Nat) :
    firstTyped t (deliveriesOf v ids) i = if i ∈ ids then some (v i) else none := by
  induction ids with
  | nil => rfl
  | cons j ids ih =>
    have hcons : firstTyped t (deliveriesOf v (j :: ids)) i =
        (if j = i then some (v j) else none).or (firstTyped t (deliveriesOf v ids) i) := by
      simp only [deliveriesOf, List.map_cons, firstTyped, List.findSome?_cons, anyCast_val_self]
      by_cases hj : j = i
      · simp [hj]
      · simp [hj]
    rw [hcons, ih]
    by_cases hj : j = i
    · subst hj
      simp
    · simp [hj, Ne.symm hj]

theorem covers_deliveriesOf (v : Nat → t.Val β) (ids : List Nat) :
    Covers t n (deliveriesOf v ids) ↔ ∀ i < n, i ∈ ids := by
  rw [Covers]
  refine forall₂_congr fun i _ => ?_
  rw [firstTyped_deliveriesOf]
  by_cases hi : i ∈ ids <;> simp [hi]

/-- The producers `pre` have delivered in this round, and no others. -/
def Arrived (v : Nat → t.Val β) (pre : List Nat) (since : List (Delivery β)) : Prop :=
  ∀ i, firstTyped t since i = if i ∈ pre then some (v i) else none

theorem Arrived.concat {v : Nat → t.Val β} {pre : List Nat} {since : List (Delivery β)}
    (h : Arrived v pre since) (i : Nat) :
    Arrived v (pre ++ [i]) (since ++ [⟨.val t (v i), i⟩]) := by
  intro j
  rw [firstTyped_concat, h j]
  by_cases hpre : j ∈ pre
  · simp [hpre]
  · by_cases hij : i = j
    · subst hij
      simp [hpre, anyCast_val_self]
    · simp [hpre, hij, Ne.symm hij]

theorem Arrived.covers_iff {v : Nat → t.Val β} {pre : List Nat} {since : List (Delivery β)}
    (h : Arrived v pre since) : Covers t n since ↔ ∀ i < n, i ∈ pre := by
  rw [Covers]
  refine forall₂_congr fun i _ => ?_
  rw [h i]
  by_cases hi : i ∈ pre <;> simp [hi]

/-- The rest of a round, when the producers `pre` have delivered and the producers `post` will. -/
theorem handed_rest (hn : n ≤ 30) (v : Nat → t.Val β) {m : UnorderedMap (t.Val β)}
    (post : List Nat) :
    ∀ (pre : List Nat) (s : Rounds t β σ), post ≠ [] → (pre ++ post).Perm (List.range n) →
      RoundInv n s → Arrived v pre s.since → s.agg.latest = m.insertAll (nodesOf v pre) →
      handed process s (deliveriesOf v post) =
        some ((m.insertAll (nodesOf v (pre ++ post))).values.map (.val t)) := by
  -- induction on the producers still to come, `pre` having delivered
  induction post with
  | nil => exact fun _ _ hne => absurd rfl hne
  | cons i post ih =>
    intro pre s _ hperm hinv hsince hlatest
    have hi : i < n := by
      rw [← List.mem_range, ← hperm.mem_iff]
      exact List.mem_append_right _ List.mem_cons_self
    have hnodup : (pre ++ i :: post).Nodup := hperm.nodup_iff.2 List.nodup_range
    have hipre : i ∉ pre := fun hmem =>
      (List.nodup_append.1 hnodup).2.2 i hmem i List.mem_cons_self rfl
    have hfresh : firstTyped t s.since i = none := by
      rw [hsince i, if_neg hipre]
    obtain ⟨hcol, hcomplete, hstore⟩ := response_fresh process hn hinv hi hfresh (v i)
    have hsince' := hsince.concat i
    have hlatest' : (s.agg.store i (BitVec.twoPow 64 i) (v i)).latest =
        m.insertAll (nodesOf v (pre ++ [i])) := by
      show s.agg.latest.insertOrAssign i (v i) = _
      rw [hlatest, insertAll_append]
      rfl
    rw [hsince'.covers_iff] at hcomplete hstore
    show handed process s (⟨.val t (v i), i⟩ :: deliveriesOf v post) = _
    rw [handed]
    cases post with
    | nil =>
      -- the last of the producers
      have hall : ∀ j < n, j ∈ pre ++ [i] := fun j hj => hperm.mem_iff.2 (List.mem_range.2 hj)
      rw [hcomplete hall]
      obtain ⟨⟨ret, hcall⟩, -⟩ := pack_cases
        (((s.agg.store i (BitVec.twoPow 64 i) (v i)).latest.values.map id).map (Any.val t)) t .empty
        (process ((s.agg.store i (BitVec.twoPow 64 i) (v i)).latest.values.map id) s.user)
      simp only [Aggregator.complete, hcall]
      rw [List.map_id, hlatest']
    | cons j post =>
      -- `j` has not delivered yet
      have hopen : ¬ ∀ k < n, k ∈ pre ++ [i] := by
        intro hall
        have hj : j < n := by
          rw [← List.mem_range, ← hperm.mem_iff]
          simp
        rw [← List.singleton_append, ← List.append_assoc] at hnodup
        exact (List.nodup_append.1 hnodup).2.2 j (hall j hj) j List.mem_cons_self rfl
      have hresponse := hstore hopen
      have hcall : s.call process ⟨.val t (v i), i⟩ =
          ⟨s.agg.store i (BitVec.twoPow 64 i) (v i), s.user,
            s.since ++ [⟨.val t (v i), i⟩]⟩ := by
        simp [Rounds.call, hresponse]
      rw [hresponse]
      simp only
      rw [hcall]
      have hinv' : RoundInv n (⟨s.agg.store i (BitVec.twoPow 64 i) (v i), s.user,
          s.since ++ [⟨.val t (v i), i⟩]⟩ : Rounds t β σ) :=
        ⟨hcol, fun hc => hopen (hsince'.covers_iff.1 hc)⟩
      have hperm' : (pre ++ [i] ++ j :: post).Perm (List.range n) := by
        rw [List.append_assoc]
        exact hperm
      rw [ih (pre ++ [i]) _ (List.cons_ne_nil _ _) hperm' hinv' hsince' hlatest', List.append_assoc]
      rfl

/-- What `process` is handed by a round, whatever the aggregator was called with before. -/
theorem handed_eq (hpos : 1 ≤ n) (hn : n ≤ 30) {s : Rounds t β σ} (hinv : RoundInv n s)
    (hbuckets : Buckets n s.agg.latest) (hbetween : s.BetweenRounds) (v : Nat → t.Val β)
    {ids : List Nat} (hids : ids.Perm (List.range n)) :
    handed process s (deliveriesOf v ids) =
      some ((arrangement s.agg.latest.bucketCount n ids).map fun i => .val t (v i)) := by
  have hnone : Arrived v [] s.since := by
    intro i
    rw [if_neg List.not_mem_nil, ← Option.not_isSome_iff_eq_none, ← hinv.collected.mem_keys_iff,
      UnorderedMap.keys, hbetween]
    exact List.not_mem_nil
  have hne : ids ≠ [] := by
    rintro rfl
    have hlen := hids.length_eq
    rw [List.length_range, List.length_nil] at hlen
    omega
  rw [handed_rest hn v ids [] s hne hids hinv hnone rfl, List.nil_append,
    values_insertAll (hbuckets.emptied hbetween) hpos hn hids, List.map_map]
  rfl

/-- With more than 30 producers the first delivery is undefined. -/
theorem handed_eq_none (hn : 31 ≤ n) {s : Rounds t β σ} (hcount : s.agg.producerCount = n)
    (hstate : s.agg.state = 0) (v : Nat → t.Val β) {ids : List Nat} :
    handed process s (deliveriesOf v ids) = none := by
  cases ids with
  | nil => rfl
  | cons i ids =>
    show handed process s (⟨.val t (v i), i⟩ :: deliveriesOf v ids) = none
    rw [handed]
    have hfull : fullMask s.agg.producerCount = none := by
      rw [hcount]
      exact fullMask_eq_none_of_le hn
    cases hmask : producerMask i with
    | none => simp only [Rounds.response, Aggregator.processAny, hmask]
    | some idx =>
      have hzero : s.agg.state &&& idx = 0 := by
        rw [hstate]
        exact BitVec.zero_and
      rw [Rounds.response, Aggregator.processAny_of_overflow hmask hzero hfull]

omit [DecidableEq κ] in
theorem map_val_inj {xs ys : List (t.Val β)} :
    (xs.map (Any.val t) : List (Any β)) = ys.map (Any.val t) ↔ xs = ys := by
  refine ⟨fun h => ?_, congrArg _⟩
  refine List.map_injective_iff.2 ?_ h
  intro x y hxy
  cases hxy
  rfl

variable (process) in
/-- A round identifies the producers of the deliveries `ids` by position exactly when there are at
most 30 of them and their values keep their places. -/
theorem handed_eq_byProducer_iff (hpos : 1 ≤ n) (u : σ) {before : List (Delivery β)}
    (hbefore : ∀ d ∈ before, d.producerId < n) {s : Rounds t β σ}
    (hs : Rounds.after process n u before = s) (hbetween : s.BetweenRounds) (v : Nat → t.Val β)
    {ids : List Nat} (hids : ids.Perm (List.range n)) :
    handed process s (deliveriesOf v ids) = some (byProducer v n) ↔
      n ≤ 30 ∧ KeepsPlaces v s.agg.latest.bucketCount n ids := by
  subst hs
  by_cases hn : n ≤ 30
  · have hreached : RoundInv n (Rounds.after process n u before) ∧
        Buckets n (Rounds.after process n u before).agg.latest := buckets_after hpos hn u hbefore
    obtain ⟨hinv, hbuckets⟩ := hreached
    have hmap : ∀ l : List Nat, (l.map fun i => (Any.val t (v i) : Any β)) =
        (l.map v).map (Any.val t) := fun l => (List.map_map).symm
    rw [handed_eq hpos hn hinv hbuckets hbetween v hids, Option.some.injEq, byProducer, hmap, hmap,
      map_val_inj, KeepsPlaces]
    exact (and_iff_right hn).symm
  · have hlarge : 31 ≤ n := by omega
    have hreached : (Rounds.after process n u before).agg.producerCount = n ∧
        ((Rounds.after process n u before).agg.latest.nodes = [] →
          (Rounds.after process n u before).agg.state = 0) := state_after_of_large hlarge u before
    obtain ⟨hcount, hstate⟩ := hreached
    rw [handed_eq_none (by omega) hcount (hstate hbetween)]
    exact iff_of_false nofun fun h => hn h.1

/-- Between any two rounds, and for two arrival orders of the next one: the vectors are the same and
show every producer's value at its position exactly when there are at most 30 producers and the
values keep their places in both. -/
theorem identified_iff (hn : 2 ≤ n) (process : List (t.Val β) → Process σ ε (t.Val β)) (u : σ)
    (before : List (Delivery β)) (hbefore : ∀ d ∈ before, d.producerId < n) (s : Rounds t β σ)
    (hs : Rounds.after process n u before = s) (hbetween : s.BetweenRounds) (v : Nat → t.Val β)
    (ids ids' : List Nat) (hids : ids.Perm (List.range n)) (hids' : ids'.Perm (List.range n)) :
    (handed process s (deliveriesOf v ids) = handed process s (deliveriesOf v ids') ∧
        handed process s (deliveriesOf v ids) = some (byProducer v n)) ↔
      n ≤ 30 ∧ KeepsPlaces v s.agg.latest.bucketCount n ids ∧
        KeepsPlaces v s.agg.latest.bucketCount n ids' := by
  have hiff := handed_eq_byProducer_iff process (by omega) u hbefore hs hbetween v hids
  have hiff' := handed_eq_byProducer_iff process (by omega) u hbefore hs hbetween v hids'
  constructor
  · rintro ⟨hsame, hv⟩
    have hv' := hsame.symm.trans hv
    exact ⟨(hiff.1 hv).1, (hiff.1 hv).2, (hiff'.1 hv').2⟩
  · rintro ⟨hle, hkeep, hkeep'⟩
    have hv := hiff.2 ⟨hle, hkeep⟩
    exact ⟨hv.trans (hiff'.2 ⟨hle, hkeep'⟩).symm, hv⟩

/-- The value of a producer in the examples. -/
def valueOf (i : Nat) : (Ty.base ()).Val (fun _ : Unit => Nat) := 10 + i

/-- Two producers that deliver in ascending order: the vector is the other way round, and it is not
the one of the descending order. -/
theorem ascending_not_identified :
    handed addUp (Rounds.start (.base ()) 2 ()) (deliveriesOf valueOf [0, 1]) =
        some [.val (.base ()) (11 : Nat), .val (.base ()) (10 : Nat)] ∧
      ¬ (handed addUp (Rounds.start (.base ()) 2 ()) (deliveriesOf valueOf [0, 1]) =
          handed addUp (Rounds.start (.base ()) 2 ()) (deliveriesOf valueOf [1, 0]) ∧
        handed addUp (Rounds.start (.base ()) 2 ()) (deliveriesOf valueOf [0, 1]) =
          some (byProducer valueOf 2)) := by
  have hup : handed addUp (Rounds.start (.base ()) 2 ()) (deliveriesOf valueOf [0, 1]) =
      some [.val (.base ()) (11 : Nat), .val (.base ()) (10 : Nat)] := rfl
  refine ⟨hup, fun h => ?_⟩
  have hfalse := hup.symm.trans h.2
  cases hfalse

/-- The aggregator of the example after a round. -/
def afterOneRound : Rounds (.base ()) (fun _ : Unit => Nat) Unit :=
  Rounds.after addUp 2 () (deliveriesOf valueOf [0, 1])

theorem descending_identified :
    (handed addUp afterOneRound (deliveriesOf valueOf [1, 0]) =
          handed addUp afterOneRound (deliveriesOf valueOf [1, 0]) ∧
        handed addUp afterOneRound (deliveriesOf valueOf [1, 0]) = some (byProducer valueOf 2)) ↔
      2 ≤ 30 ∧ KeepsPlaces valueOf afterOneRound.agg.latest.bucketCount 2 [1, 0] ∧
        KeepsPlaces valueOf afterOneRound.agg.latest.bucketCount 2 [1, 0] :=
  identified_iff (by decide) addUp () (deliveriesOf valueOf [0, 1]) (by decide) afterOneRound rfl
    rfl valueOf [1, 0] [1, 0] (by decide) (by decide)

end PipelineTools.FlowEngine
