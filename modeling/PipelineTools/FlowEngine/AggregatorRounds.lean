import PipelineTools.FlowEngine.Blocks
import PipelineTools.Library.Runs
import Mathlib.Data.List.Perm.Basic
import Mathlib.Data.List.Range

/-!
# Rounds of an aggregator

An aggregator with `n` producers collects one value from each of them and then calls the user's
`process` with the collection. `RoundLaw` states this of one call of `process_any`, given the calls
made since the previous invocation: which call completes a round, which values the round consists
of, what a failed cast and a throwing `process` leave behind, and that the bit mask and the map of
values stay in step.

`roundLaw_iff` settles when a sequence of calls obeys the law at every one of its calls: always up
to 30 producers. With 31 producers the mask still fits `int`, but `pow(2, 31)` is converted to
`int` before one is subtracted, so the first value of the right type runs into an undefined
conversion.
-/

set_option autoImplicit false

namespace PipelineTools.FlowEngine

open PipelineTools.Library

variable {κ : Type} {β : κ → Type} {σ ε : Type}

/-! ## The masks -/

/-- The mask of a producer is its bit, as long as the bit is below the sign bit of `int`. -/
theorem producerMask_eq {id : Nat} (h : id < 31) :
    producerMask id = some (BitVec.twoPow 64 id) := by
  have hall : ∀ i < 31, producerMask i = some (BitVec.twoPow 64 i) := by decide
  exact hall id h

theorem fullMask_eq {n : Nat} (h : n ≤ 30) : fullMask n = some (BitVec.ofNat 64 (2 ^ n - 1)) := by
  have hall : ∀ i < 31, fullMask i = some (BitVec.ofNat 64 (2 ^ i - 1)) := by decide
  exact hall n (by omega)

theorem fullMask_eq_none_of_le {n : Nat} (h : 31 ≤ n) : fullMask n = none := by
  have hpow : 2 ^ 31 ≤ 2 ^ n := Nat.pow_le_pow_right (by omega) h
  simp only [fullMask, floatToInt, if_neg (not_lt.2 hpow), Option.map_none]

theorem fullMask_eq_none : fullMask 31 = none := fullMask_eq_none_of_le le_rfl

theorem and_twoPow_eq_zero_iff (state : BitVec 64) {id : Nat} (h : id < 64) :
    state &&& BitVec.twoPow 64 id = 0 ↔ state.getLsbD id = false := by
  rw [BitVec.and_twoPow]
  split
  · next hbit =>
    rw [hbit]
    simp only [Bool.true_eq_false, iff_false]
    intro hzero
    have hself : (BitVec.twoPow 64 id).getLsbD id = true := by
      simp [h]
    rw [hzero] at hself
    simp at hself
  · next hbit => simpa using hbit

theorem getLsbD_or_twoPow (state : BitVec 64) {id : Nat} (h : id < 64) (i : Nat) :
    (state ||| BitVec.twoPow 64 id).getLsbD i = true ↔ i = id ∨ state.getLsbD i = true := by
  rw [BitVec.getLsbD_or, BitVec.getLsbD_twoPow]
  simp only [h, decide_true, Bool.true_and, Bool.or_eq_true, decide_eq_true_eq]
  constructor
  · rintro (hi | hi)
    · exact .inr hi
    · exact .inl hi.symm
  · rintro (hi | hi)
    · exact .inr hi.symm
    · exact .inl hi

/-- A mask without bits from `n` on is full exactly when every bit below `n` is set. -/
theorem eq_fullMask_iff {state : BitVec 64} {n : Nat} (hn : n ≤ 64)
    (hlow : ∀ i, state.getLsbD i = true → i < n) :
    state = BitVec.ofNat 64 (2 ^ n - 1) ↔ ∀ id < n, state.getLsbD id = true := by
  have hfull : ∀ i < 64, (BitVec.ofNat 64 (2 ^ n - 1)).getLsbD i = decide (i < n) := by
    intro i hi
    rw [BitVec.getLsbD_ofNat, Nat.testBit_two_pow_sub_one]
    simp [hi]
  constructor
  · rintro rfl id hid
    rw [hfull id (by omega)]
    simpa using hid
  · intro hset
    refine BitVec.eq_of_getLsbD_eq fun i hi => ?_
    rw [hfull i hi]
    by_cases hin : i < n
    · rw [hset i hin]
      simp [hin]
    · have hnot : state.getLsbD i = false := by
        by_contra hbit
        exact hin (hlow i (by simpa using hbit))
      rw [hnot]
      simp [hin]

/-! ## The law of a round -/

/-- One call `process_any(input, producer_id)` on the aggregator. -/
structure Delivery (β : κ → Type) where
  input : Any β
  producerId : Nat

/-- An aggregator after some calls, with the calls made since the last invocation of `process`. -/
structure Rounds (t : Ty κ) (β : κ → Type) (σ : Type) where
  agg : Aggregator (t.Val β)
  user : σ
  since : List (Delivery β)

/-- The aggregator after `n` producers were registered with it. -/
def Aggregator.registered {V : Type} (n : Nat) : Aggregator V :=
  (fun agg => agg.registerProducer.2)^[n] {}

/-- The aggregator before the first call. -/
def Rounds.start (t : Ty κ) (n : Nat) (u : σ) : Rounds t β σ := ⟨Aggregator.registered n, u, []⟩

section Law

variable [DecidableEq κ] (t : Ty κ) (n : Nat) (process : List (t.Val β) → Process σ ε (t.Val β))

/-- The first value of type `t` that `id` delivered. -/
def firstTyped (calls : List (Delivery β)) (id : Nat) : Option (t.Val β) :=
  calls.findSome? fun d => if d.producerId = id then anyCast t d.input else none

/-- Every one of the `n` producers delivered a value of type `t`. -/
def Covers (calls : List (Delivery β)) : Prop :=
  ∀ id < n, (firstTyped t calls id).isSome = true

/-- The values of a round, in the order of the producers' ids. -/
def roundValues (calls : List (Delivery β)) : List (t.Val β) :=
  (List.range n).filterMap (firstTyped t calls)

variable {t}

/-- What the call `d` returns, and the aggregator and user state after it. -/
def Rounds.response (s : Rounds t β σ) (d : Delivery β) :
    Outcome β ε × Aggregator (t.Val β) × σ :=
  s.agg.processAny t t id id process d.input d.producerId s.user

/-- The call `d`; an invocation of `process` starts a new round. -/
def Rounds.call (s : Rounds t β σ) (d : Delivery β) : Rounds t β σ where
  agg := (s.response process d).2.1
  user := (s.response process d).2.2
  since := if (s.response process d).1.call.isSome then [] else s.since ++ [d]

/-- What one call owes to the calls made since the previous invocation of `process`. -/
structure RoundLaw (s : Rounds t β σ) (d : Delivery β) : Prop where
  defined : ∀ f, (s.response process d).1.result ≠ .error (.undefined f)
  invoked_iff : (s.response process d).1.call.isSome = true ↔
    ¬ Covers t n s.since ∧ Covers t n (s.since ++ [d])
  args : ∀ c, (s.response process d).1.call = some c →
    c.args.length = n ∧ c.args.Perm ((roundValues t n (s.since ++ [d])).map (Any.val t))
  badCast : ∀ a b, (s.response process d).1.result = .error (.threw (.badAnyCastWithInfo a b)) →
    (s.call process d).agg.state = s.agg.state ∧ (s.call process d).agg.latest = s.agg.latest
  userThrow : ∀ e, (s.response process d).1.result = .error (.threw (.user e)) →
    (s.call process d).agg.state = 0 ∧ (s.call process d).agg.latest.nodes = []
  bits : ∀ i, (s.call process d).agg.state.getLsbD i = true ↔
    i ∈ (s.call process d).agg.latest.keys
  keys_nodup : (s.call process d).agg.latest.keys.Nodup
  not_full : ∃ id < n, (s.call process d).agg.state.getLsbD id = false

end Law

/-! ## What the aggregator has collected -/

section Collected

variable [DecidableEq κ] {t : Ty κ} {n : Nat}

theorem firstTyped_concat (calls : List (Delivery β)) (d : Delivery β) (id : Nat) :
    firstTyped t (calls ++ [d]) id =
      (firstTyped t calls id).or (if d.producerId = id then anyCast t d.input else none) := by
  simp [firstTyped, List.findSome?_append]

/-- A repeated delivery, or one of the wrong type, changes no first value. -/
theorem firstTyped_concat_of_ignored {calls : List (Delivery β)} {d : Delivery β}
    (h : (firstTyped t calls d.producerId).isSome = true ∨ anyCast t d.input = none) :
    firstTyped t (calls ++ [d]) = firstTyped t calls := by
  funext id
  rw [firstTyped_concat]
  by_cases hid : d.producerId = id
  · subst hid
    rcases h with hknown | hnone
    · obtain ⟨v, hv⟩ := Option.isSome_iff_exists.1 hknown
      rw [hv, Option.some_or]
    · rw [if_pos rfl, hnone, Option.or_none]
  · rw [if_neg hid, Option.or_none]

theorem covers_concat_of_ignored {calls : List (Delivery β)} {d : Delivery β}
    (h : (firstTyped t calls d.producerId).isSome = true ∨ anyCast t d.input = none) :
    Covers t n (calls ++ [d]) ↔ Covers t n calls := by
  unfold Covers
  rw [firstTyped_concat_of_ignored h]

/-- The mask and the map hold the first values of the calls. -/
structure Collected (n : Nat) (agg : Aggregator (t.Val β)) (calls : List (Delivery β)) :
    Prop where
  count : agg.producerCount = n
  nodes : ∀ id v, (id, v) ∈ agg.latest.nodes ↔ firstTyped t calls id = some v
  nodup : agg.latest.keys.Nodup
  below : ∀ id ∈ agg.latest.keys, id < n
  bits : ∀ i, agg.state.getLsbD i = true ↔ i ∈ agg.latest.keys

namespace Collected

variable {agg : Aggregator (t.Val β)} {calls : List (Delivery β)}

theorem mem_keys_iff (h : Collected n agg calls) (id : Nat) :
    id ∈ agg.latest.keys ↔ (firstTyped t calls id).isSome = true := by
  rw [Option.isSome_iff_exists]
  constructor
  · intro hid
    obtain ⟨⟨id', v⟩, hmem, rfl⟩ := List.mem_map.1 hid
    exact ⟨v, (h.nodes id' v).1 hmem⟩
  · rintro ⟨v, hv⟩
    exact List.mem_map.2 ⟨(id, v), (h.nodes id v).2 hv, rfl⟩

theorem covers_iff (h : Collected n agg calls) :
    Covers t n calls ↔ ∀ id < n, agg.state.getLsbD id = true := by
  unfold Covers
  refine forall₂_congr fun id _ => ?_
  rw [h.bits, h.mem_keys_iff]

theorem full_iff (h : Collected n agg calls) (hn : n ≤ 30) :
    agg.state = BitVec.ofNat 64 (2 ^ n - 1) ↔ Covers t n calls := by
  rw [h.covers_iff]
  refine eq_fullMask_iff (by omega) fun i hi => ?_
  exact h.below i ((h.bits i).1 hi)

theorem ignored (h : Collected n agg calls) {d : Delivery β}
    (hd : (firstTyped t calls d.producerId).isSome = true ∨ anyCast t d.input = none) :
    Collected n agg (calls ++ [d]) where
  count := h.count
  nodes := by
    rw [firstTyped_concat_of_ignored hd]
    exact h.nodes
  nodup := h.nodup
  below := h.below
  bits := h.bits

/-- Storing the first value of a producer keeps mask and map in step. -/
theorem store (h : Collected n agg calls) (hn : n ≤ 31) {d : Delivery β} {v : t.Val β}
    (hd : d.producerId < n) (hv : d.input = .val t v)
    (hfresh : agg.state.getLsbD d.producerId = false) :
    Collected n (agg.store d.producerId (BitVec.twoPow 64 d.producerId) v) (calls ++ [d]) := by
  have hkey : d.producerId ∉ agg.latest.keys := by
    intro hmem
    rw [(h.bits _).2 hmem] at hfresh
    cases hfresh
  have hnone : firstTyped t calls d.producerId = none := by
    rw [← Option.not_isSome_iff_eq_none, ← h.mem_keys_iff]
    exact hkey
  have hkeys : ∀ i, i ∈ (agg.latest.insertOrAssign d.producerId v).keys ↔
      i = d.producerId ∨ i ∈ agg.latest.keys := by
    intro i
    rw [(UnorderedMap.keys_insert_perm hkey v).mem_iff, List.mem_cons]
  refine ⟨h.count, ?_, UnorderedMap.keys_nodup_insert hkey v h.nodup, ?_, ?_⟩
  · intro id w
    show (id, w) ∈ (agg.latest.insertOrAssign d.producerId v).nodes ↔ _
    rw [(UnorderedMap.insert_perm hkey v).mem_iff, List.mem_cons, h.nodes, firstTyped_concat]
    -- the producer of `d` gets its first value, the others keep theirs
    by_cases hid : d.producerId = id
    · subst hid
      rw [hnone, if_pos rfl, hv, anyCast_val_self]
      simp [eq_comm]
    · rw [if_neg hid, Option.or_none]
      simp only [Prod.mk.injEq, or_iff_right_iff_imp, and_imp]
      intro heq
      exact absurd heq.symm hid
  · intro id hid
    rcases (hkeys id).1 hid with rfl | hid
    · exact hd
    · exact h.below id hid
  · intro i
    show (agg.state ||| BitVec.twoPow 64 d.producerId).getLsbD i = true ↔ _
    rw [getLsbD_or_twoPow _ (by omega), h.bits]
    exact (hkeys i).symm

/-- A full aggregator holds one value of each producer. -/
theorem values_perm (h : Collected n agg calls) (hc : Covers t n calls) :
    agg.latest.values.length = n ∧ agg.latest.values.Perm (roundValues t n calls) := by
  constructor
  · have hkeys : agg.latest.keys.Perm (List.range n) := by
      refine (List.perm_ext_iff_of_nodup h.nodup List.nodup_range).2 fun id => ?_
      rw [List.mem_range]
      constructor
      · exact h.below id
      · exact fun hid => (h.mem_keys_iff id).2 (hc id hid)
    have hlen := hkeys.length_eq
    rw [List.length_range] at hlen
    simpa [UnorderedMap.keys, UnorderedMap.values] using hlen
  -- the nodes of the map are, in some order, the first values of the producers
  · let pairs := (List.range n).filterMap fun id => (firstTyped t calls id).map (Prod.mk id)
    have hpairs : pairs.Nodup := by
      refine List.Nodup.filterMap ?_ List.nodup_range
      intro i j p hi hj
      simp only [Option.mem_def, Option.map_eq_some_iff] at hi hj
      obtain ⟨v, -, rfl⟩ := hi
      obtain ⟨w, -, hw⟩ := hj
      exact (congrArg Prod.fst hw).symm
    have hperm : agg.latest.nodes.Perm pairs := by
      refine (List.perm_ext_iff_of_nodup (List.Nodup.of_map _ h.nodup) hpairs).2 ?_
      rintro ⟨id, v⟩
      rw [h.nodes]
      simp only [pairs, List.mem_filterMap, List.mem_range, Option.map_eq_some_iff,
        Prod.mk.injEq]
      constructor
      · intro hv
        have hid : id < n := h.below id (List.mem_map.2 ⟨(id, v), (h.nodes id v).2 hv, rfl⟩)
        exact ⟨id, hid, v, hv, rfl, rfl⟩
      · rintro ⟨id', -, v', hv, rfl, rfl⟩
        exact hv
    have hvalues := hperm.map Prod.snd
    rw [List.map_filterMap] at hvalues
    simpa [UnorderedMap.values, roundValues, Function.comp_def] using hvalues

end Collected

end Collected

/-! ## Every call obeys the law -/

/-- What the user's `process` returned is what the call returns, unless it threw. -/
theorem pack_cases (args : List (Any β)) (out : Ty κ) (absent : Any β)
    (r : Except ε (Option (out.Val β)) × σ) :
    (∃ ret, (pack args out absent r).1.call = some ⟨args, ret⟩) ∧
      ((∃ b, (pack args out absent r).1.result = .ok b) ∨
        ∃ e, (pack args out absent r).1.result = .error (.threw (.user e))) := by
  obtain ⟨r1, u⟩ := r
  cases r1 with
  | error e => exact ⟨⟨_, rfl⟩, Or.inr ⟨e, rfl⟩⟩
  | ok o =>
    cases o with
    | none => exact ⟨⟨_, rfl⟩, Or.inl ⟨_, rfl⟩⟩
    | some v => exact ⟨⟨_, rfl⟩, Or.inl ⟨_, rfl⟩⟩

theorem registered_eq {V : Type} (n : Nat) :
    (Aggregator.registered n : Aggregator V) = { producerCount := n } := by
  induction n with
  | zero => rfl
  | succ n ih =>
    unfold Aggregator.registered at ih ⊢
    rw [Function.iterate_succ_apply', ih]
    rfl

/-- Without a mask of all producers, a value that is stored runs into the undefined conversion. -/
theorem Aggregator.processAny_of_overflow [DecidableEq κ] {inp out : Ty κ}
    {toOut : inp.Val β → out.Val β} {toIn : out.Val β → inp.Val β}
    {process : List (inp.Val β) → Process σ ε (out.Val β)} {agg : Aggregator (out.Val β)}
    {k : Nat} {idx : BitVec 64} (hmask : producerMask k = some idx) (hbit : agg.state &&& idx = 0)
    (hfull : fullMask agg.producerCount = none) (v : inp.Val β) (u : σ) :
    agg.processAny inp out toOut toIn process (.val inp v) k u =
      (⟨none, .error (.undefined .floatToInt)⟩, agg.store k idx (toOut v), u) := by
  simp only [Aggregator.processAny, hmask, hbit, ne_eq, not_true_eq_false, if_false,
    anyCastWithInfo_val_self, hfull]

section Law

variable [DecidableEq κ] {t : Ty κ} {n : Nat}
  {process : List (t.Val β) → Process σ ε (t.Val β)}

/-- Between calls, mask and map hold the current round, and the round is not complete. -/
structure RoundInv (n : Nat) (s : Rounds t β σ) : Prop where
  collected : Collected n s.agg s.since
  incomplete : ¬ Covers t n s.since

theorem not_covers_nil (hpos : 1 ≤ n) : ¬ Covers t n ([] : List (Delivery β)) := by
  intro h
  have h0 := h 0 (by omega)
  simp [firstTyped] at h0

/-- An aggregator that has just been reset holds nothing of the new round. -/
theorem roundInv_reset (hpos : 1 ≤ n) {agg : Aggregator (t.Val β)} (hcount : agg.producerCount = n)
    (hstate : agg.state = 0) (hnodes : agg.latest.nodes = []) (u : σ) :
    RoundInv n (⟨agg, u, []⟩ : Rounds t β σ) where
  collected := by
    refine ⟨hcount, ?_, ?_, ?_, ?_⟩ <;> simp [hstate, hnodes, firstTyped, UnorderedMap.keys]
  incomplete := not_covers_nil hpos

theorem roundInv_start (hpos : 1 ≤ n) (u : σ) :
    RoundInv n (Rounds.start t n u : Rounds t β σ) := by
  unfold Rounds.start
  rw [registered_eq]
  exact roundInv_reset hpos rfl rfl rfl u

theorem RoundInv.not_full {s : Rounds t β σ} (h : RoundInv n s) :
    ∃ id < n, s.agg.state.getLsbD id = false := by
  have hopen := h.incomplete
  rw [h.collected.covers_iff] at hopen
  push Not at hopen
  obtain ⟨id, hid, hbit⟩ := hopen
  exact ⟨id, hid, by simpa using hbit⟩

/-- A call that does not invoke `process` and leaves the round incomplete. -/
theorem roundLaw_silent {s : Rounds t β σ} {d : Delivery β} {res : Except (Stop κ ε) (Any β)}
    {agg : Aggregator (t.Val β)} {u : σ}
    (hr : s.response process d = (⟨none, res⟩, agg, u))
    (hdefined : ∀ f, res ≠ .error (.undefined f)) (huser : ∀ e, res ≠ .error (.threw (.user e)))
    (hbad : ∀ a b, res = .error (.threw (.badAnyCastWithInfo a b)) → agg = s.agg)
    (hinv : RoundInv n (⟨agg, u, s.since ++ [d]⟩ : Rounds t β σ)) :
    RoundLaw n process s d ∧ RoundInv n (s.call process d) := by
  have hcall : s.call process d = ⟨agg, u, s.since ++ [d]⟩ := by
    simp [Rounds.call, hr]
  refine ⟨⟨?_, ?_, ?_, ?_, ?_, ?_, ?_, ?_⟩, by rw [hcall]; exact hinv⟩
  · rw [hr]
    exact hdefined
  · rw [hr]
    constructor
    · intro h
      cases h
    · rintro ⟨-, hcovers⟩
      exact absurd hcovers hinv.incomplete
  · intro c hc
    rw [hr] at hc
    cases hc
  · intro a b hres
    rw [hr] at hres
    rw [hcall, hbad a b hres]
    exact ⟨rfl, rfl⟩
  · intro e hres
    rw [hr] at hres
    exact absurd hres (huser e)
  · rw [hcall]
    exact hinv.collected.bits
  · rw [hcall]
    exact hinv.collected.nodup
  · rw [hcall]
    exact hinv.not_full

/-- A call that completes the round. -/
theorem roundLaw_completed (hpos : 1 ≤ n) {s : Rounds t β σ} {d : Delivery β}
    {agg : Aggregator (t.Val β)} (hr : s.response process d = agg.complete t t id process s.user)
    (hopen : ¬ Covers t n s.since) (hcol : Collected n agg (s.since ++ [d]))
    (hcovers : Covers t n (s.since ++ [d])) :
    RoundLaw n process s d ∧ RoundInv n (s.call process d) := by
  obtain ⟨⟨ret, hcall⟩, hres⟩ := pack_cases (agg.latest.values.map (Any.val t)) t .empty
    (process agg.latest.values s.user)
  have hcomplete : agg.complete t t id process s.user =
      ((pack (agg.latest.values.map (Any.val t)) t .empty (process agg.latest.values s.user)).1,
        agg.reset, (process agg.latest.values s.user).2) := by
    simp only [Aggregator.complete, List.map_id]
    congr 2
    obtain ⟨r1, u⟩ := process agg.latest.values s.user
    rcases r1 with e | _ | v <;> rfl
  rw [hcomplete] at hr
  have hafter : s.call process d = ⟨agg.reset, (process agg.latest.values s.user).2, []⟩ := by
    simp [Rounds.call, hr, hcall]
  have hinv : RoundInv n (s.call process d) := by
    have hcount : agg.reset.producerCount = n := hcol.count
    rw [hafter]
    exact roundInv_reset hpos hcount rfl rfl _
  obtain ⟨hlen, hperm⟩ := hcol.values_perm hcovers
  refine ⟨⟨?_, ?_, ?_, ?_, ?_, hinv.collected.bits, hinv.collected.nodup, hinv.not_full⟩, hinv⟩
  -- `process` returns or throws; no arithmetic is left to fail
  · intro f hf
    rw [hr] at hf
    rcases hres with ⟨b, hb⟩ | ⟨e, he⟩
    · rw [hb] at hf
      cases hf
    · rw [he] at hf
      cases hf
  · rw [hr, hcall]
    exact ⟨fun _ => ⟨hopen, hcovers⟩, fun _ => rfl⟩
  · intro c hc
    rw [hr, hcall] at hc
    cases hc
    exact ⟨by rw [List.length_map, hlen], hperm.map _⟩
  · intro a b hbad
    rw [hr] at hbad
    rcases hres with ⟨b, hb⟩ | ⟨e, he⟩
    · rw [hb] at hbad
      cases hbad
    · rw [he] at hbad
      cases hbad
  · intro e _
    rw [hafter]
    exact ⟨rfl, rfl⟩

/-- One call keeps the invariant and obeys the law, whichever branch it takes. -/
theorem roundLaw_step (hpos : 1 ≤ n) (hn : n ≤ 31) {s : Rounds t β σ} {d : Delivery β}
    (hinv : RoundInv n s) (hd : d.producerId < n) (hok : n ≤ 30 ∨ d.input.type ≠ .ty t) :
    RoundLaw n process s d ∧ RoundInv n (s.call process d) := by
  have hmask : producerMask d.producerId = some (BitVec.twoPow 64 d.producerId) :=
    producerMask_eq (by omega)
  have hbit : s.agg.state &&& BitVec.twoPow 64 d.producerId = 0 ↔
      s.agg.state.getLsbD d.producerId = false := and_twoPow_eq_zero_iff _ (by omega)
  have hstep : Aggregator.Step t t id id process s.agg d.input d.producerId s.user
      (s.response process d) := Aggregator.step_processAny t t id id process _ _ _ _
  generalize hr : s.response process d = r at hstep
  cases hstep with
  | shift h =>
    rw [hmask] at h
    cases h
  -- the producer has delivered in this round, and the value is dropped
  | repeated h hset =>
    rw [hmask, Option.some.injEq] at h
    subst h
    have hknown : (firstTyped t s.since d.producerId).isSome = true := by
      rw [← hinv.collected.mem_keys_iff, ← hinv.collected.bits]
      rw [Ne, hbit] at hset
      simpa using hset
    refine roundLaw_silent hr nofun nofun nofun ⟨hinv.collected.ignored (Or.inl hknown), ?_⟩
    exact fun hc => hinv.incomplete ((covers_concat_of_ignored (Or.inl hknown)).1 hc)
  -- the cast throws before anything is stored
  | badCast h hfresh hcast =>
    obtain ⟨hnone, rfl⟩ := anyCastWithInfo_eq_error_iff.1 hcast
    refine roundLaw_silent hr nofun nofun (fun _ _ _ => rfl)
      ⟨hinv.collected.ignored (Or.inr hnone), ?_⟩
    exact fun hc => hinv.incomplete ((covers_concat_of_ignored (Or.inr hnone)).1 hc)
  | overflow h hfresh hv hfull =>
    -- only 31 producers run into the undefined conversion, and then `d` has the wrong type
    exfalso
    rcases hok with hle | htype
    · rw [hinv.collected.count, fullMask_eq hle] at hfull
      cases hfull
    · exact htype (by rw [hv, Any.type])
  | stored h hfresh hv hfull hne =>
    rw [hmask, Option.some.injEq] at h
    subst h
    have hcol := hinv.collected.store hn hd hv (hbit.1 hfresh)
    rcases hok with hle | htype
    · rw [hinv.collected.count, fullMask_eq hle, Option.some.injEq] at hfull
      subst hfull
      refine roundLaw_silent hr nofun nofun nofun ⟨hcol, ?_⟩
      exact fun hc => hne ((hcol.full_iff hle).2 hc)
    · exact absurd (by rw [hv, Any.type]) htype
  | completed h hfresh hv hfull heq =>
    rw [hmask, Option.some.injEq] at h
    subst h
    have hcol := hinv.collected.store hn hd hv (hbit.1 hfresh)
    rcases hok with hle | htype
    · rw [hinv.collected.count, fullMask_eq hle, Option.some.injEq] at hfull
      subst hfull
      exact roundLaw_completed hpos hr hinv.incomplete hcol ((hcol.full_iff hle).1 heq)
    · exact absurd (by rw [hv, Any.type]) htype

/-- With 31 producers, a value of the right type runs into the undefined conversion. -/
theorem response_undefined {s : Rounds t β σ} {d : Delivery β} (hinv : Collected 31 s.agg s.since)
    (hstate : s.agg.state = 0) (hd : d.producerId < 31) (htype : d.input.type = .ty t) :
    (s.response process d).1.result = .error (.undefined .floatToInt) := by
  obtain ⟨v, hv⟩ : ∃ v, d.input = .val t v := by
    cases hin : d.input with
    | val t' v =>
      rw [hin, Any.type, TypeInfo.ty.injEq] at htype
      subst htype
      exact ⟨v, rfl⟩
    | _ =>
      rw [hin] at htype
      cases htype
  have hbit : s.agg.state &&& BitVec.twoPow 64 d.producerId = 0 := by
    rw [hstate]
    exact BitVec.zero_and
  have hfull : fullMask s.agg.producerCount = none := by
    rw [hinv.count, fullMask_eq_none]
  rw [Rounds.response, hv, Aggregator.processAny_of_overflow (producerMask_eq hd) hbit hfull]

/-- A call with a value of the wrong type leaves the mask as it is. -/
theorem state_call_of_wrongType {s : Rounds t β σ} {d : Delivery β} (hd : d.producerId < 31)
    (htype : d.input.type ≠ .ty t) : (s.call process d).agg.state = s.agg.state := by
  have hnone : anyCast t d.input = none := by
    cases hcast : anyCast t d.input with
    | none => rfl
    | some v =>
      rw [anyCast_eq_some_iff] at hcast
      exact absurd (by rw [hcast, Any.type]) htype
  have hcast := (anyCastWithInfo_eq_error_iff (ε := ε)).2 ⟨hnone, rfl⟩
  simp only [Rounds.call, Rounds.response, Aggregator.processAny, producerMask_eq hd, hcast]
  split <;> rfl

/-- With 31 producers the law fails at the first value of the right type. -/
theorem wrongType_of_atEach (hn : n = 31) {s : Rounds t β σ} (hinv : RoundInv n s)
    (hstate : s.agg.state = 0) {calls : List (Delivery β)} (hids : ∀ d ∈ calls, d.producerId < n)
    (h : AtEach (Rounds.call process) (RoundLaw n process) s calls) :
    ∀ d ∈ calls, d.input.type ≠ .ty t := by
  subst hn
  induction calls generalizing s with
  | nil => exact fun d hd => absurd hd List.not_mem_nil
  | cons d calls ih =>
    obtain ⟨hid, hids⟩ := List.forall_mem_cons.1 hids
    obtain ⟨hlaw, hrest⟩ := atEach_cons.1 h
    have htype : d.input.type ≠ .ty t := fun heq =>
      hlaw.defined _ (response_undefined hinv.collected hstate hid heq)
    have hnext : RoundInv 31 (s.call process d) :=
      (roundLaw_step (by omega) (by omega) hinv hid (Or.inr htype)).2
    have hstate' : (s.call process d).agg.state = 0 := by
      rw [state_call_of_wrongType hid htype, hstate]
    exact List.forall_mem_cons.2 ⟨htype, ih hstate' hnext hids hrest⟩

/-- For every number of producers whose masks fit `int`, a sequence of calls obeys the law at each
of its calls exactly when there are at most 30 producers or no value of the right type arrives. -/
theorem roundLaw_iff (hpos : 1 ≤ n) (hfull : 2 ^ n - 1 < 2 ^ 31)
    (process : List (t.Val β) → Process σ ε (t.Val β)) (u : σ) (calls : List (Delivery β))
    (hids : ∀ d ∈ calls, d.producerId < n) :
    AtEach (Rounds.call process) (RoundLaw n process) (Rounds.start t n u) calls ↔
      n ≤ 30 ∨ ∀ d ∈ calls, d.input.type ≠ .ty t := by
  have hn : n ≤ 31 := by
    by_contra hlt
    have hpow : 2 ^ 32 ≤ 2 ^ n := Nat.pow_le_pow_right (by omega) (by omega)
    omega
  constructor
  · intro h
    by_cases hle : n ≤ 30
    · exact Or.inl hle
    · refine Or.inr (wrongType_of_atEach (by omega) (roundInv_start hpos u) ?_ hids h)
      unfold Rounds.start
      rw [registered_eq]
  · intro h
    refine atEach_of_invariant (fun d => d.producerId < n ∧ (n ≤ 30 ∨ d.input.type ≠ .ty t))
      (RoundInv n) ?_ (roundInv_start hpos u) ?_
    · intro s d hinv hd
      exact roundLaw_step hpos hn hinv hd.1 hd.2
    · intro d hd
      exact ⟨hids d hd, h.imp_right fun hall => hall d hd⟩

end Law

/-- A `process` that adds the collected numbers. -/
def addUp (values : List ((Ty.base ()).Val (fun _ : Unit => Nat))) :
    Process Unit Empty ((Ty.base ()).Val (fun _ : Unit => Nat)) :=
  fun u => (.ok (some (List.sum (α := Nat) values)), u)

/-- Two numbers from two producers, and an absent value in between. -/
def twoDeliveries : List (Delivery (fun _ : Unit => Nat)) :=
  [⟨.val (.base ()) (5 : Nat), 0⟩, ⟨.nullopt, 1⟩, ⟨.val (.base ()) (7 : Nat), 1⟩]

/-- With 31 producers a single delivery breaks the law. -/
theorem roundLaw_fails_at_31 :
    2 ^ 31 - 1 < 2 ^ 31 ∧
      ¬ AtEach (Rounds.call addUp) (RoundLaw 31 addUp) (Rounds.start (.base ()) 31 ())
        [⟨.val (.base ()) (5 : Nat), 0⟩] := by
  refine ⟨by decide, fun h => ?_⟩
  exact (atEach_cons.1 h).1.defined .floatToInt (response_undefined
    (roundInv_start (by decide) ()).collected rfl (by decide) rfl)

theorem roundLaw_iff_two :
    AtEach (Rounds.call addUp) (RoundLaw 2 addUp) (Rounds.start (.base ()) 2 ()) twoDeliveries ↔
      2 ≤ 30 ∨ ∀ d ∈ twoDeliveries, d.input.type ≠ .ty (.base ()) :=
  roundLaw_iff (by decide) (by decide) addUp () twoDeliveries (by simp [twoDeliveries])

end PipelineTools.FlowEngine
