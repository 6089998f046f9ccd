import PipelineTools.FlowEngine.ArrivalOrder

/-!
# Inputs of an aggregator and its output type

The values an `Aggregator<In, Out>` has received wait in a map with elements of type `Out`: each is
converted to `Out` when it is stored and back to `In` when the round is collected. An aggregator
with output type `Out` goes through the same states as one with output type `In` that gets the same
calls, up to the conversion of what is in the map (`processAny_mapValues`, `simulates_run`). So what
its `process` gets are the images of the values that the other one's gets.
-/

set_option autoImplicit false

namespace PipelineTools.FlowEngine

open PipelineTools.Library

variable {κ : Type} {β : κ → Type} {σ ε : Type}

/-- The aggregator with all the values in its map converted. -/
def Aggregator.mapValues {V W : Type} (f : V → W) (agg : Aggregator V) : Aggregator W where
  state := agg.state
  producerCount := agg.producerCount
  latest := agg.latest.mapNodes fun _ => f

theorem Aggregator.store_mapValues {V W : Type} (f : V → W) (agg : Aggregator V)
    (producerId : Nat) (idx : BitVec 64) (v : V) :
    (agg.mapValues f).store producerId idx (f v) = (agg.store producerId idx v).mapValues f := by
  simp only [Aggregator.store, Aggregator.mapValues]
  congr 1
  exact UnorderedMap.insert_mapNodes (fun _ => f) agg.latest producerId v

theorem Aggregator.values_mapValues {V W : Type} (f : V → W) (agg : Aggregator V) :
    (agg.mapValues f).latest.values = agg.latest.values.map f := by
  simp [Aggregator.mapValues, UnorderedMap.values, UnorderedMap.mapNodes, Function.comp_def]

variable [DecidableEq κ] {inp out : Ty κ} {toOut : inp.Val β → out.Val β}
  {toIn : out.Val β → inp.Val β}

/-- Two calls that get to `process` or do not, and if they do, the arguments of the first are the
images of those of the second. -/
inductive SameCall (conv : inp.Val β → inp.Val β) :
    Option (Call β ε) → Option (Call β ε) → Prop where
  | silent : SameCall conv none none
  | both {vs : List (inp.Val β)} {ret ret' : Ret β ε} :
      SameCall conv (some ⟨vs.map fun v => .val inp (conv v), ret⟩)
        (some ⟨vs.map (Any.val inp), ret'⟩)

omit [DecidableEq κ] in
/-- The end of a round calls `process` on what is collected. -/
theorem call_complete (toIn : out.Val β → inp.Val β)
    (process : List (inp.Val β) → Process σ ε (out.Val β)) (agg : Aggregator (out.Val β)) (u : σ) :
    ∃ ret, (agg.complete inp out toIn process u).1.call =
      some ⟨(agg.latest.values.map toIn).map (Any.val inp), ret⟩ := by
  obtain ⟨⟨ret, hcall⟩, -⟩ := pack_cases ((agg.latest.values.map toIn).map (Any.val inp)) out .empty
    (process (agg.latest.values.map toIn) u)
  exact ⟨ret, hcall⟩

omit [DecidableEq κ] in
theorem sameCall_complete (process : List (inp.Val β) → Process σ ε (out.Val β))
    (process' : List (inp.Val β) → Process σ ε (inp.Val β)) (agg : Aggregator (inp.Val β))
    (u u' : σ) :
    SameCall (toIn ∘ toOut) ((agg.mapValues toOut).complete inp out toIn process u).1.call
      (agg.complete inp inp id process' u').1.call := by
  obtain ⟨ret, hcall⟩ := call_complete toIn process (agg.mapValues toOut) u
  obtain ⟨ret', hcall'⟩ := call_complete id process' agg u'
  rw [hcall, hcall', Aggregator.values_mapValues, List.map_id, List.map_map, List.map_map]
  exact .both

/-- One call on the aggregator with output type `out` and on the one with output type `inp`. -/
theorem processAny_mapValues (process : List (inp.Val β) → Process σ ε (out.Val β))
    (process' : List (inp.Val β) → Process σ ε (inp.Val β)) (agg : Aggregator (inp.Val β))
    (a : Any β) (producerId : Nat) (u u' : σ) :
    SameCall (toIn ∘ toOut)
        ((agg.mapValues toOut).processAny inp out toOut toIn process a producerId u).1.call
        (agg.processAny inp inp id id process' a producerId u').1.call ∧
      ((agg.mapValues toOut).processAny inp out toOut toIn process a producerId u).2.1 =
        (agg.processAny inp inp id id process' a producerId u').2.1.mapValues toOut := by
  simp only [Aggregator.processAny]
  cases hmask : producerMask producerId with
  | none => exact ⟨.silent, rfl⟩
  | some idx =>
    simp only
    have hstate : (agg.mapValues toOut).state = agg.state := rfl
    have hcount : (agg.mapValues toOut).producerCount = agg.producerCount := rfl
    rw [hstate, hcount]
    by_cases hbit : agg.state &&& idx ≠ 0
    · rw [if_pos hbit, if_pos hbit]
      exact ⟨.silent, rfl⟩
    · rw [if_neg hbit, if_neg hbit]
      cases hcast : anyCastWithInfo ε inp a with
      | error e => exact ⟨.silent, rfl⟩
      | ok v =>
        simp only [id, Aggregator.store_mapValues]
        cases hfull : fullMask agg.producerCount with
        | none => exact ⟨.silent, rfl⟩
        | some full =>
          simp only
          have hstored : ((agg.store producerId idx v).mapValues toOut).state =
              (agg.store producerId idx v).state := rfl
          rw [hstored]
          by_cases hst : (agg.store producerId idx v).state = full
          · rw [if_pos hst, if_pos hst]
            exact ⟨sameCall_complete process process' _ u u', rfl⟩
          · rw [if_neg hst, if_neg hst]
            exact ⟨.silent, rfl⟩

/-! ## Runs -/

section Runs

variable (toOut toIn) (process : List (inp.Val β) → Process σ ε (out.Val β))

/-- What the call `d` returns, and the aggregator and user state after it. -/
def Rounds.responseVia (s : Rounds out β σ) (d : Delivery β) :
    Outcome β ε × Aggregator (out.Val β) × σ :=
  s.agg.processAny inp out toOut toIn process d.input d.producerId s.user

/-- The call `d`; an invocation of `process` starts a new round. -/
def Rounds.callVia (s : Rounds out β σ) (d : Delivery β) : Rounds out β σ where
  agg := (s.responseVia toOut toIn process d).2.1
  user := (s.responseVia toOut toIn process d).2.2
  since := if (s.responseVia toOut toIn process d).1.call.isSome then [] else s.since ++ [d]

/-- The state after the calls `ds` on an aggregator with `n` producers. -/
def stateVia (n : Nat) (u : σ) (ds : List (Delivery β)) : Rounds out β σ :=
  ds.foldl (Rounds.callVia toOut toIn process) (Rounds.start out n u)

/-- What `process` is handed by the call `d` after the calls `ds`, if it is called. -/
def argsVia (n : Nat) (u : σ) (ds : List (Delivery β)) (d : Delivery β) : Option (List (Any β)) :=
  ((stateVia toOut toIn process n u ds).responseVia toOut toIn process d).1.call.map Call.args

end Runs

/-- The two aggregators are in the same state up to conversion, and in the same round. -/
structure Simulates (toOut : inp.Val β → out.Val β) (s : Rounds out β σ) (s' : Rounds inp β σ) :
    Prop where
  agg : s.agg = s'.agg.mapValues toOut
  since : s.since = s'.since

variable {process : List (inp.Val β) → Process σ ε (out.Val β)}
  {process' : List (inp.Val β) → Process σ ε (inp.Val β)}

omit [DecidableEq κ] in
theorem SameCall.isSome_eq {conv : inp.Val β → inp.Val β} {c c' : Option (Call β ε)}
    (h : SameCall conv c c') : c.isSome = c'.isSome := by
  cases h <;> rfl

variable (toIn process process') in
theorem Simulates.sameCall {s : Rounds out β σ} {s' : Rounds inp β σ} (h : Simulates toOut s s')
    (d : Delivery β) :
    SameCall (toIn ∘ toOut) (s.responseVia toOut toIn process d).1.call
      (s'.responseVia id id process' d).1.call := by
  rw [Rounds.responseVia, h.agg]
  exact (processAny_mapValues process process' s'.agg d.input d.producerId s.user s'.user).1

omit [DecidableEq κ] in
theorem simulates_start (n : Nat) (u : σ) :
    Simulates toOut (Rounds.start out n u : Rounds out β σ) (Rounds.start inp n u) where
  agg := by
    rw [Rounds.start, Rounds.start, registered_eq, registered_eq]
    rfl
  since := rfl

theorem Simulates.call {s : Rounds out β σ} {s' : Rounds inp β σ} (h : Simulates toOut s s')
    (d : Delivery β) :
    Simulates toOut (s.callVia toOut toIn process d) (s'.callVia id id process' d) where
  agg := by
    rw [Rounds.callVia, Rounds.responseVia, h.agg]
    exact (processAny_mapValues process process' s'.agg d.input d.producerId s.user s'.user).2
  since := by
    have hcall := h.sameCall toIn process process' d
    rw [Rounds.callVia, Rounds.callVia]
    simp only
    rw [hcall.isSome_eq, h.since]

/-- The simulation holds after all calls. -/
theorem simulates_run (n : Nat) (u : σ) (ds : List (Delivery β)) :
    Simulates toOut (stateVia toOut toIn process n u ds) (stateVia id id process' n u ds) := by
  induction ds using List.reverseRecOn with
  | nil => exact simulates_start n u
  | append_singleton ds d ih =>
    rw [stateVia, stateVia, List.foldl_concat, List.foldl_concat]
    exact ih.call d

variable (toOut toIn process process') in
/-- What `process` is handed, by either aggregator. -/
theorem argsVia_cases (n : Nat) (u : σ) (ds : List (Delivery β)) (d : Delivery β) :
    (argsVia toOut toIn process n u ds d = none ∧ argsVia id id process' n u ds d = none) ∨
      ∃ vs : List (inp.Val β),
        argsVia toOut toIn process n u ds d = some (vs.map fun v => .val inp (toIn (toOut v))) ∧
          argsVia id id process' n u ds d = some (vs.map (Any.val inp)) := by
  have hsim : Simulates toOut (stateVia toOut toIn process n u ds)
      (stateVia id id process' n u ds) := simulates_run n u ds
  have hcall := hsim.sameCall toIn process process' d
  rw [argsVia, argsVia]
  generalize ((stateVia toOut toIn process n u ds).responseVia toOut toIn process d).1.call = c
    at hcall
  generalize ((stateVia id id process' n u ds).responseVia id id process' d).1.call = c' at hcall
  cases hcall with
  | silent => exact .inl ⟨rfl, rfl⟩
  | @both vs ret ret' => exact .inr ⟨vs, rfl, rfl⟩

/-! ## The rounds of the aggregator with output type `In` -/

/-- Up to 30 producers, mask and map hold the current round after every call. -/
theorem roundInv_stateVia {n : Nat} (hpos : 1 ≤ n) (hn : n ≤ 30) (u : σ) {ds : List (Delivery β)}
    (hds : ∀ x ∈ ds, x.producerId < n) : RoundInv n (stateVia id id process' n u ds) := by
  induction ds using List.reverseRecOn with
  | nil => exact roundInv_start hpos u
  | append_singleton ds d ih =>
    rw [List.forall_mem_append, List.forall_mem_singleton] at hds
    rw [stateVia, List.foldl_concat]
    exact (roundLaw_step hpos (by omega) (ih hds.1) hds.2 (.inl hn)).2

theorem roundLaw_stateVia {n : Nat} (hpos : 1 ≤ n) (hn : n ≤ 30) (u : σ) {ds : List (Delivery β)}
    (hds : ∀ x ∈ ds, x.producerId < n) {d : Delivery β} (hd : d.producerId < n) :
    RoundLaw n process' (stateVia id id process' n u ds) d :=
  (roundLaw_step hpos (by omega) (roundInv_stateVia hpos hn u hds) hd (.inl hn)).1

/-- `process` is handed the values of the round. -/
theorem perm_of_argsVia {n : Nat} (hpos : 1 ≤ n) (hn : n ≤ 30) (u : σ) {ds : List (Delivery β)}
    (hds : ∀ x ∈ ds, x.producerId < n) {d : Delivery β} (hd : d.producerId < n)
    {args : List (Any β)} (hargs : argsVia id id process' n u ds d = some args) :
    args.length = n ∧
      args.Perm ((roundValues inp n ((stateVia id id process' n u ds).since ++ [d])).map
        (Any.val inp)) := by
  rw [argsVia, Option.map_eq_some_iff] at hargs
  obtain ⟨c, hc, rfl⟩ := hargs
  exact (roundLaw_stateVia hpos hn u hds hd).args c hc

omit [DecidableEq κ] in
theorem deliveriesOf_succ (v : inp.Val β) (k : Nat) :
    deliveriesOf (fun _ => v) (List.range (k + 1)) =
      deliveriesOf (fun _ => v) (List.range k) ++ [⟨.val inp v, k⟩] := by
  rw [List.range_succ, deliveriesOf, List.map_append]
  rfl

omit [DecidableEq κ] in
theorem producerId_lt_of_mem {v : inp.Val β} {k : Nat} {x : Delivery β}
    (hx : x ∈ deliveriesOf (fun _ => v) (List.range k)) : x.producerId < k := by
  obtain ⟨id, hid, rfl⟩ := List.mem_map.1 hx
  exact List.mem_range.1 hid

/-- While a producer has not delivered, the round goes on. -/
theorem since_deliveriesOf {n : Nat} (hpos : 1 ≤ n) (hn : n ≤ 30) (u : σ) (v : inp.Val β) {k : Nat}
    (hk : k < n) :
    (stateVia id id process' n u (deliveriesOf (fun _ => v) (List.range k))).since =
      deliveriesOf (fun _ => v) (List.range k) := by
  induction k with
  | zero => rfl
  | succ k ih =>
    have hkn : k < n := by omega
    have hsince := ih hkn
    have hlaw : RoundLaw n process'
        (stateVia id id process' n u (deliveriesOf (fun _ => v) (List.range k)))
        ⟨.val inp v, k⟩ :=
      roundLaw_stateVia hpos hn u
        (fun x hx => Nat.lt_trans (producerId_lt_of_mem hx) hkn) hkn
    have hopen : ¬Covers inp n (deliveriesOf (fun _ => v) (List.range (k + 1))) := by
      rw [covers_deliveriesOf]
      intro hall
      exact absurd (List.mem_range.1 (hall (k + 1) hk)) (lt_irrefl _)
    have hsilent := hlaw.invoked_iff.not.2 (by
      rw [hsince, ← deliveriesOf_succ]
      exact fun h => hopen h.2)
    rw [deliveriesOf_succ, stateVia, List.foldl_concat, Rounds.callVia]
    exact (if_neg hsilent).trans (congrArg (· ++ [(⟨.val inp v, k⟩ : Delivery β)]) hsince)

/-- The last producer completes the round. -/
theorem argsVia_deliveriesOf {n : Nat} (hn : n + 1 ≤ 30) (u : σ) (v : inp.Val β) :
    ∃ args, argsVia id id process' (n + 1) u (deliveriesOf (fun _ => v) (List.range n))
      ⟨.val inp v, n⟩ = some args := by
  have hlaw : RoundLaw (n + 1) process'
      (stateVia id id process' (n + 1) u (deliveriesOf (fun _ => v) (List.range n)))
      ⟨.val inp v, n⟩ :=
    roundLaw_stateVia (by omega) hn u
      (fun x hx => Nat.lt_trans (producerId_lt_of_mem hx) (Nat.lt_succ_self n))
      (Nat.lt_succ_self n)
  have hinvoked := hlaw.invoked_iff.2 (by
    rw [since_deliveriesOf (by omega) hn u v (Nat.lt_succ_self n), ← deliveriesOf_succ,
      covers_deliveriesOf, covers_deliveriesOf]
    constructor
    · intro hall
      exact absurd (List.mem_range.1 (hall n (Nat.lt_succ_self n))) (lt_irrefl n)
    · exact fun i hi => List.mem_range.2 hi)
  obtain ⟨c, hc⟩ := Option.isSome_iff_exists.1 hinvoked
  refine ⟨c.args, ?_⟩
  rw [argsVia, Option.map_eq_some_iff]
  exact ⟨c, hc, rfl⟩

/-- The round in which every producer delivers `v` has no other values. -/
theorem eq_of_mem_map_roundValues {n k : Nat} {v w : inp.Val β}
    (h : .val inp w ∈ (roundValues inp n (deliveriesOf (fun _ => v) (List.range k))).map
      (Any.val inp)) : w = v := by
  obtain ⟨x, hx, heq⟩ := List.mem_map.1 h
  cases heq
  obtain ⟨id, -, hid⟩ := List.mem_filterMap.1 hx
  rw [firstTyped_deliveriesOf] at hid
  by_cases hmem : id ∈ List.range k
  · rw [if_pos hmem] at hid
    exact (Option.some.inj hid).symm
  · rw [if_neg hmem] at hid
    cases hid

/-! ## The mask arithmetic -/

/-- No call registers a producer. -/
theorem producerCount_stateVia (n : Nat) (u : σ) (ds : List (Delivery β)) :
    (stateVia toOut toIn process n u ds).agg.producerCount = n := by
  induction ds using List.reverseRecOn with
  | nil =>
    rw [stateVia, List.foldl_nil, Rounds.start, registered_eq]
  | append_singleton ds d ih =>
    rw [stateVia, List.foldl_concat]
    exact (producerCount_processAny _ d.input d.producerId _).trans ih

/-- A call is defined if the masks that it computes are. -/
theorem defined_processAny {agg : Aggregator (out.Val β)} {a : Any β} {producerId : Nat}
    (hid : producerId < 32) (hcount : agg.producerCount ≤ 30 ∨ anyCast inp a = none) (u : σ)
    (f : Fault) :
    (agg.processAny inp out toOut toIn process a producerId u).1.result ≠
      .error (.undefined f) := by
  have hstep := Aggregator.step_processAny inp out toOut toIn process agg a producerId u
  generalize agg.processAny inp out toOut toIn process a producerId u = r at hstep
  cases hstep with
  | shift hmask =>
    have hall : ∀ id < 32, producerMask id ≠ none := by decide
    exact absurd hmask (hall producerId hid)
  | repeated _ _ => exact nofun
  | badCast _ _ hcast =>
    obtain ⟨-, rfl⟩ := anyCastWithInfo_eq_error_iff.1 hcast
    exact nofun
  | overflow _ _ ha hfull =>
    rcases hcount with hle | hnone
    · rw [fullMask_eq hle] at hfull
      cases hfull
    · rw [ha, anyCast_val_self] at hnone
      cases hnone
  | stored _ _ _ _ _ => exact nofun
  | @completed idx full v _ _ _ _ _ =>
    intro hf
    obtain ⟨-, hresult⟩ := pack_cases
      (((agg.store producerId idx (toOut v)).latest.values.map toIn).map (Any.val inp)) out .empty
      (process ((agg.store producerId idx (toOut v)).latest.values.map toIn) u)
    simp only [Aggregator.complete] at hf
    rcases hresult with ⟨b, hb⟩ | ⟨e, he⟩
    · rw [hb] at hf
      cases hf
    · rw [he] at hf
      cases hf

/-- From 31 producers on, `process` is never called. -/
theorem argsVia_of_large {n : Nat} (hn : 31 ≤ n) (u : σ) (ds : List (Delivery β)) (d : Delivery β) :
    argsVia toOut toIn process n u ds d = none := by
  have hfull : fullMask (stateVia toOut toIn process n u ds).agg.producerCount = none := by
    rw [producerCount_stateVia, fullMask_eq_none_of_le hn]
  rw [argsVia, Rounds.responseVia]
  generalize stateVia toOut toIn process n u ds = s at hfull
  have hstep := Aggregator.step_processAny inp out toOut toIn process s.agg d.input d.producerId
    s.user
  generalize s.agg.processAny inp out toOut toIn process d.input d.producerId s.user = r at hstep
  cases hstep with
  | shift _ => rfl
  | repeated _ _ => rfl
  | badCast _ _ _ => rfl
  | overflow _ _ _ _ => rfl
  | stored _ _ _ _ _ => rfl
  | completed _ _ _ hsome _ =>
    rw [hfull] at hsome
    cases hsome

/-! ## When the inputs are preserved -/

section Preserved

variable (toOut toIn process process') (n : Nat) (u : σ)

/-- No run gets to a call that ends in undefined behaviour. -/
def DefinedRuns : Prop :=
  ∀ ds d, (∀ x ∈ ds ++ [d], x.producerId < n) → ∀ f,
    ((stateVia toOut toIn process n u ds).responseVia toOut toIn process d).1.result ≠
      .error (.undefined f)

/-- In every run the calls are defined, and each round that is completed hands over the values
delivered in it. -/
structure PreservesInputs : Prop where
  defined : DefinedRuns toOut toIn process n u
  handedOver : ∀ ds d, (∀ x ∈ ds ++ [d], x.producerId < n) →
    ∀ args, argsVia toOut toIn process n u ds d = some args →
      args.Perm ((roundValues inp n ((stateVia toOut toIn process n u ds).since ++ [d])).map
        (Any.val inp))

/-- In every run the calls are defined, and each round that is completed hands over what it would
with output type `In`. -/
structure IndependentOfOut : Prop where
  defined : DefinedRuns toOut toIn process n u
  sameArgs : ∀ ds d, (∀ x ∈ ds ++ [d], x.producerId < n) →
    argsVia toOut toIn process n u ds d = argsVia id id process' n u ds d

/-- The aggregator has no producers; or there are at most 30 of them and every value of type `In`
survives the conversions; or there is no value of type `In`, and the producers' own masks are
defined. -/
def ValuesSurvive : Prop :=
  n = 0 ∨ (n ≤ 30 ∧ ∀ v, toIn (toOut v) = v) ∨ (n ≤ 32 ∧ IsEmpty (inp.Val β))

variable {n u}

omit [DecidableEq κ] in
theorem map_conv_eq (hconv : ∀ v, toIn (toOut v) = v) (vs : List (inp.Val β)) :
    (vs.map fun v => (Any.val inp (toIn (toOut v)) : Any β)) = vs.map (Any.val inp) := by
  apply List.map_congr_left
  intro v _
  rw [hconv v]

theorem definedRuns_of_survive (h : ValuesSurvive toOut toIn n) :
    DefinedRuns toOut toIn process n u := by
  intro ds d hids f
  have hid : d.producerId < n := hids d List.mem_concat_self
  have hcount : (stateVia toOut toIn process n u ds).agg.producerCount = n :=
    producerCount_stateVia n u ds
  rcases h with rfl | ⟨hn, -⟩ | ⟨hn, hempty⟩
  · exact absurd hid (Nat.not_lt_zero _)
  · exact defined_processAny (by omega) (.inl (by omega)) _ f
  -- there is no value to deliver
  · refine defined_processAny (by omega) (.inr ?_) _ f
    cases hcast : anyCast inp d.input with
    | none => rfl
    | some v => exact hempty.elim v

theorem independentOfOut_of_survive (h : ValuesSurvive toOut toIn n) :
    IndependentOfOut toOut toIn process process' n u where
  defined := definedRuns_of_survive toOut toIn process h
  sameArgs := by
    intro ds d hids
    have hvalues : n = 0 ∨ ∀ v, toIn (toOut v) = v := by
      rcases h with hzero | ⟨-, hconv⟩ | ⟨-, hempty⟩
      · exact .inl hzero
      · exact .inr hconv
      · exact .inr fun v => hempty.elim v
    rcases hvalues with rfl | hconv
    · exact absurd (hids d List.mem_concat_self) (Nat.not_lt_zero _)
    · rcases argsVia_cases toOut toIn process process' n u ds d with ⟨h, h'⟩ | ⟨vs, h, h'⟩
      · rw [h, h']
      · rw [h, h', map_conv_eq toOut toIn hconv]

/-- Both aggregators are in the same round. -/
theorem since_stateVia (ds : List (Delivery β)) :
    (stateVia toOut toIn process n u ds).since = (stateVia id id process' n u ds).since := by
  have hsim : Simulates toOut (stateVia toOut toIn process n u ds)
      (stateVia id id process' n u ds) := simulates_run n u ds
  exact hsim.since

/-- What does not depend on the output type are the values delivered. -/
theorem preservesInputs_of_independentOfOut
    (h : IndependentOfOut toOut toIn process process' n u) :
    PreservesInputs toOut toIn process n u where
  defined := h.defined
  handedOver := by
    intro ds d hids args hargs
    rw [h.sameArgs ds d hids] at hargs
    rw [since_stateVia toOut toIn process process']
    rw [List.forall_mem_append, List.forall_mem_singleton] at hids
    by_cases hn : n ≤ 30
    · exact (perm_of_argsVia (by omega) hn u hids.1 hids.2 hargs).2
    · rw [argsVia_of_large (by omega)] at hargs
      cases hargs

/-- With 31 producers or more, a value of type `In` or a producer from the 33rd on runs into
undefined behaviour. -/
theorem isEmpty_of_definedRuns (hn : 31 ≤ n) (h : DefinedRuns toOut toIn process n u) :
    n ≤ 32 ∧ IsEmpty (inp.Val β) := by
  constructor
  · by_contra hlt
    have hids : ∀ x ∈ [] ++ [(⟨.nullopt, 32⟩ : Delivery β)], x.producerId < n := by
      rw [List.nil_append, List.forall_mem_singleton]
      show 32 < n
      omega
    have hmask : producerMask 32 = none := by decide
    refine h [] ⟨.nullopt, 32⟩ hids .shift ?_
    simp only [Rounds.responseVia, Aggregator.processAny, hmask]
  · refine ⟨fun v => ?_⟩
    have hids : ∀ x ∈ [] ++ [(⟨.val inp v, 0⟩ : Delivery β)], x.producerId < n := by
      rw [List.nil_append, List.forall_mem_singleton]
      show 0 < n
      omega
    have hstart : (stateVia toOut toIn process n u []).agg = { producerCount := n } :=
      registered_eq n
    refine h [] ⟨.val inp v, 0⟩ hids .floatToInt ?_
    rw [Rounds.responseVia, hstart]
    rw [Aggregator.processAny_of_overflow (producerMask_eq (Nat.zero_lt_succ 30))
      BitVec.zero_and (fullMask_eq_none_of_le hn)]

/-- A round in which every producer delivers `v` shows what becomes of `v`. -/
theorem eq_of_handedOver (hpos : 1 ≤ n) (hn : n ≤ 30) (h : PreservesInputs toOut toIn process n u)
    (v : inp.Val β) : toIn (toOut v) = v := by
  obtain ⟨m, rfl⟩ : ∃ m, n = m + 1 := ⟨n - 1, by omega⟩
  let process' : List (inp.Val β) → Process σ ε (inp.Val β) := fun _ u => (.ok none, u)
  have hround : ∃ args, argsVia id id process' (m + 1) u
      (deliveriesOf (fun _ => v) (List.range m)) ⟨.val inp v, m⟩ = some args :=
    argsVia_deliveriesOf hn u v
  obtain ⟨args, hargs⟩ := hround
  have hids : ∀ x ∈ deliveriesOf (fun _ => v) (List.range m) ++ [⟨.val inp v, m⟩],
      x.producerId < m + 1 := by
    rw [← deliveriesOf_succ]
    exact fun x hx => producerId_lt_of_mem hx
  rcases argsVia_cases toOut toIn process process' (m + 1) u
      (deliveriesOf (fun _ => v) (List.range m)) ⟨.val inp v, m⟩ with ⟨-, hnone⟩ | ⟨vs, hvs, hvs'⟩
  · rw [hnone] at hargs
    cases hargs
  · rw [List.forall_mem_append, List.forall_mem_singleton] at hids
    obtain ⟨hlen, hperm'⟩ := perm_of_argsVia (by omega) hn u hids.1 hids.2 hvs'
    have hperm := h.handedOver _ _ (List.forall_mem_append.2
      ⟨hids.1, List.forall_mem_singleton.2 hids.2⟩) _ hvs
    rw [since_stateVia toOut toIn process process',
      since_deliveriesOf (by omega) hn u v (Nat.lt_succ_self m), ← deliveriesOf_succ] at hperm
    rw [since_deliveriesOf (by omega) hn u v (Nat.lt_succ_self m), ← deliveriesOf_succ] at hperm'
    -- some value is handed over, and only `v` was delivered
    rw [List.length_map] at hlen
    obtain ⟨w, hw⟩ := List.exists_mem_of_length_pos (l := vs) (by omega)
    have hwv : w = v := eq_of_mem_map_roundValues (hperm'.mem_iff.1 (List.mem_map_of_mem hw))
    have himage : toIn (toOut w) = v :=
      eq_of_mem_map_roundValues (hperm.mem_iff.1 (List.mem_map.2 ⟨w, hw, rfl⟩))
    rw [hwv] at himage
    exact himage

theorem survive_of_preservesInputs (h : PreservesInputs toOut toIn process n u) :
    ValuesSurvive toOut toIn n := by
  by_cases hzero : n = 0
  · exact .inl hzero
  · right
    by_cases hn : n ≤ 30
    · exact .inl ⟨hn, eq_of_handedOver toOut toIn process (by omega) hn h⟩
    · exact .inr (isEmpty_of_definedRuns toOut toIn process (by omega) h.defined)

end Preserved

/-- With any pair of types, the inputs are preserved, and do not depend on the output type, exactly
when every value of type `In` survives the conversions and the masks of the producers fit `int`, or
there is nothing to deliver. -/
theorem preservesInputs_iff (toOut : inp.Val β → out.Val β) (toIn : out.Val β → inp.Val β)
    (process : List (inp.Val β) → Process σ ε (out.Val β))
    (process' : List (inp.Val β) → Process σ ε (inp.Val β)) (n : Nat) (u : σ) :
    (PreservesInputs toOut toIn process n u ↔ ValuesSurvive toOut toIn n) ∧
      (IndependentOfOut toOut toIn process process' n u ↔ ValuesSurvive toOut toIn n) := by
  have hindependent : ValuesSurvive toOut toIn n →
      IndependentOfOut toOut toIn process process' n u :=
    independentOfOut_of_survive toOut toIn process process'
  have hpreserves : IndependentOfOut toOut toIn process process' n u →
      PreservesInputs toOut toIn process n u :=
    preservesInputs_of_independentOfOut toOut toIn process process'
  have hsurvive : PreservesInputs toOut toIn process n u → ValuesSurvive toOut toIn n :=
    survive_of_preservesInputs toOut toIn process
  constructor
  · exact ⟨hsurvive, fun h => hpreserves (hindependent h)⟩
  · exact ⟨fun h => hsurvive (hpreserves h), hindependent⟩

/-- The types `int` and `bool`. -/
def intOrBool : Bool → Type
  | true => Int
  | false => Bool

/-- The conversion of `int` to `bool`. -/
def intToBool : (Ty.base true).Val intOrBool → (Ty.base false).Val intOrBool :=
  fun (v : Int) => decide (v ≠ 0)

/-- The conversion of `bool` to `int`. -/
def boolToInt : (Ty.base false).Val intOrBool → (Ty.base true).Val intOrBool :=
  fun (b : Bool) => (if b = true then 1 else 0 : Int)

/-- A `process` that returns nothing. -/
def nothing (_ : List ((Ty.base true).Val intOrBool)) :
    Process Unit Empty ((Ty.base false).Val intOrBool) :=
  fun u => (.ok none, u)

/-- The only producer delivers 7. -/
def seven : Delivery intOrBool := ⟨.val (.base true) (7 : Int), 0⟩

/-- An aggregator that takes `int` and gives `bool` hands over 1 for 7. -/
theorem not_preservesInputs_bool : ¬PreservesInputs intToBool boolToInt nothing 1 () := by
  intro h
  have hargs : argsVia intToBool boolToInt nothing 1 () [] seven =
      some [.val (.base true) (1 : Int)] := rfl
  have hperm : [Any.val (β := intOrBool) (.base true) (1 : Int)].Perm
      [.val (.base true) (7 : Int)] :=
    h.handedOver [] seven (by decide) _ hargs
  have hmem := hperm.mem_iff.1 (List.mem_singleton.2 rfl)
  rw [List.mem_singleton] at hmem
  cases hmem

end PipelineTools.FlowEngine
