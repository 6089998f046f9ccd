import PipelineTools.FlowEngine.AggregatePlan

/-!
# One aggregation per execute

In a pipeline of `m` sources with an aggregator as first node, the sources run one after the other
and each delivers one value to the aggregator. The deliveries of all but the last source are stored
(`execute_open`). The last one completes the round: `process` is called with the values of this
execute, and the aggregator is empty before the blocks behind it run (`execute_last`). Whatever
these do, they do not reach the aggregator again (`sound_row`).

`oneAggregation_iff` says up to which number of sources this is what the code does: 30. With 31
sources the mask of all producers does not fit into `int`, and the first delivery runs into an
undefined conversion.
-/

set_option autoImplicit false

namespace PipelineTools.FlowEngine

open PipelineTools.Library

variable {ι κ : Type} {β : κ → Type} {σ ε : Type}

/-- The machine after `K` executes. -/
def System.executed [DecidableEq ι] [DecidableEq κ] (S : System ι β σ ε) (fuel K : Nat) :
    Machine ι β σ ε :=
  (S.run fuel (List.replicate K .execute)).2.machine

/-- The value that a call has returned, if it has returned one. -/
def Call.returned (c : Call β ε) : Option (Any β) :=
  match c.ret with
  | .value v => some v
  | _ => none

/-- The call returned or threw an exception. -/
def Reply.Defined : Reply κ ε → Prop
  | .stopped e => ∃ x, e = .threw x
  | _ => True

namespace AggregatePlan

variable [DecidableEq ι]

/-- The calls of the sources. -/
def sourceCalls (p : AggregatePlan ι β σ) (events : List (Event ι β ε)) : List (Event ι β ε) :=
  events.filter fun e => e.block ∈ p.sourceIds

/-- The values that the sources have produced. -/
def produced (p : AggregatePlan ι β σ) (events : List (Event ι β ε)) : List (Any β) :=
  (p.sourceCalls events).filterMap fun e => e.call.returned

/-- The calls of the aggregator's `process`. -/
def collections (p : AggregatePlan ι β σ) (events : List (Event ι β ε)) : List (Event ι β ε) :=
  events.filter fun e => e.block = p.aggregator

/-- Each source is called once, and the aggregator's `process` once, with exactly the values that
the sources have produced. -/
structure CollectsRound (p : AggregatePlan ι β σ) (events : List (Event ι β ε)) : Prop where
  sources : (p.sourceCalls events).map Event.block = p.sourceIds
  once : ∃ e, p.collections events = [e] ∧ e.call.args.length = p.sources.length ∧
    e.call.args.Perm (p.produced events)

variable [DecidableEq κ]

/-- The sources have the ids `0`, `1`, …, no execute runs into undefined behaviour, every execute
collects its own values once, and between executes the aggregator is empty. -/
structure OneAggregation (p : AggregatePlan ι β σ) (fuel : Nat) (S : System ι β σ ε) : Prop where
  ids : ∀ k src, p.sources[k]? = some src →
    (S.machine.heap src.1).nextNodes = [(p.aggregator, k)]
  defined : ∀ K, ∀ reply ∈ (S.run fuel (List.replicate K .execute)).1, reply.Defined
  collected : ∀ K, ∃ events, (S.executed fuel (K + 1)).log = (S.executed fuel K).log ++ events ∧
    p.CollectsRound events
  invoked : ∀ K, (p.collections (S.executed fuel K).log).length = K
  settled : ∀ K, ∃ agg, ((S.executed fuel K).heap p.aggregator).obj =
    plainAggregator p.type p.process agg ∧ agg.state = 0 ∧ agg.latest.nodes = []

end AggregatePlan

/-! ## Deliveries to the aggregator -/

section Deliver

variable [DecidableEq κ] {t : Ty κ} {process : List (t.Val β) → Process σ ε (t.Val β)} {m k : Nat}
  {agg : Aggregator (t.Val β)} {l : List (Nat × t.Val β)}

/-- The deliveries of the producers before `k`. -/
def FirstOf {V : Type} (k : Nat) (l : List (Nat × V)) : Prop := l.map Prod.fst = List.range k

omit [DecidableEq κ] in
theorem FirstOf.lt {V : Type} {l : List (Nat × V)} (h : FirstOf k l) : ∀ d ∈ l, d.1 < k := by
  intro d hd
  have hmem : d.1 ∈ l.map Prod.fst := List.mem_map_of_mem hd
  rw [h] at hmem
  exact List.mem_range.1 hmem

theorem FirstOf.concat {V : Type} {l : List (Nat × V)} (h : FirstOf k l) (v : V) :
    FirstOf (k + 1) (l ++ [(k, v)]) := by
  rw [FirstOf, List.map_append, h, List.range_succ]
  rfl

theorem FirstOf.length {V : Type} {l : List (Nat × V)} (h : FirstOf k l) : l.length = k := by
  have hlength := congrArg List.length h
  rwa [List.length_map, List.length_range] at hlength

/-- A delivery up to the completion test. -/
theorem processAny_delivery (h : HoldsRound id m agg l) (hm : m ≤ 30) (hk : k < m)
    (hl : FirstOf k l) (v : t.Val β) (u : σ) :
    agg.processAny t t id id process (.val t v) k u =
      if k + 1 = m then
        (agg.store k (BitVec.twoPow 64 k) v).complete t t id process u
      else (⟨none, .ok .empty⟩, agg.store k (BitVec.twoPow 64 k) v, u) := by
  have hstore := h.store hm hk hl.lt v
  have hbit : agg.state &&& BitVec.twoPow 64 k = 0 := by
    have hrepeats := h.repeats_eq_false hk hl.lt
    rw [Aggregator.repeats, producerMask_eq (by omega)] at hrepeats
    exact not_not.1 (of_decide_eq_false hrepeats)
  have hfull : (agg.store k (BitVec.twoPow 64 k) v).state = BitVec.ofNat 64 (2 ^ m - 1) ↔
      k + 1 = m := by
    refine (hstore.full_iff hm (lt_of_mem_concat hk hl.lt)).trans ?_
    rw [hl.concat v]
    constructor
    · intro hall
      have hlast := List.mem_range.1 (hall (m - 1) (by omega))
      omega
    · rintro rfl id hid
      exact List.mem_range.2 hid
  rw [Aggregator.processAny, producerMask_eq (by omega)]
  simp only [hbit, ne_eq, not_true_eq_false, if_false, anyCastWithInfo_eq_ok_iff.2 rfl, h.count,
    fullMask_eq hm]
  by_cases hlast : k + 1 = m
  · rw [if_pos hlast]
    exact if_pos (hfull.2 hlast)
  · rw [if_neg hlast]
    exact if_neg fun heq => hlast (hfull.1 heq)

omit [DecidableEq κ] in
/-- A round that is over leaves nothing behind. -/
theorem holds_reset (h : HoldsRound id m agg l) :
    HoldsRound id m agg.reset ([] : List (Nat × t.Val β)) where
  count := h.count
  bits i := by simp [Aggregator.reset]
  nodes := .refl _
  small := nofun

/-- With 31 producers there is no mask of all of them. -/
theorem processAny_overflow (h : HoldsRound id m agg []) (hm : 31 ≤ m) (v : t.Val β) (u : σ) :
    (agg.processAny t t id id process (.val t v) 0 u).1 =
      ⟨none, .error (.undefined .floatToInt)⟩ := by
  have hbit : agg.state &&& BitVec.twoPow 64 0 = 0 := by
    rw [h.state_eq_zero]
    rfl
  have hfull : fullMask agg.producerCount = none := by
    rw [h.count, fullMask_eq_none_of_le hm]
  rw [Aggregator.processAny_of_overflow (producerMask_eq (by decide)) hbit hfull]

omit [DecidableEq κ] in
/-- What a complete round hands to `process`. -/
theorem values_of_holds (h : HoldsRound id m agg l) :
    (agg.latest.values.map fun w => Any.val t w).Perm (l.map fun d => .val t d.2) := by
  have hvalues := (h.nodes.map Prod.snd).map fun w => Any.val t w
  simpa [UnorderedMap.values, Function.comp_def] using hvalues

end Deliver

namespace AggregatePlan

variable [DecidableEq ι] [DecidableEq κ] {p : AggregatePlan ι β σ} {s : Machine ι β σ ε}
  {l : List (Nat × p.type.Val β)} {k fuel depth : Nat}

/-! ## Behind the aggregator -/

section Behind

/-- The calls are calls of blocks behind the aggregator. -/
def Downstream (p : AggregatePlan ι β σ) (events : List (Event ι β ε)) : Prop :=
  ∀ e ∈ events, e.block ∈ p.modules ∨ e.block ∈ p.sinks

/-- Behind the aggregator no block changes, and all that can go wrong is an exception. -/
def behindDiscipline (p : AggregatePlan ι β σ) (h : Heap ι β σ ε) :
    Discipline (Stop κ ε) (Machine ι β σ ε) (Event ι β ε) where
  log := Machine.log
  inv s := s.heap = h
  segment := p.Downstream
  bad _ := False
  fails _ := False
  allowed e := ∃ x, e = .threw x
  segment_nil := fun _ he => absurd he List.not_mem_nil
  segment_append hxs hys := fun e he => (List.mem_append.1 he).elim (hxs e) (hys e)

omit [DecidableEq ι] [DecidableEq κ] in
theorem pack_error {args : List (Any β)} {out : Ty κ} {absent : Any β}
    {r : Except ε (Option (out.Val β)) × σ} {e : Stop κ ε}
    (h : (pack args out absent r).1.result = .error e) : ∃ x, e = .threw x := by
  obtain ⟨⟨x⟩ | ⟨_ | v⟩, u⟩ := r
  · cases h
    exact ⟨_, rfl⟩
  · cases h
  · cases h

omit [DecidableEq ι] in
/-- All that can go wrong in the call of a module is an exception. -/
theorem module_error {inp out : Ty κ} {process : inp.Val β → Process σ ε (out.Val β)} {a : Any β}
    {u : σ} {e : Stop κ ε} (h : (Module.processAny inp out process a u).1.result = .error e) :
    ∃ x, e = .threw x := by
  rw [Module.processAny] at h
  split at h
  · next e' hcast =>
    cases h
    exact anyCastWithInfo_error hcast
  · exact pack_error h

omit [DecidableEq ι] in
/-- All that can go wrong in the call of a sink is an exception. -/
theorem sink_error {inp : Ty κ} {process : inp.Val β → σ → Except ε Unit × σ} {a : Any β} {u : σ}
    {e : Stop κ ε} (h : (Sink.processAny inp process a u).1.result = .error e) :
    ∃ x, e = .threw x := by
  rw [Sink.processAny] at h
  split at h
  · next e' hcast =>
    cases h
    exact anyCastWithInfo_error hcast
  · split at h
    · cases h
    · cases h
      exact ⟨_, rfl⟩

/-- A call of a module or a sink changes no block. -/
theorem sound_call {h : Heap ι β σ ε} (hs : p.Gathering l h) (hheap : s.heap = h) {i : ι}
    (hi : i ∈ p.modules ∨ i ∈ p.sinks) (a : Any β) (producerId : Nat) :
    (behindDiscipline p h).Sound s (processAny depth i a producerId s) := by
  subst hheap
  have hcall : ((s.heap i).obj.processAny a producerId s.user).2.1 = (s.heap i).obj ∧
      ∀ e, ((s.heap i).obj.processAny a producerId s.user).1.result = .error e →
        ∃ x, e = .threw x := by
    rcases hi with hi | hi
    · obtain ⟨inp, out, policy, process, hobj⟩ := hs.modules i hi
      rw [hobj]
      exact ⟨rfl, fun e => module_error⟩
    · obtain ⟨inp, process, hobj⟩ := hs.sinks i hi
      rw [hobj]
      exact ⟨rfl, fun e => sink_error⟩
  obtain ⟨hobj, herror⟩ := hcall
  have hstate := finalState_processAny depth i a producerId s
  rw [hobj, Function.update_eq_self] at hstate
  have hheap : (finalState (processAny depth i a producerId s)).heap = s.heap := by rw [hstate]
  refine ⟨hheap, ?_, ?_⟩
  · refine ⟨_, congrArg Machine.log hstate, ?_, ?_⟩
    · intro e he
      rw [Option.mem_toList] at he
      obtain ⟨c, -, rfl⟩ := Option.mem_map.1 he
      exact hi
    · simp [behindDiscipline]
  · intro e he
    cases hresult : ((s.heap i).obj.processAny a producerId s.user).1.result with
    | ok b =>
      rw [processAny_ok hresult] at he
      cases he
    | error e' =>
      rw [processAny_error hresult] at he
      cases he
      exact herror e hresult

/-- The modules and sinks behind the aggregator pass on what they like, to one another only. -/
theorem sound_row {h : Heap ι β σ ε} (hs : p.Gathering l h) (hsinks : p.sinks ≠ []) (row : List ι) :
    ∀ fuel depth, row.length < fuel → RowInSequence h p.sinks row → (∀ i ∈ row, i ∈ p.modules) →
      ∀ c ∈ rowTargets row p.sinks, ∀ (a : Any β) (s : Machine ι β σ ε), s.heap = h →
        (behindDiscipline p h).Sound s (execute fuel depth c.1 a c.2 s) := by
  -- induction on the modules that are left
  induction row with
  | nil =>
    intro fuel depth hfuel _ _ c hc a s hheap
    obtain ⟨fuel, rfl⟩ : ∃ n, fuel = n + 1 := ⟨fuel - 1, by omega⟩
    obtain ⟨i, hi, rfl⟩ := List.mem_map.1 hc
    obtain ⟨inp, process, hobj⟩ := hs.sinks i hi
    rw [execute_succ, if_pos (by rw [hheap, hobj]; rfl)]
    split
    · exact Discipline.sound_pure () hheap
    · exact Discipline.sound_bind (sound_call hs hheap (.inr hi) a 0)
        fun _ s' _ hs' => Discipline.sound_pure () hs'
  | cons i rest ih =>
    intro fuel depth hfuel hwired hrow c hc a s hheap
    obtain ⟨fuel, rfl⟩ : ∃ n, fuel = n + 1 := ⟨fuel - 1, by omega⟩
    obtain ⟨hi, hrest⟩ := List.forall_mem_cons.1 hrow
    obtain ⟨inp, out, policy, process, hobj⟩ := hs.modules i hi
    obtain rfl := List.mem_singleton.1 hc
    rw [execute_succ, if_neg (by rw [hheap, hobj]; exact Bool.false_ne_true)]
    refine Discipline.sound_bind (sound_call hs hheap (.inl hi) a 0) fun output s' _ hs' => ?_
    split
    · rw [hheap]
      refine sound_produce (P := fun _ => True) hs' ?_ (fun x => ⟨fun h => h, x, rfl⟩) trivial
        (fun _ _ => trivial) ?_
      · intro _ hnil
        rw [hwired.1] at hnil
        exact rowTargets_ne_nil rest hsinks hnil
      · intro c hc b _ s'' hs''
        rw [hwired.1] at hc
        exact ih fuel (depth + 1) (Nat.lt_of_succ_lt_succ hfuel) hwired.2 hrest c hc b s'' hs''
    · exact Discipline.sound_pure () hs'

end Behind

section Round

/-- A delivery that leaves the round open is stored, and nothing is called. -/
theorem execute_open (fuel depth : Nat) (hs : p.Gathering l s.heap) (hnodup : p.ids.Nodup)
    (hm : p.sources.length ≤ 30) (hk : k + 1 < p.sources.length) (hl : FirstOf k l)
    (v : p.type.Val β) :
    ∃ h, execute (fuel + 1) depth p.aggregator (.val p.type v) k s = .ok () { s with heap := h } ∧
      p.Gathering (l ++ [(k, v)]) h := by
  obtain ⟨agg, hobj, hround⟩ := hs.round
  have hcall : (s.heap p.aggregator).obj.processAny (.val p.type v) k s.user =
      (⟨none, .ok .empty⟩,
        plainAggregator p.type p.process (agg.store k (BitVec.twoPow 64 k) v), s.user) := by
    rw [hobj]
    simp only [plainAggregator, Obj.processAny, processAny_delivery hround hm (by omega) hl,
      if_neg (show k + 1 ≠ p.sources.length by omega)]
  have hprocess : processAny depth p.aggregator (.val p.type v) k s = .ok .empty _ :=
    processAny_ok (congrArg (·.1.result) hcall)
  rw [finalState_processAny, hcall] at hprocess
  refine ⟨_, ?_, hs.update hnodup (hround.store hm (by omega) hl.lt v)⟩
  rw [execute_succ, if_neg (by rw [hobj]; exact Bool.false_ne_true), bind_ok hprocess]
  simp only [Any.hasValue, Any.type, Option.map_none, Option.toList_none, List.append_nil]
  rfl

/-- What the sources `srcs` add to a round that holds the deliveries `l`: each runs once, and the
call of `process` gets the deliveries before them and their own values. -/
structure Completes (p : AggregatePlan ι β σ) (srcs : List ι) (l : List (Nat × p.type.Val β))
    (events : List (Event ι β ε)) : Prop where
  sources : (p.sourceCalls events).map Event.block = srcs
  once : ∃ e, p.collections events = [e] ∧ e.call.args.length = p.sources.length ∧
    e.call.args.Perm ((l.map fun d => .val p.type d.2) ++ p.produced events)

/-- The run `r` from `s` completes the round, and all that can go wrong in it is an exception. -/
structure EndsRound (p : AggregatePlan ι β σ) (srcs : List ι) (l : List (Nat × p.type.Val β))
    (s : Machine ι β σ ε) (r : EStateM.Result (Stop κ ε) (Machine ι β σ ε) Unit) : Prop where
  completes : ∃ events, (finalState r).log = s.log ++ events ∧ p.Completes srcs l events
  empty : p.Gathering [] (finalState r).heap
  stops : ∀ e, stopOf r = some e → ∃ x, e = .threw x

omit [DecidableEq κ] in
/-- What happens behind the aggregator is no call of a source or of the aggregator. -/
theorem Downstream.filtered {events : List (Event ι β ε)} (h : p.Downstream events)
    (hnodup : p.ids.Nodup) : p.sourceCalls events = [] ∧ p.collections events = [] := by
  obtain ⟨-, hmodule, hsink⟩ := aggregator_not_mem hnodup
  constructor
  · refine List.filter_eq_nil_iff.2 fun e he => ?_
    rw [decide_eq_true_eq]
    intro hmem
    obtain ⟨-, hnotModule, hnotSink⟩ := source_not_mem hnodup hmem
    exact (h e he).elim hnotModule hnotSink
  · refine List.filter_eq_nil_iff.2 fun e he => ?_
    rw [decide_eq_true_eq]
    intro heq
    rcases h e he with hmem | hmem
    · exact hmodule (heq ▸ hmem)
    · exact hsink (heq ▸ hmem)

omit [DecidableEq κ] in
/-- The call of `process` with all deliveries, and what comes behind it, complete a round. -/
theorem completes_process (depth : Nat) (call : Call β ε) {events : List (Event ι β ε)}
    (hdown : p.Downstream events) (hnodup : p.ids.Nodup)
    (hargs : call.args.Perm (l.map fun d => .val p.type d.2))
    (hl : l.length = p.sources.length) :
    p.Completes [] l (⟨depth, p.aggregator, call⟩ :: events) := by
  obtain ⟨hsource, -, -⟩ := aggregator_not_mem hnodup
  obtain ⟨hsources, hcollections⟩ := hdown.filtered hnodup
  have hnone : p.sourceCalls (⟨depth, p.aggregator, call⟩ :: events) = [] := by
    rw [sourceCalls, List.filter_cons_of_neg (by simpa using hsource)]
    exact hsources
  refine ⟨by rw [hnone]; rfl, ⟨depth, p.aggregator, call⟩, ?_, ?_, ?_⟩
  · rw [collections, List.filter_cons_of_pos (by simp)]
    exact congrArg _ hcollections
  · rw [hargs.length_eq, List.length_map, hl]
  · rw [produced, hnone, List.filterMap_nil, List.append_nil]
    exact hargs

omit [DecidableEq κ] in
/-- A source that runs before the others adds its value to theirs. -/
theorem Completes.source {srcs : List ι} {events : List (Event ι β ε)} {v : p.type.Val β}
    (h : p.Completes srcs (l ++ [(k, v)]) events) {i : ι} (hi : i ∈ p.sourceIds)
    (hne : i ≠ p.aggregator) :
    p.Completes (i :: srcs) l (⟨0, i, ⟨[], .value (.val p.type v)⟩⟩ :: events) := by
  obtain ⟨hsources, e, honce, hlength, hargs⟩ := h
  have hcalls : p.sourceCalls (⟨0, i, ⟨[], .value (.val p.type v)⟩⟩ :: events) =
      ⟨0, i, ⟨[], .value (.val p.type v)⟩⟩ :: p.sourceCalls events :=
    List.filter_cons_of_pos (by simpa using hi)
  refine ⟨?_, e, ?_, hlength, ?_⟩
  · rw [hcalls, List.map_cons, hsources]
  · rw [collections, List.filter_cons_of_neg (by simpa using hne)]
    exact honce
  · rw [List.map_append, List.append_assoc] at hargs
    rw [produced, hcalls]
    exact hargs

omit [DecidableEq κ] in
/-- A source that runs before a run that ends a round. -/
theorem EndsRound.source {srcs : List ι} {v : p.type.Val β} {s' : Machine ι β σ ε}
    {r : EStateM.Result (Stop κ ε) (Machine ι β σ ε) Unit}
    (h : p.EndsRound srcs (l ++ [(k, v)]) s' r) {i : ι} (hi : i ∈ p.sourceIds)
    (hne : i ≠ p.aggregator)
    (hlog : s'.log = s.log ++ [⟨0, i, ⟨[], .value (.val p.type v)⟩⟩]) :
    p.EndsRound (i :: srcs) l s r := by
  obtain ⟨events, hevents, hcompletes⟩ := h.completes
  refine ⟨⟨_, ?_, hcompletes.source hi hne⟩, h.empty, h.stops⟩
  rw [hevents, hlog, List.append_assoc]
  rfl

/-- The call that completes a round empties the aggregator and returns what `process` returns. -/
theorem processAny_last {agg : Aggregator (p.type.Val β)} {ret : Ret β ε} {b : Any β} (depth : Nat)
    (hobj : (s.heap p.aggregator).obj = plainAggregator p.type p.process agg)
    (hround : HoldsRound id p.sources.length agg l) (hm : p.sources.length ≤ 30)
    (hk : k + 1 = p.sources.length) (hl : FirstOf k l) (v : p.type.Val β)
    {values : List (p.type.Val β)}
    (hvalues : (agg.store k (BitVec.twoPow 64 k) v).latest.values = values)
    (hpack : pack (values.map (Any.val p.type)) p.type .empty
        (.ok (p.process values s.user).1, (p.process values s.user).2) =
      (⟨some ⟨values.map (Any.val p.type), ret⟩, .ok b⟩, (p.process values s.user).2)) :
    processAny depth p.aggregator (.val p.type v) k s = .ok b
      { heap := Function.update s.heap p.aggregator { s.heap p.aggregator with
          obj := plainAggregator p.type p.process (agg.store k (BitVec.twoPow 64 k) v).reset }
        user := (p.process values s.user).2
        log := s.log ++ [⟨depth, p.aggregator, ⟨values.map (Any.val p.type), ret⟩⟩] } := by
  subst hvalues
  have hcall : (s.heap p.aggregator).obj.processAny (.val p.type v) k s.user =
      (⟨some ⟨(agg.store k (BitVec.twoPow 64 k) v).latest.values.map (Any.val p.type), ret⟩, .ok b⟩,
        plainAggregator p.type p.process (agg.store k (BitVec.twoPow 64 k) v).reset,
        (p.process (agg.store k (BitVec.twoPow 64 k) v).latest.values s.user).2) := by
    rw [hobj]
    simp only [plainAggregator, Obj.processAny, processAny_delivery hround hm (by omega) hl,
      if_pos hk, Aggregator.complete, List.map_id]
    rw [hpack]
  have hprocess : processAny depth p.aggregator (.val p.type v) k s = .ok b _ :=
    processAny_ok (congrArg (·.1.result) hcall)
  rw [finalState_processAny, hcall] at hprocess
  exact hprocess

/-- The delivery of the last source completes the round: `process` is called with all values, and
the aggregator is empty when the modules and sinks behind it run. -/
theorem execute_last (fuel depth : Nat) (hs : p.Gathering l s.heap) (hnodup : p.ids.Nodup)
    (hsinks : p.sinks ≠ []) (hfuel : p.modules.length < fuel) (hm : p.sources.length ≤ 30)
    (hk : k + 1 = p.sources.length) (hl : FirstOf k l) (v : p.type.Val β) :
    p.EndsRound [] (l ++ [(k, v)]) s
      (execute (fuel + 1) depth p.aggregator (.val p.type v) k s) := by
  obtain ⟨agg, hobj, hround⟩ := hs.round
  have hstore := hround.store hm (show k < p.sources.length by omega) hl.lt v
  let h := Function.update s.heap p.aggregator { s.heap p.aggregator with
    obj := plainAggregator p.type p.process (agg.store k (BitVec.twoPow 64 k) v).reset }
  have hempty : p.Gathering [] h := hs.update hnodup (holds_reset hstore)
  obtain ⟨values, hvalues⟩ :
      ∃ values, (agg.store k (BitVec.twoPow 64 k) v).latest.values = values := ⟨_, rfl⟩
  have hargs : (values.map (Any.val p.type)).Perm
      ((l ++ [(k, v)]).map fun d => .val p.type d.2) := hvalues ▸ values_of_holds hstore
  have hfull : (l ++ [(k, v)]).length = p.sources.length := by
    rw [List.length_append, hl.length]
    exact hk
  have hnotSink : ¬ (s.heap p.aggregator).obj.isSink = true := by
    rw [hobj]
    exact Bool.false_ne_true
  cases hr : (p.process values s.user).1 with
  | none =>
    have hprocess := processAny_last depth hobj hround hm hk hl v hvalues (by rw [hr]; rfl)
    have hdown : p.Downstream ([] : List (Event ι β ε)) := fun e he => absurd he List.not_mem_nil
    rw [execute_succ, if_neg hnotSink, bind_ok hprocess, if_neg (by simp [Any.hasValue])]
    refine ⟨⟨_, rfl, completes_process _ _ hdown hnodup hargs hfull⟩, hempty, ?_⟩
    intro e he
    cases he
  | some w =>
    have hprocess := processAny_last depth hobj hround hm hk hl v hvalues (by rw [hr]; rfl)
    have hfanout : (s.heap p.aggregator).obj.policy = .Fanout := by
      rw [hobj]
      rfl
    have htargets : (s.heap p.aggregator).nextNodes = rowTargets p.modules p.sinks :=
      hs.feeds.aggregator
    have hne : (s.heap p.aggregator).nextNodes ≠ [] := by
      rw [htargets]
      exact rowTargets_ne_nil p.modules hsinks
    rw [execute_succ, if_neg hnotSink, bind_ok hprocess, if_pos (by simp [Any.hasValue, Any.type]),
      produce_fanout hfanout hne, htargets]
    -- the row behind the aggregator leaves the empty aggregator alone
    let call : Call β ε := ⟨values.map (Any.val p.type), .value (.val p.type w)⟩
    obtain ⟨hheap, ⟨events, hlog, hdown, -⟩, hstops⟩ := Discipline.sound_forM
      (D := behindDiscipline p h) (rowTargets p.modules p.sinks)
      (s := ⟨h, (p.process values s.user).2, s.log ++ [⟨depth, p.aggregator, call⟩]⟩) rfl
      fun c hc s' hs' => sound_row hempty hsinks p.modules fuel (depth + 1) hfuel
        hempty.feeds.modules (fun _ hi => hi) c hc (.val p.type w) s' hs'
    refine ⟨⟨_, ?_, completes_process depth call hdown hnodup hargs hfull⟩, ?_, hstops⟩
    · exact hlog.trans (List.append_assoc _ _ _)
    · rw [show Machine.heap _ = h from hheap]
      exact hempty

/-- A source hands its value to the aggregator, and to nobody else. -/
theorem execute_source (fuel : Nat) {src : ι × (σ → p.type.Val β × σ)} (hs : p.Gathering l s.heap)
    (hsrc : p.sources[k]? = some src) :
    execute (fuel + 1) 0 src.1 .empty 0 s =
      execute fuel 1 p.aggregator (.val p.type (src.2 s.user).1) k
        (s.after (src.2 s.user).2 [⟨0, src.1, ⟨[], .value (.val p.type (src.2 s.user).1)⟩⟩]) := by
  have hnext := hs.feeds.sources k src hsrc
  have hne : (s.heap src.1).nextNodes ≠ [] := by
    rw [hnext]
    exact List.cons_ne_nil _ _
  rw [execute_plainSource (hs.sources src (List.mem_of_getElem? hsrc)) hne, hnext]
  simp

/-- The remaining sources of a round run one after the other, and the last one ends it. -/
theorem run_row (hnodup : p.ids.Nodup) (hsinks : p.sinks ≠ []) (hm : p.sources.length ≤ 30)
    (hfuel : p.modules.length + 2 < fuel) (rest : List (ι × (σ → p.type.Val β × σ))) :
    ∀ (done : List (ι × (σ → p.type.Val β × σ))) (l : List (Nat × p.type.Val β))
      (s : Machine ι β σ ε), rest ≠ [] → p.sources = done ++ rest → FirstOf done.length l →
      p.Gathering l s.heap →
      p.EndsRound (rest.map Prod.fst) l s
        ((forM (rest.map Prod.fst) fun src => execute fuel 0 src .empty 0) s) := by
  obtain ⟨fuel, rfl⟩ : ∃ n, fuel = n + 2 := ⟨fuel - 2, by omega⟩
  -- induction on the sources that still have to run
  induction rest with
  | nil =>
    intro done l s hne
    exact absurd rfl hne
  | cons src rest ih =>
    intro done l s _ hsplit hl hs
    have hlength : p.sources.length = done.length + (rest.length + 1) := by
      rw [hsplit, List.length_append, List.length_cons]
    have hsrc : p.sources[done.length]? = some src := by
      rw [hsplit, List.getElem?_append_right (Nat.le_refl _), Nat.sub_self]
      rfl
    have hmem : src.1 ∈ p.sourceIds := List.mem_map_of_mem (List.mem_of_getElem? hsrc)
    obtain ⟨hsource, -, -⟩ := source_not_mem hnodup hmem
    have hturn := execute_source (fuel + 1) hs hsrc
    let v := (src.2 s.user).1
    let s₁ := s.after (src.2 s.user).2 [⟨0, src.1, ⟨[], .value (.val p.type v)⟩⟩]
    have hs₁ : p.Gathering l s₁.heap := hs
    rcases eq_or_ne rest [] with rfl | hrest
    · -- the last source
      have hlast := execute_last fuel 1 hs₁ hnodup hsinks (by omega) hm hlength.symm hl v
      rw [List.map_cons, List.map_nil, List.forM_cons, List.forM_nil, bind_pure_unit, hturn]
      exact hlast.source hmem hsource rfl
    · -- a source with others behind it
      have hpos : 0 < rest.length := List.length_pos_iff.2 hrest
      obtain ⟨h, hrun, hs₂⟩ := execute_open fuel 1 hs₁ hnodup hm (by omega) hl v
      have hothers := ih (done ++ [src]) (l ++ [(done.length, v)]) { s₁ with heap := h } hrest
        (by rw [hsplit, List.append_assoc]; rfl)
        (by rw [List.length_append]; exact hl.concat v) hs₂
      rw [List.map_cons, List.forM_cons, bind_ok (hturn.trans hrun)]
      exact hothers.source hmem hsource rfl

/-- With 31 sources the first delivery stops the execute, and `process` is not called. -/
theorem execute_first_overflow (fuel : Nat) {src : ι × (σ → p.type.Val β × σ)}
    (hs : p.Gathering [] s.heap) (hsrc : p.sources[0]? = some src) (hm : 31 ≤ p.sources.length) :
    ∃ s', execute (fuel + 2) 0 src.1 .empty 0 s = .error (.undefined .floatToInt) s' ∧
      s'.log = s.log ++ [⟨0, src.1, ⟨[], .value (.val p.type (src.2 s.user).1)⟩⟩] := by
  obtain ⟨agg, hobj, hround⟩ := hs.round
  let v := (src.2 s.user).1
  let s₁ := s.after (src.2 s.user).2 [⟨0, src.1, ⟨[], .value (.val p.type v)⟩⟩]
  have hobj₁ : (s₁.heap p.aggregator).obj = plainAggregator p.type p.process agg := hobj
  have hcall : ((s₁.heap p.aggregator).obj.processAny (.val p.type v) 0 s₁.user).1 =
      ⟨none, .error (.undefined .floatToInt)⟩ := by
    rw [hobj₁]
    exact processAny_overflow hround hm v s₁.user
  have hnotSink : ¬ (s₁.heap p.aggregator).obj.isSink = true := by
    rw [hobj₁]
    exact Bool.false_ne_true
  have hstop : execute (fuel + 1) 1 p.aggregator (.val p.type v) 0 s₁ =
      .error (.undefined .floatToInt)
        (finalState (processAny 1 p.aggregator (.val p.type v) 0 s₁)) := by
    rw [execute_succ, if_neg hnotSink, bind_error (processAny_error (congrArg (·.result) hcall))]
  refine ⟨_, (execute_source (fuel + 1) hs hsrc).trans hstop, ?_⟩
  rw [log_processAny 1 hcall]
  exact List.append_nil _

end Round

/-! ## Runs -/

section Runs

variable {S : System ι β σ ε}

/-- A pipeline of the plan between two executes. -/
structure Between (p : AggregatePlan ι β σ) (S : System ι β σ ε) : Prop where
  sources : S.pipeline.sources = p.sourceIds
  empty : p.Gathering [] S.machine.heap

/-- An execute is a round of the aggregator. -/
theorem Between.step (h : p.Between S) (hm : p.sources ≠ []) (hsinks : p.sinks ≠ [])
    (hnodup : p.ids.Nodup) (hfuel : p.modules.length + 2 < fuel) (hmax : p.sources.length ≤ 30) :
    (S.step fuel .execute).1.Defined ∧ p.Between (S.step fuel .execute).2 ∧
      ∃ events, (S.step fuel .execute).2.machine.log = S.machine.log ++ events ∧
        p.CollectsRound events := by
  have hrow := run_row hnodup hsinks hmax hfuel p.sources [] [] S.machine hm rfl rfl h.empty
  have hexec : S.pipeline.execute fuel S.machine =
      (forM (p.sources.map Prod.fst) fun src => execute fuel 0 src .empty 0) S.machine := by
    rw [Pipeline.execute, h.sources, if_pos (by simpa [sourceIds] using hm)]
    rfl
  rw [← hexec] at hrow
  obtain ⟨⟨events, hlog, hsources, e, honce, hlength, hargs⟩, hempty, hstops⟩ := hrow
  rw [step_execute]
  refine ⟨?_, ⟨h.sources, hempty⟩, events, hlog, hsources, e, honce, hlength, hargs⟩
  rw [System.step]
  cases hr : S.pipeline.execute fuel S.machine with
  | ok a s' => trivial
  | error x s' => exact hstops x (by rw [hr]; rfl)

/-- Every number of executes ends between two rounds. -/
theorem Between.run (h : p.Between S) (hm : p.sources ≠ []) (hsinks : p.sinks ≠ [])
    (hnodup : p.ids.Nodup) (hfuel : p.modules.length + 2 < fuel) (hmax : p.sources.length ≤ 30)
    (K : Nat) :
    (∀ reply ∈ (S.run fuel (List.replicate K .execute)).1, reply.Defined) ∧
      p.Between (S.run fuel (List.replicate K .execute)).2 := by
  induction K with
  | zero => exact ⟨fun reply hreply => absurd hreply List.not_mem_nil, h⟩
  | succ K ih =>
    obtain ⟨hreplies, hbetween⟩ := ih
    obtain ⟨hreply, hnext, -⟩ := hbetween.step hm hsinks hnodup hfuel hmax
    rw [List.replicate_succ', run_append]
    refine ⟨?_, hnext⟩
    intro reply hmem
    rcases List.mem_append.1 hmem with hmem | hmem
    · exact hreplies reply hmem
    · obtain rfl := List.mem_singleton.1 hmem
      exact hreply

/-- Up to 30 sources, every execute of a pipeline that has made no call yet is one aggregation. -/
theorem Between.oneAggregation (h : p.Between S) (hm : p.sources ≠ []) (hsinks : p.sinks ≠ [])
    (hnodup : p.ids.Nodup) (hfuel : p.modules.length + 2 < fuel) (hmax : p.sources.length ≤ 30)
    (hlog : S.machine.log = []) : p.OneAggregation fuel S := by
  have hrun := h.run hm hsinks hnodup hfuel hmax
  have hcollected : ∀ K, ∃ events, (S.executed fuel (K + 1)).log =
      (S.executed fuel K).log ++ events ∧ p.CollectsRound events := by
    intro K
    obtain ⟨-, -, events, hevents, hround⟩ := (hrun K).2.step hm hsinks hnodup hfuel hmax
    refine ⟨events, ?_, hround⟩
    rw [System.executed, run_replicate_succ]
    exact hevents
  refine ⟨h.empty.feeds.sources, fun K => (hrun K).1, hcollected, ?_, ?_⟩
  · intro K
    -- induction on the executes: each makes one call of `process`
    induction K with
    | zero =>
      show (p.collections S.machine.log).length = 0
      rw [hlog]
      rfl
    | succ K ih =>
      obtain ⟨events, hevents, hround⟩ := hcollected K
      obtain ⟨e, honce, -⟩ := hround.once
      have hsplit : p.collections (S.executed fuel (K + 1)).log =
          p.collections (S.executed fuel K).log ++ [e] := by
        rw [hevents, ← honce]
        exact List.filter_append ..
      rw [hsplit, List.length_append, ih]
      rfl
  · intro K
    obtain ⟨agg, hobj, hround⟩ := (hrun K).2.empty.round
    exact ⟨agg, hobj, hround.state_eq_zero, List.perm_nil.1 hround.nodes⟩

/-- With 31 sources the first execute collects nothing. -/
theorem Between.not_oneAggregation (h : p.Between S) (hnodup : p.ids.Nodup) (hfuel : 2 ≤ fuel)
    (hmax : 31 ≤ p.sources.length) (hlog : S.machine.log = []) : ¬ p.OneAggregation fuel S := by
  intro hone
  obtain ⟨fuel, rfl⟩ : ∃ n, fuel = n + 2 := ⟨fuel - 2, by omega⟩
  obtain ⟨src, rest, hcons⟩ : ∃ src rest, p.sources = src :: rest :=
    List.exists_cons_of_length_pos (by omega)
  have hsrc : p.sources[0]? = some src := by
    rw [hcons]
    rfl
  have hmem : src.1 ∈ p.sourceIds := List.mem_map_of_mem (List.mem_of_getElem? hsrc)
  obtain ⟨hsource, -, -⟩ := source_not_mem hnodup hmem
  obtain ⟨s', hstop, hevents⟩ := execute_first_overflow fuel h.empty hsrc hmax
  have hsources : S.pipeline.sources = src.1 :: rest.map Prod.fst := by
    rw [h.sources, sourceIds, hcons, List.map_cons]
  have hexec : S.pipeline.execute (fuel + 2) S.machine = .error (.undefined .floatToInt) s' := by
    rw [Pipeline.execute, hsources, if_pos (List.cons_ne_nil _ _), List.forM_cons,
      bind_error hstop]
  have hfirst : S.executed (fuel + 2) 1 = s' := by
    rw [System.executed, run_replicate_succ, step_execute]
    exact congrArg finalState hexec
  have hinvoked := hone.invoked 1
  rw [hfirst, hevents, hlog, List.nil_append, collections,
    List.filter_cons_of_neg (by simpa using hsource)] at hinvoked
  cases hinvoked

/-- Adding all blocks of a plan ends between two rounds, with nothing called yet. -/
theorem between_built (fuel : Nat) (hnodup : p.ids.Nodup) {obj : ι → Obj β σ ε}
    (hplaced : p.Placed obj) (u : σ) :
    p.Between ((System.init obj u).run fuel (p.ids.map .add)).2 ∧
      ((System.init obj u).run fuel (p.ids.map .add)).2.machine.log = [] := by
  obtain ⟨nodes, h, hrun, hempty⟩ := run_addAggregatePlan fuel hnodup hplaced u
  rw [hrun]
  exact ⟨⟨rfl, hempty⟩, rfl⟩

/-- In a pipeline of sources, an aggregator, modules and sinks every execute is one aggregation of
the values of that execute exactly when there are at most 30 sources. -/
theorem oneAggregation_iff (fuel : Nat) (p : AggregatePlan ι β σ) (hm : p.sources ≠ [])
    (hsinks : p.sinks ≠ []) (hnodup : p.ids.Nodup) (hfuel : p.modules.length + 2 < fuel)
    (obj : ι → Obj β σ ε) (hplaced : p.Placed obj) (u : σ) :
    p.OneAggregation fuel ((System.init obj u).run fuel (p.ids.map .add)).2 ↔
      p.sources.length ≤ 30 := by
  obtain ⟨hbetween, hlog⟩ := between_built fuel hnodup hplaced u
  constructor
  · intro hone
    by_contra hmax
    exact hbetween.not_oneAggregation hnodup (by omega) (by omega) hlog hone
  · intro hmax
    exact hbetween.oneAggregation hm hsinks hnodup hfuel hmax hlog

end Runs

/-- `m` counting sources, an aggregator that adds up, and one sink. -/
def countingFanIn (m : Nat) : AggregatePlan Nat (fun _ : Unit => Nat) Nat where
  type := .base ()
  sources := (List.range m).map fun k => (k + 2, fun u : Nat => (u, u + 1))
  aggregator := 0
  process := fun (vs : List Nat) u => (some vs.sum, u)
  modules := []
  sinks := [1]

/-- The blocks of `countingFanIn`. -/
def fanInBlocks : Nat → Obj (fun _ : Unit => Nat) Nat Empty
  | 0 => plainAggregator (.base ()) (fun (vs : List Nat) u => (some vs.sum, u)) {}
  | 1 => plainSink (.base ()) fun (v u : Nat) => u + v
  | _ => plainSource (.base ()) fun u : Nat => (u, u + 1)

theorem countingFanIn_placed (m : Nat) : (countingFanIn m).Placed fanInBlocks where
  sources := by
    intro src hsrc
    obtain ⟨k, -, rfl⟩ := List.mem_map.1 hsrc
    rfl
  aggregator := rfl
  modules := nofun
  sinks := by
    intro i hi
    rw [List.mem_singleton.1 hi]
    exact ⟨_, _, rfl⟩

theorem countingFanIn_two :
    (countingFanIn 2).OneAggregation 3 ((System.init fanInBlocks 0).run 3
      ((countingFanIn 2).ids.map .add)).2 ↔ (countingFanIn 2).sources.length ≤ 30 :=
  oneAggregation_iff 3 (countingFanIn 2) (List.cons_ne_nil _ _) (List.cons_ne_nil _ _) (by decide)
    (by decide) fanInBlocks (countingFanIn_placed 2) 0

/-- For 31 sources `2 ^ 31 - 1` and all masks fit into `int`, but not `2 ^ 31`. -/
theorem thirtyOne_sources_collect_nothing :
    2 ^ 31 - 1 < 2 ^ 31 ∧ (∀ k < 31, 2 ^ k < 2 ^ 31) ∧ (countingFanIn 31).sources.length = 31 ∧
      ¬ (countingFanIn 31).OneAggregation 3 ((System.init fanInBlocks 0).run 3
        ((countingFanIn 31).ids.map .add)).2 := by
  have hnodup : (countingFanIn 31).ids.Nodup := by decide
  obtain ⟨hbetween, hlog⟩ := between_built 3 hnodup (countingFanIn_placed 31) 0
  refine ⟨by decide, by decide, by decide, ?_⟩
  exact hbetween.not_oneAggregation hnodup (by decide) (by decide) hlog

end AggregatePlan

end PipelineTools.FlowEngine
