import PipelineTools.FlowEngine.Activations
import PipelineTools.FlowEngine.AggregatorRounds

/-!
# An aggregator behind the sources of a pipeline

The sources of a pipeline run one after the other in each `Pipeline::execute`, and the aggregator
that is the first node counts on hearing from each of them once per round. `CollectsOnce` states
that an execute drops no delivery, that its mask arithmetic is defined, and that every collection
consists of the values received in it.

`HoldsRound` says what an aggregator keeps of an unfinished round, and `taken_processAny` what one
more delivery does to it. A turn of a source reaches the aggregator at most once, and nothing behind
the aggregator comes back to it (`turn_source`).
-/

set_option autoImplicit false

namespace PipelineTools.FlowEngine

open PipelineTools.Library

variable {ι κ : Type} {β : κ → Type} {σ ε : Type}

/-- The producer's bit is set: the branch of `process_any` that drops what is delivered. -/
def Aggregator.repeats {V : Type} (agg : Aggregator V) (producerId : Nat) : Bool :=
  match producerMask producerId with
  | none => false
  | some idx => decide (agg.state &&& idx ≠ 0)

section Received

variable [DecidableEq κ]

/-- A delivery of a producer that is already collected is dropped, and changes nothing. -/
theorem Aggregator.processAny_of_repeats {inp out : Ty κ} {toOut : inp.Val β → out.Val β}
    {toIn : out.Val β → inp.Val β} {process : List (inp.Val β) → Process σ ε (out.Val β)}
    {agg : Aggregator (out.Val β)} {producerId : Nat} (h : agg.repeats producerId = true)
    (a : Any β) (u : σ) :
    agg.processAny inp out toOut toIn process a producerId u = (⟨none, .ok .empty⟩, agg, u) := by
  rw [Aggregator.repeats] at h
  cases hmask : producerMask producerId with
  | none =>
    rw [hmask] at h
    cases h
  | some idx =>
    rw [hmask] at h
    simp only [Aggregator.processAny, hmask, if_pos (of_decide_eq_true h)]

/-- The call takes the branch of an aggregator that drops what is delivered. -/
def Activation.dropped (x : Activation ι β σ ε) : Bool :=
  match (x.machine.heap x.block).obj with
  | .aggregator _ _ _ _ _ self => self.repeats x.producerId
  | _ => false

variable [DecidableEq ι]

/-- The values of type `inp` that the calls deliver to `a`, each with its producer. -/
def received (inp : Ty κ) (a : ι) (calls : List (Activation ι β σ ε)) :
    List (Nat × inp.Val β) :=
  calls.filterMap fun x =>
    if x.block = a then (anyCast inp x.input).map (Prod.mk x.producerId) else none

/-- No delivery to `a` is dropped or ends in undefined behaviour, and what its `process` is handed
are the values delivered by these calls, up to the conversion `conv` and the order. -/
structure CollectsOnce (inp : Ty κ) (conv : inp.Val β → inp.Val β) (a : ι)
    (calls : List (Activation ι β σ ε)) : Prop where
  kept : ∀ x ∈ calls, x.block = a → x.dropped = false
  defined : ∀ x ∈ calls, x.block = a → ∀ f, x.outcome.result ≠ .error (.undefined f)
  together : ∀ x ∈ calls, x.block = a → ∀ c, x.outcome.call = some c →
    c.args.Perm ((received inp a calls).map fun p => .val inp (conv p.2))

/-- Each of the `m` producers delivers, or none of them. -/
def AllOrNone {V : Type} (m : Nat) (deliveries : List (Nat × V)) : Prop :=
  (∀ id < m, id ∈ deliveries.map Prod.fst) ∨ deliveries = []

theorem received_append (inp : Ty κ) (a : ι) (xs ys : List (Activation ι β σ ε)) :
    received inp a (xs ++ ys) = received inp a xs ++ received inp a ys :=
  List.filterMap_append

theorem received_of_apart (inp : Ty κ) {a : ι} {calls : List (Activation ι β σ ε)}
    (h : ∀ x ∈ calls, x.block ≠ a) : received inp a calls = [] := by
  refine List.filterMap_eq_nil_iff.2 fun x hx => ?_
  rw [if_neg (h x hx)]

/-- Of a stretch of calls with a single one on `a`, that one is received. -/
theorem received_of_single (inp : Ty κ) {a : ι} {before after : List (Activation ι β σ ε)}
    {x : Activation ι β σ ε} (hx : x.block = a) (hbefore : ∀ y ∈ before, y.block ≠ a)
    (hafter : ∀ y ∈ after, y.block ≠ a) :
    received inp a (before ++ x :: after) =
      ((anyCast inp x.input).map (Prod.mk x.producerId)).toList := by
  have hone : received inp a [x] = ((anyCast inp x.input).map (Prod.mk x.producerId)).toList := by
    rw [received, List.filterMap_cons, List.filterMap_nil, if_pos hx]
    cases anyCast inp x.input <;> rfl
  rw [← List.singleton_append, received_append, received_append, received_of_apart inp hbefore,
    received_of_apart inp hafter, hone, List.append_nil, List.nil_append]

end Received

/-! ## One delivery -/

section Deliver

variable {inp out : Ty κ} {toOut : inp.Val β → out.Val β} {toIn : out.Val β → inp.Val β}
  {process : List (inp.Val β) → Process σ ε (out.Val β)}

/-- The aggregator with `m` producers holds the deliveries `l` of the current round. -/
structure HoldsRound (toOut : inp.Val β → out.Val β) (m : Nat) (agg : Aggregator (out.Val β))
    (l : List (Nat × inp.Val β)) : Prop where
  count : agg.producerCount = m
  bits : ∀ i, agg.state.getLsbD i = true ↔ i ∈ l.map Prod.fst
  nodes : agg.latest.nodes.Perm (l.map fun p => (p.1, toOut p.2))
  small : l ≠ [] → m ≤ 30

namespace HoldsRound

variable {m k : Nat} {agg : Aggregator (out.Val β)} {l : List (Nat × inp.Val β)}

theorem state_eq_zero (h : HoldsRound toOut m agg []) : agg.state = 0 := by
  refine BitVec.eq_of_getLsbD_eq fun i _ => ?_
  have hi := h.bits i
  simp only [List.map_nil, List.not_mem_nil, iff_false, Bool.not_eq_true] at hi
  simpa using hi

theorem keys_perm (h : HoldsRound toOut m agg l) : agg.latest.keys.Perm (l.map Prod.fst) := by
  have hmap := h.nodes.map Prod.fst
  simpa [UnorderedMap.keys, Function.comp_def] using hmap

/-- A producer that comes after all that have delivered does not repeat. -/
theorem repeats_eq_false (h : HoldsRound toOut m agg l) (hk : k < m) (hl : ∀ p ∈ l, p.1 < k) :
    agg.repeats k = false := by
  rw [Aggregator.repeats]
  by_cases hnil : l = []
  · subst hnil
    cases producerMask k with
    | none => rfl
    | some idx => simp [h.state_eq_zero]
  · have hm := h.small hnil
    rw [producerMask_eq (by omega)]
    have hfresh : agg.state.getLsbD k = false := by
      rw [← Bool.not_eq_true, h.bits]
      intro hmem
      obtain ⟨p, hp, rfl⟩ := List.mem_map.1 hmem
      exact absurd (hl p hp) (lt_irrefl _)
    have hzero := (and_twoPow_eq_zero_iff agg.state (by omega)).2 hfresh
    simp [hzero]

theorem store (h : HoldsRound toOut m agg l) (hm : m ≤ 30) (hk : k < m) (hl : ∀ p ∈ l, p.1 < k)
    (v : inp.Val β) :
    HoldsRound toOut m (agg.store k (BitVec.twoPow 64 k) (toOut v)) (l ++ [(k, v)]) where
  count := h.count
  bits i := by
    show (agg.state ||| BitVec.twoPow 64 k).getLsbD i = true ↔ _
    rw [getLsbD_or_twoPow _ (by omega), h.bits, List.map_append, List.mem_append]
    simp [or_comm]
  nodes := by
    have hkey : k ∉ agg.latest.keys := by
      rw [h.keys_perm.mem_iff]
      intro hmem
      obtain ⟨p, hp, rfl⟩ := List.mem_map.1 hmem
      exact absurd (hl p hp) (lt_irrefl _)
    show (agg.latest.insertOrAssign k (toOut v)).nodes.Perm _
    refine (UnorderedMap.insert_perm hkey _).trans ?_
    rw [List.map_append]
    exact ((h.nodes.cons _).trans (List.perm_append_singleton _ _).symm)
  small _ := hm

/-- The mask is full exactly when all producers have delivered. -/
theorem full_iff (h : HoldsRound toOut m agg l) (hm : m ≤ 30) (hl : ∀ p ∈ l, p.1 < m) :
    agg.state = BitVec.ofNat 64 (2 ^ m - 1) ↔ ∀ id < m, id ∈ l.map Prod.fst := by
  rw [eq_fullMask_iff (by omega) fun i hi => ?_]
  · exact forall₂_congr fun id _ => h.bits id
  · obtain ⟨p, hp, rfl⟩ := List.mem_map.1 ((h.bits i).1 hi)
    exact hl p hp

end HoldsRound

theorem lt_of_mem_concat {V : Type} {m k : Nat} {l : List (Nat × V)} {v : V} (hk : k < m)
    (hl : ∀ p ∈ l, p.1 < k) : ∀ p ∈ l ++ [(k, v)], p.1 < m := by
  intro p hp
  rcases List.mem_append.1 hp with hp | hp
  · exact lt_trans (hl p hp) hk
  · rw [List.mem_singleton.1 hp]
    exact hk

variable [DecidableEq κ]

/-- What one delivery of producer `k` does to a round that holds `l`, with at most 30 producers: a
value of another type is rejected, and otherwise it is stored in a round that stays open, or
completes the round. -/
inductive Taken (toOut : inp.Val β → out.Val β) (toIn : out.Val β → inp.Val β) (m k : Nat)
    (agg : Aggregator (out.Val β)) (l : List (Nat × inp.Val β)) (a : Any β) :
    Outcome β ε × Aggregator (out.Val β) × σ → Prop
  | rejected {e : Exn κ ε} {u : σ} : anyCast inp a = none →
      Taken toOut toIn m k agg l a (⟨none, .error (.threw e)⟩, agg, u)
  | stored {v : inp.Val β} {b : Any β} {agg' : Aggregator (out.Val β)} {u : σ} :
      anyCast inp a = some v → HoldsRound toOut m agg' (l ++ [(k, v)]) →
      (¬ ∀ id < m, id ∈ (l ++ [(k, v)]).map Prod.fst) →
      Taken toOut toIn m k agg l a (⟨none, .ok b⟩, agg', u)
  | completed {v : inp.Val β} {r : Outcome β ε × Aggregator (out.Val β) × σ} :
      anyCast inp a = some v → HoldsRound toOut m r.2.1 [] →
      (∀ id < m, id ∈ (l ++ [(k, v)]).map Prod.fst) →
      (∀ f, r.1.result ≠ .error (.undefined f)) →
      (∀ c, r.1.call = some c →
        c.args.Perm ((l ++ [(k, v)]).map fun p => .val inp (toIn (toOut p.2)))) →
      Taken toOut toIn m k agg l a r

/-- None of these ends in undefined behaviour. -/
theorem Taken.defined {m k : Nat} {agg : Aggregator (out.Val β)} {l : List (Nat × inp.Val β)}
    {a : Any β} {r : Outcome β ε × Aggregator (out.Val β) × σ}
    (h : Taken toOut toIn m k agg l a r) (f : Fault) : r.1.result ≠ .error (.undefined f) := by
  cases h with
  | rejected hcast => exact nofun
  | stored hcast hholds hopen => exact nofun
  | completed hcast hholds hfull hdefined hargs => exact hdefined f

/-- Every delivery of a producer that comes after all that have delivered is taken. -/
theorem taken_processAny {m k : Nat} {agg : Aggregator (out.Val β)} {l : List (Nat × inp.Val β)}
    (h : HoldsRound toOut m agg l) (hm : m ≤ 30) (hk : k < m) (hl : ∀ p ∈ l, p.1 < k) (a : Any β)
    (u : σ) : Taken toOut toIn m k agg l a (agg.processAny inp out toOut toIn process a k u) := by
  have hrepeats := h.repeats_eq_false hk hl
  have hmaskK : producerMask k = some (BitVec.twoPow 64 k) := producerMask_eq (by omega)
  have hfullM : fullMask agg.producerCount = some (BitVec.ofNat 64 (2 ^ m - 1)) := by
    rw [h.count, fullMask_eq hm]
  have hstep := Aggregator.step_processAny inp out toOut toIn process agg a k u
  generalize agg.processAny inp out toOut toIn process a k u = r at hstep
  cases hstep with
  -- both masks fit `int`
  | shift hmask =>
    rw [hmask] at hmaskK
    cases hmaskK
  | overflow hmask hbit ha hfull =>
    rw [hfull] at hfullM
    cases hfullM
  | repeated hmask hbit =>
    -- excluded: the bit of `k` is not set
    simp only [Aggregator.repeats, hmask] at hrepeats
    exact absurd hbit (of_decide_eq_false hrepeats)
  | badCast hmask hbit hcast =>
    obtain ⟨hnone, rfl⟩ := anyCastWithInfo_eq_error_iff.1 hcast
    exact .rejected hnone
  | @stored idx full v hmask hbit ha hfull hne =>
    subst ha
    rw [hmask, Option.some.injEq] at hmaskK
    rw [hfull, Option.some.injEq] at hfullM
    subst hmaskK hfullM
    have hstore := h.store hm hk hl v
    refine .stored (anyCast_val_self inp v) hstore fun hall => hne ?_
    exact (hstore.full_iff hm (lt_of_mem_concat hk hl)).2 hall
  -- the aggregator is reset before `process` is called
  | @completed idx full v hmask hbit ha hfull heq =>
    subst ha
    rw [hmask, Option.some.injEq] at hmaskK
    rw [hfull, Option.some.injEq] at hfullM
    subst hmaskK hfullM
    have hstore := h.store hm hk hl v
    obtain ⟨⟨ret, hcall⟩, hresult⟩ := pack_cases
      (((agg.store k (BitVec.twoPow 64 k) (toOut v)).latest.values.map toIn).map (Any.val inp))
      out .empty (process ((agg.store k (BitVec.twoPow 64 k) (toOut v)).latest.values.map toIn) u)
    refine .completed (anyCast_val_self inp v) ⟨hstore.count, ?_, ?_, nofun⟩
      ((hstore.full_iff hm (lt_of_mem_concat hk hl)).1 heq) ?_ ?_
    · intro i
      simp [Aggregator.complete, Aggregator.reset]
    · simp [Aggregator.complete, Aggregator.reset]
    -- `process` returns or throws
    · intro f hf
      simp only [Aggregator.complete] at hf
      rcases hresult with ⟨b, hb⟩ | ⟨e, he⟩
      · rw [hb] at hf
        cases hf
      · rw [he] at hf
        cases hf
    · intro c hc
      simp only [Aggregator.complete, hcall, Option.some.injEq] at hc
      subst hc
      have hvalues := (hstore.nodes.map Prod.snd).map fun w => Any.val inp (toIn w)
      simpa [UnorderedMap.values, Function.comp_def] using hvalues

end Deliver

/-! ## One source -/

/-- The sources `srcs` feed the block `a`, each once and in their order, and nothing else does. -/
structure Feeds (srcs : List ι) (a : ι) (h : Heap ι β σ ε) : Prop where
  outside : a ∉ srcs
  isSource : ∀ src ∈ srcs, (h src).obj.isSource = true
  port : ∀ k src, srcs[k]? = some src → ∃ before after,
    (h src).nextNodes = before ++ (a, k) :: after ∧ ∀ c ∈ before ++ after, c.1 ≠ a
  feeders : ∀ i, Edge h i a → i ∈ srcs
  roots : ∀ i j, Edge h i j → j ∉ srcs

/-- The blocks behind the aggregator. -/
def Behind (srcs : List ι) (a : ι) (j : ι) : Prop := j ≠ a ∧ j ∉ srcs

theorem Feeds.behind_closed {srcs : List ι} {a : ι} {h : Heap ι β σ ε} (hf : Feeds srcs a h)
    (i j : ι) (hi : Behind srcs a i) (hij : Edge h i j) : Behind srcs a j :=
  ⟨fun hj => hi.2 (hf.feeders i (hj ▸ hij)), hf.roots i j hij⟩

section Turn

variable [DecidableEq κ] {inp out : Ty κ} {toOut : inp.Val β → out.Val β}
  {toIn : out.Val β → inp.Val β} {process : List (inp.Val β) → Process σ ε (out.Val β)}

/-- What a stretch of a run does to the aggregator at `a`: nothing, or exactly one call, as producer
`k`. -/
inductive Turn (inp out : Ty κ) (toOut : inp.Val β → out.Val β) (toIn : out.Val β → inp.Val β)
    (process : List (inp.Val β) → Process σ ε (out.Val β)) (a : ι) (k : Nat)
    (agg : Aggregator (out.Val β)) :
    EStateM.Result (Stop κ ε) (Machine ι β σ ε) Unit → List (Activation ι β σ ε) → Prop
  | apart {r : EStateM.Result (Stop κ ε) (Machine ι β σ ε) Unit}
      {calls : List (Activation ι β σ ε)} :
      ((finalState r).heap a).obj = .aggregator inp out toOut toIn process agg →
      (∀ x ∈ calls, x.block ≠ a) → Turn inp out toOut toIn process a k agg r calls
  | reached {r : EStateM.Result (Stop κ ε) (Machine ι β σ ε) Unit}
      {before after : List (Activation ι β σ ε)} {x : Activation ι β σ ε} :
      x.block = a → x.producerId = k →
      (x.machine.heap a).obj = .aggregator inp out toOut toIn process agg →
      (∀ y ∈ before, y.block ≠ a) → (∀ y ∈ after, y.block ≠ a) →
      ((finalState r).heap a).obj = .aggregator inp out toOut toIn process
        (agg.processAny inp out toOut toIn process x.input k x.machine.user).2.1 →
      (∀ e, (agg.processAny inp out toOut toIn process x.input k x.machine.user).1.result =
        .error e → stopOf r = some e) →
      Turn inp out toOut toIn process a k agg r (before ++ x :: after)

variable {srcs : List ι} {a : ι} {h : Heap ι β σ ε} {agg : Aggregator (out.Val β)} {k : Nat}

/-- Calls elsewhere may come first. -/
theorem Turn.prepend {r : EStateM.Result (Stop κ ε) (Machine ι β σ ε) Unit}
    {calls : List (Activation ι β σ ε)} (ht : Turn inp out toOut toIn process a k agg r calls)
    {pre : List (Activation ι β σ ε)} (hpre : ∀ y ∈ pre, y.block ≠ a) :
    Turn inp out toOut toIn process a k agg r (pre ++ calls) := by
  cases ht with
  | apart hobj hcalls => exact .apart hobj (List.forall_mem_append.2 ⟨hpre, hcalls⟩)
  | reached hx hid hobj hbefore hafter hfinal hstop =>
    rw [← List.append_assoc]
    exact .reached hx hid hobj (List.forall_mem_append.2 ⟨hpre, hbefore⟩) hafter hfinal hstop

/-- A stretch that returned may be followed by calls elsewhere. -/
theorem Turn.extend {r : EStateM.Result (Stop κ ε) (Machine ι β σ ε) Unit}
    {s : Machine ι β σ ε} {calls : List (Activation ι β σ ε)}
    (ht : Turn inp out toOut toIn process a k agg (.ok () s) calls)
    (hr : (finalState r).heap a = s.heap a) {post : List (Activation ι β σ ε)}
    (hpost : ∀ y ∈ post, y.block ≠ a) :
    Turn inp out toOut toIn process a k agg r (calls ++ post) := by
  cases ht with
  | apart hobj hcalls =>
    refine .apart ?_ (List.forall_mem_append.2 ⟨hcalls, hpost⟩)
    rw [hr]
    exact hobj
  | reached hx hid hobj hbefore hafter hfinal hstop =>
    rw [List.append_assoc, List.cons_append]
    refine .reached hx hid hobj hbefore (List.forall_mem_append.2 ⟨hafter, hpost⟩) ?_ ?_
    · rw [hr]
      exact hfinal
    · intro e he
      cases hstop e he

variable [DecidableEq ι]

/-- A delivery to the aggregator is one call on it; the blocks behind it do not come back to it. -/
theorem turn_delivery (hf : Feeds srcs a h) {s : Machine ι β σ ε} (hs : SameWiring h s.heap)
    (hagg : (s.heap a).obj = .aggregator inp out toOut toIn process agg) (b : Any β)
    (fuel depth : Nat) :
    SameWiring h (finalState (execute fuel depth a b k s)).heap ∧
      Turn inp out toOut toIn process a k agg (execute fuel depth a b k s)
        (activations fuel depth a b k s) := by
  cases fuel with
  | zero => exact ⟨hs, .apart hagg fun _ hx => absurd hx List.not_mem_nil⟩
  | succ fuel =>
    have hcall : ((finalState (processAny depth a b k s)).heap a).obj =
        .aggregator inp out toOut toIn process
          (agg.processAny inp out toOut toIn process b k s.user).2.1 := by
      rw [finalState_processAny, hagg]
      simp only [Function.update_self]
      rfl
    have hresult : ((s.heap a).obj.processAny b k s.user).1 =
        (agg.processAny inp out toOut toIn process b k s.user).1 := by
      rw [hagg]
      rfl
    have hwire := hs.trans (sameWiring_processAny depth a b k s)
    have hexec := executed fuel depth a b k s
    generalize execute (fuel + 1) depth a b k s = r at hexec
    generalize activations (fuel + 1) depth a b k s = calls at hexec
    cases hexec with
    -- an aggregator is no sink
    | skipped hsink =>
      rw [hagg] at hsink
      cases hsink
    | ended hfinal hstop =>
      rw [hresult] at hstop
      rw [hfinal]
      refine ⟨hwire, ?_⟩
      show Turn inp out toOut toIn process a k agg r ([] ++ [⟨depth, a, b, k, s⟩])
      refine .reached rfl rfl hagg ?_ ?_ ?_ hstop
      · exact fun _ hy => absurd hy List.not_mem_nil
      · exact fun _ hy => absurd hy List.not_mem_nil
      · rw [hfinal]
        exact hcall
    -- what is handed on goes to blocks behind the aggregator
    | @produced output t hok =>
      have hok' := result_of_processAny_ok hok
      rw [hresult] at hok'
      rw [hok, finalState_ok] at hcall hwire
      have hbehind : ∀ c ∈ (s.heap a).deliveries output, Behind srcs a c.1 := by
        intro c hc
        have hedge : Edge h a c.1 := ⟨c.2.2, by
          rw [← hs.nextNodes a]
          exact mem_deliveries hc⟩
        exact ⟨fun heq => hf.outside (hf.feeders a (heq ▸ hedge)), hf.roots a c.1 hedge⟩
      obtain ⟨⟨hwire', hframe⟩, hbelow⟩ := along_frame hf.behind_closed fuel (depth + 1) hbehind
        (⟨hwire, fun _ _ => rfl⟩ : Framed h (Behind srcs a) t t)
      rw [← List.nil_append (_ :: _)]
      refine ⟨hwire', .reached rfl rfl hagg ?_ ?_ ?_ ?_⟩
      · exact fun _ hy => absurd hy List.not_mem_nil
      · exact fun y hy => (hbelow y hy).1
      · rw [hframe a fun ha => ha.1 rfl]
        exact hcall
      · intro e he
        rw [hok'] at he
        cases he

/-- A row of deliveries of which one goes to the aggregator. -/
theorem turn_row (hf : Feeds srcs a h) {s : Machine ι β σ ε} (hs : SameWiring h s.heap)
    (hagg : (s.heap a).obj = .aggregator inp out toOut toIn process agg)
    {ds ds' : List (ι × Any β × Nat)} (hds : ∀ c ∈ ds, Behind srcs a c.1)
    (hds' : ∀ c ∈ ds', Behind srcs a c.1) (b : Any β) (fuel depth : Nat) :
    SameWiring h (finalState (runAlong (execute fuel depth) (ds ++ (a, b, k) :: ds') s)).heap ∧
      Turn inp out toOut toIn process a k agg
        (runAlong (execute fuel depth) (ds ++ (a, b, k) :: ds') s)
        (activationsAlong (execute fuel depth) (activations fuel depth)
          (ds ++ (a, b, k) :: ds') s) := by
  have hself : ¬ Behind srcs a a := fun ha => ha.1 rfl
  have hframed : Framed h (Behind srcs a) s s := ⟨hs, fun _ _ => rfl⟩
  obtain ⟨⟨hwire, hframe⟩, hapart⟩ := along_frame hf.behind_closed fuel depth hds hframed
  -- the deliveries before the one to `a` return, or one of them throws
  rcases along_append (execute fuel depth) (activations fuel depth) ds
    ((a, b, k) :: ds') s with ⟨s₁, hrun, hrest, hacts⟩ | ⟨e, s₁, hrun, hrest, hacts⟩
  · rw [hrun, finalState_ok] at hwire hframe
    have hagg₁ : (s₁.heap a).obj = .aggregator inp out toOut toIn process agg := by
      rw [hframe a hself]
      exact hagg
    obtain ⟨hwire₂, hturn⟩ := turn_delivery (k := k) hf hwire hagg₁ b fuel depth
    rw [hrest, hacts]
    let c : ι × Any β × Nat := (a, b, k)
    have hcons : ∀ r, execute fuel depth c.1 c.2.1 c.2.2 s₁ = r → SameWiring h (finalState
        (runAlong (execute fuel depth) ((a, b, k) :: ds') s₁)).heap ∧
        Turn inp out toOut toIn process a k agg
          (runAlong (execute fuel depth) ((a, b, k) :: ds') s₁)
          (activationsAlong (execute fuel depth) (activations fuel depth)
            ((a, b, k) :: ds') s₁) := by
      intro r hr
      cases r with
      | ok u s₂ =>
        obtain ⟨hrun', hacts'⟩ := along_cons_ok (activations fuel depth) hr ds'
        rw [hr, finalState_ok] at hwire₂
        rw [hr] at hturn
        obtain ⟨⟨hwire₃, hframe'⟩, hapart'⟩ := along_frame hf.behind_closed fuel depth
          hds' (⟨hwire₂, fun _ _ => rfl⟩ : Framed h (Behind srcs a) s₂ s₂)
        rw [hrun', hacts']
        exact ⟨hwire₃, hturn.extend (hframe' a hself) fun y hy => (hapart' y hy).1⟩
      | error e s₂ =>
        obtain ⟨hrun', hacts'⟩ := along_cons_error (activations fuel depth) hr ds'
        rw [hrun', hacts', ← hr]
        exact ⟨hwire₂, hturn⟩
    obtain ⟨hwire₃, hturn'⟩ := hcons _ rfl
    exact ⟨hwire₃, hturn'.prepend fun y hy => (hapart y hy).1⟩
  · rw [hrun, finalState_error] at hwire hframe
    rw [hrest, hacts]
    refine ⟨hwire, .apart ?_ fun y hy => (hapart y hy).1⟩
    rw [finalState_error, hframe a hself]
    exact hagg

/-- One turn of a source. -/
theorem turn_source (hf : Feeds srcs a h) {s : Machine ι β σ ε} (hs : SameWiring h s.heap)
    (hagg : (s.heap a).obj = .aggregator inp out toOut toIn process agg) {src : ι}
    (hk : srcs[k]? = some src) (fuel : Nat) :
    SameWiring h (finalState (execute fuel 0 src .empty 0 s)).heap ∧
      Turn inp out toOut toIn process a k agg (execute fuel 0 src .empty 0 s)
        (activations fuel 0 src .empty 0 s) := by
  have hmem : src ∈ srcs := List.mem_of_getElem? hk
  have hne : a ≠ src := fun heq => hf.outside (heq ▸ hmem)
  cases fuel with
  | zero => exact ⟨hs, .apart hagg fun _ hx => absurd hx List.not_mem_nil⟩
  | succ fuel =>
    have hwire := hs.trans (sameWiring_processAny 0 src .empty 0 s)
    have hkeep := heap_processAny_of_ne 0 hne (.empty : Any β) 0 s
    have hself : ∀ y ∈ ([⟨0, src, .empty, 0, s⟩] : List (Activation ι β σ ε)), y.block ≠ a := by
      intro y hy
      rw [List.mem_singleton.1 hy]
      exact hne.symm
    have hexec := executed fuel 0 src .empty 0 s
    generalize execute (fuel + 1) 0 src .empty 0 s = r at hexec
    generalize activations (fuel + 1) 0 src .empty 0 s = calls at hexec
    cases hexec with
    | skipped => exact ⟨hs, .apart hagg fun _ hx => absurd hx List.not_mem_nil⟩
    | ended hfinal _ =>
      rw [hfinal]
      refine ⟨hwire, .apart ?_ hself⟩
      rw [hfinal, hkeep]
      exact hagg
    | @produced output t hok =>
      rw [hok, finalState_ok] at hwire hkeep
      have hagg' : (t.heap a).obj = .aggregator inp out toOut toIn process agg := by
        rw [hkeep]
        exact hagg
      obtain ⟨before, after, hport, hothers⟩ := hf.port k src hk
      -- the other consumers of the source are behind the aggregator
      have hbehind : ∀ part : List (ι × Nat), part ⊆ before ++ after →
          ∀ d : ι × Any β × Nat, (d.1, d.2.2) ∈ part → Behind srcs a d.1 := by
        intro part hsub d hd
        have hedge : Edge h src d.1 := ⟨d.2.2, by
          rw [hport]
          have hd' := hsub hd
          simp only [List.mem_append, List.mem_cons] at hd' ⊢
          exact hd'.imp_right Or.inr⟩
        exact ⟨hothers _ (hsub hd), hf.roots src d.1 hedge⟩
      have hbefore := hbehind before (List.subset_append_left _ _)
      have hafter := hbehind after (List.subset_append_right _ _)
      rw [← List.singleton_append]
      -- too short a vector ends the row before the aggregator gets its value
      rcases deliveries_split ((hs.nextNodes src).trans hport) output with
        hshort | ⟨ds, b, ds', hsplit, hds, hds'⟩
      · obtain ⟨⟨hwire', hframe⟩, hapart⟩ := along_frame hf.behind_closed fuel (0 + 1)
          (fun d hd => hbefore d (hshort d hd))
          (⟨hwire, fun _ _ => rfl⟩ : Framed h (Behind srcs a) t t)
        refine ⟨hwire', Turn.prepend (.apart ?_ fun y hy => (hapart y hy).1) hself⟩
        rw [hframe a fun ha => ha.1 rfl]
        exact hagg'
      · rw [hsplit]
        obtain ⟨hwire', hturn⟩ := turn_row (k := k) hf hwire hagg'
          (fun d hd => hbefore d (hds d hd)) (fun d hd => hafter d (hds' d hd)) b fuel (0 + 1)
        exact ⟨hwire', hturn.prepend hself⟩

end Turn

end PipelineTools.FlowEngine
