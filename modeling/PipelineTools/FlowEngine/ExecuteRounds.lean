import PipelineTools.FlowEngine.FrontAggregator

/-!
# Rounds of the first node

The turns of the sources of one `Pipeline::execute` follow each other; `RowLaw` states what any
stretch of them does to a round that holds some deliveries, and is proved by induction on the
sources still to run (`row_sources`). An execute that starts with an empty round collects once, and
if all sources deliver in it or none does, the round is empty again afterwards (`execute_idle`).
-/

set_option autoImplicit false

namespace PipelineTools.FlowEngine

open PipelineTools.Library

variable {ι κ : Type} {β : κ → Type} {σ ε : Type}

section Row

variable [DecidableEq κ] [DecidableEq ι] {inp out : Ty κ} {toOut : inp.Val β → out.Val β}
  {toIn : out.Val β → inp.Val β} {process : List (inp.Val β) → Process σ ε (out.Val β)}
  {srcs : List ι} {a : ι} {h : Heap ι β σ ε}

/-- What a stretch of an execute does to a round that holds `l`. -/
structure RowLaw (toOut : inp.Val β → out.Val β) (toIn : out.Val β → inp.Val β)
    (process : List (inp.Val β) → Process σ ε (out.Val β)) (m : Nat) (a : ι)
    (agg : Aggregator (out.Val β)) (l : List (Nat × inp.Val β))
    (r : EStateM.Result (Stop κ ε) (Machine ι β σ ε) Unit)
    (calls : List (Activation ι β σ ε)) : Prop where
  kept : ∀ x ∈ calls, x.block = a → x.dropped = false
  defined : ∀ x ∈ calls, x.block = a → ∀ f, x.outcome.result ≠ .error (.undefined f)
  together : ∀ x ∈ calls, x.block = a → ∀ c, x.outcome.call = some c →
    c.args.Perm ((l ++ received inp a calls).map fun p => .val inp (toIn (toOut p.2)))
  next : ∃ agg', ((finalState r).heap a).obj = .aggregator inp out toOut toIn process agg' ∧
    (received inp a calls = [] → agg' = agg) ∧
    (received inp a calls ≠ [] → (∀ id < m, id ∈ (l ++ received inp a calls).map Prod.fst) →
      HoldsRound toOut m agg' [])

variable {m k : Nat} {agg : Aggregator (out.Val β)} {l : List (Nat × inp.Val β)}
  {r : EStateM.Result (Stop κ ε) (Machine ι β σ ε) Unit} {calls : List (Activation ι β σ ε)}

theorem rowLaw_apart
    (hobj : ((finalState r).heap a).obj = .aggregator inp out toOut toIn process agg)
    (hcalls : ∀ x ∈ calls, x.block ≠ a) : RowLaw toOut toIn process m a agg l r calls where
  kept x hx hxa := absurd hxa (hcalls x hx)
  defined x hx hxa := absurd hxa (hcalls x hx)
  together x hx hxa := absurd hxa (hcalls x hx)
  next := ⟨agg, hobj, fun _ => rfl, fun hne => absurd (received_of_apart inp hcalls) hne⟩

/-- A stretch that does not reach the aggregator may come first. -/
theorem RowLaw.skip (hlaw : RowLaw toOut toIn process m a agg l r calls)
    {pre : List (Activation ι β σ ε)} (hpre : ∀ x ∈ pre, x.block ≠ a) :
    RowLaw toOut toIn process m a agg l r (pre ++ calls) := by
  have hreceived : received inp a (pre ++ calls) = received inp a calls := by
    rw [received_append, received_of_apart inp hpre, List.nil_append]
  refine ⟨?_, ?_, ?_, ?_⟩
  · intro x hx hxa
    rcases List.mem_append.1 hx with hx | hx
    · exact absurd hxa (hpre x hx)
    · exact hlaw.kept x hx hxa
  · intro x hx hxa
    rcases List.mem_append.1 hx with hx | hx
    · exact absurd hxa (hpre x hx)
    · exact hlaw.defined x hx hxa
  · rw [hreceived]
    intro x hx hxa
    rcases List.mem_append.1 hx with hx | hx
    · exact absurd hxa (hpre x hx)
    · exact hlaw.together x hx hxa
  · rw [hreceived]
    exact hlaw.next

/-- A stretch that stores a value in an open round, and what follows. -/
theorem RowLaw.store {agg' : Aggregator (out.Val β)} {v : inp.Val β}
    (hlaw : RowLaw toOut toIn process m a agg' (l ++ [(k, v)]) r calls)
    (hopen : ¬ ∀ id < m, id ∈ (l ++ [(k, v)]).map Prod.fst) {pre : List (Activation ι β σ ε)}
    (hreceived : received inp a pre = [(k, v)])
    (hpre : ∀ x ∈ pre, x.block = a → x.dropped = false ∧ x.outcome.call = none ∧
      ∀ f, x.outcome.result ≠ .error (.undefined f)) :
    RowLaw toOut toIn process m a agg l r (pre ++ calls) := by
  have happend : l ++ received inp a (pre ++ calls) = l ++ [(k, v)] ++ received inp a calls := by
    rw [received_append, hreceived, List.append_assoc]
  have hne : received inp a (pre ++ calls) ≠ [] := by
    rw [received_append, hreceived]
    exact List.cons_ne_nil _ _
  refine ⟨?_, ?_, ?_, ?_⟩
  · intro x hx hxa
    rcases List.mem_append.1 hx with hx | hx
    · exact (hpre x hx hxa).1
    · exact hlaw.kept x hx hxa
  · intro x hx hxa
    rcases List.mem_append.1 hx with hx | hx
    · exact (hpre x hx hxa).2.2
    · exact hlaw.defined x hx hxa
  · rw [happend]
    intro x hx hxa c hc
    rcases List.mem_append.1 hx with hx | hx
    · rw [(hpre x hx hxa).2.1] at hc
      cases hc
    · exact hlaw.together x hx hxa c hc
  · rw [happend]
    obtain ⟨agg'', hobj, -, hfull⟩ := hlaw.next
    refine ⟨agg'', hobj, fun h => absurd h hne, fun _ hall => hfull ?_ hall⟩
    intro hnil
    rw [hnil, List.append_nil] at hall
    exact hopen hall

/-- A stretch that ends with the delivery `x`. -/
theorem rowLaw_last {x : Activation ι β σ ε} (hx : ∀ y ∈ calls, y.block = a → y = x)
    (hkept : x.dropped = false) {res : Outcome β ε × Aggregator (out.Val β) × σ}
    (houtcome : x.outcome = res.1)
    (hreceived : received inp a calls = ((anyCast inp x.input).map (Prod.mk k)).toList)
    (hobj : ((finalState r).heap a).obj = .aggregator inp out toOut toIn process res.2.1)
    (htaken : Taken toOut toIn m k agg l x.input res) :
    RowLaw toOut toIn process m a agg l r calls where
  kept y hy hya := by
    rw [hx y hy hya]
    exact hkept
  defined y hy hya f := by
    rw [hx y hy hya, houtcome]
    exact htaken.defined f
  together y hy hya c hc := by
    rw [hx y hy hya, houtcome] at hc
    rw [hreceived]
    -- only a completed round calls `process`
    cases htaken with
    | rejected hcast => cases hc
    | stored hcast hholds hopen => cases hc
    | completed hcast hholds hfull hdefined hargs =>
      rw [hcast]
      exact hargs c hc
  next := by
    refine ⟨res.2.1, hobj, ?_, ?_⟩
    · intro hnil
      rw [hreceived] at hnil
      cases htaken with
      | rejected hcast => rfl
      | stored hcast hholds hopen => simp [hcast] at hnil
      | completed hcast hholds hfull hdefined hargs => simp [hcast] at hnil
    · intro hne hall
      rw [hreceived] at hne hall
      cases htaken with
      | rejected hcast => simp [hcast] at hne
      | stored hcast hholds hopen =>
        rw [hcast] at hall
        exact absurd hall hopen
      | completed hcast hholds hfull hdefined hargs => exact hholds

omit [DecidableEq κ] [DecidableEq ι] in
theorem not_full_of_lt {V : Type} {l : List (Nat × V)} (hk : k < m) (hl : ∀ p ∈ l, p.1 < k) :
    ¬ ∀ id < m, id ∈ l.map Prod.fst := by
  intro hall
  obtain ⟨p, hp, heq⟩ := List.mem_map.1 (hall k hk)
  exact absurd (hl p hp) (by omega)

/-- The one call on the aggregator in a stretch of calls. -/
theorem single_call {x : Activation ι β σ ε} {before after : List (Activation ι β σ ε)}
    (hx : x.block = a) (hid : x.producerId = k)
    (hobj : (x.machine.heap a).obj = .aggregator inp out toOut toIn process agg)
    (hbefore : ∀ y ∈ before, y.block ≠ a) (hafter : ∀ y ∈ after, y.block ≠ a) :
    x.outcome = (agg.processAny inp out toOut toIn process x.input k x.machine.user).1 ∧
      x.dropped = agg.repeats k ∧ (∀ y ∈ before ++ x :: after, y.block = a → y = x) ∧
      received inp a (before ++ x :: after) = ((anyCast inp x.input).map (Prod.mk k)).toList := by
  refine ⟨?_, ?_, ?_, ?_⟩
  · rw [Activation.outcome]
    rw [hx, hobj, hid]
    rfl
  · rw [Activation.dropped]
    rw [hx, hobj, hid]
  · intro y hy hya
    rcases List.mem_append.1 hy with hy | hy
    · exact absurd hya (hbefore y hy)
    · rcases List.mem_cons.1 hy with rfl | hy
      · rfl
      · exact absurd hya (hafter y hy)
  · rw [received_of_single inp hx hbefore hafter, hid]

/-- The turn of a source that ends the row, by an exception or as the last one. -/
theorem Turn.rowLaw (hturn : Turn inp out toOut toIn process a k agg r calls)
    (hholds : HoldsRound toOut m agg l) (hm : m ≤ 30) (hk : k < m) (hl : ∀ p ∈ l, p.1 < k) :
    RowLaw toOut toIn process m a agg l r calls := by
  cases hturn with
  | apart hobj hcalls => exact rowLaw_apart hobj hcalls
  | @reached before after x hx hid hobj hbefore hafter hfinal hstop =>
    obtain ⟨houtcome, hdropped, hone, hreceived⟩ := single_call hx hid hobj hbefore hafter
    exact rowLaw_last hone (hdropped.trans (hholds.repeats_eq_false hk hl)) houtcome hreceived
      hfinal (taken_processAny hholds hm hk hl _ _)

/-- The turn of a source that returns, and the turns of the sources after it. -/
theorem Turn.rowLaw_append {u : Unit} {t : Machine ι β σ ε}
    (hturn : Turn inp out toOut toIn process a k agg (.ok u t) calls)
    (hholds : HoldsRound toOut m agg l) (hm : m ≤ 30) (hk : k < m) (hl : ∀ p ∈ l, p.1 < k)
    {r' : EStateM.Result (Stop κ ε) (Machine ι β σ ε) Unit} {calls' : List (Activation ι β σ ε)}
    (hrest : ∀ agg' l', (t.heap a).obj = .aggregator inp out toOut toIn process agg' →
      HoldsRound toOut m agg' l' → (∀ p ∈ l', p.1 < k + 1) →
      RowLaw toOut toIn process m a agg' l' r' calls')
    (hlast : k + 1 = m → r' = .ok u t ∧ calls' = []) :
    RowLaw toOut toIn process m a agg l r' (calls ++ calls') := by
  have hl' : ∀ p ∈ l, p.1 < k + 1 := fun p hp => lt_trans (hl p hp) (Nat.lt_succ_self k)
  cases hturn with
  -- this source does not deliver, so the round stays as it was
  | apart hobj hcalls => exact (hrest agg l hobj hholds hl').skip hcalls
  | @reached before after x hx hid hobj hbefore hafter hfinal hstop =>
    obtain ⟨houtcome, hdropped, hone, hreceived⟩ := single_call hx hid hobj hbefore hafter
    have hkept := hdropped.trans (hholds.repeats_eq_false hk hl)
    have htaken : Taken toOut toIn m k agg l x.input
        (agg.processAny inp out toOut toIn process x.input k x.machine.user) :=
      taken_processAny hholds hm hk hl x.input x.machine.user
    generalize agg.processAny inp out toOut toIn process x.input k x.machine.user = res
      at houtcome hfinal hstop htaken
    cases htaken with
    -- a call that throws would have ended the row
    | rejected hcast => cases hstop _ rfl
    | @stored v b agg' user hcast hholds' hopen =>
      refine (hrest agg' (l ++ [(k, v)]) hfinal hholds'
        (lt_of_mem_concat (Nat.lt_succ_self k) hl)).store hopen ?_ ?_
      · rw [hreceived, hcast]
        rfl
      · intro y hy hya
        rw [hone y hy hya]
        exact ⟨hkept, by rw [houtcome], by rw [houtcome]; exact nofun⟩
    | @completed v b hcast hholds' hfull hdefined hargs =>
      -- the round is complete, so this was the last source
      have hlast' : k + 1 = m := by
        by_contra hne
        exact not_full_of_lt (show k + 1 < m by omega)
          (lt_of_mem_concat (Nat.lt_succ_self k) hl) hfull
      obtain ⟨rfl, rfl⟩ := hlast hlast'
      rw [List.append_nil]
      exact rowLaw_last hone hkept houtcome hreceived hfinal
        (.completed hcast hholds' hfull hdefined hargs)

/-- The turns of the sources from the `k`-th on. -/
theorem row_sources (hf : Feeds srcs a h) (hm : srcs.length ≤ 30) (fuel : Nat) :
    ∀ (rest : List ι) (k : Nat) (s : Machine ι β σ ε) (agg : Aggregator (out.Val β))
      (l : List (Nat × inp.Val β)), srcs.drop k = rest → SameWiring h s.heap →
      (s.heap a).obj = .aggregator inp out toOut toIn process agg →
      HoldsRound toOut srcs.length agg l → (∀ p ∈ l, p.1 < k) →
      RowLaw toOut toIn process srcs.length a agg l
        (runAlong (execute fuel 0) (rest.map fun src => (src, .empty, 0)) s)
        (activationsAlong (execute fuel 0) (activations fuel 0)
          (rest.map fun src => (src, .empty, 0)) s) := by
  intro rest
  -- induction on the sources still to come; `l` is what the earlier ones delivered
  induction rest with
  | nil =>
    exact fun k s agg l _ _ hagg _ _ =>
      rowLaw_apart hagg fun _ hx => absurd hx List.not_mem_nil
  | cons src rest ih =>
    intro k s agg l hdrop hs hagg hholds hl
    have hk : k < srcs.length := by
      by_contra hlt
      rw [List.drop_of_length_le (by omega)] at hdrop
      cases hdrop
    have hget : srcs[k]? = some src := by
      rw [← List.head?_drop, hdrop]
      rfl
    have hdrop' : srcs.drop (k + 1) = rest := by
      rw [← List.tail_drop, hdrop]
      rfl
    obtain ⟨hwire, hturn⟩ := turn_source hf hs hagg hget fuel
    let c : ι × Any β × Nat := (src, .empty, 0)
    cases hr : execute fuel 0 src .empty 0 s with
    | error e t =>
      rw [hr] at hturn
      have hc : execute fuel 0 c.1 c.2.1 c.2.2 s = .error e t := hr
      obtain ⟨hrun, hacts⟩ := along_cons_error (activations fuel 0) hc
        (rest.map fun src => (src, .empty, 0))
      rw [List.map_cons, hrun, hacts]
      exact hturn.rowLaw hholds hm hk hl
    | ok u t =>
      rw [hr] at hwire hturn
      have hc : execute fuel 0 c.1 c.2.1 c.2.2 s = .ok u t := hr
      obtain ⟨hrun, hacts⟩ := along_cons_ok (activations fuel 0) hc
        (rest.map fun src => (src, .empty, 0))
      rw [List.map_cons, hrun, hacts]
      refine hturn.rowLaw_append hholds hm hk hl ?_ ?_
      · exact fun agg' l' hobj hholds' hl' => ih (k + 1) t agg' l' hdrop' hwire hobj hholds' hl'
      · intro hlast
        rw [List.drop_of_length_le (by omega)] at hdrop'
        subst hdrop'
        exact ⟨rfl, rfl⟩

/-- Between executes: the sources feed the aggregator at `a`, and its round is empty. -/
structure Idle (toOut : inp.Val β → out.Val β) (toIn : out.Val β → inp.Val β)
    (process : List (inp.Val β) → Process σ ε (out.Val β)) (srcs : List ι) (a : ι)
    (s : Machine ι β σ ε) : Prop where
  feeds : Feeds srcs a s.heap
  round : ∃ agg, (s.heap a).obj = .aggregator inp out toOut toIn process agg ∧
    HoldsRound toOut srcs.length agg []

omit [DecidableEq κ] [DecidableEq ι] in
theorem Feeds.congr {h' : Heap ι β σ ε} (hf : Feeds srcs a h) (hw : SameWiring h h') :
    Feeds srcs a h' where
  outside := hf.outside
  isSource src hsrc := by
    rw [← isSource_shape, (hw src).1, isSource_shape]
    exact hf.isSource src hsrc
  port k src hk := by
    rw [hw.nextNodes src]
    exact hf.port k src hk
  feeders i hi := by
    obtain ⟨id, hid⟩ := hi
    rw [hw.nextNodes i] at hid
    exact hf.feeders i ⟨id, hid⟩
  roots i j hij := by
    obtain ⟨id, hid⟩ := hij
    rw [hw.nextNodes i] at hid
    exact hf.roots i j ⟨id, hid⟩

/-- An execute that starts with an empty round collects once, and leaves an empty round behind if
all sources deliver or none. -/
theorem execute_idle {p : Pipeline ι} (hne : p.sources ≠ []) (hm : p.sources.length ≤ 30)
    (fuel : Nat) {s : Machine ι β σ ε}
    (hs : Idle toOut toIn process p.sources a s) :
    CollectsOnce inp (toIn ∘ toOut) a (p.activations fuel s) ∧
      (AllOrNone p.sources.length (received inp a (p.activations fuel s)) →
        Idle toOut toIn process p.sources a (finalState (p.execute fuel s))) := by
  obtain ⟨agg, hagg, hholds⟩ := hs.round
  have hstarts : (p.starts : List (ι × Any β × Nat)) =
      p.sources.map fun src => (src, .empty, 0) := if_pos hne
  have hrow := row_sources hs.feeds hm fuel p.sources 0 s agg [] List.drop_zero
    (SameWiring.refl s.heap) hagg hholds fun p hp => absurd hp List.not_mem_nil
  have hwire := sameWiring_pipeline p fuel s
  rw [execute_eq_runAlong] at hwire ⊢
  rw [Pipeline.activations]
  rw [hstarts] at hwire ⊢
  refine ⟨⟨hrow.kept, hrow.defined, hrow.together⟩, fun hall => ⟨hs.feeds.congr hwire, ?_⟩⟩
  obtain ⟨agg', hobj, hsame, hfull⟩ := hrow.next
  refine ⟨agg', hobj, ?_⟩
  rcases hall with hall | hnone
  · refine hfull ?_ (by simpa using hall)
    intro hnil
    have h0 := hall 0 (List.length_pos_iff.2 hne)
    rw [hnil] at h0
    cases h0
  · rw [hsame hnone]
    exact hholds

end Row

end PipelineTools.FlowEngine
