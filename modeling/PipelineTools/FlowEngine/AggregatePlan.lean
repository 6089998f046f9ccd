import PipelineTools.FlowEngine.Meaning
import PipelineTools.FlowEngine.FrontBuild

/-!
# Plans that start with an aggregator

An `AggregatePlan` is a pipeline of some sources of one type, an aggregator of their values as first
node, and any modules and sinks behind it. The sources return a value on every call and hand it to
all their consumers, and the aggregator's process does not throw. Nothing is asked of the modules
and sinks. `run_addAggregatePlan` says what adding all blocks in order makes of it: source `k` has
the aggregator as its only consumer and is its producer `k`, and the blocks behind the aggregator
follow one another.

`Gathering` is such a pipeline with a round of the aggregator under way.
-/

set_option autoImplicit false

namespace PipelineTools.FlowEngine

open PipelineTools.Library

variable {ι κ : Type} {β : κ → Type} {σ ε : Type}

/-- Sources, an aggregator of their values, then modules, then sinks. -/
structure AggregatePlan (ι : Type) {κ : Type} (β : κ → Type) (σ : Type) where
  {type : Ty κ}
  sources : List (ι × (σ → type.Val β × σ))
  aggregator : ι
  process : List (type.Val β) → σ → Option (type.Val β) × σ
  modules : List ι
  sinks : List ι

/-- An aggregator of one type with a total process. -/
def plainAggregator (t : Ty κ) (process : List (t.Val β) → σ → Option (t.Val β) × σ)
    (self : Aggregator (t.Val β)) : Obj β σ ε :=
  .aggregator t t id id (fun vs u => (.ok (process vs u).1, (process vs u).2)) self

namespace AggregatePlan

/-- The sources, in the order in which they are added. -/
def sourceIds (p : AggregatePlan ι β σ) : List ι := p.sources.map Prod.fst

/-- All blocks, in the order in which they are added. -/
def ids (p : AggregatePlan ι β σ) : List ι :=
  p.sourceIds ++ p.aggregator :: (p.modules ++ p.sinks)

/-- The blocks of a plan are its sources, its aggregator, its modules and its sinks. -/
structure Placed (p : AggregatePlan ι β σ) (obj : ι → Obj β σ ε) : Prop where
  sources : ∀ src ∈ p.sources, obj src.1 = plainSource p.type src.2
  aggregator : obj p.aggregator = plainAggregator p.type p.process {}
  modules : ∀ i ∈ p.modules, ∃ inp out policy process, obj i = .module inp out policy process
  sinks : ∀ i ∈ p.sinks, ∃ inp process, obj i = .sink inp process

/-- Source `k` feeds the aggregator alone, as its producer `k`, and the rest of the plan follows. -/
structure FeedsAggregator (p : AggregatePlan ι β σ) (h : Heap ι β σ ε) : Prop where
  sources : ∀ k src, p.sources[k]? = some src → (h src.1).nextNodes = [(p.aggregator, k)]
  aggregator : (h p.aggregator).nextNodes = rowTargets p.modules p.sinks
  modules : RowInSequence h p.sinks p.modules

/-- A pipeline built from the plan, whose aggregator holds the deliveries `l` of this round. -/
structure Gathering (p : AggregatePlan ι β σ) (l : List (Nat × p.type.Val β))
    (h : Heap ι β σ ε) : Prop where
  feeds : p.FeedsAggregator h
  sources : ∀ src ∈ p.sources, (h src.1).obj = plainSource p.type src.2
  modules : ∀ i ∈ p.modules, ∃ inp out policy process, (h i).obj = .module inp out policy process
  sinks : ∀ i ∈ p.sinks, ∃ inp process, (h i).obj = .sink inp process
  round : ∃ agg, (h p.aggregator).obj = plainAggregator p.type p.process agg ∧
    HoldsRound id p.sources.length agg l

variable {p : AggregatePlan ι β σ}

/-- The aggregator stands for itself. -/
theorem aggregator_not_mem (hnodup : p.ids.Nodup) :
    p.aggregator ∉ p.sourceIds ∧ p.aggregator ∉ p.modules ∧ p.aggregator ∉ p.sinks := by
  obtain ⟨-, hrest, hdisjoint⟩ := List.nodup_append.1 hnodup
  obtain ⟨hbehind, -⟩ := List.nodup_cons.1 hrest
  refine ⟨?_, ?_, ?_⟩
  · intro hmem
    exact hdisjoint _ hmem _ List.mem_cons_self rfl
  · exact fun hmem => hbehind (List.mem_append_left _ hmem)
  · exact fun hmem => hbehind (List.mem_append_right _ hmem)

/-- A source is none of the blocks behind the aggregator. -/
theorem source_not_mem (hnodup : p.ids.Nodup) {i : ι} (hi : i ∈ p.sourceIds) :
    i ≠ p.aggregator ∧ i ∉ p.modules ∧ i ∉ p.sinks := by
  obtain ⟨-, -, hdisjoint⟩ := List.nodup_append.1 hnodup
  refine ⟨?_, ?_, ?_⟩
  · exact hdisjoint i hi _ List.mem_cons_self
  · intro hmem
    exact hdisjoint i hi i (List.mem_cons_of_mem _ (List.mem_append_left _ hmem)) rfl
  · intro hmem
    exact hdisjoint i hi i (List.mem_cons_of_mem _ (List.mem_append_right _ hmem)) rfl

variable [DecidableEq ι]

/-- A delivery changes the aggregator and no other block. -/
theorem Gathering.update {l l' : List (Nat × p.type.Val β)} {h : Heap ι β σ ε}
    (hs : p.Gathering l h) (hnodup : p.ids.Nodup) {agg : Aggregator (p.type.Val β)}
    (hround : HoldsRound id p.sources.length agg l') :
    p.Gathering l' (Function.update h p.aggregator
      { h p.aggregator with obj := plainAggregator p.type p.process agg }) := by
  obtain ⟨hsource, hmodule, hsink⟩ := aggregator_not_mem hnodup
  have hnext : ∀ i, (Function.update h p.aggregator
      { h p.aggregator with obj := plainAggregator p.type p.process agg } i).nextNodes =
        (h i).nextNodes := by
    intro i
    rcases eq_or_ne i p.aggregator with rfl | hne
    · rw [Function.update_self]
    · rw [Function.update_of_ne hne]
  have hobj : ∀ i, i ≠ p.aggregator → (Function.update h p.aggregator
      { h p.aggregator with obj := plainAggregator p.type p.process agg } i).obj = (h i).obj := by
    intro i hne
    rw [Function.update_of_ne hne]
  refine ⟨⟨?_, ?_, hs.feeds.modules.congr hnext⟩, ?_, ?_, ?_, agg, ?_, hround⟩
  · intro k src hsrc
    rw [hnext]
    exact hs.feeds.sources k src hsrc
  · rw [hnext]
    exact hs.feeds.aggregator
  · intro src hsrc
    rw [hobj _ fun heq => hsource (heq ▸ List.mem_map_of_mem hsrc)]
    exact hs.sources src hsrc
  · intro i hi
    rw [hobj i fun heq => hmodule (heq ▸ hi)]
    exact hs.modules i hi
  · intro i hi
    rw [hobj i fun heq => hsink (heq ▸ hi)]
    exact hs.sinks i hi
  · rw [Function.update_self]

variable [DecidableEq κ] (fuel : Nat)

/-- Adding the sources and the aggregator makes each source a producer of its own. -/
theorem run_addFront (hnodup : p.ids.Nodup) {obj : ι → Obj β σ ε} (hplaced : p.Placed obj) (u : σ) :
    ∃ h, (System.init obj u).run fuel ((p.sourceIds ++ [p.aggregator]).map .add) =
        (List.replicate (p.sourceIds ++ [p.aggregator]).length .returned,
          ⟨{ sources := p.sourceIds, nodes := [p.aggregator] }, { heap := h, user := u }⟩) ∧
      (h p.aggregator).obj =
        plainAggregator p.type p.process { producerCount := p.sources.length } ∧
      (∀ i, i ≠ p.aggregator → (h i).obj = obj i) ∧
      (∀ k src, p.sources[k]? = some src → (h src.1).nextNodes = [(p.aggregator, k)]) ∧
      ∀ i, i ∉ p.sourceIds → (h i).nextNodes = [] := by
  obtain ⟨hsources, -, -⟩ := List.nodup_append.1 hnodup
  let h₀ : Heap ι β σ ε := fun i => { obj := obj i }
  let h := p.sourceIds.foldl (fun h src => addConsumer h src p.aggregator) h₀
  let S₁ : System ι β σ ε := ⟨{ sources := p.sourceIds }, { heap := h₀, user := u }⟩
  -- the sources are only put in the list
  have hfirst : (System.init obj u).run fuel (p.sourceIds.map .add) =
      (List.replicate p.sourceIds.length .returned, S₁) := by
    apply run_addSources fuel p.sourceIds (System.init obj u) rfl
    intro i hi
    obtain ⟨src, hsrc, rfl⟩ := List.mem_map.1 hi
    exact ⟨p.type, src.2, hplaced.sources src hsrc⟩
  have hagg : (h₀ p.aggregator).obj = plainAggregator p.type p.process {} := hplaced.aggregator
  -- the aggregator is wired behind each of them
  have hsecond : S₁.step fuel (.add p.aggregator) = (.returned,
      ⟨{ sources := p.sourceIds, nodes := [p.aggregator] }, { heap := h, user := u }⟩) := by
    simp only [System.step, Pipeline.add, S₁, hagg, plainAggregator, Pipeline.wire,
      List.getLast?_nil, List.nil_append]
    rfl
  obtain ⟨hself, hothers, hport, hkeep⟩ := foldl_addConsumer p.sourceIds h₀ {} hagg hsources
  refine ⟨h, ?_, ?_, hothers, ?_, hkeep⟩
  · rw [List.length_append, List.replicate_add, List.map_append, run_append, hfirst,
      List.map_singleton, System.run, hsecond]
    rfl
  · refine hself.trans ?_
    rw [sourceIds, List.length_map, Nat.zero_add]
    rfl
  · intro k src hsrc
    have hk : p.sourceIds[k]? = some src.1 := by
      rw [sourceIds, List.getElem?_map, hsrc]
      rfl
    have hnext := hport k src.1 hk
    rw [List.nil_append, Nat.zero_add] at hnext
    exact hnext

/-- Adding all blocks of the plan wires it, with nothing in the aggregator. -/
theorem run_addAggregatePlan (hnodup : p.ids.Nodup) {obj : ι → Obj β σ ε} (hplaced : p.Placed obj)
    (u : σ) :
    ∃ nodes h, (System.init obj u).run fuel (p.ids.map .add) =
        (List.replicate p.ids.length .returned,
          ⟨{ sources := p.sourceIds, nodes := nodes }, { heap := h, user := u }⟩) ∧
      p.Gathering [] h := by
  obtain ⟨hsource, hmodule, hsink⟩ := aggregator_not_mem hnodup
  obtain ⟨h₁, hfront, hself, hothers, hport, hfree⟩ := run_addFront fuel hnodup hplaced u
  have hbehind : (p.aggregator :: p.modules).Nodup := by
    obtain ⟨-, hrest, -⟩ := List.nodup_append.1 hnodup
    exact List.Nodup.of_append_left (by rw [List.cons_append]; exact hrest)
  have hfresh : ∀ i ∈ p.aggregator :: p.modules, (h₁ i).nextNodes = [] := by
    intro i hi
    apply hfree
    intro hmem
    obtain ⟨hne, hnot, -⟩ := source_not_mem hnodup hmem
    rcases List.mem_cons.1 hi with heq | hi
    · exact hne heq
    · exact hnot hi
  have hmodules : ∀ i ∈ p.modules, ∃ inp out policy process,
      (h₁ i).obj = .module inp out policy process := by
    intro i hi
    rw [hothers i fun heq => hmodule (heq ▸ hi)]
    exact hplaced.modules i hi
  have hsinks : ∀ i ∈ p.sinks, ∃ inp process, (h₁ i).obj = .sink inp process := by
    intro i hi
    rw [hothers i fun heq => hsink (heq ▸ hi)]
    exact hplaced.sinks i hi
  obtain ⟨nodes, h, hrest, hobjs, htargets, hwired, hother⟩ := run_addRow fuel p.sinks p.modules
    ⟨{ sources := p.sourceIds, nodes := [p.aggregator] }, { heap := h₁, user := u }⟩
    hbehind hfresh hmodules hsinks
  have hobj : ∀ i, (h i).obj = (h₁ i).obj := hobjs
  refine ⟨nodes, h, ?_, ⟨?_, ?_, hwired⟩, ?_, ?_, ?_, _, (hobj _).trans hself, ?_⟩
  · have hids : p.ids = (p.sourceIds ++ [p.aggregator]) ++ (p.modules ++ p.sinks) := by
      rw [ids, List.append_assoc]
      rfl
    rw [hids, List.length_append, List.replicate_add, List.map_append, run_append, hfront]
    simp only [hrest]
  -- what is added behind the aggregator does not touch the sources
  · intro k src hsrc
    have hmem : src.1 ∈ p.sourceIds := List.mem_map_of_mem (List.mem_of_getElem? hsrc)
    obtain ⟨hne, hnot, -⟩ := source_not_mem hnodup hmem
    rw [hother src.1 fun hmem => (List.mem_cons.1 hmem).elim hne hnot]
    exact hport k src hsrc
  · exact htargets p.aggregator List.mem_cons_self
  · intro src hsrc
    rw [hobj, hothers _ fun heq => hsource (heq ▸ List.mem_map_of_mem hsrc)]
    exact hplaced.sources src hsrc
  · simpa only [hobj] using hmodules
  · simpa only [hobj] using hsinks
  · exact ⟨rfl, by simp, .refl _, fun hne => absurd rfl hne⟩

end AggregatePlan

end PipelineTools.FlowEngine
