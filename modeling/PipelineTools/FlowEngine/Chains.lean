import PipelineTools.FlowEngine.QueueEnds
import PipelineTools.FlowEngine.Wiring
import Mathlib.Data.List.Chain
import Mathlib.Data.List.GetD

/-!
# Chains of pipelines

A chain is a pipeline with sources and no sinks, then pipelines with neither, then one with sinks
and no sources, where each consumes the type the one before it produces. While a chain is being
added the last queue of the mission waits, unused, for the next pipeline of the chain, and its
element type is the output type of the pipeline added last; `Ready` is this invariant. With it no
call of `add` throws (`Chain.build_ok`). Who holds the queues then follows from the requests of a
chain, which alternate between the two ends (`Chain.holds_iff`).
-/

set_option autoImplicit false

namespace PipelineTools.FlowEngine

open PipelineTools.Library PipelineTools.Queues

variable {ι κ : Type} {β : κ → Type} {σ ε : Type}

namespace AddArgs

/-- The input type of a pipeline without sources. -/
def inputType (a : AddArgs ι) (obj : ι → Obj β (Shared β σ) ε) : Option (Ty κ) :=
  (a.nodes ++ a.sinks).head?.bind fun i => (obj i).inputType

/-- The output type of a pipeline without sinks. -/
def outputType (a : AddArgs ι) (obj : ι → Obj β (Shared β σ) ε) : Option (Ty κ) :=
  (a.sources ++ a.nodes).getLast?.bind fun i => (obj i).outputType

/-- The concepts of the three tuples that `Mission::add` takes. -/
structure WellKinded (a : AddArgs ι) (obj : ι → Obj β (Shared β σ) ε) : Prop where
  sources : ∀ i ∈ a.sources, (obj i).isSource = true
  nodes : ∀ i ∈ a.nodes, (obj i).isNode = true
  sinks : ∀ i ∈ a.sinks, (obj i).isSink = true

end AddArgs

/-- A chain of at least two pipelines. -/
structure Chain (obj : ι → Obj β (Shared β σ) ε) where
  first : AddArgs ι
  middle : List (AddArgs ι)
  last : AddArgs ι
  first_ends : first.sources ≠ [] ∧ first.sinks = []
  middle_ends : ∀ a ∈ middle, a.sources = [] ∧ a.nodes ≠ [] ∧ a.sinks = []
  last_ends : last.sources = [] ∧ last.sinks ≠ []
  kinds : ∀ a ∈ first :: (middle ++ [last]), a.WellKinded obj
  typed : (first :: (middle ++ [last])).IsChain fun a b => a.outputType obj = b.inputType obj

/-- The calls of `Mission::add` that add a chain. -/
def Chain.calls {obj : ι → Obj β (Shared β σ) ε} (c : Chain obj) : List (AddArgs ι) :=
  c.first :: (c.middle ++ [c.last])

/-! ## No call throws -/

/-- The heap holds the caller's blocks. -/
def SameBlocks (obj : ι → Obj β (Shared β σ) ε) (h : Heap (Addr ι) β (Shared β σ) ε) : Prop :=
  ∀ i, (h (.given i)).obj.shape = (obj i).shape

/-- All queues are used, except for a last one of the type `t`, if there is one. -/
def Ready (m : Mission ι κ) : Option (Ty κ) → Prop
  | none => ∀ w ∈ m.queues, w.used = true
  | some t => ∃ qs, m.queues = qs ++ [{ elem := t }] ∧ ∀ w ∈ qs, w.used = true

theorem inputType_shape (obj : Obj β σ ε) : obj.shape.inputType = obj.inputType := by
  cases obj <;> rfl

section Add

variable [DecidableEq ι] [DecidableEq κ] {obj : ι → Obj β (Shared β σ) ε}
  {S : MissionState ι β σ ε}

omit [DecidableEq ι] in
theorem getOrCreateQueue_creates (h : Ready S.mission none) (t : Ty κ) :
    ∃ q S', Mission.getOrCreateQueue t S = .ok q S' ∧ Ready S'.mission (some t) ∧
      S'.heap = S.heap := by
  have hcreate : Mission.getOrCreateQueue t S = Mission.createQueue t S := by
    rw [Mission.getOrCreateQueue]
    cases hlast : S.mission.queues.getLast? with
    | none => rfl
    | some back => exact if_pos (h back (List.mem_of_getLast? hlast))
  exact ⟨_, _, hcreate, ⟨S.mission.queues, rfl, h⟩, rfl⟩

omit [DecidableEq ι] in
theorem getOrCreateQueue_takes {t : Ty κ} (h : Ready S.mission (some t)) :
    ∃ q S', Mission.getOrCreateQueue t S = .ok q S' ∧ Ready S'.mission none ∧
      S'.heap = S.heap := by
  obtain ⟨qs, hqs, hused⟩ := h
  have hlast : S.mission.queues.getLast? = some { elem := t } := by
    rw [hqs, List.getLast?_concat]
  refine ⟨S.mission.queues.length - 1, { S with mission := { S.mission with
    queues := S.mission.queues.dropLast ++ [{ elem := t, used := true }] } }, ?_, ?_, rfl⟩
  · simp [Mission.getOrCreateQueue, hlast]
  · intro w hw
    rcases List.mem_append.1 hw with hw | hw
    · rw [hqs, List.dropLast_concat] at hw
      exact hused w hw
    · rw [List.mem_singleton.1 hw]

/-- A queue block takes the waiting queue, or leaves a new one to the next pipeline. -/
theorem makeQueueEnd_ok (kind : QueueEnd) {t : Ty κ} {next : Option (Ty κ)}
    (hS : SameBlocks obj S.heap)
    (hqueue : ∃ q S', Mission.getOrCreateQueue t S = .ok q S' ∧ Ready S'.mission next ∧
      S'.heap = S.heap) :
    ∃ f S', Mission.makeQueueEnd kind (some t) S = .ok f S' ∧ Ready S'.mission next ∧
      SameBlocks obj S'.heap ∧ ∃ q, (S'.heap f).obj = queueBlock t q kind := by
  obtain ⟨q, S₁, hget, hready, hheap⟩ := hqueue
  have hmake : Mission.makeQueueEnd kind (some t) S = Mission.makeBlock ⟨kind, t, q⟩ S₁ :=
    bind_ok hget
  refine ⟨_, _, hmake, hready, ?_, q, ?_⟩
  · intro i
    simp [hheap, hS i]
  · simp

omit [DecidableEq κ] in
theorem applyFlows_cons {f : Addr ι} {fs : List (Addr ι)} {p p' : Pipeline (Addr ι)}
    {h' : Heap (Addr ι) β (Shared β σ) ε} (hadd : p.add S.heap f = (none, p', h')) :
    Mission.applyFlows p (f :: fs) S = Mission.applyFlows p' fs { S with heap := h' } := by
  simp only [Mission.applyFlows, hadd]

omit [DecidableEq κ] in
/-- Sources may be added while there is no node; they change no block. -/
theorem applyFlows_sources (fs : List (Addr ι)) {p : Pipeline (Addr ι)} (hp : p.nodes = [])
    (hfs : ∀ f ∈ fs, (S.heap f).obj.isSource = true) :
    ∃ p', Mission.applyFlows p fs S = .ok p' S ∧ p'.nodes = [] := by
  -- induction on the sources: `add` accepts them as long as there is no node
  induction fs generalizing p with
  | nil => exact ⟨p, rfl, hp⟩
  | cons f fs ih =>
    obtain ⟨hf, hrest⟩ := List.forall_mem_cons.1 hfs
    have hadd : p.add S.heap f = (none, { p with sources := p.sources ++ [f] }, S.heap) := by
      rw [Pipeline.add]
      cases hobj : (S.heap f).obj with
      | source out policy process => exact if_neg (not_not.2 hp)
      | _ => rw [hobj] at hf; cases hf
    obtain ⟨p', happly, hp'⟩ := ih (p := { p with sources := p.sources ++ [f] }) hp hrest
    exact ⟨p', (applyFlows_cons hadd).trans happly, hp'⟩

omit [DecidableEq κ] in
/-- Modules, aggregators and sinks may always be added. -/
theorem applyFlows_consumers (fs : List (Addr ι)) (p : Pipeline (Addr ι))
    (hfs : ∀ f ∈ fs, (S.heap f).obj.isNode = true ∨ (S.heap f).obj.isSink = true) :
    ∃ p' S', Mission.applyFlows p fs S = .ok p' S' ∧
      ∀ x, (S'.heap x).obj.shape = (S.heap x).obj.shape := by
  -- induction on the blocks: wiring keeps the class of those still to come
  induction fs generalizing p S with
  | nil => exact ⟨p, S, rfl, fun x => rfl⟩
  | cons f fs ih =>
    obtain ⟨hf, hrest⟩ := List.forall_mem_cons.1 hfs
    obtain ⟨p₁, hadd⟩ : ∃ p₁, p.add S.heap f = (none, p₁, p.wire S.heap f) := by
      rw [Pipeline.add]
      cases hobj : (S.heap f).obj with
      | «module» inp out policy process => exact ⟨_, rfl⟩
      | aggregator inp out toOut toIn process self => exact ⟨_, rfl⟩
      | sink inp process => exact ⟨_, rfl⟩
      | source out policy process =>
        rw [hobj] at hf
        rcases hf with hf | hf <;> cases hf
      | other policy processAny =>
        rw [hobj] at hf
        rcases hf with hf | hf <;> cases hf
    have hkept : ∀ g ∈ fs, ((p.wire S.heap f) g).obj.isNode = true ∨
        ((p.wire S.heap f) g).obj.isSink = true := by
      intro g hg
      rw [← isNode_shape, ← isSink_shape, shape_wire, isNode_shape, isSink_shape]
      exact hrest g hg
    obtain ⟨p', S', happly, hshape⟩ := ih (S := { S with heap := p.wire S.heap f }) p₁ hkept
    refine ⟨p', S', (applyFlows_cons hadd).trans happly, ?_⟩
    intro x
    exact (hshape x).trans (shape_wire p S.heap f x)

omit [DecidableEq ι] [DecidableEq κ] in
theorem SameBlocks.inputType (hS : SameBlocks obj S.heap) (flows : List ι) :
    Mission.inputTypeFromFirstFlow S.heap flows = flows.head?.bind fun i => (obj i).inputType := by
  have hsame : (fun i => (S.heap (.given i)).obj.inputType) = fun i => (obj i).inputType := by
    funext i
    rw [← inputType_shape, hS i, inputType_shape]
  rw [Mission.inputTypeFromFirstFlow, hsame]

omit [DecidableEq ι] [DecidableEq κ] in
theorem SameBlocks.outputType (hS : SameBlocks obj S.heap) (flows : List ι) :
    Mission.outputTypeFromLastFlow S.heap flows =
      flows.getLast?.bind fun i => (obj i).outputType := by
  have hsame : (fun i => (S.heap (.given i)).obj.outputType) = fun i => (obj i).outputType := by
    funext i
    rw [← outputType_shape, hS i, outputType_shape]
  rw [Mission.outputTypeFromLastFlow, hsame]

/-- What the mission must wait for when a pipeline is added. -/
def AddArgs.awaits (a : AddArgs ι) (obj : ι → Obj β (Shared β σ) ε) : Option (Ty κ) :=
  if a.sources = [] then a.inputType obj else none

/-- What the mission waits for when a pipeline has been added. -/
def AddArgs.leaves (a : AddArgs ι) (obj : ι → Obj β (Shared β σ) ε) : Option (Ty κ) :=
  if a.sinks = [] then a.outputType obj else none

theorem addSources_ok {a : AddArgs ι} (ha : a.WellKinded obj) (hS : SameBlocks obj S.heap)
    (hin : a.sources = [] → a.inputType obj ≠ none) (hready : Ready S.mission (a.awaits obj)) :
    ∃ p S', Mission.addSources a {} S = .ok p S' ∧ Ready S'.mission none ∧
      SameBlocks obj S'.heap := by
  -- without sources the waiting queue gets its `QueueSource`
  by_cases hnil : a.sources = []
  · obtain ⟨t, ht⟩ := Option.ne_none_iff_exists'.1 (hin hnil)
    rw [AddArgs.awaits, if_pos hnil, ht] at hready
    obtain ⟨src, S₁, hsrc, hready₁, hS₁, q, hobj⟩ :=
      makeQueueEnd_ok .source hS (getOrCreateQueue_takes hready)
    obtain ⟨p, happly, -⟩ := applyFlows_sources (S := S₁) [src] (p := {}) rfl (by
      intro f hf
      rw [List.mem_singleton.1 hf, hobj]
      rfl)
    refine ⟨p, S₁, ?_, hready₁, hS₁⟩
    have htype : Mission.inputTypeFromFirstFlow S.heap (a.nodes ++ a.sinks) = some t := by
      rw [hS.inputType]
      exact ht
    have hmake : Mission.makeQueueSource (a.nodes ++ a.sinks) S = .ok src S₁ := by
      rw [← hsrc, ← htype]
      rfl
    rw [Mission.addSources, if_neg (not_not.2 hnil)]
    exact (bind_ok hmake).trans happly
  · rw [AddArgs.awaits, if_neg hnil] at hready
    obtain ⟨p, happly, -⟩ := applyFlows_sources (S := S) (a.sources.map .given) (p := {}) rfl (by
      intro f hf
      obtain ⟨i, hi, rfl⟩ := List.mem_map.1 hf
      rw [← isSource_shape, hS i, isSource_shape]
      exact ha.sources i hi)
    refine ⟨p, S, ?_, hready, hS⟩
    rw [Mission.addSources, if_pos hnil]
    exact happly

theorem addSinks_ok {a : AddArgs ι} (ha : a.WellKinded obj) (hS : SameBlocks obj S.heap)
    (hout : a.sinks = [] → a.outputType obj ≠ none) (hready : Ready S.mission none)
    (p : Pipeline (Addr ι)) :
    ∃ p' S', Mission.addSinks a p S = .ok p' S' ∧ Ready S'.mission (a.leaves obj) ∧
      SameBlocks obj S'.heap := by
  -- without sinks a new queue gets its `QueueSink`
  by_cases hnil : a.sinks = []
  · obtain ⟨t, ht⟩ := Option.ne_none_iff_exists'.1 (hout hnil)
    obtain ⟨snk, S₁, hsnk, hready₁, hS₁, q, hobj⟩ :=
      makeQueueEnd_ok .sink hS (getOrCreateQueue_creates hready t)
    obtain ⟨p', S', happly, hshape⟩ := applyFlows_consumers (S := S₁) [snk] p (by
      intro f hf
      rw [List.mem_singleton.1 hf, hobj]
      exact .inr rfl)
    refine ⟨p', S', ?_, ?_, fun i => (hshape (.given i)).trans (hS₁ i)⟩
    · have htype : Mission.outputTypeFromLastFlow S.heap (a.sources ++ a.nodes) = some t := by
        rw [hS.outputType]
        exact ht
      have hmake : Mission.makeQueueSink (a.sources ++ a.nodes) S = .ok snk S₁ := by
        rw [← hsnk, ← htype]
        rfl
      rw [Mission.addSinks, if_neg (not_not.2 hnil)]
      exact (bind_ok hmake).trans happly
    · rw [AddArgs.leaves, if_pos hnil, ht, mission_applyFlows happly]
      exact hready₁
  · obtain ⟨p', S', happly, hshape⟩ := applyFlows_consumers (S := S) (a.sinks.map .given) p (by
      intro f hf
      obtain ⟨i, hi, rfl⟩ := List.mem_map.1 hf
      right
      rw [← isSink_shape, hS i, isSink_shape]
      exact ha.sinks i hi)
    refine ⟨p', S', ?_, ?_, fun i => (hshape (.given i)).trans (hS i)⟩
    · rw [Mission.addSinks, if_pos hnil]
      exact happly
    · rw [AddArgs.leaves, if_neg hnil, mission_applyFlows happly]
      exact hready

/-- A pipeline is added without an exception when the mission waits for what it consumes. -/
theorem add_ok {a : AddArgs ι} (ha : a.WellKinded obj) (hS : SameBlocks obj S.heap)
    (hin : a.sources = [] → a.inputType obj ≠ none) (hout : a.sinks = [] → a.outputType obj ≠ none)
    (hready : Ready S.mission (a.awaits obj)) :
    ∃ S', Mission.add a S = .ok () S' ∧ Ready S'.mission (a.leaves obj) ∧
      SameBlocks obj S'.heap := by
  obtain ⟨p₁, S₁, hsources, hready₁, hS₁⟩ := addSources_ok ha hS hin hready
  obtain ⟨p₂, S₂, hnodes, hshape⟩ := applyFlows_consumers (S := S₁) (a.nodes.map .given) p₁ (by
    intro f hf
    obtain ⟨i, hi, rfl⟩ := List.mem_map.1 hf
    left
    rw [← isNode_shape, hS₁ i, isNode_shape]
    exact ha.nodes i hi)
  rw [← mission_applyFlows hnodes] at hready₁
  obtain ⟨p₃, S₃, hsinks, hready₃, hS₃⟩ :=
    addSinks_ok ha (fun i => (hshape (.given i)).trans (hS₁ i)) hout hready₁ p₂
  refine ⟨_, (bind_ok hsources).trans ((bind_ok hnodes).trans (bind_ok hsinks)), ?_, hS₃⟩
  exact hready₃

omit [DecidableEq ι] [DecidableEq κ] in
theorem AddArgs.WellKinded.inputType_ne_none {a : AddArgs ι} (ha : a.WellKinded obj)
    (hne : a.nodes ++ a.sinks ≠ []) : a.inputType obj ≠ none := by
  obtain ⟨i, rest, hsplit⟩ := List.exists_cons_of_ne_nil hne
  have hi : (obj i).isNode = true ∨ (obj i).isSink = true := by
    rcases List.mem_append.1 (hsplit ▸ List.mem_cons_self : i ∈ a.nodes ++ a.sinks) with hi | hi
    · exact .inl (ha.nodes i hi)
    · exact .inr (ha.sinks i hi)
  rw [AddArgs.inputType, hsplit, List.head?_cons, Option.bind_some]
  intro hnone
  cases hobj : obj i <;> simp [hobj, Obj.inputType, Obj.isNode, Obj.isSink] at hi hnone

omit [DecidableEq ι] [DecidableEq κ] in
theorem AddArgs.WellKinded.outputType_ne_none {a : AddArgs ι} (ha : a.WellKinded obj)
    (hne : a.sources ++ a.nodes ≠ []) : a.outputType obj ≠ none := by
  have hlast := List.getLast?_eq_some_getLast hne
  generalize (a.sources ++ a.nodes).getLast hne = i at hlast
  have hi : (obj i).isSource = true ∨ (obj i).isNode = true := by
    rcases List.mem_append.1 (List.mem_of_getLast? hlast) with hi | hi
    · exact .inl (ha.sources i hi)
    · exact .inr (ha.nodes i hi)
  rw [AddArgs.outputType, hlast, Option.bind_some]
  intro hnone
  cases hobj : obj i <;> simp [hobj, Obj.outputType, Obj.isSource, Obj.isNode] at hi hnone

/-- The rest of a chain is added while the mission waits for what `prev` leaves. -/
theorem rest_ok {middle : List (AddArgs ι)} {prev last : AddArgs ι}
    (hmiddle : ∀ a ∈ middle, a.sources = [] ∧ a.nodes ≠ [] ∧ a.sinks = [])
    (hlast : last.sources = [] ∧ last.sinks ≠ [])
    (hkinds : ∀ a ∈ middle ++ [last], a.WellKinded obj)
    (htyped : (prev :: (middle ++ [last])).IsChain fun a b => a.outputType obj = b.inputType obj)
    (hS : SameBlocks obj S.heap) (hready : Ready S.mission (prev.outputType obj)) :
    ∃ S', Mission.build (middle ++ [last]) S = .ok () S' ∧ Ready S'.mission none ∧
      SameBlocks obj S'.heap := by
  -- induction on the pipelines between the first and the last
  induction middle generalizing prev S with
  | nil =>
    have hlastKinds := hkinds last (List.mem_singleton_self last)
    have hawaits : last.awaits obj = prev.outputType obj := by
      rw [AddArgs.awaits, if_pos hlast.1]
      exact (List.isChain_cons_cons.1 htyped).1.symm
    obtain ⟨S', hadd, hready', hS'⟩ := add_ok hlastKinds hS
      (fun _ => hlastKinds.inputType_ne_none (by simp [hlast.2])) (fun h => absurd h hlast.2)
      (by rw [hawaits]; exact hready)
    rw [AddArgs.leaves, if_neg hlast.2] at hready'
    exact ⟨S', bind_ok hadd, hready', hS'⟩
  | cons a middle ih =>
    obtain ⟨⟨hsources, hnodes, hsinks⟩, hmiddle⟩ := List.forall_mem_cons.1 hmiddle
    obtain ⟨haKinds, hkinds⟩ := List.forall_mem_cons.1 hkinds
    obtain ⟨htype, htyped⟩ := List.isChain_cons_cons.1 htyped
    have hawaits : a.awaits obj = prev.outputType obj := by
      rw [AddArgs.awaits, if_pos hsources]
      exact htype.symm
    obtain ⟨S₁, hadd, hready₁, hS₁⟩ := add_ok haKinds hS
      (fun _ => haKinds.inputType_ne_none (by simp [hnodes]))
      (fun _ => haKinds.outputType_ne_none (by simp [hnodes])) (by rw [hawaits]; exact hready)
    rw [AddArgs.leaves, if_pos hsinks] at hready₁
    obtain ⟨S', hrest, hready', hS'⟩ := ih hmiddle hkinds htyped hS₁ hready₁
    exact ⟨S', (bind_ok hadd).trans hrest, hready', hS'⟩

/-- A chain is added without an exception, and leaves no queue waiting. -/
theorem Chain.build_ok (c : Chain obj) (hS : SameBlocks obj S.heap)
    (hready : Ready S.mission none) :
    ∃ S', Mission.build c.calls S = .ok () S' ∧ Ready S'.mission none ∧
      SameBlocks obj S'.heap := by
  obtain ⟨hsources, hsinks⟩ := c.first_ends
  obtain ⟨hfirstKinds, hkinds⟩ := List.forall_mem_cons.1 c.kinds
  obtain ⟨S₁, hadd, hready₁, hS₁⟩ := add_ok hfirstKinds hS (fun h => absurd h hsources)
    (fun _ => hfirstKinds.outputType_ne_none (by simp [hsources]))
    (by rw [AddArgs.awaits, if_neg hsources]; exact hready)
  rw [AddArgs.leaves, if_pos hsinks] at hready₁
  obtain ⟨S', hrest, hready', hS'⟩ :=
    rest_ok c.middle_ends c.last_ends hkinds c.typed hS₁ hready₁
  exact ⟨S', (bind_ok hadd).trans hrest, hready', hS'⟩

omit [DecidableEq ι] [DecidableEq κ] in
theorem sameBlocks_init (queueType : QueueType) :
    SameBlocks obj (MissionState.init queueType obj).heap := fun _ => rfl

omit [DecidableEq ι] [DecidableEq κ] in
theorem ready_init (queueType : QueueType) :
    Ready (MissionState.init queueType obj).mission none := by
  intro w hw
  cases hw

/-- The calls that add chains, one chain after the other. -/
def chainCalls (chains : List (Chain obj)) : List (AddArgs ι) := chains.flatMap Chain.calls

theorem build_append (calls calls' : List (AddArgs ι)) {S S' : MissionState ι β σ ε}
    (h : Mission.build calls S = .ok () S') :
    Mission.build (calls ++ calls') S = Mission.build calls' S' := by
  induction calls generalizing S with
  | nil =>
    cases h
    rfl
  | cons a calls ih =>
    obtain ⟨_, S₁, hadd, hrest⟩ := bind_eq_ok_iff.1 h
    exact (bind_ok hadd).trans (ih hrest)

theorem chains_build_ok (chains : List (Chain obj)) (hS : SameBlocks obj S.heap)
    (hready : Ready S.mission none) :
    ∃ S', Mission.build (chainCalls chains) S = .ok () S' ∧ Ready S'.mission none ∧
      SameBlocks obj S'.heap := by
  induction chains generalizing S with
  | nil => exact ⟨S, rfl, hready, hS⟩
  | cons c chains ih =>
    obtain ⟨S₁, hchain, hready₁, hS₁⟩ := c.build_ok hS hready
    obtain ⟨S', hrest, hready', hS'⟩ := ih hS₁ hready₁
    exact ⟨S', (build_append _ _ hchain).trans hrest, hready', hS'⟩

end Add

/-! ## Who holds the queues of a chain -/

section Holders

variable {obj : ι → Obj β (Shared β σ) ε}

/-- The number of queues that chains need: one between two consecutive pipelines of each. -/
def queueCount (chains : List (Chain obj)) : Nat :=
  (chains.map fun c => c.calls.length - 1).sum

theorem requestCount_middle {middle : List (AddArgs ι)}
    (h : ∀ a ∈ middle, a.requests = [.source, .sink]) :
    requestCount middle = 2 * middle.length := by
  induction middle with
  | nil => rfl
  | cons a middle ih =>
    obtain ⟨ha, hrest⟩ := List.forall_mem_cons.1 h
    rw [requestCount_cons, ha, ih hrest]
    simp only [List.length_cons, List.length_nil]
    omega

/-- The requests before a call and its own are requests of the whole list. -/
theorem requestCount_take_le {calls : List (AddArgs ι)} {j : Nat} {a : AddArgs ι}
    (ha : calls[j]? = some a) :
    requestCount (calls.take j) + a.requests.length ≤ requestCount calls := by
  induction calls generalizing j with
  | nil => cases ha
  | cons b calls ih =>
    rw [requestCount_cons]
    cases j with
    | zero =>
      rw [List.getElem?_cons_zero, Option.some.injEq] at ha
      have hnone : requestCount ([] : List (AddArgs ι)) = 0 := rfl
      rw [ha, List.take_zero, hnone]
      omega
    | succ j =>
      have hrest := ih ha
      rw [List.take_succ_cons, requestCount_cons]
      omega

namespace Chain

variable (c : Chain obj)

theorem calls_length : c.calls.length = c.middle.length + 2 := by
  rw [calls, List.length_cons, List.length_append, List.length_singleton]

theorem requests_first : c.first.requests = [.sink] := by
  rw [AddArgs.requests, if_neg c.first_ends.1, if_pos c.first_ends.2]
  rfl

theorem requests_middle {a : AddArgs ι} (ha : a ∈ c.middle) : a.requests = [.source, .sink] := by
  obtain ⟨hsources, -, hsinks⟩ := c.middle_ends a ha
  rw [AddArgs.requests, if_pos hsources, if_pos hsinks]
  rfl

theorem requests_last : c.last.requests = [.source] := by
  rw [AddArgs.requests, if_pos c.last_ends.1, if_neg c.last_ends.2]
  rfl

theorem requestCount_calls : requestCount c.calls = 2 * (c.calls.length - 1) := by
  rw [c.calls_length, calls, requestCount_cons, requestCount_append, c.requests_first,
    requestCount_middle (fun a => c.requests_middle), requestCount_cons, c.requests_last]
  simp [requestCount]
  omega

/-- Pipeline `i` of a chain writes to queue `i` of the chain and reads from queue `i - 1`. -/
theorem mem_ends_iff {i : Nat} {a : AddArgs ι} (ha : c.calls[i]? = some a) {base q : Nat}
    {kind : QueueEnd} :
    (kind, q) ∈ a.ends (2 * base + requestCount (c.calls.take i)) ↔
      (kind = .sink ∧ i + 1 < c.calls.length ∧ q = base + i) ∨
        (kind = .source ∧ 0 < i ∧ q + 1 = base + i) := by
  have hlength := c.calls_length
  cases i with
  | zero =>
    obtain rfl : c.first = a := Option.some.inj ha
    have hhalf : 2 * base / 2 = base := by omega
    simp [AddArgs.ends, c.requests_first, requestCount, hhalf, hlength]
  | succ j =>
    rw [calls, List.getElem?_cons_succ] at ha
    have hbefore : ∀ j ≤ c.middle.length, requestCount (c.calls.take (j + 1)) = 2 * j + 1 := by
      intro j hj
      rw [calls, List.take_succ_cons, requestCount_cons, c.requests_first,
        List.take_append_of_le_length hj,
        requestCount_middle (fun a ha => c.requests_middle (List.mem_of_mem_take ha)),
        List.length_take, Nat.min_eq_left hj, List.length_singleton]
      omega
    have hsource : (2 * base + (2 * j + 1)) / 2 = base + j := by omega
    have hsink : (2 * base + (2 * j + 1) + 1) / 2 = base + (j + 1) := by omega
    -- a pipeline in the middle has both ends, the last one only reads
    rcases Nat.lt_or_ge j c.middle.length with hj | hj
    · rw [List.getElem?_append_left hj] at ha
      have hnext : j + 1 + 1 < c.middle.length + 2 := by omega
      have hq : q = base + j ↔ q + 1 = base + (j + 1) := by omega
      rw [hbefore j hj.le]
      simp only [AddArgs.ends, c.requests_middle (List.mem_of_getElem? ha), hlength,
        List.zipIdx_cons, List.zipIdx_nil, List.map_cons, List.map_nil, hsource, hsink,
        List.mem_cons, List.not_mem_nil, or_false, Prod.mk.injEq, hnext, true_and,
        Nat.succ_pos, hq]
      exact or_comm
    · have hjlast : j = c.middle.length := by
        have hlt := (List.getElem?_eq_some_iff.1 ha).1
        rw [List.length_append, List.length_singleton] at hlt
        omega
      subst hjlast
      rw [List.getElem?_concat_length, Option.some.injEq] at ha
      have hnext : ¬ c.middle.length + 1 + 1 < c.middle.length + 2 := by omega
      have hq : q = base + c.middle.length ↔ q + 1 = base + (c.middle.length + 1) := by omega
      rw [hbefore _ le_rfl, ← ha]
      simp only [AddArgs.ends, c.requests_last, hlength, List.zipIdx_cons, List.zipIdx_nil,
        List.map_cons, List.map_nil, hsource, List.mem_singleton, Prod.mk.injEq, hnext,
        false_and, and_false, false_or, Nat.succ_pos, true_and, hq]

end Chain

theorem requestCount_chainCalls (chains : List (Chain obj)) :
    requestCount (chainCalls chains) = 2 * queueCount chains := by
  induction chains with
  | nil => rfl
  | cons c chains ih =>
    rw [chainCalls, List.flatMap_cons, requestCount_append, c.requestCount_calls, queueCount,
      List.map_cons, List.sum_cons, Nat.mul_add]
    exact congrArg _ ih

/-- Among all pipelines, exactly two of a chain have an end on its queue number `i`. -/
theorem exists_mem_ends_iff (pre post : List (Chain obj)) (c : Chain obj) {i j : Nat}
    (hi : i + 1 < c.calls.length) {kind : QueueEnd} :
    (∃ a, (chainCalls (pre ++ c :: post))[j]? = some a ∧ (kind, queueCount pre + i) ∈
        a.ends (requestCount ((chainCalls (pre ++ c :: post)).take j))) ↔
      (j = (chainCalls pre).length + i ∧ kind = .sink) ∨
        (j = (chainCalls pre).length + i + 1 ∧ kind = .source) := by
  have hcalls : chainCalls (pre ++ c :: post) =
      chainCalls pre ++ (c.calls ++ chainCalls post) := by
    simp [chainCalls]
  have hpre := requestCount_chainCalls pre
  rw [hcalls]
  rcases Nat.lt_or_ge j (chainCalls pre).length with hj | hj
  · -- The pipelines of earlier chains have requests for earlier queues only.
    rw [List.getElem?_append_left hj, List.take_append_of_le_length hj.le]
    constructor
    · rintro ⟨a, ha, hmem⟩
      obtain ⟨x, hx, hq⟩ := mem_ends_iff.1 hmem
      have hlt := (List.getElem?_eq_some_iff.1 hx).1
      have hle := requestCount_take_le ha
      omega
    · rintro (⟨hj', -⟩ | ⟨hj', -⟩) <;> omega
  obtain ⟨j, rfl⟩ := Nat.exists_eq_add_of_le hj
  rw [List.getElem?_append_right hj, Nat.add_sub_cancel_left, List.take_length_add_append,
    requestCount_append, hpre]
  rcases Nat.lt_or_ge j c.calls.length with hj' | hj'
  · rw [List.getElem?_append_left hj', List.take_append_of_le_length hj'.le]
    have hget : c.calls[j]? = some c.calls[j] := List.getElem?_eq_getElem hj'
    rw [hget]
    simp only [Option.some.injEq, exists_eq_left', c.mem_ends_iff hget]
    constructor
    · rintro (⟨hkind, -, hq⟩ | ⟨hkind, -, hq⟩)
      · exact .inl ⟨by omega, hkind⟩
      · exact .inr ⟨by omega, hkind⟩
    · rintro (⟨hq, hkind⟩ | ⟨hq, hkind⟩)
      · exact .inl ⟨hkind, by omega, by omega⟩
      · exact .inr ⟨hkind, by omega, by omega⟩
  · -- The pipelines of later chains have requests for later queues only.
    obtain ⟨j, rfl⟩ := Nat.exists_eq_add_of_le hj'
    rw [List.take_length_add_append, requestCount_append, c.requestCount_calls]
    constructor
    · rintro ⟨a, -, hmem⟩
      obtain ⟨x, -, hq⟩ := mem_ends_iff.1 hmem
      omega
    · rintro (⟨hq, -⟩ | ⟨hq, -⟩) <;> omega

variable [DecidableEq ι] [DecidableEq κ]

/-- Auto-connection builds the intended chains: no call throws, a chain of `n` pipelines creates
`n - 1` queues, queue `i` is held by the `QueueSink` of pipeline `i` and the `QueueSource` of
pipeline `i + 1` and by no other block, and a complete chain leaves no queue unused. -/
theorem chains_connected (queueType : QueueType) (chains : List (Chain obj)) :
    (∃ S, Mission.build (chainCalls chains) (MissionState.init queueType obj) = .ok () S) ∧
      ∀ pre c post, chains = pre ++ c :: post →
        ∃ S₀ S₁, Mission.build (chainCalls pre) (MissionState.init queueType obj) = .ok () S₀ ∧
          Mission.build c.calls S₀ = .ok () S₁ ∧
          S₁.mission.queues.length = S₀.mission.queues.length + (c.calls.length - 1) ∧
          (∀ w ∈ S₁.mission.queues, w.used = true) ∧
          ∀ i, i + 1 < c.calls.length → ∀ j kind,
            Mission.HasEnd (chainCalls chains) (MissionState.init queueType obj) j kind
                (S₀.mission.queues.length + i) ↔
              (j = (chainCalls pre).length + i ∧ kind = .sink) ∨
                (j = (chainCalls pre).length + i + 1 ∧ kind = .source) := by
  have hbuild := fun chains : List (Chain obj) =>
    chains_build_ok chains (sameBlocks_init queueType) (ready_init queueType)
  obtain ⟨S, hS, -⟩ := hbuild chains
  refine ⟨⟨S, hS⟩, ?_⟩
  rintro pre c post rfl
  obtain ⟨S₀, hS₀, hready₀, hblocks₀⟩ := hbuild pre
  obtain ⟨S₁, hS₁, hready₁, -⟩ := c.build_ok hblocks₀ hready₀
  have hp₀ := paired_build (paired_init queueType) hS₀
  have hp₁ := paired_build hp₀ hS₁
  have hcount₀ : S₀.mission.queues.length = queueCount pre := by
    have hlength : ((chainCalls pre).flatMap AddArgs.requests).length = 2 * queueCount pre :=
      requestCount_chainCalls pre
    rw [hp₀.count, List.nil_append, hlength]
    omega
  have hcount₁ : S₁.mission.queues.length = queueCount pre + (c.calls.length - 1) := by
    have hlength : ((chainCalls pre).flatMap AddArgs.requests).length = 2 * queueCount pre :=
      requestCount_chainCalls pre
    have hlength' : (c.calls.flatMap AddArgs.requests).length = 2 * (c.calls.length - 1) :=
      c.requestCount_calls
    rw [hp₁.count, List.nil_append, List.length_append, hlength, hlength']
    omega
  refine ⟨S₀, S₁, hS₀, hS₁, by rw [hcount₀, hcount₁], hready₁, ?_⟩
  intro i hi j kind
  rw [holds_iff queueType hS, hcount₀]
  exact exists_mem_ends_iff pre post c hi

end Holders

/-- A chain of three pipelines. -/
def sampleChain : Chain chainBlocks where
  first := ⟨[0], [], []⟩
  middle := [⟨[], [1], []⟩]
  last := ⟨[], [], [2]⟩
  first_ends := by decide
  middle_ends := by decide
  last_ends := by decide
  kinds := by
    intro a ha
    simp only [List.singleton_append, List.mem_cons, List.not_mem_nil, or_false] at ha
    rcases ha with rfl | rfl | rfl <;> constructor <;> decide
  typed := by
    refine .cons_cons rfl (.cons_cons rfl (.singleton _))

/-- Of two such chains the second is connected by the third and the fourth queue. -/
theorem sampleChain_connected :
    ∃ S₀ S₁, Mission.build (chainCalls [sampleChain]) (MissionState.init .LOCK_FREE chainBlocks) =
          .ok () S₀ ∧
      Mission.build sampleChain.calls S₀ = .ok () S₁ ∧
      S₁.mission.queues.length = S₀.mission.queues.length + 2 ∧
      (∀ w ∈ S₁.mission.queues, w.used = true) ∧
      ∀ i, i + 1 < 3 → ∀ j kind,
        Mission.HasEnd (chainCalls [sampleChain, sampleChain])
            (MissionState.init .LOCK_FREE chainBlocks) j kind (S₀.mission.queues.length + i) ↔
          (j = 3 + i ∧ kind = .sink) ∨ (j = 3 + i + 1 ∧ kind = .source) :=
  (chains_connected .LOCK_FREE [sampleChain, sampleChain]).2 [sampleChain] sampleChain [] rfl

end PipelineTools.FlowEngine
