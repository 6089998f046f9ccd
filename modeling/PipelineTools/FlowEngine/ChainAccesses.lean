import PipelineTools.FlowEngine.ChainOrder
import PipelineTools.FlowEngine.WorkerRefinement

/-!
# Order along a chain whose queue calls take time

The workers of a `QueueChain` share the queues between their pipelines and nothing else, so a chain
is wired as `workers_refine` wants it (`QueueChain.owned`). What `ChainInv.received` says of single
turns therefore holds of every interleaving of the accesses to the queues
(`chain_received_of_accesses`).
-/

set_option autoImplicit false

namespace PipelineTools.FlowEngine

open PipelineTools.Library PipelineTools.Queues

variable {ι κ : Type} {β : κ → Type} {σ ε : Type}

/-! ## The wiring of a chain -/

namespace QueueChain

section

variable [DecidableEq ι]

/-- The queue block at `x`, if there is one. -/
def ends (c : QueueChain ι β) (x : ι) : Option (AutoBlock κ) :=
  (c.segments.zip c.rest).findSome? fun l =>
    if x ∈ l.1.sinks then some ⟨.sink, l.2.1.1, l.2.1.2⟩
    else if x = l.2.2.source then some ⟨.source, l.2.1.1, l.2.1.2⟩
    else none

/-- The worker whose pipeline the block belongs to. -/
def worker (c : QueueChain ι β) (x : ι) : Option Nat :=
  c.segments.findIdx? fun g => decide (x ∈ g.blocks)

variable {c : QueueChain ι β}

theorem ends_cases {x : ι} {b : AutoBlock κ} (h : c.ends x = some b) :
    ∃ (i : Nat) (g g' : Segment ι β), c.segments[i]? = some g ∧
      c.rest[i]? = some ((b.elem, b.queue), g') ∧
      ((b.kind = .sink ∧ x ∈ g.sinks) ∨ (b.kind = .source ∧ x = g'.source)) := by
  obtain ⟨⟨g, key, g'⟩, hmem, hsome⟩ := List.exists_of_findSome?_eq_some h
  obtain ⟨i, hi⟩ := List.mem_iff_getElem?.1 hmem
  obtain ⟨hg, hkey⟩ := List.getElem?_zip_eq_some.1 hi
  refine ⟨i, g, g', hg, ?_⟩
  by_cases hsink : x ∈ g.sinks
  · rw [if_pos hsink] at hsome
    obtain rfl := Option.some.inj hsome
    exact ⟨hkey, .inl ⟨rfl, hsink⟩⟩
  · rw [if_neg hsink] at hsome
    by_cases hsource : x = g'.source
    · rw [if_pos hsource] at hsome
      obtain rfl := Option.some.inj hsome
      exact ⟨hkey, .inr ⟨rfl, hsource⟩⟩
    · rw [if_neg hsource] at hsome
      cases hsome

/-- The worker of a block is the one whose pipeline has it. -/
theorem segment_of_worker {x : ι} {w : Nat} (h : c.worker x = some w) :
    ∃ g, c.segments[w]? = some g ∧ x ∈ g.blocks := by
  obtain ⟨hlt, hmem, -⟩ := List.findIdx?_eq_some_iff_getElem.1 h
  exact ⟨_, List.getElem?_eq_getElem hlt, of_decide_eq_true hmem⟩

end

variable [DecidableEq ι] [DecidableEq κ] {c : QueueChain ι β} {h : Heap ι β (Shared β σ) ε}

theorem InHeap.worker_eq (hc : c.InHeap h) {x : ι} {w : Nat} {g : Segment ι β}
    (hg : c.segments[w]? = some g) (hx : x ∈ g.blocks) : c.worker x = some w := by
  cases hworker : c.worker x with
  | none =>
    have hnot := List.findIdx?_eq_none_iff.1 hworker g (List.mem_of_getElem? hg)
    exact absurd hx (of_decide_eq_false hnot)
  | some v =>
    obtain ⟨g', hg', hx'⟩ := segment_of_worker hworker
    rw [hc.eq_of_mem_blocks hg' hg hx' hx rfl]

omit [DecidableEq ι] [DecidableEq κ] in
/-- The consumers of the blocks before the sinks are blocks of the same row. -/
theorem consumers_of_row {h : Heap ι β σ ε} {sinks : List ι} {x : ι}
    {ms : List (ι × PureModule β)} (hrow : Row h sinks x ms) :
    ∀ z ∈ x :: ms.map Prod.fst, ∀ y, Edge h z y → y ∈ ms.map Prod.fst ++ sinks := by
  -- induction on the modules: each is the only consumer of the block before it
  induction ms generalizing x with
  | nil =>
    rintro z hz y ⟨id, hid⟩
    obtain rfl := List.mem_singleton.1 hz
    have hnext : (h z).nextNodes.map Prod.fst = sinks := hrow
    rw [List.map_nil, List.nil_append, ← hnext]
    exact List.mem_map_of_mem (f := Prod.fst) hid
  | cons m ms ih =>
    obtain ⟨hnext, -, hrest⟩ := hrow
    rintro z hz y ⟨id, hid⟩
    rcases List.mem_cons.1 hz with rfl | hz
    · have hy : y ∈ [m.1] := by
        rw [← hnext]
        exact List.mem_map_of_mem (f := Prod.fst) hid
      rw [List.mem_singleton.1 hy]
      exact List.mem_append_left _ List.mem_cons_self
    · exact List.mem_cons_of_mem _ (ih hrest z hz y ⟨id, hid⟩)

omit [DecidableEq ι] [DecidableEq κ] in
/-- A block before the sinks has a consumer if there are sinks. -/
theorem nextNodes_ne_nil {h : Heap ι β σ ε} {sinks : List ι} {x : ι}
    {ms : List (ι × PureModule β)} (hrow : Row h sinks x ms) (hsinks : sinks ≠ []) :
    (h x).nextNodes ≠ [] := by
  intro hnil
  cases ms with
  | nil =>
    have hnext : (h x).nextNodes.map Prod.fst = sinks := hrow
    rw [hnil] at hnext
    exact hsinks hnext.symm
  | cons m ms =>
    have hnext := hrow.1
    rw [hnil] at hnext
    cases hnext

/-- Where the end of a queue is in the chain. -/
theorem InHeap.end_place (hc : c.InHeap h) {x : ι} {b : AutoBlock κ} {w : Nat}
    (hb : c.ends x = some b) (hw : c.worker x = some w) :
    ∃ i g', c.rest[i]? = some ((b.elem, b.queue), g') ∧
      ((b.kind = .sink ∧ w = i ∧ ∃ g, c.segments[i]? = some g ∧ x ∈ g.sinks) ∨
        (b.kind = .source ∧ w = i + 1 ∧ x = g'.source)) := by
  obtain ⟨i, g, g', hg, hrest, hplace⟩ := ends_cases hb
  obtain ⟨gw, hgw, hx⟩ := segment_of_worker hw
  refine ⟨i, g', hrest, ?_⟩
  rcases hplace with ⟨hkind, hsink⟩ | ⟨hkind, rfl⟩
  · have hmem : x ∈ g.blocks := List.mem_cons_of_mem _ (List.mem_append_right _ hsink)
    exact .inl ⟨hkind, hc.eq_of_mem_blocks hgw hg hx hmem rfl, g, hg, hsink⟩
  · have hg' : c.segments[i + 1]? = some g' := by
      rw [segments_succ, hrest]
      rfl
    exact .inr ⟨hkind, hc.eq_of_mem_blocks hgw hg' hx List.mem_cons_self rfl, rfl⟩

/-- A chain is wired for workers, if the last pipeline has a sink. -/
theorem owned {h : Heap ι β σ ε} (hc : c.InHeap (h.withQueues c.ends))
    (hlast : ∀ g, c.segments[c.rest.length]? = some g → g.sinks ≠ []) :
    OwnedByWorkers c.pipelines c.ends h c.worker where
  starts w p hp d hd := by
    rw [pipelines, List.getElem?_map] at hp
    obtain ⟨g, hg, rfl⟩ := Option.map_eq_some_iff.1 hp
    obtain rfl := List.mem_singleton.1 hd
    exact hc.worker_eq hg List.mem_cons_self
  consumers x y w hx hsink hedge := by
    obtain ⟨g, hg, hmem⟩ := segment_of_worker hx
    have hplaced := hc.placed hg
    apply hc.worker_eq hg
    -- a block that hands something on is the source or a module of its pipeline
    have hbefore : x ∈ g.source :: g.modules.map Prod.fst := by
      rcases List.mem_cons.1 hmem with rfl | hmem
      · exact List.mem_cons_self
      · rcases List.mem_append.1 hmem with hmodule | hmem
        · exact List.mem_cons_of_mem _ hmodule
        · obtain ⟨inp, process, hobj⟩ := hplaced.sinks x hmem
          rw [hobj] at hsink
          cases hsink
    exact List.mem_cons_of_mem _ (consumers_of_row hplaced.row x hbefore y hedge)
  apart x y b v w hx hy hv hw := by
    obtain ⟨i, g, hi, hplace⟩ := hc.end_place hx hv
    obtain ⟨j, g', hj, hplace'⟩ := hc.end_place hy hw
    -- two ends of one queue lie between the same two pipelines
    have hij : i = j := by
      by_contra hne
      exact hc.key_ne hi hj hne rfl
    subst hij
    rcases hplace with ⟨hkind, rfl, -⟩ | ⟨hkind, rfl, -⟩
    · rcases hplace' with ⟨-, rfl, -⟩ | ⟨hkind', -, -⟩
      · rfl
      · cases hkind.symm.trans hkind'
    · rcases hplace' with ⟨hkind', -⟩ | ⟨-, rfl, -⟩
      · cases hkind.symm.trans hkind'
      · rfl
  fed x b w hx hkind hw := by
    obtain ⟨i, g, hi, ⟨hkind', -⟩ | ⟨-, -, rfl⟩⟩ := hc.end_place hx hw
    · cases hkind.symm.trans hkind'
    · have hg : c.segments[i + 1]? = some g := by
        rw [segments_succ, hi]
        rfl
      apply nextNodes_ne_nil (hc.placed hg).row
      rcases hc.sink_cases hg with ⟨hlength, -⟩ | ⟨t, q, g', y, -, hsinks, -⟩
      · rw [hlength] at hg
        exact hlast g hg
      · rw [hsinks]
        exact List.cons_ne_nil _ _

/-- The first source is no end of a queue. -/
theorem InHeap.ends_first (hc : c.InHeap h) : c.ends c.first.source = none := by
  rw [Option.eq_none_iff_forall_ne_some]
  intro b hb
  have hfirst : c.segments[0]? = some c.first := rfl
  obtain ⟨i, g', -, ⟨-, rfl, g, hg, hx⟩ | ⟨-, hzero, -⟩⟩ :=
    hc.end_place hb (hc.worker_eq hfirst List.mem_cons_self)
  · obtain rfl := Option.some.inj (hfirst.symm.trans hg)
    exact Segment.source_notMem_sinks (hc.placed hfirst).nodup hx
  · cases hzero

/-- The last sinks are no ends of queues. -/
theorem InHeap.ends_last (hc : c.InHeap h) {g : Segment ι β}
    (hg : c.segments[c.rest.length]? = some g) {x : ι} (hx : x ∈ g.sinks) : c.ends x = none := by
  rw [Option.eq_none_iff_forall_ne_some]
  intro b hb
  have hmem : x ∈ g.blocks := List.mem_cons_of_mem _ (List.mem_append_right _ hx)
  obtain ⟨i, g', hi, ⟨-, hlast, -⟩ | ⟨-, hlast, rfl⟩⟩ :=
    hc.end_place hb (hc.worker_eq hg hmem)
  · rw [← hlast, List.getElem?_eq_none (Nat.le_refl _)] at hi
    cases hi
  · rw [hlast, segments_succ, hi] at hg
    obtain rfl := Option.some.inj hg
    have hplaced := hc.placed (k := i + 1) (g := g') (by
      rw [segments_succ, hi]
      rfl)
    exact Segment.source_notMem_sinks hplaced.nodup hx

end QueueChain

/-! ## The order of what is received -/

section Received

variable [DecidableEq ι]

theorem inputsOf_usersLog {ends : ι → Option (AutoBlock κ)} {x : ι} (hx : ends x = none)
    (log : List (Event ι β ε)) : inputsOf x (usersLog ends log) = inputsOf x log := by
  rw [inputsOf, usersLog, List.filterMap_filter, inputsOf]
  apply List.filterMap_congr
  intro e _
  by_cases he : e.block = x
  · simp [he, hx]
  · simp [he]

theorem outputsOf_usersLog {ends : ι → Option (AutoBlock κ)} {x : ι} (hx : ends x = none)
    (log : List (Event ι β ε)) : outputsOf x (usersLog ends log) = outputsOf x log := by
  rw [outputsOf, usersLog, List.filterMap_filter, outputsOf]
  apply List.filterMap_congr
  intro e _
  by_cases he : e.block = x
  · simp [he, hx]
  · simp [he]

variable [DecidableEq κ]

/-- Whatever the class of the queues and however the accesses of the workers interleave: what a
sink of the last pipeline has received is a subsequence of what the first source has emitted, under
the composed functions of the modules. -/
theorem chain_received_of_accesses (c : QueueChain ι β) (h : Heap ι β σ ε)
    (hc : c.InHeap (h.withQueues c.ends))
    (hlast : ∀ g, c.segments[c.rest.length]? = some g → g.sinks ≠ []) (type : QueueType) (u : σ)
    (ls : List (ClientStep Nat Bool)) (threads : Threads ι β σ ε)
    (queues : (queuesCode β type).State)
    (hrun : runFrom ((queueClient c.pipelines c.ends).step (queuesCode β type))
      (Threads.init ⟨h, u, []⟩, (queuesCode β type).start) ls = some (threads, queues))
    (g : Segment ι β) (hg : c.segments[c.rest.length]? = some g) (x : ι) (hx : x ∈ g.sinks) :
    (inputsOf x threads.machine.log).Sublist
      ((outputsOf c.first.source threads.machine.log).filterMap (compose c.modules)) := by
  obtain ⟨ws, s, a, hws, hkeeps⟩ := exists_keeps_of_run (QueueChain.owned hc hlast) type u hrun
  have hreceived := (chainInv_run hc (fun _ _ _ _ _ => ⟨15, type, rfl⟩) hws).received hc hg hx
  -- neither end of the chain is a queue block, so both logs agree on them
  rw [← inputsOf_usersLog (hc.ends_last hg hx), ← outputsOf_usersLog hc.ends_first, hkeeps.users,
    inputsOf_usersLog (hc.ends_last hg hx), outputsOf_usersLog hc.ends_first] at hreceived
  exact hreceived

end Received

/-! ## Two pipelines -/

theorem relayBlocks_withQueues : relayBlocks.withQueues twoPipelines.ends = twoPipelinesHeap := by
  funext x
  match x with
  | 0 => rfl
  | 1 => rfl
  | 2 => rfl
  | 3 => rfl
  | 4 => rfl
  | x + 5 => rfl

theorem relay_received :
    ∃ (threads : Threads Nat (fun _ : Unit => Nat) Nat Unit)
      (queues : (queuesCode (fun _ : Unit => Nat) .LOCK_FREE).State),
      runFrom ((queueClient twoPipelines.pipelines twoPipelines.ends).step
          (queuesCode (fun _ : Unit => Nat) .LOCK_FREE))
        (Threads.init ⟨relayBlocks, 0, []⟩, (queuesCode (fun _ : Unit => Nat) .LOCK_FREE).start)
        relayAccesses = some (threads, queues) ∧
      outputsOf 0 threads.machine.log = [.val (.base ()) 0] ∧
      inputsOf 4 threads.machine.log = [.val (.base ()) 0] ∧
      (inputsOf 4 threads.machine.log).Sublist
        ((outputsOf 0 threads.machine.log).filterMap (compose twoPipelines.modules)) :=
  ⟨_, _, rfl, rfl, rfl, chain_received_of_accesses twoPipelines relayBlocks
    (relayBlocks_withQueues ▸ twoPipelines_inHeap) (by
      rintro g hg hnil
      cases hg
      cases hnil) .LOCK_FREE 0 relayAccesses _ _ rfl ⟨2, [(3, tenfold)], [4]⟩ rfl 4
    (List.mem_singleton_self 4)⟩

end PipelineTools.FlowEngine
