import PipelineTools.FlowEngine.Wiring

/-!
# Sources that come too late

`Pipeline::add` rejects a source that is added after a node, and pushes it all the same: the
exception is thrown after the source has joined the list. `unmade_iff` says which failing calls
leave no trace, neither in the pipeline nor in anything it does later.

The order in which blocks are added is documented for modules, aggregators and sinks, but `add`
looks at the nodes only, and sinks are not among them. `sourceOrder_iff` says for which sequences of
blocks the documented order is enforced: those without a source between a sink and the first node.
-/

set_option autoImplicit false

namespace PipelineTools.FlowEngine

variable {ι κ : Type} {β : κ → Type} {σ ε : Type}

/-- The four cases of `add`. -/
theorem source_or_node_or_sink_or_unknown (obj : Obj β σ ε) :
    obj.isSource = true ∨ obj.isNode = true ∨ obj.isSink = true ∨
      obj.isSource = false ∧ obj.isNode = false ∧ obj.isSink = false := by
  cases obj with
  | source out policy process => exact .inl rfl
  | module inp out policy process => exact .inr (.inl rfl)
  | aggregator inp out toOut toIn process self => exact .inr (.inl rfl)
  | sink inp process => exact .inr (.inr (.inl rfl))
  | other policy processAny => exact .inr (.inr (.inr ⟨rfl, rfl, rfl⟩))

/-- The classes exclude each other. -/
theorem isNode_of_isSource {obj : Obj β σ ε} (h : obj.isSource = true) : obj.isNode = false := by
  cases obj with
  | source out policy process => rfl
  | _ => cases h

theorem isSource_of_isNode {obj : Obj β σ ε} (h : obj.isNode = true) : obj.isSource = false := by
  rw [← Bool.not_eq_true]
  intro hsource
  rw [isNode_of_isSource hsource] at h
  cases h

theorem isSource_of_isSink {obj : Obj β σ ε} (h : obj.isSink = true) :
    obj.isSource = false ∧ obj.isNode = false := by
  cases obj with
  | sink inp process => exact ⟨rfl, rfl⟩
  | _ => cases h

section Kinds

variable {obj : ι → Obj β σ ε} {S : System ι β σ ε}

theorem Classes.isSource_eq (h : Classes obj S) (i : ι) :
    (S.machine.heap i).obj.isSource = (obj i).isSource := by
  rw [← isSource_shape, h.shape i, isSource_shape]

theorem Classes.isNode_eq (h : Classes obj S) (i : ι) :
    (S.machine.heap i).obj.isNode = (obj i).isNode := by
  rw [← isNode_shape, h.shape i, isNode_shape]

theorem Classes.isSink_eq (h : Classes obj S) (i : ι) :
    (S.machine.heap i).obj.isSink = (obj i).isSink := by
  rw [← isSink_shape, h.shape i, isSink_shape]

end Kinds

section Add

variable [DecidableEq ι] [DecidableEq κ] {S : System ι β σ ε} {f : ι}

/-! ## One call of `add` -/

/-- A source is remembered, also if it is rejected. -/
theorem step_add_source (hf : (S.machine.heap f).obj.isSource = true) (fuel : Nat) :
    S.step fuel (.add f) =
      (if S.pipeline.nodes ≠ [] then .addThrew .unorderedSources else .returned,
        { S with pipeline := { S.pipeline with sources := S.pipeline.sources ++ [f] } }) := by
  cases hobj : (S.machine.heap f).obj with
  | source out policy process =>
    by_cases hnodes : S.pipeline.nodes ≠ []
    · simp only [System.step, Pipeline.add, hobj, if_pos hnodes]
    · simp only [System.step, Pipeline.add, hobj, if_neg hnodes]
  | _ =>
    rw [hobj] at hf
    cases hf

/-- A module or aggregator is wired and becomes the last node. -/
theorem step_add_node (hf : (S.machine.heap f).obj.isNode = true) (fuel : Nat) :
    S.step fuel (.add f) = (.returned,
      { pipeline := { S.pipeline with nodes := S.pipeline.nodes ++ [f] }
        machine := { S.machine with heap := S.pipeline.wire S.machine.heap f } }) := by
  cases hobj : (S.machine.heap f).obj with
  | module inp out policy process => simp only [System.step, Pipeline.add, hobj]
  | aggregator inp out toOut toIn process self => simp only [System.step, Pipeline.add, hobj]
  | _ =>
    rw [hobj] at hf
    cases hf

/-- A sink is wired only. -/
theorem step_add_sink (hf : (S.machine.heap f).obj.isSink = true) (fuel : Nat) :
    S.step fuel (.add f) = (.returned,
      { S with machine := { S.machine with heap := S.pipeline.wire S.machine.heap f } }) := by
  cases hobj : (S.machine.heap f).obj with
  | sink inp process => simp only [System.step, Pipeline.add, hobj]
  | _ =>
    rw [hobj] at hf
    cases hf

/-- A block of no known class changes nothing. -/
theorem step_add_unknown (hsource : (S.machine.heap f).obj.isSource = false)
    (hnode : (S.machine.heap f).obj.isNode = false) (hsink : (S.machine.heap f).obj.isSink = false)
    (fuel : Nat) : S.step fuel (.add f) = (.addThrew .unknownFlowObject, S) := by
  cases hobj : (S.machine.heap f).obj with
  | other policy processAny => simp only [System.step, Pipeline.add, hobj]
  | source out policy process =>
    rw [hobj] at hsource
    cases hsource
  | sink inp process =>
    rw [hobj] at hsink
    cases hsink
  | _ =>
    rw [hobj] at hnode
    cases hnode

/-! ## Failing calls that leave no trace -/

/-- The system `S'` is like `S`: the same members and consumers, and the same replies and the same
machine after every further sequence of calls. -/
structure Unmade (S S' : System ι β σ ε) : Prop where
  sources : S'.pipeline.sources = S.pipeline.sources
  nodes : S'.pipeline.nodes = S.pipeline.nodes
  consumers : ∀ i, (S'.machine.heap i).nextNodes = (S.machine.heap i).nextNodes
  later : ∀ fuel ops, (S'.run fuel ops).1 = (S.run fuel ops).1 ∧
    (S'.run fuel ops).2.machine = (S.run fuel ops).2.machine

/-- In every history, a call of `add` that throws is as good as not made exactly when the block is
not a source. -/
theorem unmade_iff (fuel : Nat) (obj : ι → Obj β σ ε) (u : σ) (ops : List (Op ι))
    (S : System ι β σ ε) (hrun : ((System.init obj u).run fuel ops).2 = S) (f : ι) (e : AddError)
    (S' : System ι β σ ε) (hthrow : S.step fuel (.add f) = (.addThrew e, S')) :
    Unmade S S' ↔ (obj f).isSource = false := by
  have hclasses : Classes obj S := by
    rw [← hrun]
    exact classes_run fuel ops (classes_init obj u)
  constructor
  · intro h
    by_contra hsource
    have hf : (S.machine.heap f).obj.isSource = true := by
      rw [hclasses.isSource_eq]
      exact Bool.eq_true_of_not_eq_false hsource
    -- the rejected source is in the list
    rw [step_add_source hf fuel, Prod.mk.injEq] at hthrow
    have hgrown := h.sources
    rw [← hthrow.2] at hgrown
    have hlength := congrArg List.length hgrown
    rw [List.length_append, List.length_singleton] at hlength
    omega
  · intro hsource
    have hsame : S' = S := by
      rw [← hclasses.isSource_eq] at hsource
      rcases source_or_node_or_sink_or_unknown (S.machine.heap f).obj with hf | hf | hf | hf
      · rw [hf] at hsource
        cases hsource
      · rw [step_add_node hf fuel, Prod.mk.injEq] at hthrow
        cases hthrow.1
      · rw [step_add_sink hf fuel, Prod.mk.injEq] at hthrow
        cases hthrow.1
      · rw [step_add_unknown hf.1 hf.2.1 hf.2.2 fuel, Prod.mk.injEq] at hthrow
        exact hthrow.2.symm
    subst hsame
    exact ⟨rfl, rfl, fun _ => rfl, fun _ _ => ⟨rfl, rfl⟩⟩

end Add

/-- A source of numbers, a module that passes them on, a sink, another source, and a block of no
known class. -/
def lateBlocks : Fin 5 → Obj (fun _ : Unit => Nat) Nat Empty
  | 0 => .source (.base ()) .Fanout fun u : Nat => (.ok (some u), u + 1)
  | 1 => .module (.base ()) (.base ()) .Fanout fun v u => (.ok (some v), u)
  | 2 => .sink (.base ()) fun _ u => (.ok (), u)
  | 3 => .source (.base ()) .Fanout fun u : Nat => (.ok (some u), u)
  | 4 => .other .Fanout fun a _ u => (.ok a, u)

/-- The pipeline of the first three blocks. -/
def lateSystem : System (Fin 5) (fun _ : Unit => Nat) Nat Empty :=
  ((System.init lateBlocks 0).run 4 [.add 0, .add 1, .add 2]).2

/-- The unknown block is rejected without a trace. -/
theorem unknownBlock_unmade_iff :
    Unmade lateSystem lateSystem ↔ (lateBlocks 4).isSource = false :=
  unmade_iff 4 lateBlocks 0 [.add 0, .add 1, .add 2] lateSystem rfl 4 .unknownFlowObject lateSystem
    rfl

/-- The second source is rejected, and the next execute runs it: it has no consumers to deliver to,
and the call that returned before is undefined. -/
theorem lateSource_left_behind :
    (lateSystem.step 4 (.add 3)).1 = .addThrew .unorderedSources ∧
      (lateSystem.step 4 (.add 3)).2.pipeline.sources = [0, 3] ∧
      (lateSystem.run 4 [.execute]).1 = [.returned] ∧
      ((lateSystem.step 4 (.add 3)).2.run 4 [.execute]).1 = [.stopped (.undefined .nextNodes)] ∧
      ¬ Unmade lateSystem (lateSystem.step 4 (.add 3)).2 := by
  have hsources : (lateSystem.step 4 (.add 3)).2.pipeline.sources = [0, 3] := rfl
  refine ⟨rfl, hsources, rfl, rfl, fun h => ?_⟩
  have hsame := h.sources
  rw [hsources] at hsame
  exact absurd hsame (by decide)

/-! ## The documented order -/

section Order

variable [DecidableEq ι] [DecidableEq κ] {obj : ι → Obj β σ ε}

/-- What the documentation of `add` says for the blocks `fs`, added one after the other: a source is
rejected exactly when a module, aggregator or sink came before it; hence, when no block is rejected
and there is a module, aggregator or sink, all sources have consumers. -/
structure SourceOrder (fuel : Nat) (obj : ι → Obj β σ ε) (u : σ) (fs : List ι) : Prop where
  rejected : ∀ pre f post, fs = pre ++ f :: post → (obj f).isSource = true →
    ((((System.init obj u).run fuel (pre.map .add)).2.step fuel (.add f)).1 =
        .addThrew .unorderedSources ↔
      ∃ g ∈ pre, (obj g).isNode = true ∨ (obj g).isSink = true)
  fed : Accepted ((System.init obj u).run fuel (fs.map .add)).1 →
    (∃ g ∈ fs, (obj g).isNode = true ∨ (obj g).isSink = true) →
    ∀ src ∈ ((System.init obj u).run fuel (fs.map .add)).2.pipeline.sources,
      (((System.init obj u).run fuel (fs.map .add)).2.machine.heap src).nextNodes ≠ []

/-- A source that comes after a sink comes after a node. -/
def SinksFollowNodes (obj : ι → Obj β σ ε) (fs : List ι) : Prop :=
  ∀ pre f post, fs = pre ++ f :: post → (obj f).isSource = true →
    (∃ g ∈ pre, (obj g).isSink = true) → ∃ g ∈ pre, (obj g).isNode = true

/-- A block joins the sources or the nodes according to its class. -/
theorem pipeline_step_add {S : System ι β σ ε} (h : Classes obj S) (fuel : Nat) (f : ι) :
    (S.step fuel (.add f)).2.pipeline.sources =
        S.pipeline.sources ++ [f].filter (fun g => (obj g).isSource) ∧
      (S.step fuel (.add f)).2.pipeline.nodes =
        S.pipeline.nodes ++ [f].filter (fun g => (obj g).isNode) := by
  simp only [List.filter_cons, List.filter_nil, ← h.isSource_eq, ← h.isNode_eq]
  rcases source_or_node_or_sink_or_unknown (S.machine.heap f).obj with hf | hf | hf | hf
  · rw [step_add_source hf]
    simp [hf, isNode_of_isSource hf]
  · rw [step_add_node hf]
    simp [hf, isSource_of_isNode hf]
  · rw [step_add_sink hf]
    simp [isSource_of_isSink hf]
  · rw [step_add_unknown hf.1 hf.2.1 hf.2.2]
    simp [hf.1, hf.2.1]

/-- The sources and nodes of a pipeline are those that were added. -/
theorem pipeline_adds (fuel : Nat) (fs : List ι) {S : System ι β σ ε} (h : Classes obj S) :
    (S.run fuel (fs.map .add)).2.pipeline.sources =
        S.pipeline.sources ++ fs.filter (fun f => (obj f).isSource) ∧
      (S.run fuel (fs.map .add)).2.pipeline.nodes =
        S.pipeline.nodes ++ fs.filter (fun f => (obj f).isNode) := by
  induction fs generalizing S with
  | nil => simp [System.run]
  | cons f fs ih =>
    obtain ⟨hsources, hnodes⟩ := ih (classes_add h fuel f)
    obtain ⟨hsource, hnode⟩ := pipeline_step_add h fuel f
    rw [hsource] at hsources
    rw [hnode] at hnodes
    rw [List.map_cons, System.run]
    refine ⟨hsources.trans ?_, hnodes.trans ?_⟩
    · rw [List.append_assoc, ← List.filter_append, List.singleton_append]
    · rw [List.append_assoc, ← List.filter_append, List.singleton_append]

/-- A source is rejected exactly when there is a node. -/
theorem rejected_iff (fuel : Nat) (u : σ) {pre : List ι} {f : ι}
    (hf : (obj f).isSource = true) :
    (((System.init obj u).run fuel (pre.map .add)).2.step fuel (.add f)).1 =
        .addThrew .unorderedSources ↔ ∃ g ∈ pre, (obj g).isNode = true := by
  have hclasses := classes_run fuel (pre.map .add) (classes_init obj u)
  have hnodes := (pipeline_adds fuel pre (classes_init obj u)).2
  generalize ((System.init obj u).run fuel (pre.map .add)).2 = S at hclasses hnodes
  have hempty : (System.init obj u).pipeline.nodes = [] := rfl
  rw [hempty, List.nil_append] at hnodes
  rw [step_add_source (by rw [hclasses.isSource_eq, hf]), hnodes]
  by_cases hnil : pre.filter (fun g => (obj g).isNode) = []
  · rw [if_neg (not_not.2 hnil)]
    refine iff_of_false nofun ?_
    rintro ⟨g, hg, hnode⟩
    exact (List.filter_eq_nil_iff.1 hnil) g hg hnode
  · rw [if_pos hnil]
    refine iff_of_true rfl ?_
    obtain ⟨g, hg⟩ := List.exists_mem_of_ne_nil _ hnil
    exact ⟨g, (List.mem_filter.1 hg).1, (List.mem_filter.1 hg).2⟩

/-! ## Every source is fed -/

omit [DecidableEq κ] in
/-- Consumers are only added. -/
theorem consumers_addConsumer {h : Heap ι β σ ε} {i : ι} (hne : (h i).nextNodes ≠ [])
    (this next : ι) : (addConsumer h this next i).nextNodes ≠ [] := by
  rw [nextNodes_addConsumer]
  by_cases hi : i = this
  · rw [if_pos hi]
    simp
  · rw [if_neg hi]
    exact hne

omit [DecidableEq κ] in
theorem consumers_wire {h : Heap ι β σ ε} {i : ι} (hne : (h i).nextNodes ≠ []) (p : Pipeline ι)
    (f : ι) : (p.wire h f i).nextNodes ≠ [] := by
  rw [Pipeline.wire]
  cases p.nodes.getLast? with
  | some back => exact consumers_addConsumer hne back f
  | none =>
    generalize p.sources = sources
    induction sources generalizing h with
    | nil => exact hne
    | cons src rest ih => exact ih (consumers_addConsumer hne src f)

omit [DecidableEq κ] in
/-- The first node, and every sink before it, becomes a consumer of all sources. -/
theorem consumers_wire_source {h : Heap ι β σ ε} {p : Pipeline ι} (hnodes : p.nodes = []) {i : ι}
    (hi : i ∈ p.sources) (f : ι) : (p.wire h f i).nextNodes ≠ [] := by
  simp only [Pipeline.wire, hnodes, List.getLast?_nil]
  generalize p.sources = sources at hi
  induction sources generalizing h with
  | nil => cases hi
  | cons src rest ih =>
    rw [List.foldl_cons]
    rcases List.mem_cons.1 hi with rfl | hi
    · have hnow : (addConsumer h i f i).nextNodes ≠ [] := by
        rw [nextNodes_addConsumer, if_pos rfl]
        simp
      exact consumers_wire (p := { sources := rest }) hnow f
    · exact ih hi

/-- Adding blocks takes no consumer away. -/
theorem consumers_adds (fuel : Nat) (fs : List ι) {S : System ι β σ ε} {i : ι}
    (hne : (S.machine.heap i).nextNodes ≠ []) :
    ((S.run fuel (fs.map .add)).2.machine.heap i).nextNodes ≠ [] := by
  apply run_invariant (fun S => (S.machine.heap i).nextNodes ≠ []) (fun op => ∃ f, op = .add f)
    ?_ ?_ hne
  · rintro S op ⟨f, rfl⟩ hne
    rcases source_or_node_or_sink_or_unknown (S.machine.heap f).obj with hf | hf | hf | hf
    · rw [step_add_source hf]
      exact hne
    · rw [step_add_node hf]
      exact consumers_wire hne _ f
    · rw [step_add_sink hf]
      exact consumers_wire hne _ f
    · rw [step_add_unknown hf.1 hf.2.1 hf.2.2]
      exact hne
  · intro op hop
    obtain ⟨f, -, rfl⟩ := List.mem_map.1 hop
    exact ⟨f, rfl⟩

/-- A call that throws shows in the replies. -/
theorem not_accepted {fuel : Nat} {u : σ} {pre post : List ι} {f : ι} {e : AddError}
    (h : (((System.init obj u).run fuel (pre.map .add)).2.step fuel (.add f)).1 = .addThrew e) :
    ¬ Accepted ((System.init obj u).run fuel ((pre ++ f :: post).map .add)).1 := by
  intro haccepted
  refine haccepted e ?_
  rw [List.map_append, run_append, List.map_cons, System.run, h]
  exact List.mem_append_right _ List.mem_cons_self

/-- The first node, or a sink before it, is fed by the sources that are there. -/
theorem fed_of_first (fuel : Nat) (u : σ) {pre post : List ι} {g src : ι}
    (hpre : ∀ x ∈ pre, (obj x).isNode = false)
    (hg : (obj g).isNode = true ∨ (obj g).isSink = true) (hmem : src ∈ pre)
    (hsource : (obj src).isSource = true) :
    (((System.init obj u).run fuel ((pre ++ g :: post).map .add)).2.machine.heap src).nextNodes ≠
      [] := by
  have hclasses := classes_run fuel (pre.map .add) (classes_init obj u)
  obtain ⟨hsources, hnodes⟩ := pipeline_adds fuel pre (classes_init obj u)
  rw [List.map_append, run_append]
  refine consumers_adds fuel post ?_
  generalize ((System.init obj u).run fuel (pre.map .add)).2 = S at hclasses hsources hnodes
  have hnil : S.pipeline.nodes = [] := by
    rw [hnodes, List.filter_eq_nil_iff.2 fun x hx => by simp [hpre x hx]]
    rfl
  have hin : src ∈ S.pipeline.sources := by
    rw [hsources]
    exact List.mem_append_right _ (List.mem_filter.2 ⟨hmem, hsource⟩)
  rcases hg with hg | hg
  · rw [step_add_node (by rw [hclasses.isNode_eq, hg])]
    exact consumers_wire_source hnil hin g
  · rw [step_add_sink (by rw [hclasses.isSink_eq, hg])]
    exact consumers_wire_source hnil hin g

/-- The documented order is enforced for exactly those sequences of blocks in which no source comes
after a sink and before all nodes. -/
theorem sourceOrder_iff (fuel : Nat) (obj : ι → Obj β σ ε) (u : σ) (fs : List ι) :
    SourceOrder fuel obj u fs ↔ SinksFollowNodes obj fs := by
  constructor
  · rintro h pre f post hfs hf ⟨g, hg, hsink⟩
    exact (rejected_iff fuel u hf).1 ((h.rejected pre f post hfs hf).2 ⟨g, hg, .inr hsink⟩)
  · intro h
    have hrejected : ∀ pre f post, fs = pre ++ f :: post → (obj f).isSource = true →
        (∃ g ∈ pre, (obj g).isNode = true ∨ (obj g).isSink = true) →
        (((System.init obj u).run fuel (pre.map .add)).2.step fuel (.add f)).1 =
          .addThrew .unorderedSources := by
      rintro pre f post hfs hf ⟨g, hg, hnode | hsink⟩
      · exact (rejected_iff fuel u hf).2 ⟨g, hg, hnode⟩
      · exact (rejected_iff fuel u hf).2 (h pre f post hfs hf ⟨g, hg, hsink⟩)
    refine ⟨fun pre f post hfs hf => ⟨fun hthrew => ?_, hrejected pre f post hfs hf⟩, ?_⟩
    · obtain ⟨g, hg, hnode⟩ := (rejected_iff fuel u hf).1 hthrew
      exact ⟨g, hg, .inl hnode⟩
    · rintro haccepted ⟨g, hg, hclass⟩ src hsrc
      -- the first node or sink; it is fed by all sources, since none follows it
      obtain ⟨pre, g, post, rfl, hclass, hpre⟩ : ∃ pre g post, fs = pre ++ g :: post ∧
          ((obj g).isNode = true ∨ (obj g).isSink = true) ∧ ∀ x ∈ pre, (obj x).isNode = false := by
        have hfind : (fs.find? fun g => (obj g).isNode || (obj g).isSink).isSome = true :=
          List.find?_isSome.2 ⟨g, hg, by simpa using hclass⟩
        obtain ⟨b, hb⟩ := Option.isSome_iff_exists.1 hfind
        obtain ⟨hb, pre, post, hfs, hpre⟩ := List.find?_eq_some_iff_append.1 hb
        refine ⟨pre, b, post, hfs, by simpa using hb, fun x hx => ?_⟩
        have hnone := hpre x hx
        simp only [Bool.not_eq_true', Bool.or_eq_false_iff] at hnone
        exact hnone.1
      rw [(pipeline_adds fuel _ (classes_init obj u)).1] at hsrc
      obtain ⟨hmem, hsource⟩ := List.mem_filter.1 hsrc
      refine fed_of_first fuel u hpre hclass ?_ hsource
      rcases List.mem_append.1 hmem with hmem | hmem
      · exact hmem
      · exfalso
        rcases List.mem_cons.1 hmem with rfl | hmem
        · rcases hclass with hnode | hsink
          · rw [isSource_of_isNode hnode] at hsource
            cases hsource
          · rw [(isSource_of_isSink hsink).1] at hsource
            cases hsource
        -- a later source would have been rejected
        · obtain ⟨mid, last, rfl⟩ := List.append_of_mem hmem
          have hfs : pre ++ g :: (mid ++ src :: last) = (pre ++ g :: mid) ++ src :: last := by
            rw [List.append_assoc, List.cons_append]
          have hthrew := hrejected _ _ _ hfs hsource ⟨g, by simp, hclass⟩
          rw [hfs] at haccepted
          exact not_accepted hthrew haccepted

end Order

/-- A sink and then a source are both accepted, and the source has no consumer. -/
theorem sinkThenSource_accepted :
    ((System.init lateBlocks 0).run 4 [.add 2, .add 0]).1 = [.returned, .returned] ∧
      (((System.init lateBlocks 0).run 4 [.add 2, .add 0]).2.machine.heap 0).nextNodes = [] ∧
      ¬ SourceOrder 4 lateBlocks 0 [2, 0] := by
  refine ⟨rfl, rfl, fun h => ?_⟩
  have hthrew := (h.rejected [2] 0 [] rfl rfl).2 ⟨2, by simp, .inr rfl⟩
  cases hthrew

end PipelineTools.FlowEngine
