import PipelineTools.FlowEngine.Plan
import PipelineTools.FlowEngine.Wiring

/-!
# A linear pipeline runs its plan

A plan is placed on a heap when every block of the plan is the fanout source, module or sink that
the plan says (`Placed`). Adding the blocks in order wires them as the plan says
(`Plan.InSequence`): each source and the last module to what comes next, each module but the last to
its successor.

On a wired heap the engine does exactly what the plan does. `run_sinks`, `run_stages` and
`run_sources` follow the recursion between `execute` and `produce` from the sinks up to the sources;
`pipeline_meaning` puts the construction and any number of executes together.
-/

set_option autoImplicit false

namespace PipelineTools.FlowEngine

open PipelineTools.Library

variable {ι κ : Type} {β : κ → Type} {σ ε : Type}

/-! ## Plans on a heap -/

/-- A fanout source with a total process. -/
def plainSource (t : Ty κ) (process : σ → t.Val β × σ) : Obj β σ ε :=
  .source t .Fanout fun u => (.ok (some (process u).1), (process u).2)

/-- A fanout module with a total process. -/
def plainModule (s t : Ty κ) (process : s.Val β → σ → t.Val β × σ) : Obj β σ ε :=
  .module s t .Fanout fun v u => (.ok (some (process v u).1), (process v u).2)

/-- A sink with a total process. -/
def plainSink (t : Ty κ) (process : t.Val β → σ → σ) : Obj β σ ε :=
  .sink t fun v u => (.ok (), process v u)

/-- The blocks of a row of modules are the modules. -/
def Stages.Placed (obj : ι → Obj β σ ε) {s t : Ty κ} : Stages ι β σ s t → Prop
  | .nil _ => True
  | .cons i process rest => obj i = plainModule _ _ process ∧ rest.Placed obj

/-- The blocks of a plan are its sources, modules and sinks. -/
structure Plan.Placed (p : Plan ι β σ) (obj : ι → Obj β σ ε) : Prop where
  sources : ∀ src ∈ p.sources, obj src.1 = plainSource p.inner src.2
  stages : p.stages.Placed obj
  sinks : ∀ snk ∈ p.sinks, obj snk.1 = plainSink p.outer snk.2

/-- The consumers of whatever comes before a row of modules and the sinks. -/
def Stages.targets {s t : Ty κ} : Stages ι β σ s t → List ι → List (ι × Nat)
  | .nil _, sinks => sinks.map fun i => (i, 0)
  | .cons i _ _, _ => [(i, 0)]

/-- Every module is followed by the rest of its row. -/
def Stages.InSequence (h : Heap ι β σ ε) (sinks : List ι) {s t : Ty κ} : Stages ι β σ s t → Prop
  | .nil _ => True
  | .cons i _ rest => (h i).nextNodes = rest.targets sinks ∧ rest.InSequence h sinks

/-- Every source and every module is followed by the rest of the plan. -/
structure Plan.InSequence (p : Plan ι β σ) (h : Heap ι β σ ε) : Prop where
  sources : ∀ src ∈ p.sources, (h src.1).nextNodes = p.stages.targets (p.sinks.map Prod.fst)
  stages : p.stages.InSequence h (p.sinks.map Prod.fst)

/-- The consumers of whatever comes before the nodes of a row and the sinks. -/
def rowTargets : List ι → List ι → List (ι × Nat)
  | [], sinks => sinks.map fun i => (i, 0)
  | i :: _, _ => [(i, 0)]

/-- Every node of a row is followed by the rest of it. -/
def RowInSequence (h : Heap ι β σ ε) (sinks : List ι) : List ι → Prop
  | [] => True
  | i :: rest => (h i).nextNodes = rowTargets rest sinks ∧ RowInSequence h sinks rest

theorem rowTargets_ne_nil (row : List ι) {sinks : List ι} (h : sinks ≠ []) :
    rowTargets row sinks ≠ [] := by
  cases row with
  | nil =>
    intro hnil
    exact h (List.map_eq_nil_iff.1 hnil)
  | cons i rest => exact List.cons_ne_nil _ _

theorem RowInSequence.congr {h h' : Heap ι β σ ε} {sinks row : List ι}
    (hwired : RowInSequence h sinks row) (hsame : ∀ i, (h' i).nextNodes = (h i).nextNodes) :
    RowInSequence h' sinks row := by
  induction row with
  | nil => trivial
  | cons i rest ih => exact ⟨(hsame i).trans hwired.1, ih hwired.2⟩

theorem Stages.targets_eq {s t : Ty κ} (stages : Stages ι β σ s t) (sinks : List ι) :
    stages.targets sinks = rowTargets stages.ids sinks := by
  cases stages <;> rfl

theorem Stages.inSequence_iff {h : Heap ι β σ ε} {sinks : List ι} {s t : Ty κ}
    (stages : Stages ι β σ s t) : stages.InSequence h sinks ↔ RowInSequence h sinks stages.ids := by
  induction stages with
  | nil t => exact Iff.rfl
  | cons i process rest ih =>
    rw [Stages.InSequence, rest.targets_eq, ih]
    exact Iff.rfl

theorem Stages.targets_ne_nil {s t : Ty κ} (stages : Stages ι β σ s t) {sinks : List ι}
    (h : sinks ≠ []) : stages.targets sinks ≠ [] := by
  rw [stages.targets_eq]
  exact rowTargets_ne_nil stages.ids h

theorem Stages.Placed.module {obj : ι → Obj β σ ε} {s t : Ty κ} {stages : Stages ι β σ s t}
    (h : stages.Placed obj) :
    ∀ i ∈ stages.ids, ∃ inp out policy process, obj i = .module inp out policy process := by
  induction stages with
  | nil t => exact fun _ hi => absurd hi List.not_mem_nil
  | cons i process rest ih =>
    intro j hj
    rcases List.mem_cons.1 hj with rfl | hj
    · exact ⟨_, _, _, _, h.1⟩
    · exact ih h.2 j hj

/-! ## Running a wired plan -/

section Run

variable [DecidableEq ι] [DecidableEq κ] {fuel depth : Nat} {s : Machine ι β σ ε}

/-- The machine after some calls. -/
def Machine.after (s : Machine ι β σ ε) (u : σ) (events : List (Event ι β ε)) :
    Machine ι β σ ε := { s with user := u, log := s.log ++ events }

omit [DecidableEq ι] [DecidableEq κ] in
theorem Machine.after_after (s : Machine ι β σ ε) (u u' : σ) (xs ys : List (Event ι β ε)) :
    (s.after u xs).after u' ys = s.after u' (xs ++ ys) := by
  simp [Machine.after]

/-- A call of a block that keeps no state of its own. -/
theorem processAny_stateless {i : ι} {a b : Any β} {producerId : Nat} {c : Call β ε} {u : σ}
    (h : (s.heap i).obj.processAny a producerId s.user =
      (⟨some c, .ok b⟩, (s.heap i).obj, u)) :
    processAny depth i a producerId s = .ok b (s.after u [⟨depth, i, c⟩]) := by
  have hok : processAny depth i a producerId s =
      .ok b (finalState (processAny depth i a producerId s)) := processAny_ok (by rw [h])
  rw [hok, finalState_processAny, h, Function.update_eq_self]
  rfl

/-- A sink that receives a value. -/
theorem execute_plainSink {i : ι} {t : Ty κ} {process : t.Val β → σ → σ}
    (hobj : (s.heap i).obj = plainSink t process) (v : t.Val β) (producerId : Nat) :
    execute (fuel + 1) depth i (.val t v) producerId s =
      .ok () (s.after (process v s.user) [⟨depth, i, ⟨[.val t v], .void⟩⟩]) := by
  have hcall : (s.heap i).obj.processAny (.val t v) producerId s.user =
      (⟨some ⟨[.val t v], .void⟩, .ok .empty⟩, (s.heap i).obj, process v s.user) := by
    rw [hobj]
    simp [plainSink, Obj.processAny, Sink.processAny]
  rw [execute_succ, if_pos (by rw [hobj]; rfl), if_neg (by simp [Any.hasValue, Any.type]),
    bind_ok (processAny_stateless hcall)]
  rfl

/-- A module that receives a value hands its own to its consumers. -/
theorem execute_plainModule {i : ι} {r t : Ty κ} {process : r.Val β → σ → t.Val β × σ}
    (hobj : (s.heap i).obj = plainModule r t process) (hne : (s.heap i).nextNodes ≠ [])
    (v : r.Val β) (producerId : Nat) :
    execute (fuel + 1) depth i (.val r v) producerId s =
      (forM (s.heap i).nextNodes fun c =>
          execute fuel (depth + 1) c.1 (.val t (process v s.user).1) c.2)
        (s.after (process v s.user).2
          [⟨depth, i, ⟨[.val r v], .value (.val t (process v s.user).1)⟩⟩]) := by
  have hcall : (s.heap i).obj.processAny (.val r v) producerId s.user =
      (⟨some ⟨[.val r v], .value (.val t (process v s.user).1)⟩,
        .ok (.val t (process v s.user).1)⟩, (s.heap i).obj, (process v s.user).2) := by
    rw [hobj]
    simp [plainModule, Obj.processAny, Module.processAny, pack]
  rw [execute_succ, if_neg (by rw [hobj]; exact Bool.false_ne_true),
    bind_ok (processAny_stateless hcall), if_pos (by simp [Any.hasValue, Any.type]),
    produce_fanout (by rw [hobj]; rfl) hne]

/-- A source hands its value to its consumers. -/
theorem execute_plainSource {i : ι} {t : Ty κ} {process : σ → t.Val β × σ}
    (hobj : (s.heap i).obj = plainSource t process) (hne : (s.heap i).nextNodes ≠ [])
    (producerId : Nat) :
    execute (fuel + 1) depth i .empty producerId s =
      (forM (s.heap i).nextNodes fun c =>
          execute fuel (depth + 1) c.1 (.val t (process s.user).1) c.2)
        (s.after (process s.user).2
          [⟨depth, i, ⟨[], .value (.val t (process s.user).1)⟩⟩]) := by
  have hcall : (s.heap i).obj.processAny .empty producerId s.user =
      (⟨some ⟨[], .value (.val t (process s.user).1)⟩,
        .ok (.val t (process s.user).1)⟩, (s.heap i).obj, (process s.user).2) := by
    rw [hobj]
    simp [plainSource, Obj.processAny, Source.processAny, pack]
  rw [execute_succ, if_neg (by rw [hobj]; exact Bool.false_ne_true),
    bind_ok (processAny_stateless hcall), if_pos (by simp [Any.hasValue, Any.type]),
    produce_fanout (by rw [hobj]; rfl) hne]

/-- A value handed to the sinks goes to each of them once, in order. -/
theorem run_sinks {t : Ty κ} (w : t.Val β) : ∀ (sinks : List (ι × (t.Val β → σ → σ)))
    (s : Machine ι β σ ε),
    (∀ snk ∈ sinks, (s.heap snk.1).obj = plainSink t snk.2) →
    (forM ((sinks.map Prod.fst).map fun i => (i, 0)) fun c : ι × Nat =>
        execute (fuel + 1) depth c.1 (.val t w) c.2) s =
      .ok () (s.after (sinks.foldl (fun u snk => snk.2 w u) s.user)
        (sinks.map fun snk => ⟨depth, snk.1, ⟨[.val t w], .void⟩⟩)) := by
  intro sinks
  induction sinks with
  | nil =>
    intro s _
    simp only [Machine.after, List.map_nil, List.append_nil, List.foldl_nil]
    rfl
  | cons snk sinks ih =>
    intro s h
    obtain ⟨hsnk, hsinks⟩ := List.forall_mem_cons.1 h
    have hrest := ih (s.after (snk.2 w s.user) [⟨depth, snk.1, ⟨[.val t w], .void⟩⟩]) hsinks
    rw [List.map_cons, List.map_cons, List.forM_cons, bind_ok (execute_plainSink hsnk w 0), hrest,
      Machine.after_after]
    rfl

/-- A value handed to a row of modules comes out of it as the composed function says, and goes to
every sink. -/
theorem run_stages {t : Ty κ} {sinks : List (ι × (t.Val β → σ → σ))} (hne : sinks ≠ []) :
    ∀ {r : Ty κ} (stages : Stages ι β σ r t) (fuel depth : Nat) (v : r.Val β)
      (s : Machine ι β σ ε), stages.ids.length < fuel →
      stages.Placed (fun i => (s.heap i).obj) → stages.InSequence s.heap (sinks.map Prod.fst) →
      (∀ snk ∈ sinks, (s.heap snk.1).obj = plainSink t snk.2) →
      (forM (stages.targets (sinks.map Prod.fst)) fun c =>
          execute fuel depth c.1 (.val r v) c.2) s =
        .ok () (s.after
          (sinks.foldl (fun u snk => snk.2 (stages.apply v s.user).1 u) (stages.apply v s.user).2)
          (stages.calls depth v s.user ++ sinks.map fun snk =>
            ⟨depth + stages.ids.length, snk.1, ⟨[.val t (stages.apply v s.user).1], .void⟩⟩))
  | _, .nil _, fuel, depth, v, s, hfuel, _, _, hsinks => by
    obtain ⟨fuel, rfl⟩ : ∃ n, fuel = n + 1 := ⟨fuel - 1, by omega⟩
    exact run_sinks v sinks s hsinks
  | _, .cons i process rest, fuel, depth, v, s, hfuel, hplaced, hwired, hsinks => by
    obtain ⟨fuel, rfl⟩ : ∃ n, fuel = n + 1 := ⟨fuel - 1, by omega⟩
    obtain ⟨hobj, hplaced⟩ := hplaced
    obtain ⟨hnext, hwired⟩ := hwired
    have hne' : (s.heap i).nextNodes ≠ [] := by
      rw [hnext]
      exact rest.targets_ne_nil (by simpa using hne)
    have hlen : rest.ids.length < fuel := by
      have hids : (Stages.cons i process rest).ids.length = rest.ids.length + 1 := rfl
      omega
    -- the rest of the row, one level deeper
    have hrest := run_stages hne rest fuel (depth + 1) (process v s.user).1
      (s.after (process v s.user).2
        [⟨depth, i, ⟨[.val _ v], .value (.val _ (process v s.user).1)⟩⟩]) hlen hplaced hwired
      hsinks
    have hone : (forM (Stages.targets (.cons i process rest) (sinks.map Prod.fst)) fun c =>
        execute (fuel + 1) depth c.1 (.val _ v) c.2) s =
        execute (fuel + 1) depth i (.val _ v) 0 s := by
      simp [Stages.targets]
    have hdepth : depth + 1 + rest.ids.length = depth + (rest.ids.length + 1) := by omega
    rw [hone, execute_plainModule hobj hne', hnext, hrest, Machine.after_after, hdepth]
    rfl

/-- Every source in a list takes its turn, in order. -/
theorem run_sources (p : Plan ι β σ) (hne : p.sinks ≠ []) (hfuel : p.stages.ids.length + 1 < fuel) :
    ∀ (srcs : List (ι × (σ → p.inner.Val β × σ))) (s : Machine ι β σ ε),
      (∀ src ∈ srcs, src ∈ p.sources) → p.Placed (fun i => (s.heap i).obj) → p.InSequence s.heap →
      (forM (srcs.map Prod.fst) fun src => execute fuel 0 src .empty 0) s =
        .ok () (s.after (p.turns ε srcs s.user).2 (p.log (p.turns ε srcs s.user).1)) := by
  intro srcs
  -- induction on the sources that still have their turn
  induction srcs with
  | nil =>
    intro s _ _ _
    simp only [Plan.turns, Plan.log, List.flatMap_nil, Machine.after, List.append_nil]
    rfl
  | cons src srcs ih =>
    intro s hsub hplaced hwired
    obtain ⟨hsrc, hsrcs⟩ := List.forall_mem_cons.1 hsub
    have hobj : (s.heap src.1).obj = plainSource p.inner src.2 := hplaced.sources src hsrc
    have hnext := hwired.sources src hsrc
    have hnonempty : (s.heap src.1).nextNodes ≠ [] := by
      rw [hnext]
      exact p.stages.targets_ne_nil (by simpa using hne)
    -- one source: its value goes through the row to every sink
    have hturn : execute fuel 0 src.1 .empty 0 s = .ok () (s.after (p.turn ε src s.user).2.2
        ((p.turn ε src s.user).1 ++ p.sinkCalls (p.turn ε src s.user).2.1)) := by
      obtain ⟨n, hn⟩ : ∃ n, fuel = n + 1 := ⟨fuel - 1, by omega⟩
      have hstages := run_stages hne p.stages n 1 (src.2 s.user).1
        (s.after (src.2 s.user).2 [⟨0, src.1, ⟨[], .value (.val _ (src.2 s.user).1)⟩⟩])
        (by omega) hplaced.stages hwired.stages hplaced.sinks
      rw [hn, execute_plainSource hobj hnonempty, hnext, hstages, Machine.after_after,
        Nat.add_comm 1 p.stages.ids.length]
      rfl
    have hrest := ih (s.after (p.turn ε src s.user).2.2
        ((p.turn ε src s.user).1 ++ p.sinkCalls (p.turn ε src s.user).2.1)) hsrcs hplaced hwired
    rw [List.map_cons, List.forM_cons, bind_ok hturn, hrest, Machine.after_after]
    rfl

/-- A pipeline whose machine has made some calls. -/
def System.after (S : System ι β σ ε) (u : σ) (events : List (Event ι β ε)) : System ι β σ ε :=
  ⟨S.pipeline, S.machine.after u events⟩

/-- A number of executes of a wired pipeline. -/
theorem run_executes (p : Plan ι β σ) (hm : p.sources ≠ []) (hne : p.sinks ≠ [])
    (hfuel : p.stages.ids.length + 1 < fuel) :
    ∀ (K : Nat) (S : System ι β σ ε), S.pipeline.sources = p.sources.map Prod.fst →
      p.Placed (fun i => (S.machine.heap i).obj) → p.InSequence S.machine.heap →
      S.run fuel (List.replicate K .execute) =
        (List.replicate K .returned, S.after (p.turns ε (p.rounds K) S.machine.user).2
          (p.log (p.turns ε (p.rounds K) S.machine.user).1)) := by
  intro K
  induction K with
  | zero =>
    intro S _ _ _
    simp [System.run, Plan.rounds, Plan.turns, Plan.log, System.after, Machine.after]
  | succ K ih =>
    intro S hsources hplaced hwired
    have hone := run_sources p hne hfuel p.sources S.machine (fun _ h => h) hplaced hwired
    have hexec : S.pipeline.execute fuel S.machine =
        .ok () (S.machine.after (p.turns ε p.sources S.machine.user).2
          (p.log (p.turns ε p.sources S.machine.user).1)) := by
      have hnil : S.pipeline.sources ≠ [] := by
        rw [hsources]
        simpa using hm
      rw [Pipeline.execute, if_pos hnil, hsources]
      exact hone
    have hrest := ih (S.after (p.turns ε p.sources S.machine.user).2
        (p.log (p.turns ε p.sources S.machine.user).1)) hsources hplaced hwired
    have hrounds : p.rounds (K + 1) = p.sources ++ p.rounds K := by
      rw [Plan.rounds, List.replicate_succ, List.flatten_cons]
      rfl
    have hstep : S.step fuel .execute = (.returned,
        S.after (p.turns ε p.sources S.machine.user).2
          (p.log (p.turns ε p.sources S.machine.user).1)) := by
      rw [System.step, hexec]
      rfl
    rw [List.replicate_succ, System.run, hstep, hrest, hrounds, Plan.turns_append]
    simp only [Plan.log, List.flatMap_append, System.after, Machine.after_after]
    rfl

end Run

/-! ## Building the pipeline -/

section Build

variable [DecidableEq ι]

/-- The blocks that get the next node or sink as a consumer. -/
def Pipeline.front (p : Pipeline ι) : List ι :=
  match p.nodes.getLast? with
  | some back => [back]
  | none => p.sources

/-- The heap after the blocks in `front` got further consumers. -/
def feed (h : Heap ι β σ ε) (front : List ι) (consumers : List (ι × Nat)) : Heap ι β σ ε :=
  fun i => if i ∈ front then { h i with nextNodes := (h i).nextNodes ++ consumers } else h i

theorem obj_feed (h : Heap ι β σ ε) (front : List ι) (consumers : List (ι × Nat)) (i : ι) :
    (feed h front consumers i).obj = (h i).obj := by
  rw [feed]
  split <;> rfl

theorem feed_of_mem {h : Heap ι β σ ε} {front : List ι} {consumers : List (ι × Nat)} {i : ι}
    (hi : i ∈ front) :
    feed h front consumers i = { h i with nextNodes := (h i).nextNodes ++ consumers } :=
  if_pos hi

theorem feed_of_not_mem {h : Heap ι β σ ε} {front : List ι} {consumers : List (ι × Nat)} {i : ι}
    (hi : i ∉ front) : feed h front consumers i = h i :=
  if_neg hi

theorem feed_nil (h : Heap ι β σ ε) (front : List ι) : feed h front [] = h := by
  funext i
  by_cases hi : i ∈ front
  · rw [feed_of_mem hi, List.append_nil]
  · rw [feed_of_not_mem hi]

theorem feed_feed (h : Heap ι β σ ε) (front : List ι) (xs ys : List (ι × Nat)) :
    feed (feed h front xs) front ys = feed h front (xs ++ ys) := by
  funext i
  by_cases hi : i ∈ front
  · rw [feed_of_mem hi, feed_of_mem hi, feed_of_mem hi, List.append_assoc]
  · rw [feed_of_not_mem hi, feed_of_not_mem hi, feed_of_not_mem hi]

/-- A block that counts no producers gets id `0` from every one of them. -/
theorem addConsumer_plain {h : Heap ι β σ ε} {this next : ι}
    (hplain : (h next).obj.registerProducer = (0, (h next).obj)) :
    addConsumer h this next = feed h [this] [(next, 0)] := by
  have hsame : Function.update h next { h next with obj := (h next).obj } = h :=
    Function.update_eq_self next h
  rw [addConsumer]
  simp only [hplain, hsame]
  funext i
  by_cases hi : i = this
  · subst hi
    rw [Function.update_self, feed_of_mem List.mem_cons_self]
  · rw [Function.update_of_ne hi, feed_of_not_mem (by simpa using hi)]

/-- `Pipeline::add` wires a plain block to the whole front. -/
theorem wire_plain {p : Pipeline ι} {h : Heap ι β σ ε} {f : ι} (hfront : p.front.Nodup)
    (hplain : (h f).obj.registerProducer = (0, (h f).obj)) :
    p.wire h f = feed h p.front [(f, 0)] := by
  have hfold : ∀ (front : List ι) (h : Heap ι β σ ε), front.Nodup →
      (h f).obj.registerProducer = (0, (h f).obj) →
      front.foldl (fun h src => addConsumer h src f) h = feed h front [(f, 0)] := by
    intro front
    -- induction on the front: each of its blocks gets the consumer once
    induction front with
    | nil =>
      intro h _ _
      funext i
      rw [feed_of_not_mem List.not_mem_nil]
      rfl
    | cons src front ih =>
      intro h hnodup hplain
      obtain ⟨hsrc, hnodup⟩ := List.nodup_cons.1 hnodup
      have hplain' : (feed h [src] [(f, 0)] f).obj.registerProducer =
          (0, (feed h [src] [(f, 0)] f).obj) := by
        rw [obj_feed]
        exact hplain
      rw [List.foldl_cons, addConsumer_plain hplain, ih _ hnodup hplain']
      funext i
      by_cases hi : i ∈ front
      · have hne : i ∉ [src] := by
          intro hmem
          rw [List.mem_singleton.1 hmem] at hi
          exact hsrc hi
        rw [feed_of_mem hi, feed_of_not_mem hne, feed_of_mem (List.mem_cons_of_mem _ hi)]
      · rw [feed_of_not_mem hi]
        by_cases hsame : i = src
        · subst hsame
          rw [feed_of_mem List.mem_cons_self, feed_of_mem List.mem_cons_self]
        · rw [feed_of_not_mem (by simpa using hsame), feed_of_not_mem (by simp [hsame, hi])]
  unfold Pipeline.wire Pipeline.front at *
  cases hlast : p.nodes.getLast? with
  | none =>
    rw [hlast] at hfront
    exact hfold p.sources h hfront hplain
  | some back => exact addConsumer_plain hplain

variable [DecidableEq κ] (fuel : Nat)

/-- The system with another heap. -/
def System.withHeap (S : System ι β σ ε) (h : Heap ι β σ ε) : System ι β σ ε :=
  ⟨S.pipeline, { S.machine with heap := h }⟩

/-- Sources are only remembered as long as there is no node. -/
theorem run_addSources : ∀ (ids : List ι) (S : System ι β σ ε), S.pipeline.nodes = [] →
    (∀ i ∈ ids, ∃ t process, (S.machine.heap i).obj = plainSource t process) →
    S.run fuel (ids.map .add) = (List.replicate ids.length .returned,
      ⟨{ S.pipeline with sources := S.pipeline.sources ++ ids }, S.machine⟩) := by
  intro ids
  induction ids with
  | nil =>
    intro S _ _
    simp [System.run]
  | cons i ids ih =>
    intro S hnodes hids
    obtain ⟨⟨t, process, hobj⟩, hids⟩ := List.forall_mem_cons.1 hids
    have hstep : S.step fuel (.add i) = (.returned,
        ⟨{ S.pipeline with sources := S.pipeline.sources ++ [i] }, S.machine⟩) := by
      simp [System.step, Pipeline.add, hobj, plainSource, hnodes]
    have hrest := ih
      ⟨{ S.pipeline with sources := S.pipeline.sources ++ [i] }, S.machine⟩ hnodes hids
    rw [List.map_cons, System.run, hstep, hrest, List.length_cons, List.replicate_succ]
    simp only [List.append_assoc, List.singleton_append]

/-- Every block of the front gets every sink as a consumer. -/
theorem run_addSinks : ∀ (ids : List ι) (S : System ι β σ ε), S.pipeline.front.Nodup →
    (∀ i ∈ ids, ∃ inp process, (S.machine.heap i).obj = .sink inp process) →
    S.run fuel (ids.map .add) = (List.replicate ids.length .returned,
      S.withHeap (feed S.machine.heap S.pipeline.front (ids.map fun i => (i, 0)))) := by
  intro ids
  induction ids with
  | nil =>
    intro S _ _
    simp only [List.map_nil, feed_nil]
    rfl
  | cons i ids ih =>
    intro S hfront hids
    obtain ⟨⟨inp, process, hobj⟩, hids⟩ := List.forall_mem_cons.1 hids
    have hwire := wire_plain (h := S.machine.heap) (f := i) hfront (by rw [hobj]; rfl)
    have hstep : S.step fuel (.add i) = (.returned,
        S.withHeap (feed S.machine.heap S.pipeline.front [(i, 0)])) := by
      simp [System.step, Pipeline.add, hobj, hwire, System.withHeap]
    have hrest := ih (S.withHeap (feed S.machine.heap S.pipeline.front [(i, 0)]))
      hfront (fun j hj => by
        obtain ⟨inp, process, hj⟩ := hids j hj
        exact ⟨inp, process, by rw [← hj]; exact obj_feed _ _ _ _⟩)
    have hfeed := feed_feed S.machine.heap S.pipeline.front [(i, 0)] (ids.map fun i => (i, 0))
    rw [List.map_cons, System.run, hstep, hrest, List.length_cons, List.replicate_succ]
    simp only [System.withHeap, hfeed]
    rfl

/-- Adding modules and then the sinks: the old front gets the first of them, each module the rest of
the row, and nothing else changes. -/
theorem run_addRow (sinks : List ι) : ∀ (row : List ι) (S : System ι β σ ε),
    (S.pipeline.front ++ row).Nodup →
    (∀ i ∈ S.pipeline.front ++ row, (S.machine.heap i).nextNodes = []) →
    (∀ i ∈ row, ∃ inp out policy process,
      (S.machine.heap i).obj = .module inp out policy process) →
    (∀ i ∈ sinks, ∃ inp process, (S.machine.heap i).obj = .sink inp process) →
    ∃ nodes h, S.run fuel ((row ++ sinks).map .add) =
        (List.replicate (row ++ sinks).length .returned,
          ⟨{ S.pipeline with nodes := nodes }, { S.machine with heap := h }⟩) ∧
      (∀ i, (h i).obj = (S.machine.heap i).obj) ∧
      (∀ i ∈ S.pipeline.front, (h i).nextNodes = rowTargets row sinks) ∧
      RowInSequence h sinks row ∧ ∀ i, i ∉ S.pipeline.front ++ row → h i = S.machine.heap i := by
  intro row
  -- induction on the modules that are still to be added
  induction row with
  | nil =>
    intro S hnodup hfresh _ hsinks
    have hfront : S.pipeline.front.Nodup := (List.nodup_append.1 hnodup).1
    refine ⟨_, _, run_addSinks fuel sinks S hfront hsinks, obj_feed _ _ _, ?_, trivial, ?_⟩
    · intro i hi
      rw [feed_of_mem hi, hfresh i (List.mem_append_left _ hi)]
      rfl
    · intro i hi
      exact feed_of_not_mem fun hmem => hi (List.mem_append_left _ hmem)
  | cons i rest ih =>
    intro S hnodup hfresh hmodules hsinks
    obtain ⟨⟨inp, out, policy, process, hobj⟩, hmodules⟩ := List.forall_mem_cons.1 hmodules
    obtain ⟨hfront, hids, hdisjoint⟩ := List.nodup_append.1 hnodup
    have hnotfront : ∀ j ∈ i :: rest, j ∉ S.pipeline.front :=
      fun j hj hmem => hdisjoint j hmem j hj rfl
    let S' : System ι β σ ε := ⟨{ S.pipeline with nodes := S.pipeline.nodes ++ [i] },
      { S.machine with heap := feed S.machine.heap S.pipeline.front [(i, 0)] }⟩
    -- the module that was added last is now the front
    have hfront' : S'.pipeline.front = [i] := by
      simp [S', Pipeline.front]
    have hstep : S.step fuel (.add i) = (.returned, S') := by
      have hwire := wire_plain (h := S.machine.heap) (f := i) hfront (by rw [hobj]; rfl)
      simp [System.step, Pipeline.add, hobj, hwire, S']
    have hsame : ∀ j, (S'.machine.heap j).obj = (S.machine.heap j).obj := obj_feed _ _ _
    obtain ⟨nodes, h, hrun, hobjs, htargets, hwired, hother⟩ :=
      ih S' (by rw [hfront']; exact hids)
        (by
          rw [hfront']
          intro j hj
          have hkeep : S'.machine.heap j = S.machine.heap j :=
            feed_of_not_mem (hnotfront j hj)
          rw [hkeep]
          exact hfresh j (List.mem_append_right _ hj))
        (by simpa only [hsame] using hmodules) (by simpa only [hsame] using hsinks)
    rw [hfront'] at htargets hother
    refine ⟨nodes, h, ?_, ?_, ?_, ?_, ?_⟩
    · rw [List.cons_append, List.map_cons, System.run, hstep, hrun, List.length_cons,
        List.replicate_succ]
    · intro j
      rw [hobjs j, hsame]
    · -- the old front keeps the first module as its only consumer
      intro j hj
      have hnot : j ∉ [i] ++ rest := fun hmem => hnotfront j hmem hj
      have hkeep : S'.machine.heap j = _ := feed_of_mem hj
      rw [hother j hnot, hkeep, hfresh j (List.mem_append_left _ hj)]
      rfl
    · exact ⟨htargets i List.mem_cons_self, hwired⟩
    · intro j hj
      have hnot : j ∉ [i] ++ rest := fun hmem => hj (List.mem_append_right _ hmem)
      have hkeep : S'.machine.heap j = S.machine.heap j :=
        feed_of_not_mem fun hmem => hj (List.mem_append_left _ hmem)
      rw [hother j hnot, hkeep]

/-- Adding all blocks of a plan wires the plan. -/
theorem run_addPlan (p : Plan ι β σ) (hnodup : p.ids.Nodup) (obj : ι → Obj β σ ε)
    (hplaced : p.Placed obj) (u : σ) :
    ∃ nodes h, (System.init obj u).run fuel (p.ids.map .add) =
        (List.replicate p.ids.length .returned,
          ⟨{ sources := p.sources.map Prod.fst, nodes := nodes }, { heap := h, user := u }⟩) ∧
      (∀ i, (h i).obj = obj i) ∧ p.InSequence h := by
  have hsources : ∀ i ∈ p.sources.map Prod.fst, ∃ t process, obj i = plainSource t process := by
    intro i hi
    obtain ⟨src, hsrc, rfl⟩ := List.mem_map.1 hi
    exact ⟨p.inner, src.2, hplaced.sources src hsrc⟩
  have hsinks : ∀ i ∈ p.sinks.map Prod.fst, ∃ inp process, obj i = .sink inp process := by
    intro i hi
    obtain ⟨snk, hsnk, rfl⟩ := List.mem_map.1 hi
    exact ⟨p.outer, _, hplaced.sinks snk hsnk⟩
  let S : System ι β σ ε :=
    ⟨{ sources := p.sources.map Prod.fst }, (System.init obj u).machine⟩
  have hfirst : (System.init obj u).run fuel ((p.sources.map Prod.fst).map .add) =
      (List.replicate (p.sources.map Prod.fst).length .returned, S) :=
    run_addSources fuel _ (System.init obj u) rfl hsources
  have hnodup' : (S.pipeline.front ++ p.stages.ids).Nodup := (List.nodup_append.1 hnodup).1
  obtain ⟨nodes, h, hrun, hobjs, htargets, hwired, -⟩ := run_addRow fuel (p.sinks.map Prod.fst)
    p.stages.ids S hnodup' (fun _ _ => rfl) hplaced.stages.module hsinks
  refine ⟨nodes, h, ?_, hobjs, ⟨?_, p.stages.inSequence_iff.2 hwired⟩⟩
  · have hids : p.ids = p.sources.map Prod.fst ++ (p.stages.ids ++ p.sinks.map Prod.fst) :=
      List.append_assoc _ _ _
    have hlen : p.ids.length =
        (p.sources.map Prod.fst).length + (p.stages.ids ++ p.sinks.map Prod.fst).length := by
      rw [hids, List.length_append]
    rw [hlen, List.replicate_add, hids, List.map_append, run_append, hfirst]
    simp only [hrun]
    rfl
  · intro src hsrc
    rw [p.stages.targets_eq]
    exact htargets src.1 (List.mem_map_of_mem hsrc)

/-- A pipeline built from at least one source, any number of modules and at least one sink, and
executed any number of times: every call returns, the calls of user functions are those of the plan
in its order, and so are the calls of the sinks among them. -/
theorem pipeline_meaning (p : Plan ι β σ) (hm : p.sources ≠ []) (hj : p.sinks ≠ [])
    (hnodup : p.ids.Nodup) (obj : ι → Obj β σ ε) (hplaced : p.Placed obj) (u : σ) (K : Nat)
    (hfuel : p.stages.ids.length + 1 < fuel) :
    ∃ replies S, (System.init obj u).run fuel (p.ids.map .add ++ List.replicate K .execute) =
        (replies, S) ∧
      (∀ reply ∈ replies, reply = .returned) ∧
      S.machine.user = (p.turns ε (p.rounds K) u).2 ∧
      S.machine.log = p.log (p.turns ε (p.rounds K) u).1 ∧
      S.machine.log.filter (fun e => p.isSinkBlock e.block) =
        p.sinkLog (p.turns ε (p.rounds K) u).1 := by
  obtain ⟨nodes, h, hbuild, hobjs, hwired⟩ :=
    run_addPlan fuel p hnodup obj hplaced u
  let S : System ι β σ ε :=
    ⟨{ sources := p.sources.map Prod.fst, nodes := nodes }, { heap := h, user := u }⟩
  have hplaced' : p.Placed fun i => (S.machine.heap i).obj := by
    have hsame : (fun i => (S.machine.heap i).obj) = obj := funext hobjs
    rw [hsame]
    exact hplaced
  have hexecutes := run_executes p hm hj hfuel K S rfl hplaced' hwired
  have hall : ∀ src ∈ p.rounds K, src ∈ p.sources := by
    intro src hsrc
    obtain ⟨srcs, hsrcs, hmem⟩ := List.mem_flatten.1 hsrc
    rw [(List.mem_replicate.1 hsrcs).2] at hmem
    exact hmem
  let ts := p.turns ε (p.rounds K) u
  have hlog : (S.after ts.2 (p.log ts.1)).machine.log = p.log ts.1 := List.nil_append _
  refine ⟨List.replicate p.ids.length .returned ++ List.replicate K .returned,
    S.after ts.2 (p.log ts.1), ?_, ?_, rfl, hlog, ?_⟩
  · rw [run_append, hbuild]
    simp only
    rw [hexecutes]
  · intro reply hreply
    rcases List.mem_append.1 hreply with hadd | hexec
    · exact (List.mem_replicate.1 hadd).2
    · exact (List.mem_replicate.1 hexec).2
  · rw [hlog]
    exact p.filter_sinks_log hnodup (p.rounds K) u hall

end Build

/-- A source that counts its calls, a module that doubles, and a sink that adds to the count. -/
def countingPlan : Plan Nat (fun _ : Unit => Nat) Nat where
  inner := .base ()
  outer := .base ()
  sources := [(0, fun u : Nat => (u, u + 1))]
  stages := .cons 1 (fun (v u : Nat) => (v + v, u)) (.nil (.base ()))
  sinks := [(2, fun (v u : Nat) => u + v)]

/-- The blocks of the counting plan. -/
def countingBlocks : Nat → Obj (fun _ : Unit => Nat) Nat Empty
  | 0 => plainSource (.base ()) fun u : Nat => (u, u + 1)
  | 1 => plainModule (.base ()) (.base ()) fun (v u : Nat) => (v + v, u)
  | _ => plainSink (.base ()) fun (v u : Nat) => u + v

theorem countingPlan_placed : countingPlan.Placed countingBlocks where
  sources := by
    intro src hsrc
    rw [List.mem_singleton.1 hsrc]
    rfl
  stages := ⟨rfl, trivial⟩
  sinks := by
    intro snk hsnk
    rw [List.mem_singleton.1 hsnk]
    rfl

theorem countingPlan_meaning :
    ∃ replies S, (System.init countingBlocks 0).run 3
        (countingPlan.ids.map .add ++ List.replicate 2 .execute) = (replies, S) ∧
      (∀ reply ∈ replies, reply = .returned) ∧
      S.machine.user = (countingPlan.turns Empty (countingPlan.rounds 2) 0).2 ∧
      S.machine.log = countingPlan.log (countingPlan.turns Empty (countingPlan.rounds 2) 0).1 ∧
      S.machine.log.filter (fun e => countingPlan.isSinkBlock e.block) =
        countingPlan.sinkLog (countingPlan.turns Empty (countingPlan.rounds 2) 0).1 :=
  pipeline_meaning 3 countingPlan (List.cons_ne_nil _ _) (List.cons_ne_nil _ _) (by decide)
    countingBlocks countingPlan_placed 0 2 (by decide)

end PipelineTools.FlowEngine
