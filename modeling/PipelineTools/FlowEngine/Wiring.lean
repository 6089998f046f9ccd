import PipelineTools.FlowEngine.Pipeline
import PipelineTools.Library.FiniteGraph
import PipelineTools.Library.TraceLogic

/-!
# What a run of the engine leaves alone

Running blocks changes the members of aggregators and the user state, never the graph:
`SameWiring` holds between the heaps before and after. `Flow.produce` on a block with consumers is
one loop over all of them (`produce_fanout`), and on a round-robin producer one loop over the
consumers paired with the elements of the vector (`produce_roundRobin`). In every history the
sources of a pipeline are `Source` objects and its nodes are modules or aggregators
(`classes_run`).
-/

set_option autoImplicit false

namespace PipelineTools.FlowEngine

open PipelineTools.Library

variable {ι κ : Type} {β : κ → Type} {σ ε : Type}

/-- A block without the mutable members of an aggregator. -/
def Obj.shape : Obj β σ ε → Obj β σ ε
  | .aggregator inp out toOut toIn process _ => .aggregator inp out toOut toIn process {}
  | obj => obj

/-- The two heaps hold the same blocks with the same consumers. -/
def SameWiring (h h' : Heap ι β σ ε) : Prop :=
  ∀ i, (h' i).obj.shape = (h i).obj.shape ∧ (h' i).nextNodes = (h i).nextNodes

namespace SameWiring

theorem refl (h : Heap ι β σ ε) : SameWiring h h := fun _ => ⟨rfl, rfl⟩

theorem trans {h h' h'' : Heap ι β σ ε} (a : SameWiring h h') (b : SameWiring h' h'') :
    SameWiring h h'' :=
  fun i => ⟨(b i).1.trans (a i).1, (b i).2.trans (a i).2⟩

theorem nextNodes {h h' : Heap ι β σ ε} (w : SameWiring h h') (i : ι) :
    (h' i).nextNodes = (h i).nextNodes := (w i).2

end SameWiring

/-- A property of a block that does not depend on an aggregator's mutable members. -/
theorem policy_shape (obj : Obj β σ ε) : obj.shape.policy = obj.policy := by cases obj <;> rfl

theorem outputType_shape (obj : Obj β σ ε) : obj.shape.outputType = obj.outputType := by
  cases obj <;> rfl

theorem isSink_shape (obj : Obj β σ ε) : obj.shape.isSink = obj.isSink := by cases obj <;> rfl

theorem isSource_shape (obj : Obj β σ ε) : obj.shape.isSource = obj.isSource := by
  cases obj <;> rfl

theorem isNode_shape (obj : Obj β σ ε) : obj.shape.isNode = obj.isNode := by cases obj <;> rfl

theorem shape_registerProducer (obj : Obj β σ ε) : obj.registerProducer.2.shape = obj.shape := by
  cases obj <;> rfl

namespace SameWiring

variable {h h' : Heap ι β σ ε}

theorem policy (w : SameWiring h h') (i : ι) : (h' i).obj.policy = (h i).obj.policy := by
  rw [← policy_shape, (w i).1, policy_shape]

theorem outputType (w : SameWiring h h') (i : ι) :
    (h' i).obj.outputType = (h i).obj.outputType := by
  rw [← outputType_shape, (w i).1, outputType_shape]

theorem isSink (w : SameWiring h h') (i : ι) : (h' i).obj.isSink = (h i).obj.isSink := by
  rw [← isSink_shape, (w i).1, isSink_shape]

end SameWiring

section Execution

variable [DecidableEq ι] [DecidableEq κ]

theorem shape_processAny (a : Any β) (producerId : Nat) (u : σ) (obj : Obj β σ ε) :
    (obj.processAny a producerId u).2.1.shape = obj.shape := by
  cases obj with
  | source out p process => rfl
  | module inp out p process => rfl
  | aggregator inp out toOut toIn process self => rfl
  | sink inp process => rfl
  | other p processAny =>
    simp only [Obj.processAny]
    split <;> rfl

/-- The machine after a call of `process_any`, whatever it returned. -/
theorem finalState_processAny (depth : Nat) (i : ι) (a : Any β) (producerId : Nat)
    (s : Machine ι β σ ε) :
    finalState (processAny depth i a producerId s) =
      { heap := Function.update s.heap i
          { s.heap i with obj := ((s.heap i).obj.processAny a producerId s.user).2.1 }
        user := ((s.heap i).obj.processAny a producerId s.user).2.2
        log := s.log ++
          (((s.heap i).obj.processAny a producerId s.user).1.call.map
            fun c => ⟨depth, i, c⟩).toList } := by
  unfold processAny
  extract_lets r s'
  cases r.1.result <;> rfl

theorem log_processAny (depth : Nat) {i : ι} {a : Any β} {producerId : Nat} {s : Machine ι β σ ε}
    {o : Outcome β ε} (h : ((s.heap i).obj.processAny a producerId s.user).1 = o) :
    (finalState (processAny depth i a producerId s)).log =
      s.log ++ (o.call.map fun c => ⟨depth, i, c⟩).toList := by
  rw [finalState_processAny, h]

theorem processAny_ok {depth : Nat} {i : ι} {a b : Any β} {producerId : Nat} {s : Machine ι β σ ε}
    (h : ((s.heap i).obj.processAny a producerId s.user).1.result = .ok b) :
    processAny depth i a producerId s =
      .ok b (finalState (processAny depth i a producerId s)) := by
  unfold processAny
  extract_lets r s'
  rw [show r.1.result = .ok b from h]
  rfl

theorem processAny_error {depth : Nat} {i : ι} {a : Any β} {e : Stop κ ε} {producerId : Nat}
    {s : Machine ι β σ ε}
    (h : ((s.heap i).obj.processAny a producerId s.user).1.result = .error e) :
    processAny depth i a producerId s =
      .error e (finalState (processAny depth i a producerId s)) := by
  unfold processAny
  extract_lets r s'
  rw [show r.1.result = .error e from h]
  rfl

theorem sameWiring_processAny (depth : Nat) (i : ι) (a : Any β) (producerId : Nat)
    (s : Machine ι β σ ε) :
    SameWiring s.heap (finalState (processAny depth i a producerId s)).heap := by
  rw [finalState_processAny]
  intro j
  by_cases hj : j = i
  · subst hj
    simp [shape_processAny]
  · simp [Function.update_of_ne hj]

end Execution

/-! ## The two ways of producing -/

section Produce

theorem fanoutLoop_eq (exec : ι → Any β → Nat → Eng ι β σ ε Unit) (nextNodes : List (ι × Nat))
    (output : Any β) :
    ∀ left i, i + left ≤ nextNodes.length →
      fanoutLoop exec nextNodes output left i =
        forM ((nextNodes.drop i).take left) fun c => exec c.1 output c.2
  | 0, i, _ => by simp [fanoutLoop]
  | left + 1, i, h => by
    have hi : i < nextNodes.length := by omega
    rw [List.drop_eq_getElem_cons hi, List.take_succ_cons, List.forM_cons]
    rw [fanoutLoop, List.getElem?_eq_getElem hi]
    simp only
    rw [fanoutLoop_eq exec nextNodes output left (i + 1) (by omega)]

/-- A fanout producer with a consumer hands its output to every consumer in order. -/
theorem produce_fanout [DecidableEq κ] {exec : ι → Any β → Nat → Eng ι β σ ε Unit}
    {f : Flow ι β σ ε}
    (hp : f.obj.policy = .Fanout) (hne : f.nextNodes ≠ []) (output : Any β) :
    f.produce exec output = forM f.nextNodes fun c => exec c.1 output c.2 := by
  obtain ⟨init, last, hsplit⟩ : ∃ init last, f.nextNodes = init ++ [last] :=
    ⟨_, _, (List.dropLast_concat_getLast hne).symm⟩
  have hlen : sizeSub f.nextNodes.length 1 = init.length := by
    simp [sizeSub, hsplit]
  simp only [Flow.produce, hp]
  rw [hlen, fanoutLoop_eq _ _ _ _ _ (by simp [hsplit])]
  simp [hsplit]

/-- A fanout producer without consumers reads past the end of its consumer list. -/
theorem produce_fanout_nil [DecidableEq κ] {exec : ι → Any β → Nat → Eng ι β σ ε Unit}
    {f : Flow ι β σ ε}
    (hp : f.obj.policy = .Fanout) (hnil : f.nextNodes = []) (output : Any β)
    (s : Machine ι β σ ε) :
    f.produce exec output s = .error (.undefined .nextNodes) s := by
  simp only [Flow.produce, hp, hnil, sizeSub, List.length_nil]
  exact bind_error rfl

theorem roundRobinLoop_eq (exec : ι → Any β → Nat → Eng ι β σ ε Unit)
    (nextNodes : List (ι × Nat)) (t : Ty κ) (outputs : List (t.Val β)) :
    ∀ left i, i + left ≤ min outputs.length nextNodes.length →
      roundRobinLoop exec nextNodes t outputs left i =
        forM (((nextNodes.zip outputs).drop i).take left) fun c =>
          exec c.1.1 (.element t c.2) c.1.2
  | 0, i, _ => by simp [roundRobinLoop]
  | left + 1, i, h => by
    have hn : i < nextNodes.length := by omega
    have ho : i < outputs.length := by omega
    have hz : i < (nextNodes.zip outputs).length := by simp; omega
    rw [List.drop_eq_getElem_cons hz, List.take_succ_cons, List.forM_cons]
    rw [roundRobinLoop, List.getElem?_eq_getElem hn, List.getElem?_eq_getElem ho]
    simp only [List.getElem_zip]
    rw [roundRobinLoop_eq exec nextNodes t outputs left (i + 1) (by omega)]

/-- A round-robin producer of a vector hands element `i` to consumer `i`. -/
theorem produce_roundRobin [DecidableEq κ] {exec : ι → Any β → Nat → Eng ι β σ ε Unit}
    {f : Flow ι β σ ε}
    (hp : f.obj.policy = .RoundRobin) {t : Ty κ} (ht : f.obj.outputType = some (.vector t))
    (outputs : List (t.Val β)) :
    f.produce exec (.val (.vector t) outputs) =
      forM (f.nextNodes.zip outputs) fun c => exec c.1.1 (.element t c.2) c.1.2 := by
  simp only [Flow.produce, hp, roundRobinProduce, ht, anyCastWithInfo_val_self]
  rw [roundRobinLoop_eq _ _ _ _ _ _ (by simp)]
  rw [List.drop_zero, List.take_of_length_le]
  simp [Nat.min_comm]

/-- Producing follows a discipline that allows exceptions if every delivery does. -/
theorem sound_produce [DecidableEq κ] {D : Discipline (Stop κ ε) (Machine ι β σ ε) (Event ι β ε)}
    {exec : ι → Any β → Nat → Eng ι β σ ε Unit} {f : Flow ι β σ ε} {output : Any β}
    {P : Any β → Prop} {s : Machine ι β σ ε} (hs : D.inv s)
    (hne : f.obj.policy = .Fanout → f.nextNodes ≠ [])
    (hthrow : ∀ e, ¬ D.fails (.threw e) ∧ D.allowed (.threw e))
    (hP : P output) (helement : ∀ t v, P (.element t v))
    (hexec : ∀ c ∈ f.nextNodes, ∀ a, P a → ∀ s', D.inv s' → D.Sound s' (exec c.1 a c.2 s')) :
    D.Sound s (f.produce exec output s) := by
  cases hp : f.obj.policy with
  | Fanout =>
    rw [produce_fanout hp (hne hp)]
    exact D.sound_forM _ hs fun c hc s' hs' => hexec c hc output hP s' hs'
  | RoundRobin =>
    have hstop : ∀ e, D.Sound s ((throw (.threw e) : Eng ι β σ ε Unit) s) := fun e =>
      Discipline.sound_throw hs (hthrow e).1 (hthrow e).2
    -- only a producer of vectors hands out elements
    by_cases hvec : ∃ t, f.obj.outputType = some (.vector t)
    · obtain ⟨t, ht⟩ := hvec
      cases hc : anyCastWithInfo ε (.vector t) output with
      | error e =>
        obtain ⟨x, rfl⟩ := anyCastWithInfo_error hc
        simp only [Flow.produce, hp, roundRobinProduce, ht, hc]
        exact hstop _
      | ok outputs =>
        rw [anyCastWithInfo_eq_ok_iff.1 hc, produce_roundRobin hp ht]
        refine D.sound_forM _ hs fun c hc s' hs' => hexec c.1 ?_ _ (helement t c.2) s' hs'
        exact (List.of_mem_zip hc).1
    · have hmatch : roundRobinProduce exec f output = throw (.threw (.runtimeError
          "Round Robin not implemented for this flow object.")) := by
        rw [roundRobinProduce]
        split
        · next t ht => exact absurd ⟨t, ht⟩ hvec
        · rfl
      simp only [Flow.produce, hp]
      rw [hmatch]
      exact hstop _

end Produce

/-! ## One activation -/

section Activation

variable [DecidableEq ι] [DecidableEq κ]

theorem execute_succ (fuel depth : Nat) (i : ι) (a : Any β) (producerId : Nat)
    (s : Machine ι β σ ε) :
    execute (fuel + 1) depth i a producerId s =
      if (s.heap i).obj.isSink then
        if !a.hasValue || a.type = .nullopt then .ok () s
        else (processAny depth i a producerId >>= fun _ => pure ()) s
      else
        (processAny depth i a producerId >>= fun output =>
          if output.hasValue && a.type ≠ .nullopt then
            (s.heap i).produce (execute fuel (depth + 1)) output
          else pure ()) s := by
  show (if (s.heap i).obj.isSink then _ else _ : Eng ι β σ ε Unit) s = _
  split
  · split <;> rfl
  · rfl

/-- Every log entry may happen and every stop is allowed; only the wiring must stay. -/
def wiringDiscipline (h : Heap ι β σ ε) :
    Discipline (Stop κ ε) (Machine ι β σ ε) (Event ι β ε) where
  log := Machine.log
  inv s := SameWiring h s.heap
  segment _ := True
  bad _ := False
  fails _ := False
  allowed _ := True
  segment_nil := trivial
  segment_append _ _ := trivial

theorem sound_wiring_processAny {h : Heap ι β σ ε} (depth : Nat) (i : ι) (a : Any β)
    (producerId : Nat) {s : Machine ι β σ ε} (hs : SameWiring h s.heap) :
    (wiringDiscipline h).Sound s (processAny depth i a producerId s) where
  inv := hs.trans (sameWiring_processAny depth i a producerId s)
  trace := by
    refine ⟨_, congrArg Machine.log (finalState_processAny depth i a producerId s), trivial, ?_⟩
    simp [wiringDiscipline]
  stops _ _ := trivial

theorem sound_wiring_execute {h : Heap ι β σ ε} :
    ∀ fuel depth i (a : Any β) producerId (s : Machine ι β σ ε), SameWiring h s.heap →
      (wiringDiscipline h).Sound s (execute fuel depth i a producerId s)
  | 0, _, _, _, _, _, hs => Discipline.sound_throw hs (fun h => h) trivial
  | fuel + 1, depth, i, a, producerId, s, hs => by
    rw [execute_succ]
    split
    · split
      · exact Discipline.sound_pure () hs
      · exact Discipline.sound_bind (sound_wiring_processAny depth i a producerId hs)
          fun _ s' _ hs' => Discipline.sound_pure () hs'
    · refine Discipline.sound_bind (sound_wiring_processAny depth i a producerId hs)
        fun output s' _ hs' => ?_
      split
      · by_cases hne : (s.heap i).obj.policy = .Fanout ∧ (s.heap i).nextNodes = []
        · rw [produce_fanout_nil hne.1 hne.2]
          exact Discipline.sound_throw hs' (fun h => h) trivial
        · refine sound_produce (P := fun _ => True) hs' (fun hp hnil => hne ⟨hp, hnil⟩)
            (fun _ => ⟨fun h => h, trivial⟩) trivial (fun _ _ => trivial) ?_
          exact fun c _ a _ s' hs' => sound_wiring_execute fuel (depth + 1) c.1 a c.2 s' hs'
      · exact Discipline.sound_pure () hs'

/-- The logic of `Pipeline::execute`: it is sound if the activations it starts are. -/
theorem sound_pipeline {D : Discipline (Stop κ ε) (Machine ι β σ ε) (Event ι β ε)}
    (p : Pipeline ι) (fuel : Nat) {s : Machine ι β σ ε} (hs : D.inv s)
    (hsrc : ∀ src ∈ p.sources, ∀ s', D.inv s' → D.Sound s' (execute fuel 0 src .empty 0 s'))
    (hnode : p.sources = [] → ∀ front ∈ p.nodes.head?,
      D.Sound s (execute fuel 0 front .empty 0 s)) :
    D.Sound s (p.execute fuel s) := by
  rw [Pipeline.execute]
  by_cases hne : p.sources ≠ []
  · rw [if_pos hne]
    exact D.sound_forM _ hs hsrc
  · rw [if_neg hne]
    cases hnodes : p.nodes with
    | nil => exact Discipline.sound_pure () hs
    | cons front rest =>
      exact hnode (not_not.1 hne) front (by rw [hnodes]; rfl)

theorem sound_wiring_pipeline {h : Heap ι β σ ε} (p : Pipeline ι) (fuel : Nat)
    {s : Machine ι β σ ε} (hs : SameWiring h s.heap) :
    (wiringDiscipline h).Sound s (p.execute fuel s) :=
  sound_pipeline p fuel hs (fun src _ s' hs' => sound_wiring_execute fuel 0 src .empty 0 s' hs')
    fun _ front _ => sound_wiring_execute fuel 0 front .empty 0 s hs

/-- `Pipeline::execute` leaves the graph alone. -/
theorem sameWiring_pipeline (p : Pipeline ι) (fuel : Nat) (s : Machine ι β σ ε) :
    SameWiring s.heap (finalState (p.execute fuel s)).heap :=
  (sound_wiring_pipeline p fuel (SameWiring.refl s.heap)).inv

end Activation

/-! ## Histories -/

section Histories

variable [DecidableEq ι]

theorem obj_addConsumer (h : Heap ι β σ ε) (this next i : ι) :
    (addConsumer h this next i).obj =
      if i = next then (h next).obj.registerProducer.2 else (h i).obj := by
  have hupd : ∀ j, (Function.update h next
      { h next with obj := (h next).obj.registerProducer.2 } j).obj =
        if j = next then (h next).obj.registerProducer.2 else (h j).obj := by
    intro j
    by_cases hj : j = next
    · subst hj
      simp
    · rw [Function.update_of_ne hj, if_neg hj]
  rw [addConsumer]
  by_cases hi : i = this
  · subst hi
    simpa using hupd i
  · rw [Function.update_of_ne hi]
    exact hupd i

theorem nextNodes_addConsumer (h : Heap ι β σ ε) (this next i : ι) :
    (addConsumer h this next i).nextNodes =
      if i = this then (h this).nextNodes ++ [(next, (h next).obj.registerProducer.1)]
      else (h i).nextNodes := by
  have hupd : ∀ j, (Function.update h next
      { h next with obj := (h next).obj.registerProducer.2 } j).nextNodes = (h j).nextNodes := by
    intro j
    by_cases hj : j = next
    · subst hj
      simp
    · rw [Function.update_of_ne hj]
  rw [addConsumer]
  by_cases hi : i = this
  · subst hi
    simpa using hupd i
  · rw [Function.update_of_ne hi, if_neg hi]
    exact hupd i

theorem edge_addConsumer {h : Heap ι β σ ε} {this next i j : ι}
    (hij : Edge (addConsumer h this next) i j) : Edge h i j ∨ i = this ∧ j = next := by
  obtain ⟨id, hid⟩ := hij
  rw [nextNodes_addConsumer] at hid
  by_cases hi : i = this
  · subst hi
    rw [if_pos rfl, List.mem_append, List.mem_singleton] at hid
    rcases hid with hid | hid
    · exact Or.inl ⟨id, hid⟩
    · exact Or.inr ⟨rfl, (Prod.mk.inj hid).1⟩
  · rw [if_neg hi] at hid
    exact Or.inl ⟨id, hid⟩

theorem shape_addConsumer (h : Heap ι β σ ε) (this next i : ι) :
    ((addConsumer h this next) i).obj.shape = (h i).obj.shape := by
  rw [obj_addConsumer]
  by_cases hi : i = next
  · rw [if_pos hi, shape_registerProducer, hi]
  · rw [if_neg hi]

theorem shape_wire (p : Pipeline ι) (h : Heap ι β σ ε) (f i : ι) :
    ((p.wire h f) i).obj.shape = (h i).obj.shape := by
  rw [Pipeline.wire]
  cases p.nodes.getLast? with
  | some back => exact shape_addConsumer h back f i
  | none =>
    generalize p.sources = sources
    induction sources generalizing h with
    | nil => rfl
    | cons src rest ih => exact (ih _).trans (shape_addConsumer h src f i)

theorem tails_addConsumer (h : Heap ι β σ ε) (this next : ι) :
    tails (Edge (addConsumer h this next)) ⊆ insert this (tails (Edge h)) := by
  rintro i ⟨j, hij⟩
  rcases edge_addConsumer hij with hij | ⟨rfl, -⟩
  · exact Or.inr ⟨j, hij⟩
  · exact Or.inl rfl

theorem finite_tails_addConsumer {h : Heap ι β σ ε} (hfin : (tails (Edge h)).Finite)
    (this next : ι) : (tails (Edge (addConsumer h this next))).Finite :=
  (hfin.insert this).subset (tails_addConsumer h this next)

theorem finite_tails_wire {h : Heap ι β σ ε} (hfin : (tails (Edge h)).Finite) (p : Pipeline ι)
    (f : ι) : (tails (Edge (p.wire h f))).Finite := by
  rw [Pipeline.wire]
  cases p.nodes.getLast? with
  | some back => exact finite_tails_addConsumer hfin back f
  | none =>
    generalize p.sources = sources
    induction sources generalizing h with
    | nil => exact hfin
    | cons src rest ih => exact ih (finite_tails_addConsumer hfin src f)

omit [DecidableEq ι] in
theorem finite_tails_congr {h h' : Heap ι β σ ε} (w : SameWiring h h')
    (hfin : (tails (Edge h)).Finite) : (tails (Edge h')).Finite := by
  have hedge : Edge h' = Edge h := by
    funext i j
    simp only [Edge, w.nextNodes i]
  rwa [hedge]

/-- The objects keep their classes, the sources are `Source` objects and the nodes are modules or
aggregators. -/
structure Classes (obj : ι → Obj β σ ε) (S : System ι β σ ε) : Prop where
  shape : ∀ i, (S.machine.heap i).obj.shape = (obj i).shape
  sources : ∀ i ∈ S.pipeline.sources, (obj i).isSource = true
  nodes : ∀ i ∈ S.pipeline.nodes, (obj i).isNode = true

omit [DecidableEq ι] in
theorem classes_init (obj : ι → Obj β σ ε) (u : σ) : Classes obj (System.init obj u) where
  shape _ := rfl
  sources _ hi := absurd hi List.not_mem_nil
  nodes _ hi := absurd hi List.not_mem_nil

variable [DecidableEq κ] {obj : ι → Obj β σ ε} {S : System ι β σ ε}

/-- Calls made one after the other. -/
theorem run_append (fuel : Nat) (xs ys : List (Op ι)) (S : System ι β σ ε) :
    S.run fuel (xs ++ ys) =
      ((S.run fuel xs).1 ++ ((S.run fuel xs).2.run fuel ys).1,
        ((S.run fuel xs).2.run fuel ys).2) := by
  induction xs generalizing S with
  | nil => rfl
  | cons op xs ih =>
    simp only [List.cons_append, System.run, ih]

/-- What every allowed call keeps, every number of allowed calls keeps. -/
theorem run_invariant (inv : System ι β σ ε → Prop) (allowed : Op ι → Prop) {fuel : Nat}
    (hstep : ∀ S op, allowed op → inv S → inv (S.step fuel op).2) {ops : List (Op ι)}
    (hops : ∀ op ∈ ops, allowed op) {S : System ι β σ ε} (h : inv S) :
    inv (S.run fuel ops).2 := by
  induction ops generalizing S with
  | nil => exact h
  | cons op ops ih =>
    obtain ⟨hop, hrest⟩ := List.forall_mem_cons.1 hops
    exact ih hrest (hstep S op hop h)

theorem classes_add (h : Classes obj S) (fuel : Nat) (f : ι) :
    Classes obj (S.step fuel (.add f)).2 := by
  have hshape := h.shape f
  have hwire : ∀ i, ((S.pipeline.wire S.machine.heap f) i).obj.shape = (obj i).shape :=
    fun i => (shape_wire _ _ f i).trans (h.shape i)
  have hnode : ∀ (l : List ι), l = S.pipeline.nodes ++ [f] → (obj f).isNode = true →
      ∀ i ∈ l, (obj i).isNode = true := by
    rintro l rfl hf i hi
    rcases List.mem_append.1 hi with hi | hi
    · exact h.nodes i hi
    · rw [List.mem_singleton.1 hi, hf]
  have hclass : (obj f).isSource = (S.machine.heap f).obj.isSource ∧
      (obj f).isNode = (S.machine.heap f).obj.isNode := by
    rw [← isSource_shape, ← isNode_shape, ← hshape, isSource_shape, isNode_shape]
    exact ⟨rfl, rfl⟩
  obtain ⟨hsrc, hnd⟩ := hclass
  cases hobj : (S.machine.heap f).obj with
  | source out p process =>
    have hpush : ∀ i ∈ S.pipeline.sources ++ [f], (obj i).isSource = true := by
      intro i hi
      rcases List.mem_append.1 hi with hi | hi
      · exact h.sources i hi
      · rw [List.mem_singleton.1 hi, hsrc, hobj]
        rfl
    by_cases hne : S.pipeline.nodes ≠ []
    · -- refused, but the source is in the list
      simp only [System.step, Pipeline.add, hobj, if_pos hne]
      exact ⟨h.shape, hpush, h.nodes⟩
    · simp only [System.step, Pipeline.add, hobj, if_neg hne]
      exact ⟨h.shape, hpush, h.nodes⟩
  | module inp out p process =>
    simp only [System.step, Pipeline.add, hobj]
    exact ⟨hwire, h.sources, hnode _ rfl (by rw [hnd, hobj]; rfl)⟩
  | aggregator inp out toOut toIn process self =>
    simp only [System.step, Pipeline.add, hobj]
    exact ⟨hwire, h.sources, hnode _ rfl (by rw [hnd, hobj]; rfl)⟩
  | sink inp process =>
    simp only [System.step, Pipeline.add, hobj]
    exact ⟨hwire, h.sources, h.nodes⟩
  | other p processAny =>
    simp only [System.step, Pipeline.add, hobj]
    exact ⟨h.shape, h.sources, h.nodes⟩

theorem classes_step (h : Classes obj S) (fuel : Nat) (op : Op ι) :
    Classes obj (S.step fuel op).2 := by
  cases op with
  | add f => exact classes_add h fuel f
  | connect i j =>
    exact ⟨fun k => (shape_addConsumer _ i j k).trans (h.shape k), h.sources, h.nodes⟩
  | execute =>
    have hw := sameWiring_pipeline S.pipeline fuel S.machine
    have hheap : (S.step fuel .execute).2 =
        { S with machine := finalState (S.pipeline.execute fuel S.machine) } := by
      simp only [System.step]
      cases S.pipeline.execute fuel S.machine <;> rfl
    rw [hheap]
    exact ⟨fun k => (hw k).1.trans (h.shape k), h.sources, h.nodes⟩

/-- Every history keeps the classes. -/
theorem classes_run (fuel : Nat) (ops : List (Op ι)) (h : Classes obj S) :
    Classes obj (S.run fuel ops).2 :=
  run_invariant (Classes obj) (fun _ => True) (fun _ op _ hS => classes_step hS fuel op)
    (fun _ _ => trivial) h

theorem finite_tails_step (hfin : (tails (Edge S.machine.heap)).Finite) (fuel : Nat) (op : Op ι) :
    (tails (Edge (S.step fuel op).2.machine.heap)).Finite := by
  cases op with
  | add f =>
    have hadd : (tails (Edge (S.pipeline.add S.machine.heap f).2.2)).Finite := by
      rw [Pipeline.add]
      cases (S.machine.heap f).obj with
      | source out p process =>
        simp only
        split <;> exact hfin
      | module inp out p process => exact finite_tails_wire hfin _ f
      | aggregator inp out toOut toIn process self => exact finite_tails_wire hfin _ f
      | sink inp process => exact finite_tails_wire hfin _ f
      | other p processAny => exact hfin
    simp only [System.step]
    generalize S.pipeline.add S.machine.heap f = r at hadd
    obtain ⟨_ | e, p, h⟩ := r <;> exact hadd
  | connect i j => exact finite_tails_addConsumer hfin i j
  | execute =>
    have hw := finite_tails_congr (sameWiring_pipeline S.pipeline fuel S.machine) hfin
    simp only [System.step]
    generalize S.pipeline.execute fuel S.machine = r at hw
    cases r <;> exact hw

/-- In every history only finitely many blocks have consumers. -/
theorem finite_tails_run (fuel : Nat) (ops : List (Op ι))
    (hfin : (tails (Edge S.machine.heap)).Finite) :
    (tails (Edge (S.run fuel ops).2.machine.heap)).Finite :=
  run_invariant (fun S => (tails (Edge S.machine.heap)).Finite) (fun _ => True)
    (fun _ op _ hS => finite_tails_step hS fuel op) (fun _ _ => trivial) hfin

omit [DecidableEq ι] [DecidableEq κ] in
theorem finite_tails_init (obj : ι → Obj β σ ε) (u : σ) :
    (tails (Edge (System.init obj u).machine.heap)).Finite := by
  refine Set.finite_empty.subset ?_
  rintro i ⟨j, id, hj⟩
  exact absurd hj List.not_mem_nil

end Histories

end PipelineTools.FlowEngine
