import PipelineTools.FlowEngine.Wiring

/-!
# The activations of a run

The log of a machine shows calls of user functions only. `activations` lists every call of
`process_any` that `execute` makes, in order, each with the machine it was made on; the log of a
run is what these calls say about user functions (`log_execute`, `log_pipeline`).

`produce` hands a row of values to consumers (`Flow.deliveries`), and a run along such a row is the
runs of its deliveries one after the other. A run that starts in a set of blocks closed under
consumers stays there and leaves the blocks outside alone (`execute_frame`).
-/

set_option autoImplicit false

namespace PipelineTools.FlowEngine

open PipelineTools.Library

variable {ι κ : Type} {β : κ → Type} {σ ε : Type}

/-- One call of `process_any`, with the machine it is made on. -/
structure Activation (ι : Type) {κ : Type} (β : κ → Type) (σ ε : Type) where
  depth : Nat
  block : ι
  input : Any β
  producerId : Nat
  machine : Machine ι β σ ε

section Activations

variable [DecidableEq κ]

/-- What the call did. -/
def Activation.outcome (x : Activation ι β σ ε) : Outcome β ε :=
  ((x.machine.heap x.block).obj.processAny x.input x.producerId x.machine.user).1

/-- The entry the call makes in the log. -/
def Activation.event (x : Activation ι β σ ε) : Option (Event ι β ε) :=
  x.outcome.call.map fun c => ⟨x.depth, x.block, c⟩

/-- What `produce` hands out: consumers, values and producer ids, in order. -/
def Flow.deliveries (f : Flow ι β σ ε) (output : Any β) : List (ι × Any β × Nat) :=
  match f.obj.policy with
  | .Fanout => f.nextNodes.map fun c => (c.1, output, c.2)
  | .RoundRobin =>
    match f.obj.outputType with
    | some (.vector t) =>
      match anyCast (.vector t) output with
      | some outputs => (f.nextNodes.zip outputs).map fun c => (c.1.1, .element t c.2, c.1.2)
      | none => []
    | _ => []

/-- What `produce` hands to the consumers, or the exception it throws before the first of them. -/
def Flow.hand (f : Flow ι β σ ε) (output : Any β) :
    Except (Stop κ ε) (List (ι × Any β × Nat)) :=
  match f.obj.policy with
  | .Fanout =>
    match f.nextNodes with
    | [] => .error (.undefined .nextNodes)
    | _ :: _ => .ok (f.nextNodes.map fun c => (c.1, output, c.2))
  | .RoundRobin =>
    match f.obj.outputType with
    | some (.vector t) =>
      match anyCastWithInfo ε (.vector t) output with
      | .error e => .error e
      | .ok outputs => .ok ((f.nextNodes.zip outputs).map fun c => (c.1.1, .element t c.2, c.1.2))
    | _ => .error (.threw (.runtimeError "Round Robin not implemented for this flow object."))

/-- The calls made while `exec` runs along a row of deliveries, `calls` listing those of one. -/
def activationsAlong (exec : ι → Any β → Nat → Eng ι β σ ε Unit)
    (calls : ι → Any β → Nat → Machine ι β σ ε → List (Activation ι β σ ε)) :
    List (ι × Any β × Nat) → Machine ι β σ ε → List (Activation ι β σ ε)
  | [], _ => []
  | c :: cs, s =>
    calls c.1 c.2.1 c.2.2 s ++
      match exec c.1 c.2.1 c.2.2 s with
      | .ok _ s' => activationsAlong exec calls cs s'
      | .error _ _ => []

variable [DecidableEq ι]

/-- The calls of `process_any` that `execute` makes. -/
def activations : Nat → Nat → ι → Any β → Nat → Machine ι β σ ε → List (Activation ι β σ ε)
  | 0, _, _, _, _, _ => []
  | fuel + 1, depth, i, a, producerId, s =>
    if (s.heap i).obj.isSink then
      if !a.hasValue || a.type = .nullopt then [] else [⟨depth, i, a, producerId, s⟩]
    else
      ⟨depth, i, a, producerId, s⟩ ::
        match processAny depth i a producerId s with
        | .error _ _ => []
        | .ok output s' =>
          if output.hasValue && a.type ≠ .nullopt then
            activationsAlong (execute fuel (depth + 1)) (activations fuel (depth + 1))
              ((s.heap i).deliveries output) s'
          else []

/-- The blocks that `Pipeline::execute` starts with, as deliveries. -/
def Pipeline.starts (p : Pipeline ι) : List (ι × Any β × Nat) :=
  if p.sources ≠ [] then p.sources.map fun src => (src, .empty, 0)
  else p.nodes.head?.toList.map fun front => (front, .empty, 0)

/-- The calls of `process_any` that `Pipeline::execute` makes. -/
def Pipeline.activations (p : Pipeline ι) (fuel : Nat) (s : Machine ι β σ ε) :
    List (Activation ι β σ ε) :=
  activationsAlong (FlowEngine.execute fuel 0) (FlowEngine.activations fuel 0) p.starts s

/-! ## Rows of deliveries -/

/-- Run along a row of deliveries. -/
abbrev runAlong (exec : ι → Any β → Nat → Eng ι β σ ε Unit) (ds : List (ι × Any β × Nat)) :
    Eng ι β σ ε Unit :=
  forM ds fun c => exec c.1 c.2.1 c.2.2

omit [DecidableEq ι] in
/-- `produce` runs along what it hands out, or throws before the first delivery. -/
theorem produce_eq_hand (exec : ι → Any β → Nat → Eng ι β σ ε Unit) (f : Flow ι β σ ε)
    (output : Any β) (s : Machine ι β σ ε) :
    (∃ ds, f.hand output = .ok ds ∧ f.produce exec output s = runAlong exec ds s) ∨
      ∃ e, f.hand output = .error e ∧ f.produce exec output s = .error e s := by
  -- one case for each throw of the two policies
  cases hp : f.obj.policy with
  | Fanout =>
    cases hnext : f.nextNodes with
    | nil =>
      refine .inr ⟨_, ?_, produce_fanout_nil hp hnext output s⟩
      simp only [Flow.hand, hp, hnext]
    | cons c cs =>
      refine .inl ⟨f.nextNodes.map fun c => (c.1, output, c.2), ?_, ?_⟩
      · simp only [Flow.hand, hp, hnext]
      · rw [produce_fanout hp (by rw [hnext]; exact List.cons_ne_nil c cs), runAlong, List.forM_map]
  | RoundRobin =>
    cases hout : f.obj.outputType with
    | none =>
      refine .inr
        ⟨.threw (.runtimeError "Round Robin not implemented for this flow object."), ?_, ?_⟩
      · simp only [Flow.hand, hp, hout]
      · simp only [Flow.produce, hp, roundRobinProduce, hout]
        rfl
    | some t =>
      cases t with
      | base k =>
        refine .inr
          ⟨.threw (.runtimeError "Round Robin not implemented for this flow object."), ?_, ?_⟩
        · simp only [Flow.hand, hp, hout]
        · simp only [Flow.produce, hp, roundRobinProduce, hout]
          rfl
      | bool =>
        refine .inr
          ⟨.threw (.runtimeError "Round Robin not implemented for this flow object."), ?_, ?_⟩
        · simp only [Flow.hand, hp, hout]
        · simp only [Flow.produce, hp, roundRobinProduce, hout]
          rfl
      | vector t =>
        cases hcast : anyCastWithInfo ε (.vector t) output with
        | error e =>
          refine .inr ⟨e, ?_, ?_⟩
          · simp only [Flow.hand, hp, hout, hcast]
          · simp only [Flow.produce, hp, roundRobinProduce, hout, hcast]
            rfl
        | ok outputs =>
          refine .inl
            ⟨(f.nextNodes.zip outputs).map fun c => (c.1.1, .element t c.2, c.1.2), ?_, ?_⟩
          · simp only [Flow.hand, hp, hout, hcast]
          · rw [anyCastWithInfo_eq_ok_iff.1 hcast, produce_roundRobin hp hout, runAlong,
              List.forM_map]

omit [DecidableEq ι] in
theorem deliveries_eq_hand (f : Flow ι β σ ε) (output : Any β) :
    f.deliveries output = (f.hand output).toOption.getD [] := by
  cases hp : f.obj.policy with
  | Fanout =>
    cases hnext : f.nextNodes <;>
      simp [Flow.deliveries, Flow.hand, hp, hnext, Except.toOption]
  | RoundRobin =>
    cases hout : f.obj.outputType with
    | none => simp [Flow.deliveries, Flow.hand, hp, hout, Except.toOption]
    | some t =>
      cases t with
      | base k => simp [Flow.deliveries, Flow.hand, hp, hout, Except.toOption]
      | bool => simp [Flow.deliveries, Flow.hand, hp, hout, Except.toOption]
      | vector t =>
        cases hcast : anyCast (.vector t) output <;>
          simp [Flow.deliveries, Flow.hand, hp, hout, anyCastWithInfo, hcast, Except.toOption]

omit [DecidableEq ι] in
/-- `produce` runs along its deliveries, or throws and has none. -/
theorem produce_cases (exec : ι → Any β → Nat → Eng ι β σ ε Unit) (f : Flow ι β σ ε)
    (output : Any β) (s : Machine ι β σ ε) :
    f.produce exec output s = runAlong exec (f.deliveries output) s ∨
      f.deliveries output = [] ∧ ∃ e, f.produce exec output s = .error e s := by
  rcases produce_eq_hand exec f output s with ⟨ds, hhand, hrun⟩ | ⟨e, hhand, hthrow⟩
  · refine Or.inl ?_
    rw [hrun, deliveries_eq_hand, hhand]
    rfl
  · refine Or.inr ⟨?_, e, hthrow⟩
    rw [deliveries_eq_hand, hhand]
    rfl

section Along

variable {exec : ι → Any β → Nat → Eng ι β σ ε Unit}
  (calls : ι → Any β → Nat → Machine ι β σ ε → List (Activation ι β σ ε))

omit [DecidableEq ι] [DecidableEq κ] in
theorem along_cons_ok {c : ι × Any β × Nat} {s s' : Machine ι β σ ε} {u : Unit}
    (h : exec c.1 c.2.1 c.2.2 s = .ok u s') (cs : List (ι × Any β × Nat)) :
    runAlong exec (c :: cs) s = runAlong exec cs s' ∧
      activationsAlong exec calls (c :: cs) s =
        calls c.1 c.2.1 c.2.2 s ++ activationsAlong exec calls cs s' := by
  constructor
  · rw [runAlong, List.forM_cons, bind_ok h]
  · rw [activationsAlong, h]

omit [DecidableEq ι] [DecidableEq κ] in
/-- A delivery that does not return is the last one. -/
theorem along_cons_error {c : ι × Any β × Nat} {s s' : Machine ι β σ ε} {e : Stop κ ε}
    (h : exec c.1 c.2.1 c.2.2 s = .error e s') (cs : List (ι × Any β × Nat)) :
    runAlong exec (c :: cs) s = .error e s' ∧
      activationsAlong exec calls (c :: cs) s = calls c.1 c.2.1 c.2.2 s := by
  constructor
  · rw [runAlong, List.forM_cons, bind_error h]
  · rw [activationsAlong, h, List.append_nil]

omit [DecidableEq ι] [DecidableEq κ] in
/-- What every delivery of a row keeps, and what holds of the calls it makes, holds for the row. -/
theorem along_invariant {P : Machine ι β σ ε → Prop} {Q : Activation ι β σ ε → Prop}
    (ds : List (ι × Any β × Nat))
    (h : ∀ c ∈ ds, ∀ s, P s → P (finalState (exec c.1 c.2.1 c.2.2 s)) ∧
      ∀ x ∈ calls c.1 c.2.1 c.2.2 s, Q x) {s : Machine ι β σ ε} (hs : P s) :
    P (finalState (runAlong exec ds s)) ∧ ∀ x ∈ activationsAlong exec calls ds s, Q x := by
  induction ds generalizing s with
  | nil => exact ⟨hs, fun x hx => absurd hx List.not_mem_nil⟩
  | cons c cs ih =>
    obtain ⟨hhead, htail⟩ := List.forall_mem_cons.1 h
    obtain ⟨hP, hQ⟩ := hhead s hs
    cases hr : exec c.1 c.2.1 c.2.2 s with
    | ok u s' =>
      rw [hr, finalState_ok] at hP
      obtain ⟨hrun, hacts⟩ := along_cons_ok calls hr cs
      obtain ⟨hP', hQ'⟩ := ih htail hP
      rw [hrun, hacts]
      exact ⟨hP', List.forall_mem_append.2 ⟨hQ, hQ'⟩⟩
    | error e s' =>
      rw [hr, finalState_error] at hP
      obtain ⟨hrun, hacts⟩ := along_cons_error calls hr cs
      rw [hrun, hacts]
      exact ⟨hP, hQ⟩

omit [DecidableEq ι] in
/-- The log of a row of deliveries consists of the entries of the calls it makes. -/
theorem log_along {calls : ι → Any β → Nat → Machine ι β σ ε → List (Activation ι β σ ε)}
    (h : ∀ i a producerId s, (finalState (exec i a producerId s)).log =
      s.log ++ (calls i a producerId s).filterMap Activation.event)
    (ds : List (ι × Any β × Nat)) (s : Machine ι β σ ε) :
    (finalState (runAlong exec ds s)).log =
      s.log ++ (activationsAlong exec calls ds s).filterMap Activation.event := by
  induction ds generalizing s with
  | nil => exact (List.append_nil _).symm
  | cons c cs ih =>
    have hhead := h c.1 c.2.1 c.2.2 s
    cases hr : exec c.1 c.2.1 c.2.2 s with
    | ok u s' =>
      rw [hr, finalState_ok] at hhead
      obtain ⟨hrun, hacts⟩ := along_cons_ok calls hr cs
      rw [hrun, hacts, ih s', hhead, List.filterMap_append, List.append_assoc]
    | error e s' =>
      obtain ⟨hrun, hacts⟩ := along_cons_error calls hr cs
      rw [hrun, hacts, ← hr, hhead]

omit [DecidableEq ι] [DecidableEq κ] in
/-- A row runs up to its first part, and goes on with its second part if that returned. -/
theorem along_append (exec : ι → Any β → Nat → Eng ι β σ ε Unit)
    (calls : ι → Any β → Nat → Machine ι β σ ε → List (Activation ι β σ ε))
    (xs ys : List (ι × Any β × Nat)) (s : Machine ι β σ ε) :
    (∃ s', runAlong exec xs s = .ok () s' ∧
        runAlong exec (xs ++ ys) s = runAlong exec ys s' ∧
        activationsAlong exec calls (xs ++ ys) s =
          activationsAlong exec calls xs s ++ activationsAlong exec calls ys s') ∨
      ∃ e s', runAlong exec xs s = .error e s' ∧ runAlong exec (xs ++ ys) s = .error e s' ∧
        activationsAlong exec calls (xs ++ ys) s = activationsAlong exec calls xs s := by
  induction xs generalizing s with
  | nil => exact Or.inl ⟨s, rfl, rfl, rfl⟩
  | cons c cs ih =>
    rw [List.cons_append]
    cases hr : exec c.1 c.2.1 c.2.2 s with
    | ok u s' =>
      obtain ⟨hrun, hacts⟩ := along_cons_ok calls hr cs
      obtain ⟨hrun', hacts'⟩ := along_cons_ok calls hr (cs ++ ys)
      rw [hrun, hacts, hrun', hacts']
      rcases ih s' with ⟨t, h1, h2, h3⟩ | ⟨e, t, h1, h2, h3⟩
      · exact Or.inl ⟨t, h1, h2, by rw [h3, List.append_assoc]⟩
      · exact Or.inr ⟨e, t, h1, h2, by rw [h3]⟩
    | error e s' =>
      obtain ⟨hrun, hacts⟩ := along_cons_error calls hr cs
      obtain ⟨hrun', hacts'⟩ := along_cons_error calls hr (cs ++ ys)
      exact Or.inr ⟨e, s', hrun, hrun', by rw [hacts, hacts']⟩

end Along

/-! ## One activation -/

/-- What `execute` does, beside the calls it makes: a sink may skip its input; otherwise
`process_any` is called, and what it returns is either dropped or handed to the consumers. -/
inductive Executed (fuel depth : Nat) (i : ι) (a : Any β) (producerId : Nat)
    (s : Machine ι β σ ε) :
    EStateM.Result (Stop κ ε) (Machine ι β σ ε) Unit → List (Activation ι β σ ε) → Prop
  | skipped : (s.heap i).obj.isSink = true →
      Executed fuel depth i a producerId s (.ok () s) []
  | ended {r : EStateM.Result (Stop κ ε) (Machine ι β σ ε) Unit} :
      finalState r = finalState (processAny depth i a producerId s) →
      (∀ e, ((s.heap i).obj.processAny a producerId s.user).1.result = .error e →
        stopOf r = some e) →
      Executed fuel depth i a producerId s r [⟨depth, i, a, producerId, s⟩]
  | produced {output : Any β} {s' : Machine ι β σ ε} :
      processAny depth i a producerId s = .ok output s' →
      output.hasValue = true → a.type ≠ .nullopt → (s.heap i).obj.isSink = false →
      Executed fuel depth i a producerId s
        (runAlong (execute fuel (depth + 1)) ((s.heap i).deliveries output) s')
        (⟨depth, i, a, producerId, s⟩ ::
          activationsAlong (execute fuel (depth + 1)) (activations fuel (depth + 1))
            ((s.heap i).deliveries output) s')

theorem result_of_processAny_ok {depth : Nat} {i : ι} {a b : Any β} {producerId : Nat}
    {s s' : Machine ι β σ ε} (h : processAny depth i a producerId s = .ok b s') :
    ((s.heap i).obj.processAny a producerId s.user).1.result = .ok b := by
  cases hres : ((s.heap i).obj.processAny a producerId s.user).1.result with
  | ok c =>
    rw [processAny_ok hres] at h
    cases h
    rfl
  | error e =>
    rw [processAny_error hres] at h
    cases h

theorem executed (fuel depth : Nat) (i : ι) (a : Any β) (producerId : Nat)
    (s : Machine ι β σ ε) :
    Executed fuel depth i a producerId s (execute (fuel + 1) depth i a producerId s)
      (activations (fuel + 1) depth i a producerId s) := by
  rw [execute_succ, activations]
  by_cases hsink : (s.heap i).obj.isSink = true
  · rw [if_pos hsink, if_pos hsink]
    by_cases hskip : (!a.hasValue || decide (a.type = .nullopt)) = true
    · rw [if_pos hskip, if_pos hskip]
      exact .skipped hsink
    · rw [if_neg hskip, if_neg hskip]
      cases hr : ((s.heap i).obj.processAny a producerId s.user).1.result with
      | ok b =>
        rw [bind_ok (processAny_ok hr)]
        refine .ended rfl fun e he => ?_
        rw [hr] at he
        cases he
      | error e =>
        rw [bind_error (processAny_error hr)]
        refine .ended rfl fun e' he => ?_
        rw [hr] at he
        cases he
        rfl
  · rw [if_neg hsink, if_neg hsink]
    cases hr : ((s.heap i).obj.processAny a producerId s.user).1.result with
    | error e =>
      rw [bind_error (processAny_error hr), processAny_error hr]
      refine .ended rfl fun e' he => ?_
      rw [hr] at he
      cases he
      rfl
    | ok output =>
      have hok : processAny depth i a producerId s = .ok output _ := processAny_ok hr
      have hnot : ∀ e, ((s.heap i).obj.processAny a producerId s.user).1.result = .error e →
          False := by
        intro e he
        rw [hr] at he
        cases he
      rw [bind_ok hok]
      generalize hs' : finalState (processAny depth i a producerId s) = s' at hok
      rw [hok]
      simp only
      -- an empty output is not handed on, nor is the output of a call on `std::nullopt`
      by_cases hgo : (output.hasValue && decide (a.type ≠ .nullopt)) = true
      · rw [if_pos hgo, if_pos hgo]
        have hgo' : output.hasValue = true ∧ a.type ≠ .nullopt := by simpa using hgo
        rcases produce_cases (execute fuel (depth + 1)) (s.heap i) output s' with hrun | hthrow
        · rw [hrun]
          exact .produced hok hgo'.1 hgo'.2 (by simpa using hsink)
        · -- the producer throws before it reaches a consumer
          obtain ⟨hnil, e, hthrow⟩ := hthrow
          rw [hnil, hthrow]
          exact .ended hs'.symm fun e he => (hnot e he).elim
      · rw [if_neg hgo, if_neg hgo]
        exact .ended hs'.symm fun e he => (hnot e he).elim

/-- The log of a run consists of the entries of the calls it makes. -/
theorem log_execute : ∀ (fuel depth : Nat) (i : ι) (a : Any β) (producerId : Nat)
    (s : Machine ι β σ ε),
    (finalState (execute fuel depth i a producerId s)).log =
      s.log ++ (activations fuel depth i a producerId s).filterMap Activation.event
  | 0, _, _, _, _, s => (List.append_nil s.log).symm
  | fuel + 1, depth, i, a, producerId, s => by
    have hlog : (finalState (processAny depth i a producerId s)).log = _ := log_processAny depth rfl
    have hevent : (([⟨depth, i, a, producerId, s⟩] : List (Activation ι β σ ε)).filterMap
        Activation.event) = ((((s.heap i).obj.processAny a producerId s.user).1.call).map
          fun c => (⟨depth, i, c⟩ : Event ι β ε)).toList := by
      rw [List.filterMap_cons, List.filterMap_nil]
      unfold Activation.event Activation.outcome
      cases ((s.heap i).obj.processAny a producerId s.user).1.call <;> rfl
    have hexec := executed fuel depth i a producerId s
    generalize execute (fuel + 1) depth i a producerId s = r at hexec
    generalize activations (fuel + 1) depth i a producerId s = acts at hexec
    cases hexec with
    | skipped => exact (List.append_nil s.log).symm
    | ended hfinal _ => rw [hfinal, hlog, hevent]
    | @produced output s' hok =>
      rw [hok, finalState_ok] at hlog
      rw [log_along (log_execute fuel (depth + 1)), hlog, List.append_assoc, ← hevent,
        ← List.filterMap_append, List.singleton_append]

theorem execute_eq_runAlong (p : Pipeline ι) (fuel : Nat) :
    (p.execute fuel : Eng ι β σ ε Unit) = runAlong (FlowEngine.execute fuel 0) p.starts := by
  unfold Pipeline.execute Pipeline.starts
  by_cases hne : p.sources ≠ []
  · rw [if_pos hne, if_pos hne, runAlong, List.forM_map]
  · rw [if_neg hne, if_neg hne]
    cases p.nodes with
    | nil => rfl
    | cons front rest =>
      show _ = runAlong (FlowEngine.execute fuel 0) [(front, .empty, 0)]
      rw [runAlong, List.forM_cons, List.forM_nil]
      exact (bind_pure _).symm

/-- The log of `Pipeline::execute` consists of the entries of the calls it makes. -/
theorem log_pipeline (p : Pipeline ι) (fuel : Nat) (s : Machine ι β σ ε) :
    (finalState (p.execute fuel s)).log =
      s.log ++ (p.activations fuel s).filterMap Activation.event := by
  rw [execute_eq_runAlong]
  exact log_along (log_execute fuel 0) p.starts s

/-! ## Frames -/

omit [DecidableEq ι] in
/-- Deliveries pair the first consumers with values. -/
theorem deliveries_eq_zip (f : Flow ι β σ ε) (output : Any β) :
    ∃ values, f.deliveries output =
      (f.nextNodes.zip values).map fun c => (c.1.1, c.2, c.1.2) := by
  rw [Flow.deliveries]
  cases f.obj.policy with
  | Fanout =>
    refine ⟨f.nextNodes.map fun _ => output, ?_⟩
    rw [List.zip_map_right, List.map_map]
    simp [List.zip_eq_zipWith, List.zipWith_self, Function.comp_def]
  | RoundRobin =>
    simp only
    split
    · rename_i t _
      split
      · rename_i outputs _
        refine ⟨outputs.map (Any.element t), ?_⟩
        rw [List.zip_map_right, List.map_map]
        rfl
      · exact ⟨[], by rw [List.zip_nil_right, List.map_nil]⟩
    · exact ⟨[], by rw [List.zip_nil_right, List.map_nil]⟩

omit [DecidableEq ι] in
theorem mem_deliveries {f : Flow ι β σ ε} {output : Any β} {c : ι × Any β × Nat}
    (h : c ∈ f.deliveries output) : (c.1, c.2.2) ∈ f.nextNodes := by
  obtain ⟨values, heq⟩ := deliveries_eq_zip f output
  rw [heq] at h
  obtain ⟨d, hd, rfl⟩ := List.mem_map.1 h
  exact (List.of_mem_zip hd).1

theorem heap_processAny_of_ne (depth : Nat) {i j : ι} (hj : j ≠ i) (a : Any β) (producerId : Nat)
    (s : Machine ι β σ ε) :
    (finalState (processAny depth i a producerId s)).heap j = s.heap j := by
  rw [finalState_processAny]
  exact Function.update_of_ne hj _ _

/-- The wiring is that of `h`, and the blocks outside `D` are as in `s`. -/
def Framed (h : Heap ι β σ ε) (D : ι → Prop) (s s' : Machine ι β σ ε) : Prop :=
  SameWiring h s'.heap ∧ ∀ j, ¬ D j → s'.heap j = s.heap j

/-- A run that starts in a set of blocks closed under consumers makes calls on these blocks only and
leaves the others alone. -/
theorem execute_frame {h : Heap ι β σ ε} {D : ι → Prop}
    (hD : ∀ i j, D i → Edge h i j → D j) :
    ∀ (fuel depth : Nat) (i : ι) (a : Any β) (producerId : Nat) (s t : Machine ι β σ ε),
      D i → Framed h D s t →
      Framed h D s (finalState (execute fuel depth i a producerId t)) ∧
        ∀ x ∈ activations fuel depth i a producerId t, D x.block
  | 0, _, _, _, _, _, _, _, ht => ⟨ht, fun _ hx => absurd hx List.not_mem_nil⟩
  | fuel + 1, depth, i, a, producerId, s, t, hi, ht => by
    have hcall : Framed h D s (finalState (processAny depth i a producerId t)) := by
      refine ⟨ht.1.trans (sameWiring_processAny depth i a producerId t), fun j hj => ?_⟩
      have hji : j ≠ i := fun heq => hj (heq ▸ hi)
      rw [heap_processAny_of_ne depth hji, ht.2 j hj]
    have hself : ∀ x ∈ ([⟨depth, i, a, producerId, t⟩] : List (Activation ι β σ ε)), D x.block := by
      intro x hx
      rw [List.mem_singleton.1 hx]
      exact hi
    have hexec := executed fuel depth i a producerId t
    generalize execute (fuel + 1) depth i a producerId t = r at hexec
    generalize activations (fuel + 1) depth i a producerId t = acts at hexec
    -- the consumers of a block of `D` are in `D`
    cases hexec with
    | skipped => exact ⟨ht, fun _ hx => absurd hx List.not_mem_nil⟩
    | ended hfinal _ =>
      rw [hfinal]
      exact ⟨hcall, hself⟩
    | @produced output s' hok =>
      rw [hok, finalState_ok] at hcall
      obtain ⟨hframe, hbelow⟩ := along_invariant (activations fuel (depth + 1))
        (P := Framed h D s) (Q := fun x => D x.block) ((t.heap i).deliveries output)
        (fun c hc t' ht' => by
          have hedge : Edge h i c.1 := ⟨c.2.2, by
            rw [← ht.1.nextNodes i]
            exact mem_deliveries hc⟩
          exact execute_frame hD fuel (depth + 1) c.1 c.2.1 c.2.2 s t' (hD i c.1 hi hedge) ht')
        hcall
      exact ⟨hframe, List.forall_mem_cons.2 ⟨hi, hbelow⟩⟩

/-- The same for a row of deliveries to such a set. -/
theorem along_frame {h : Heap ι β σ ε} {D : ι → Prop} (hD : ∀ i j, D i → Edge h i j → D j)
    (fuel depth : Nat) {ds : List (ι × Any β × Nat)} (hds : ∀ c ∈ ds, D c.1)
    {s t : Machine ι β σ ε} (ht : Framed h D s t) :
    Framed h D s (finalState (runAlong (execute fuel depth) ds t)) ∧
      ∀ x ∈ activationsAlong (execute fuel depth) (activations fuel depth) ds t, D x.block :=
  along_invariant (activations fuel depth) (Q := fun x => D x.block) ds
    (fun c hc t' ht' => execute_frame hD fuel depth c.1 c.2.1 c.2.2 s t' (hds c hc) ht') ht

/-- A list zipped up to an element of the first list, or stopping short of it. -/
theorem zip_split {A B : Type} (before after : List A) (c : A) (ys : List B) :
    (∀ d ∈ (before ++ c :: after).zip ys, d.1 ∈ before) ∨
      ∃ ds y ds', (before ++ c :: after).zip ys = ds ++ (c, y) :: ds' ∧
        (∀ d ∈ ds, d.1 ∈ before) ∧ ∀ d ∈ ds', d.1 ∈ after := by
  induction before generalizing ys with
  | nil =>
    cases ys with
    | nil => exact Or.inl fun d hd => by simp at hd
    | cons y ys =>
      exact Or.inr ⟨[], y, after.zip ys, rfl, fun d hd => absurd hd List.not_mem_nil,
        fun d hd => (List.of_mem_zip hd).1⟩
  | cons b before ih =>
    cases ys with
    | nil => exact Or.inl fun d hd => by simp at hd
    | cons y ys =>
      rcases ih ys with hshort | ⟨ds, z, ds', heq, hds, hds'⟩
      · refine Or.inl fun d hd => ?_
        rcases List.mem_cons.1 hd with rfl | hd
        · exact List.mem_cons_self
        · exact List.mem_cons_of_mem _ (hshort d hd)
      · refine Or.inr ⟨(b, y) :: ds, z, ds', ?_, ?_, hds'⟩
        · rw [List.cons_append, List.zip_cons_cons, heq, List.cons_append]
        · exact List.forall_mem_cons.2
            ⟨List.mem_cons_self, fun d hd => List.mem_cons_of_mem _ (hds d hd)⟩

omit [DecidableEq ι] in
/-- The deliveries of a block that has `c` among its consumers: they reach `c` once, or stop short
of it. -/
theorem deliveries_split {f : Flow ι β σ ε} {before after : List (ι × Nat)} {c : ι × Nat}
    (hf : f.nextNodes = before ++ c :: after) (output : Any β) :
    (∀ d ∈ f.deliveries output, (d.1, d.2.2) ∈ before) ∨
      ∃ ds b ds', f.deliveries output = ds ++ (c.1, b, c.2) :: ds' ∧
        (∀ d ∈ ds, (d.1, d.2.2) ∈ before) ∧ ∀ d ∈ ds', (d.1, d.2.2) ∈ after := by
  obtain ⟨values, heq⟩ := deliveries_eq_zip f output
  have hmap : ∀ {l : List ((ι × Nat) × Any β)} {part : List (ι × Nat)},
      (∀ d ∈ l, d.1 ∈ part) →
        ∀ d ∈ l.map fun c => (c.1.1, c.2, c.1.2), ((d.1, d.2.2) : ι × Nat) ∈ part := by
    intro l part hl d hd
    obtain ⟨d', hd', rfl⟩ := List.mem_map.1 hd
    exact hl d' hd'
  rw [heq, hf]
  rcases zip_split before after c values with hshort | ⟨ds, b, ds', hzip, hds, hds'⟩
  · exact Or.inl (hmap hshort)
  · refine Or.inr ⟨_, b, _, ?_, hmap hds, hmap hds'⟩
    rw [hzip, List.map_append, List.map_cons]

end Activations

end PipelineTools.FlowEngine
