import PipelineTools.FlowEngine.Wiring

/-!
# Index safety of delivery

`Flow::produce` computes its loop bound as `next_nodes.size() - 1` in `size_t`. On a block without
consumers the bound wraps and the first turn of the loop reads past the end of the list. A run of
`Pipeline::execute` stays within bounds exactly when every block whose process it calls has a
consumer, is a sink, or produces round-robin (`pipeline_inBounds_iff`).
-/

set_option autoImplicit false

namespace PipelineTools.FlowEngine

open PipelineTools.Library

variable {ι κ : Type} {β : κ → Type} {σ ε : Type}

/-- The user's code of a block returns a value on every call: no `std::nullopt`, no exception. -/
def ReturnsValues : Obj β σ ε → Prop
  | .source _ _ process => ∀ u, ∃ v, (process u).1 = .ok (some v)
  | .module _ _ _ process => ∀ x u, ∃ v, (process x u).1 = .ok (some v)
  | .aggregator _ _ _ _ process _ => ∀ xs u, ∃ v, (process xs u).1 = .ok (some v)
  | .sink _ process => ∀ x u, (process x u).1 = .ok ()
  | .other _ processAny => ∀ a id u, ∃ t v, (processAny a id u).1 = .ok (.val t v)

/-- A fanout block without consumers that is not a sink. -/
def DeadEnd (h : Heap ι β σ ε) (i : ι) : Prop :=
  (h i).obj.isSink = false ∧ (h i).obj.policy = .Fanout ∧ (h i).nextNodes = []

/-- The run read `next_nodes` past its end. -/
def OutOfBounds {α : Type} (r : EStateM.Result (Stop κ ε) (Machine ι β σ ε) α) : Prop :=
  stopOf r = some (.undefined .nextNodes)

theorem returnsValues_shape (obj : Obj β σ ε) : ReturnsValues obj.shape ↔ ReturnsValues obj := by
  cases obj <;> exact Iff.rfl

theorem deadEnd_congr {h h' : Heap ι β σ ε} (w : SameWiring h h') (i : ι) :
    DeadEnd h' i ↔ DeadEnd h i := by
  simp only [DeadEnd, w.isSink i, w.policy i, w.nextNodes i]

section Delivery

variable [DecidableEq κ]

/-- What `process_any` can do when the user's code returns values: pack a value, stop short of the
user's code, or, in a sink, consume the input. -/
inductive Delivered : Obj β σ ε → Outcome β ε → Prop
  | value {obj : Obj β σ ε} {args : List (Any β)} {t : Ty κ} {v : t.Val β} :
      obj.isSink = false → Delivered obj ⟨some ⟨args, .value (.val t v)⟩, .ok (.val t v)⟩
  | nothing {obj : Obj β σ ε} : obj.isSink = false → Delivered obj ⟨none, .ok .empty⟩
  | stopped {obj : Obj β σ ε} {e : Stop κ ε} :
      e ≠ .undefined .nextNodes → e ≠ .outOfFuel → Delivered obj ⟨none, .error e⟩
  | consumed {obj : Obj β σ ε} {args : List (Any β)} :
      obj.isSink = true → Delivered obj ⟨some ⟨args, .void⟩, .ok .empty⟩

omit [DecidableEq κ] in
theorem pack_of_ok {args : List (Any β)} {out : Ty κ} {absent : Any β}
    {r : Except ε (Option (out.Val β)) × σ} {v : out.Val β} (h : r.1 = .ok (some v)) :
    pack args out absent r = (⟨some ⟨args, .value (.val out v)⟩, .ok (.val out v)⟩, r.2) := by
  obtain ⟨r1, r2⟩ := r
  simp only at h
  subst h
  rfl

theorem delivered_aggregator {inp out : Ty κ} {toOut : inp.Val β → out.Val β}
    {toIn : out.Val β → inp.Val β} {process : List (inp.Val β) → Process σ ε (out.Val β)}
    (hret : ∀ xs u, ∃ v, (process xs u).1 = .ok (some v)) (self : Aggregator (out.Val β))
    (a : Any β) (producerId : Nat) (u : σ) :
    Delivered (Obj.aggregator inp out toOut toIn process self)
      (Aggregator.processAny inp out toOut toIn process self a producerId u).1 := by
  have hstep := Aggregator.step_processAny inp out toOut toIn process self a producerId u
  generalize self.processAny inp out toOut toIn process a producerId u = r at hstep
  cases hstep with
  | shift h => exact .stopped nofun nofun
  | repeated h h' => exact .nothing rfl
  | badCast h h' hcast =>
    obtain ⟨x, rfl⟩ := anyCastWithInfo_error hcast
    exact .stopped nofun nofun
  | overflow h h' ha hfull => exact .stopped nofun nofun
  | stored h h' ha hfull hne => exact .nothing rfl
  | completed h h' ha hfull heq =>
    rename_i idx full v
    obtain ⟨w, hw⟩ := hret ((self.store producerId idx (toOut v)).latest.values.map toIn) u
    simp only [Aggregator.complete, pack_of_ok hw]
    exact .value rfl

theorem delivered_module {inp out : Ty κ} (p : ProductionPolicy)
    {process : inp.Val β → Process σ ε (out.Val β)}
    (hret : ∀ x u, ∃ v, (process x u).1 = .ok (some v)) (a : Any β) (u : σ) :
    Delivered (Obj.module inp out p process) (Module.processAny inp out process a u).1 := by
  cases hcast : anyCastWithInfo ε inp a with
  | error e =>
    obtain ⟨x, rfl⟩ := anyCastWithInfo_error hcast
    simp only [Module.processAny, hcast]
    exact .stopped nofun nofun
  | ok x =>
    obtain ⟨v, hv⟩ := hret x u
    simp only [Module.processAny, hcast, pack_of_ok hv]
    exact .value rfl

theorem delivered_sink {inp : Ty κ} {process : inp.Val β → σ → Except ε Unit × σ}
    (hret : ∀ x u, (process x u).1 = .ok ()) (a : Any β) (u : σ) :
    Delivered (Obj.sink inp process) (Sink.processAny inp process a u).1 := by
  cases hcast : anyCastWithInfo ε inp a with
  | error e =>
    obtain ⟨x, rfl⟩ := anyCastWithInfo_error hcast
    simp only [Sink.processAny, hcast]
    exact .stopped nofun nofun
  | ok x =>
    obtain ⟨r, u', hr⟩ : ∃ r u', process x u = (r, u') := ⟨_, _, rfl⟩
    have hx := hret x u
    rw [hr] at hx
    simp only at hx
    subst hx
    simp only [Sink.processAny, hcast, hr]
    exact .consumed rfl

theorem delivered_processAny {obj : Obj β σ ε} (hret : ReturnsValues obj) (a : Any β)
    (producerId : Nat) (u : σ) : Delivered obj (obj.processAny a producerId u).1 := by
  cases obj with
  | source out p process =>
    obtain ⟨v, hv⟩ := hret u
    simp only [Obj.processAny, Source.processAny, pack_of_ok hv]
    exact .value rfl
  | module inp out p process => exact delivered_module p hret a u
  | aggregator inp out toOut toIn process self => exact delivered_aggregator hret self a _ u
  | sink inp process => exact delivered_sink hret a u
  | other p processAny =>
    obtain ⟨t, v, hv⟩ := hret a producerId u
    simp only [Obj.processAny]
    generalize processAny a producerId u = r at hv
    obtain ⟨r1, r2⟩ := r
    simp only at hv
    subst hv
    exact .value rfl

end Delivery

section Execution

variable [DecidableEq ι] [DecidableEq κ]

/-- The run stops with an out-of-bounds read exactly when it logged a call on a dead end. -/
def deliveryDiscipline (h : Heap ι β σ ε) :
    Discipline (Stop κ ε) (Machine ι β σ ε) (Event ι β ε) where
  log := Machine.log
  inv s := SameWiring h s.heap
  segment _ := True
  bad e := DeadEnd h e.block
  fails e := e = .undefined .nextNodes
  allowed e := e ≠ .outOfFuel
  segment_nil := trivial
  segment_append _ _ := trivial

variable {h : Heap ι β σ ε}

theorem sound_deliver {rank : ι → Nat} (hrank : ∀ i j, Edge h i j → rank j < rank i)
    (hret : ∀ i, ReturnsValues (h i).obj) :
    ∀ fuel depth i (a : Any β) producerId (s : Machine ι β σ ε), rank i < fuel →
      a.type ≠ .nullopt → SameWiring h s.heap →
      (deliveryDiscipline h).Sound s (execute fuel depth i a producerId s)
  | 0, _, _, _, _, _, hfuel, _, _ => absurd hfuel (Nat.not_lt_zero _)
  | fuel + 1, depth, i, a, producerId, s, hfuel, ha, hs => by
    have hvalues : ReturnsValues (s.heap i).obj :=
      (returnsValues_shape _).1 ((hs i).1 ▸ (returnsValues_shape _).2 (hret i))
    have hdel := delivered_processAny hvalues a producerId s.user
    have hwire : SameWiring h (finalState (processAny depth i a producerId s)).heap :=
      hs.trans (sameWiring_processAny depth i a producerId s)
    generalize ho : ((s.heap i).obj.processAny a producerId s.user).1 = o at hdel
    have hlog := log_processAny depth ho
    rw [execute_succ]
    cases hdel with
    | @value args t v hsink =>
      -- the block's process returned a value, which is now produced
      rw [if_neg (by simp [hsink]), bind_ok (processAny_ok (by rw [ho])),
        if_pos (by simp [Any.hasValue, ha])]
      -- the block reads past its empty list of consumers, or delivers
      by_cases hdead : DeadEnd h i
      · have hdead' := (deadEnd_congr hs i).2 hdead
        rw [produce_fanout_nil hdead'.2.1 hdead'.2.2]
        exact Discipline.sound_fail hwire hlog hdead rfl nofun trivial
      · refine Discipline.Sound.prepend (fun _ => True) trivial (fun _ _ => trivial) ?_ hlog ?_
          fun _ _ => trivial
        · refine sound_produce (P := fun a => a.type ≠ .nullopt) hwire ?_ ?_ nofun
            (fun t v => (Any.element_present t v).2) ?_
          · intro hp hnil
            exact hdead ((deadEnd_congr hs i).1 ⟨hsink, hp, hnil⟩)
          · exact fun e => ⟨nofun, nofun⟩
          · intro c hc a ha s' hs'
            have hedge : Edge h i c.1 := ⟨c.2, by rw [← hs.nextNodes i]; exact hc⟩
            exact sound_deliver hrank hret fuel (depth + 1) c.1 a c.2 s'
              (by have := hrank i c.1 hedge; omega) ha hs'
        · intro x hx
          rw [List.mem_singleton.1 hx]
          exact hdead
    | nothing hsink =>
      rw [if_neg (by simp [hsink]), bind_ok (processAny_ok (by rw [ho])),
          if_neg (by simp [Any.hasValue])]
      exact Discipline.sound_return hwire hlog (fun _ hx => absurd hx List.not_mem_nil) trivial
    -- the exception leaves the run before anything is produced
    | @stopped e hne hfuel' =>
      have hstop : (deliveryDiscipline h).Sound s
          (.error e (finalState (processAny depth i a producerId s)) :
            EStateM.Result (Stop κ ε) (Machine ι β σ ε) Unit) :=
        Discipline.sound_stop hwire hlog (fun _ hx => absurd hx List.not_mem_nil) hne hfuel' trivial
      split
      · split
        · exact Discipline.sound_pure () hs
        · rw [bind_error (processAny_error (by rw [ho]))]
          exact hstop
      · rw [bind_error (processAny_error (by rw [ho]))]
        exact hstop
    | @consumed args hsink =>
      rw [if_pos hsink]
      split
      · exact Discipline.sound_pure () hs
      · rw [bind_ok (processAny_ok (by rw [ho]))]
        refine Discipline.sound_return hwire hlog ?_ trivial
        intro x hx hdead
        rw [List.mem_singleton.1 hx] at hdead
        rw [hs.isSink i, hdead.1] at hsink
        cases hsink

/-- Every execute of a pipeline, in any history of `add`, `connect` and `execute` calls whose graph
is acyclic: with fuel for the blocks that have consumers the run is not cut off, and it stays within
bounds exactly when no block that it calls is a dead end. -/
theorem pipeline_inBounds_iff {fuel : Nat} (obj : ι → Obj β σ ε)
    (hret : ∀ i, ReturnsValues (obj i)) (u : σ) (ops : List (Op ι)) (S : System ι β σ ε)
    (hrun : ((System.init obj u).run fuel ops).2 = S)
    (hacyclic : Acyclic (Edge S.machine.heap))
    (hfuel : (tails (Edge S.machine.heap)).ncard < fuel) :
    stopOf (S.pipeline.execute fuel S.machine) ≠ some .outOfFuel ∧
      ∃ new, (finalState (S.pipeline.execute fuel S.machine)).log = S.machine.log ++ new ∧
        (¬ OutOfBounds (S.pipeline.execute fuel S.machine) ↔
          ∀ e ∈ new, ¬ DeadEnd S.machine.heap e.block) := by
  have hclasses : Classes obj S := hrun ▸ classes_run fuel ops (classes_init obj u)
  have hfin : (tails (Edge S.machine.heap)).Finite :=
    hrun ▸ finite_tails_run fuel ops (finite_tails_init obj u)
  have hret' : ∀ i, ReturnsValues (S.machine.heap i).obj := fun i =>
    (returnsValues_shape _).1 (hclasses.shape i ▸ (returnsValues_shape _).2 (hret i))
  obtain ⟨rank, hbound, hrank⟩ := exists_rank_of_acyclic hfin hacyclic
  have hstart : ∀ i s', SameWiring S.machine.heap s'.heap →
      (deliveryDiscipline S.machine.heap).Sound s' (execute fuel 0 i .empty 0 s') := fun i s' hs' =>
    sound_deliver hrank hret' fuel 0 i .empty 0 s' (lt_of_le_of_lt (hbound i) hfuel) nofun hs'
  have hsound := sound_pipeline S.pipeline fuel (D := deliveryDiscipline S.machine.heap)
    (SameWiring.refl S.machine.heap) (fun src _ => hstart src)
    (fun _ front _ => hstart front S.machine (SameWiring.refl _))
  refine ⟨fun h => hsound.stops _ h rfl, ?_⟩
  obtain ⟨new, hlog, -, hiff⟩ := hsound.trace
  refine ⟨new, hlog, ?_⟩
  have hfails : OutOfBounds (S.pipeline.execute fuel S.machine) ↔
      ∃ e ∈ new, DeadEnd S.machine.heap e.block := by
    refine Iff.trans ?_ hiff
    constructor
    · exact fun h => ⟨_, h, rfl⟩
    · rintro ⟨e, he, rfl⟩
      exact he
  rw [hfails]
  push Not
  exact Iff.rfl

end Execution

/-! ## A source with nothing behind it -/

/-- A single source that always returns `7`. -/
def loneSource : Unit → Obj (fun _ : Unit => Nat) Unit Empty :=
  fun _ => .source (.base ()) .Fanout fun u => (.ok (some 7), u)

/-- The pipeline after the source has been added. -/
def loneSystem : System Unit (fun _ : Unit => Nat) Unit Empty :=
  ((System.init loneSource ()).run 1 [.add ()]).2

theorem loneSource_returnsValues (i : Unit) : ReturnsValues (loneSource i) := fun _ => ⟨7, rfl⟩

theorem loneSystem_no_edge (i j : Unit) : ¬ Edge loneSystem.machine.heap i j := by
  rintro ⟨id, hj⟩
  exact absurd hj List.not_mem_nil

theorem loneSystem_acyclic : Acyclic (Edge loneSystem.machine.heap) :=
  acyclic_of_rank (fun _ => 0) fun i j hij => absurd hij (loneSystem_no_edge i j)

theorem loneSystem_fuel : (tails (Edge loneSystem.machine.heap)).ncard < 1 := by
  have hempty : tails (Edge loneSystem.machine.heap) = ∅ :=
    Set.eq_empty_of_forall_notMem fun i ⟨j, hij⟩ => loneSystem_no_edge i j hij
  rw [hempty, Set.ncard_empty]
  exact Nat.one_pos

/-- `add` accepts the source, the graph has no edges at all, and `execute` reads past the end of the
source's consumer list. -/
theorem loneSource_outOfBounds :
    Accepted ((System.init loneSource ()).run 1 [.add ()]).1 ∧
      Acyclic (Edge loneSystem.machine.heap) ∧ (∀ i, ReturnsValues (loneSource i)) ∧
      OutOfBounds (loneSystem.pipeline.execute 1 loneSystem.machine) := by
  refine ⟨?_, loneSystem_acyclic, loneSource_returnsValues, rfl⟩
  intro e he
  cases he with
  | tail _ h => cases h

theorem loneSource_inBounds_iff :
    stopOf (loneSystem.pipeline.execute 1 loneSystem.machine) ≠ some .outOfFuel ∧
      ∃ new, (finalState (loneSystem.pipeline.execute 1 loneSystem.machine)).log =
          loneSystem.machine.log ++ new ∧
        (¬ OutOfBounds (loneSystem.pipeline.execute 1 loneSystem.machine) ↔
          ∀ e ∈ new, ¬ DeadEnd loneSystem.machine.heap e.block) :=
  pipeline_inBounds_iff loneSource loneSource_returnsValues () [.add ()] loneSystem rfl
    loneSystem_acyclic loneSystem_fuel

end PipelineTools.FlowEngine
