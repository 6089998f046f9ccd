import PipelineTools.FlowEngine.Wiring
import Mathlib.Data.Fin.Basic

/-!
# Type soundness with absent values

In a graph of sources, modules and sinks whose edges are well typed, a block that returns a value
never makes a downstream cast fail. A block that returns `std::nullopt` does: the marker is handed
on like a value, only sinks filter it, and a module or a round-robin producer casts it. And the
element type of a vector is not always the type of what a round-robin producer takes out of it: a
vector of `bool` yields references to its bits, which no consumer can cast to `bool`. A run of
`Pipeline::execute` is free of failed casts exactly when it starts at a source, every call that
returned `std::nullopt` was made by a fanout block that feeds only sinks, and no call of a
round-robin block returned bits (`pipeline_typeSound_iff`). In every run the call after one that
returned `std::nullopt` is not below it in the tree of activations.
-/

set_option autoImplicit false

namespace PipelineTools.FlowEngine

open PipelineTools.Library

variable {ι κ : Type} {β : κ → Type} {σ ε : Type}

/-- Sources, modules and sinks. -/
def Obj.isBasic : Obj β σ ε → Bool
  | .source .. => true
  | .module .. => true
  | .sink .. => true
  | _ => false

/-- The user's code of a source, module or sink never throws. -/
def NoThrow : Obj β σ ε → Prop
  | .source _ _ process => ∀ u, ∃ o, (process u).1 = .ok o
  | .module _ _ _ process => ∀ x u, ∃ o, (process x u).1 = .ok o
  | .sink _ process => ∀ x u, (process x u).1 = .ok ()
  | _ => True

/-- The type a producer delivers is the consumer's input type. -/
def EdgeTyped (producer consumer : Obj β σ ε) : Prop :=
  match producer.policy with
  | .Fanout => producer.outputType = consumer.inputType
  | .RoundRobin => ∃ t, producer.outputType = some (.vector t) ∧ consumer.inputType = some t

/-- A graph of basic blocks with well-typed edges in which every non-sink has a consumer. -/
structure WellTyped (h : Heap ι β σ ε) : Prop where
  basic : ∀ i, (h i).obj.isBasic = true
  noThrow : ∀ i, NoThrow (h i).obj
  consumers : ∀ i, (h i).obj.isSink = false → (h i).nextNodes ≠ []
  typed : ∀ i j, Edge h i j → EdgeTyped (h i).obj (h j).obj

/-- The block copies its output to sinks only. -/
def FeedsOnlySinks (h : Heap ι β σ ε) (i : ι) : Prop :=
  (h i).obj.policy = .Fanout ∧ ∀ j, Edge h i j → (h j).obj.isSink = true

/-- A round-robin block has returned a vector of `bool` with an element to hand on. -/
def HandsBits (h : Heap ι β σ ε) (e : Event ι β ε) : Prop :=
  (h e.block).obj.policy = .RoundRobin ∧
    ∃ bits : List Bool, bits ≠ [] ∧ e.call.ret = .value (.val (.vector .bool) bits)

/-- `execute` has a source to start from, or nothing to run. -/
def Pipeline.Startable (p : Pipeline ι) : Prop := p.sources ≠ [] ∨ p.nodes = []

/-- The failed casts of the framework. -/
def IsBadCast (e : Stop κ ε) : Prop :=
  ∃ source target, e = .threw (.badAnyCastWithInfo source target)

/-- The run threw `bad_any_cast_with_info`. -/
def BadCast {α : Type} (r : EStateM.Result (Stop κ ε) (Machine ι β σ ε) α) : Prop :=
  ∃ e, stopOf r = some e ∧ IsBadCast e

/-- No call happens below a call that returned `std::nullopt`. -/
def Quiet (log : List (Event ι β ε)) : Prop :=
  log.IsChain fun e e' => e.call.ret = .absent → e'.depth ≤ e.depth

/-- The log of a sequence of activations at depth `d`. -/
def Nested (d : Nat) (log : List (Event ι β ε)) : Prop :=
  (∀ e ∈ log, d ≤ e.depth) ∧ (∀ e ∈ log.head?, e.depth = d) ∧ Quiet log

theorem nested_nil (d : Nat) : Nested d ([] : List (Event ι β ε)) :=
  ⟨nofun, nofun, List.IsChain.nil⟩

theorem nested_append {d : Nat} {xs ys : List (Event ι β ε)} (hx : Nested d xs)
    (hy : Nested d ys) : Nested d (xs ++ ys) := by
  refine ⟨?_, ?_, ?_⟩
  · intro e he
    rcases List.mem_append.1 he with he | he
    · exact hx.1 e he
    · exact hy.1 e he
  · cases xs with
    | nil => exact hy.2.1
    | cons x xs => exact hx.2.1
  · refine List.isChain_append.2 ⟨hx.2.2, hy.2.2, fun e he e' he' _ => ?_⟩
    rw [hy.2.1 e' he']
    exact hx.1 e (List.mem_of_getLast? he)

/-- An activation: its own call, followed by the activations below it. -/
theorem nested_cons {d : Nat} {e : Event ι β ε} {new : List (Event ι β ε)} (he : e.depth = d)
    (hnew : Nested (d + 1) new) (habs : e.call.ret = .absent → new = []) :
    Nested d (e :: new) := by
  refine ⟨?_, ?_, ?_⟩
  · intro x hx
    rcases List.mem_cons.1 hx with rfl | hx
    · exact he.ge
    · exact Nat.le_of_succ_le (hnew.1 x hx)
  · intro x hx
    cases hx
    exact he
  · refine List.isChain_cons.2 ⟨fun y hy ha => ?_, hnew.2.2⟩
    rw [habs ha] at hy
    cases hy

section Blocks

variable [DecidableEq κ]

/-- What the block accepts: a value of its input type, or, for a source, the empty any. -/
def Accepts (obj : Obj β σ ε) (a : Any β) : Prop :=
  match obj.inputType with
  | none => a = .empty
  | some t => ∃ v, a = .val t v

/-- What `process_any` can do on an accepted input. -/
inductive Answered : Obj β σ ε → Outcome β ε → Prop
  | value {obj : Obj β σ ε} {args : List (Any β)} {t : Ty κ} {v : t.Val β} :
      obj.isSink = false → obj.outputType = some t →
      Answered obj ⟨some ⟨args, .value (.val t v)⟩, .ok (.val t v)⟩
  | absent {obj : Obj β σ ε} {args : List (Any β)} :
      obj.isSink = false → Answered obj ⟨some ⟨args, .absent⟩, .ok .nullopt⟩
  | consumed {obj : Obj β σ ε} {args : List (Any β)} :
      obj.isSink = true → Answered obj ⟨some ⟨args, .void⟩, .ok .empty⟩

omit [DecidableEq κ] in
theorem answered_pack {obj : Obj β σ ε} {args : List (Any β)} {out : Ty κ}
    {r : Except ε (Option (out.Val β)) × σ} (hsink : obj.isSink = false)
    (hout : obj.outputType = some out) (hr : ∃ o, r.1 = .ok o) :
    Answered obj (pack args out .nullopt r).1 := by
  obtain ⟨r1, r2⟩ := r
  obtain ⟨o, ho⟩ := hr
  simp only at ho
  subst ho
  cases o with
  | none => exact .absent hsink
  | some v => exact .value hsink hout

theorem answered_processAny {obj : Obj β σ ε} (hbasic : obj.isBasic = true)
    (hnothrow : NoThrow obj) {a : Any β} (ha : Accepts obj a) (producerId : Nat) (u : σ) :
    Answered obj (obj.processAny a producerId u).1 := by
  cases obj with
  | source out p process => exact answered_pack rfl rfl (hnothrow u)
  | module inp out p process =>
    obtain ⟨x, rfl⟩ := ha
    simp only [Obj.processAny, Module.processAny, anyCastWithInfo_val_self]
    exact answered_pack rfl rfl (hnothrow x u)
  | aggregator inp out toOut toIn process self => cases hbasic
  | sink inp process =>
    obtain ⟨x, rfl⟩ := ha
    have hx := hnothrow x u
    simp only [Obj.processAny, Sink.processAny, anyCastWithInfo_val_self]
    generalize process x u = r at hx
    obtain ⟨r1, r2⟩ := r
    simp only at hx
    subst hx
    exact .consumed rfl
  | other p processAny => cases hbasic

/-- A module or a sink rejects everything but its input type. -/
theorem processAny_badCast {obj : Obj β σ ε} {t : Ty κ} (hbasic : obj.isBasic = true)
    (hin : obj.inputType = some t) {a : Any β}
    (ha : anyCast t a = none) (producerId : Nat) (u : σ) :
    (obj.processAny a producerId u).1 =
      ⟨none, .error (.threw (.badAnyCastWithInfo a.type (.ty t)))⟩ := by
  cases obj with
  | source out p process => cases hin
  | module inp out p process =>
    cases hin
    simp only [Obj.processAny, Module.processAny, anyCastWithInfo, ha]
  | aggregator inp out toOut toIn process self => cases hbasic
  | sink inp process =>
    cases hin
    simp only [Obj.processAny, Sink.processAny, anyCastWithInfo, ha]
  | other p processAny => cases hbasic

end Blocks

section Execution

variable [DecidableEq ι] [DecidableEq κ]

/-- At depth `d`: only failed casts stop a run, and they do exactly when a call returned
`std::nullopt` to a block that does not feed sinks only, or bits to a round-robin block. -/
def typeDiscipline (h : Heap ι β σ ε) (d : Nat) :
    Discipline (Stop κ ε) (Machine ι β σ ε) (Event ι β ε) where
  log := Machine.log
  inv s := s.heap = h
  segment := Nested d
  bad e := e.call.ret = .absent ∧ ¬ FeedsOnlySinks h e.block ∨ HandsBits h e
  fails := IsBadCast
  allowed := IsBadCast
  segment_nil := nested_nil d
  segment_append := nested_append

/-- Running a basic block changes no block. -/
theorem heap_processAny {h : Heap ι β σ ε} (hbasic : ∀ i, (h i).obj.isBasic = true) (depth : Nat)
    (i : ι) (a : Any β) (producerId : Nat) {s : Machine ι β σ ε} (hs : s.heap = h) :
    (finalState (processAny depth i a producerId s)).heap = h := by
  subst hs
  rw [finalState_processAny]
  have hobj : ((s.heap i).obj.processAny a producerId s.user).2.1 = (s.heap i).obj := by
    have hb := hbasic i
    cases hobj : (s.heap i).obj with
    | source out p process => rfl
    | module inp out p process => rfl
    | aggregator inp out toOut toIn process self =>
      rw [hobj] at hb
      cases hb
    | sink inp process => rfl
    | other p processAny =>
      rw [hobj] at hb
      cases hb
  simp only [hobj]
  exact Function.update_eq_self i s.heap

variable {h : Heap ι β σ ε}

/-- A sink drops the absence marker. -/
theorem execute_nullopt_sink {fuel depth : Nat} {i : ι} {producerId : Nat} {s : Machine ι β σ ε}
    (hsink : (s.heap i).obj.isSink = true) :
    execute (fuel + 1) depth i (.nullopt : Any β) producerId s = .ok () s := by
  rw [execute_succ, if_pos hsink]
  rfl

/-- A block that is handed something other than its input type throws and calls nothing; a sink only
if the value gets through its filter. -/
theorem execute_badCast (fuel depth : Nat) {i : ι} {a : Any β} (producerId : Nat) {t : Ty κ}
    {s : Machine ι β σ ε} (hbasic : ∀ i, (h i).obj.isBasic = true) (hs : s.heap = h)
    (hpasses : (h i).obj.isSink = true → a.hasValue = true ∧ a.type ≠ .nullopt)
    (hin : (h i).obj.inputType = some t) (ha : anyCast t a = none) :
    ∃ e s', execute (fuel + 1) depth i a producerId s = .error e s' ∧ IsBadCast e ∧ s'.heap = h ∧
      s'.log = s.log := by
  subst hs
  have ho := processAny_badCast (hbasic i) hin ha producerId s.user
  refine ⟨_, finalState (processAny depth i a producerId s), ?_, ⟨a.type, .ty t, rfl⟩,
    heap_processAny hbasic depth i a producerId rfl, ?_⟩
  · rw [execute_succ]
    cases hsink : (s.heap i).obj.isSink with
    | true =>
      obtain ⟨hvalue, htype⟩ := hpasses hsink
      rw [if_pos rfl, if_neg (by simp [hvalue, htype])]
      exact bind_error (processAny_error (by rw [ho]))
    | false =>
      rw [if_neg Bool.false_ne_true]
      exact bind_error (processAny_error (by rw [ho]))
  · rw [log_processAny depth ho]
    exact List.append_nil _

/-- Handing the absence marker to sinks has no effect. -/
theorem forM_nullopt_sinks {fuel depth : Nat} {s : Machine ι β σ ε} :
    ∀ cs : List (ι × Nat), (∀ c ∈ cs, (s.heap c.1).obj.isSink = true) →
      (forM cs fun c => execute (fuel + 1) depth c.1 (.nullopt : Any β) c.2) s = .ok () s := by
  intro cs
  induction cs with
  | nil =>
    intro _
    rfl
  | cons c cs ih =>
    intro hcs
    rw [List.forM_cons, bind_ok (execute_nullopt_sink (hcs c List.mem_cons_self))]
    exact ih fun c' hc' => hcs c' (List.mem_cons_of_mem _ hc')

/-- Handing the absence marker to consumers one of which is a module throws at the first such
consumer, before any call. -/
theorem forM_nullopt_badCast {fuel depth : Nat} {s : Machine ι β σ ε}
    (hbasic : ∀ i, (h i).obj.isBasic = true) (hs : s.heap = h) :
    ∀ cs : List (ι × Nat),
      (∀ c ∈ cs, (h c.1).obj.isSink = false → ∃ t, (h c.1).obj.inputType = some t) →
      (∃ c ∈ cs, (h c.1).obj.isSink = false) →
      ∃ e s', (forM cs fun c => execute (fuel + 1) depth c.1 (.nullopt : Any β) c.2) s =
        .error e s' ∧ IsBadCast e ∧ s'.heap = h ∧ s'.log = s.log := by
  intro cs
  -- induction on the consumers: sinks are skipped
  induction cs with
  | nil =>
    rintro _ ⟨c, hc, -⟩
    cases hc
  | cons c cs ih =>
    intro hin hex
    rw [List.forM_cons]
    cases hsink : (h c.1).obj.isSink with
    | true =>
      rw [bind_ok (execute_nullopt_sink (by rw [hs]; exact hsink))]
      refine ih (fun c' hc' => hin c' (List.mem_cons_of_mem _ hc')) ?_
      obtain ⟨c', hc', hns⟩ := hex
      rcases List.mem_cons.1 hc' with rfl | hc'
      · rw [hsink] at hns
        cases hns
      · exact ⟨c', hc', hns⟩
    | false =>
      obtain ⟨t, ht⟩ := hin c List.mem_cons_self hsink
      obtain ⟨e, s', hrun, he, hheap, hlog⟩ := execute_badCast fuel depth c.2 hbasic hs
        (by rw [hsink]; nofun) ht (anyCast_nullopt t)
      exact ⟨e, s', bind_error hrun, he, hheap, hlog⟩

omit [DecidableEq ι] [DecidableEq κ] in
/-- The consumers of a well-typed producer are modules and sinks. -/
theorem inputType_of_edge (hw : WellTyped h) {i j : ι} (hij : Edge h i j)
    (hsink : (h i).obj.isSink = false) : ∃ t, (h j).obj.inputType = some t := by
  have htyped := hw.typed i j hij
  have hbasic := hw.basic i
  obtain ⟨out, hout⟩ : ∃ out, (h i).obj.outputType = some out := by
    cases hobj : (h i).obj <;> simp_all [Obj.isBasic, Obj.isSink, Obj.outputType]
  rw [EdgeTyped] at htyped
  split at htyped
  · exact ⟨out, by rw [← htyped, hout]⟩
  · obtain ⟨t, -, ht⟩ := htyped
    exact ⟨t, ht⟩

omit [DecidableEq ι] [DecidableEq κ] in
theorem accepts_of_edge (hw : WellTyped h) {i j : ι} (hij : Edge h i j)
    (hp : (h i).obj.policy = .Fanout) {t : Ty κ} (ht : (h i).obj.outputType = some t)
    (v : t.Val β) : Accepts (h j).obj (.val t v) := by
  have htyped := hw.typed i j hij
  simp only [EdgeTyped, hp, ht] at htyped
  simp only [Accepts, ← htyped]
  exact ⟨v, rfl⟩

omit [DecidableEq ι] [DecidableEq κ] in
theorem vector_of_roundRobin (hw : WellTyped h) {i : ι} (hsink : (h i).obj.isSink = false)
    (hp : (h i).obj.policy = .RoundRobin) :
    ∃ t, (h i).obj.outputType = some (.vector t) ∧
      ∀ j, Edge h i j → (h j).obj.inputType = some t := by
  have hedge : ∀ j, Edge h i j → ∃ t, (h i).obj.outputType = some (.vector t) ∧
      (h j).obj.inputType = some t := by
    intro j hij
    have htyped := hw.typed i j hij
    simpa only [EdgeTyped, hp] using htyped
  obtain ⟨c, hc⟩ := List.exists_mem_of_ne_nil _ (hw.consumers i hsink)
  obtain ⟨t, ht, -⟩ := hedge c.1 ⟨c.2, hc⟩
  refine ⟨t, ht, fun j hij => ?_⟩
  obtain ⟨t', ht', hin⟩ := hedge j hij
  rw [ht, Option.some.injEq, Ty.vector.injEq] at ht'
  rw [hin, ht']

omit [DecidableEq κ] [DecidableEq ι] in
theorem type_of_accepts {obj : Obj β σ ε} {a : Any β} (ha : Accepts obj a) :
    a.type ≠ .nullopt := by
  rw [Accepts] at ha
  split at ha
  · rw [ha]
    nofun
  · obtain ⟨v, rfl⟩ := ha
    nofun

omit [DecidableEq κ] [DecidableEq ι] in
/-- A block with input type `t` accepts the values of `t`. -/
theorem accepts_val {obj : Obj β σ ε} {t : Ty κ} (h : obj.inputType = some t) (v : t.Val β) :
    Accepts obj (.val t v) := by
  simp only [Accepts, h]
  exact ⟨v, rfl⟩

/-- Producing the absence marker: nothing happens if only sinks listen, and a cast fails
otherwise. -/
theorem produce_nullopt (hw : WellTyped h) (fuel depth : Nat) {i : ι} {s : Machine ι β σ ε}
    (hs : s.heap = h) (hsink : (h i).obj.isSink = false) :
    (FeedsOnlySinks h i ∧ (h i).produce (execute (fuel + 1) depth) .nullopt s = .ok () s) ∨
      (¬ FeedsOnlySinks h i ∧ ∃ e s',
        (h i).produce (execute (fuel + 1) depth) .nullopt s = .error e s' ∧ IsBadCast e ∧
          s'.heap = h ∧ s'.log = s.log) := by
  cases hp : (h i).obj.policy with
  | Fanout =>
    rw [produce_fanout hp (hw.consumers i hsink)]
    -- sinks skip the marker, and the first other consumer cannot cast it
    by_cases hfeeds : FeedsOnlySinks h i
    · refine Or.inl ⟨hfeeds, forM_nullopt_sinks _ fun c hc => ?_⟩
      rw [hs]
      exact hfeeds.2 c.1 ⟨c.2, hc⟩
    · refine Or.inr ⟨hfeeds, forM_nullopt_badCast hw.basic hs _ ?_ ?_⟩
      · exact fun c hc _ => inputType_of_edge hw ⟨c.2, hc⟩ hsink
      · by_contra hnone
        refine hfeeds ⟨hp, fun j hij => ?_⟩
        obtain ⟨id, hc⟩ := hij
        exact Bool.not_eq_false _ ▸ fun hj => hnone ⟨(j, id), hc, hj⟩
  -- the marker is no vector
  | RoundRobin =>
    obtain ⟨t, ht, -⟩ := vector_of_roundRobin hw hsink hp
    refine Or.inr ⟨fun hfeeds => ?_, .threw (.badAnyCastWithInfo .nullopt (.ty (.vector t))), s, ?_,
      ⟨_, _, rfl⟩, hs, rfl⟩
    · have hfan := hfeeds.1
      rw [hp] at hfan
      cases hfan
    · simp only [Flow.produce, hp, roundRobinProduce, ht, anyCastWithInfo_nullopt]
      rfl

/-- Producing a vector: its elements are values of the consumers' input type, or the first one is a
bit that its consumer cannot cast. -/
theorem produce_vector (hw : WellTyped h) (fuel depth : Nat) {i : ι} {s : Machine ι β σ ε}
    (hs : s.heap = h) (hsink : (h i).obj.isSink = false) (hp : (h i).obj.policy = .RoundRobin)
    {t : Ty κ} (ht : (h i).obj.outputType = some (.vector t)) (values : List (t.Val β)) :
    ((t ≠ .bool ∨ values = []) ∧
      (h i).produce (execute (fuel + 1) depth) (.val (.vector t) values) =
        forM ((h i).nextNodes.zip values) fun c =>
          execute (fuel + 1) depth c.1.1 (.val t c.2) c.1.2) ∨
      (t = .bool ∧ values ≠ [] ∧ ∃ e s',
        (h i).produce (execute (fuel + 1) depth) (.val (.vector t) values) s = .error e s' ∧
          IsBadCast e ∧ s'.heap = h ∧ s'.log = s.log) := by
  rw [produce_roundRobin hp ht]
  by_cases hbool : t = .bool
  · subst hbool
    cases values with
    | nil =>
      refine .inl ⟨.inr rfl, ?_⟩
      rw [List.zip_nil_right]
      rfl
    | cons bit bits =>
      obtain ⟨⟨next, id⟩, rest, hnext⟩ := List.exists_cons_of_ne_nil (hw.consumers i hsink)
      obtain ⟨t', ht', hin⟩ := vector_of_roundRobin hw hsink hp
      rw [ht, Option.some.injEq, Ty.vector.injEq] at ht'
      subst ht'
      have hedge : Edge h i next := ⟨id, by rw [hnext]; exact List.mem_cons_self⟩
      obtain ⟨e, s', hrun, he, hheap, hlog⟩ := execute_badCast fuel depth id hw.basic hs
        (fun _ => Any.element_present .bool bit) (hin next hedge) (anyCast_bitReference .bool bit)
      refine .inr ⟨rfl, List.cons_ne_nil _ _, e, s', ?_, he, hheap, hlog⟩
      rw [hnext, List.zip_cons_cons, List.forM_cons]
      exact bind_error hrun
  · refine .inl ⟨.inl hbool, ?_⟩
    simp only [Any.element_eq hbool]

theorem sound_typed (hw : WellTyped h) {rank : ι → Nat}
    (hrank : ∀ i j, Edge h i j → rank j < rank i) :
    ∀ fuel depth i (a : Any β) producerId (s : Machine ι β σ ε), rank i < fuel →
      Accepts (h i).obj a → s.heap = h →
      (typeDiscipline h depth).Sound s (execute fuel depth i a producerId s)
  | 0, _, _, _, _, _, hfuel, _, _ => absurd hfuel (Nat.not_lt_zero _)
  | fuel + 1, depth, i, a, producerId, s, hfuel, ha, hs => by
    have hans := answered_processAny (hw.basic i) (hw.noThrow i) ha producerId s.user
    have hheap := heap_processAny hw.basic depth i a producerId hs
    have htype := type_of_accepts ha
    generalize ho : ((h i).obj.processAny a producerId s.user).1 = o at hans
    have ho' : ((s.heap i).obj.processAny a producerId s.user).1 = o := by rw [hs, ho]
    have hlog := log_processAny depth ho'
    have hone : ∀ c, Nested depth [(⟨depth, i, c⟩ : Event ι β ε)] := fun c =>
      nested_cons rfl (nested_nil _) fun _ => rfl
    rw [execute_succ, hs]
    cases hans with
    | @value args t v hsink hout =>
      rw [if_neg (by simp [hsink]), bind_ok (processAny_ok (by rw [ho'])),
        if_pos (by simp [Any.hasValue, htype])]
      have hnext : ∀ c ∈ (h i).nextNodes, ∀ b, Accepts (h c.1).obj b → ∀ s', s'.heap = h →
          (typeDiscipline h (depth + 1)).Sound s' (execute fuel (depth + 1) c.1 b c.2 s') := by
        intro c hc b hb s' hs'
        have hlt := hrank i c.1 ⟨c.2, hc⟩
        exact sound_typed hw hrank fuel (depth + 1) c.1 b c.2 s' (by omega) hb hs'
      -- a call that hands on no bits
      have hprepend : ∀ r : EStateM.Result (Stop κ ε) (Machine ι β σ ε) Unit,
          (typeDiscipline h (depth + 1)).Sound (finalState (processAny depth i a producerId s)) r →
          ¬ HandsBits h ⟨depth, i, ⟨args, .value (.val t v)⟩⟩ →
          (typeDiscipline h depth).Sound s r := by
        intro r hr hbits
        refine Discipline.Sound.prepend (Nested (depth + 1)) (nested_nil _) nested_append hr hlog
          ?_ fun new hnew => nested_cons rfl hnew nofun
        intro x hx hbad
        rw [List.mem_singleton.1 hx] at hbad
        rcases hbad with hbad | hbad
        · cases hbad.1
        · exact hbits hbad
      obtain ⟨fuel, rfl⟩ : ∃ n, fuel = n + 1 := by
        obtain ⟨c, hc⟩ := List.exists_mem_of_ne_nil _ (hw.consumers i hsink)
        have hlt := hrank i c.1 ⟨c.2, hc⟩
        exact ⟨fuel - 1, by omega⟩
      cases hp : (h i).obj.policy with
      -- the value is of every consumer's input type
      | Fanout =>
        refine hprepend _ ?_ ?_
        · rw [produce_fanout hp (hw.consumers i hsink)]
          exact (typeDiscipline h (depth + 1)).sound_forM _ hheap fun c hc s' hs' =>
            hnext c hc _ (accepts_of_edge hw ⟨c.2, hc⟩ hp hout v) s' hs'
        · rintro ⟨hround, -⟩
          rw [hp] at hround
          cases hround
      | RoundRobin =>
        obtain ⟨u, hu, hin⟩ := vector_of_roundRobin hw hsink hp
        rw [hout, Option.some.injEq] at hu
        subst hu
        rcases produce_vector hw fuel (depth + 1) hheap hsink hp hout v with
          ⟨hgood, hrun⟩ | ⟨rfl, hne, e, s', hrun, he, hheap', hlog'⟩
        · refine hprepend _ ?_ ?_
          · rw [hrun]
            refine (typeDiscipline h (depth + 1)).sound_forM _ hheap fun c hc s' hs' => ?_
            have hc1 := (List.of_mem_zip hc).1
            exact hnext c.1 hc1 _ (accepts_val (hin c.1.1 ⟨c.1.2, hc1⟩) c.2) s' hs'
          · rintro ⟨-, bits, hne, hbits⟩
            cases hbits
            rcases hgood with hbool | hnil
            · exact hbool rfl
            · exact hne hnil
        · rw [hrun]
          exact Discipline.sound_fail hheap' (hlog'.trans hlog) (.inr ⟨hp, v, hne, rfl⟩) he he
            (hone _)
    -- the block returned `std::nullopt`: its consumers skip it or cannot cast it
    | @absent args hsink =>
      rw [if_neg (by simp [hsink]), bind_ok (processAny_ok (by rw [ho'])),
        if_pos (by simp [Any.hasValue, htype])]
      obtain ⟨j, id, hj⟩ : ∃ j, Edge h i j := by
        obtain ⟨c, hc⟩ := List.exists_mem_of_ne_nil _ (hw.consumers i hsink)
        exact ⟨c.1, c.2, hc⟩
      obtain ⟨fuel, rfl⟩ : ∃ n, fuel = n + 1 := by
        have hlt := hrank i j ⟨id, hj⟩
        exact ⟨fuel - 1, by omega⟩
      rcases produce_nullopt hw fuel (depth + 1) hheap hsink with
        ⟨hfeeds, hrun⟩ | ⟨hfeeds, e, s', hrun, he, hheap', hlog'⟩
      · rw [hrun]
        refine Discipline.sound_return hheap hlog ?_ (hone _)
        intro x hx hbad
        rw [List.mem_singleton.1 hx] at hbad
        rcases hbad with hbad | ⟨-, bits, -, hbits⟩
        · exact hbad.2 hfeeds
        · cases hbits
      · rw [hrun]
        exact Discipline.sound_fail hheap' (hlog'.trans hlog) (.inl ⟨rfl, hfeeds⟩) he he (hone _)
    | @consumed args hsink =>
      rw [if_pos hsink]
      split
      · exact Discipline.sound_pure () hs
      · rw [bind_ok (processAny_ok (by rw [ho']))]
        refine Discipline.sound_return hheap hlog ?_ (hone _)
        intro x hx hbad
        rw [List.mem_singleton.1 hx] at hbad
        rcases hbad with hbad | ⟨-, bits, -, hbits⟩
        · cases hbad.1
        · cases hbits

/-- With a source to start from, the whole of `Pipeline::execute` follows the discipline. -/
theorem sound_typed_pipeline (hw : WellTyped h) {rank : ι → Nat}
    (hrank : ∀ i j, Edge h i j → rank j < rank i) {fuel : Nat} (hfuel : ∀ i, rank i < fuel)
    {p : Pipeline ι} (hsrc : ∀ i ∈ p.sources, (h i).obj.isSource = true) (hp : p.Startable)
    {s : Machine ι β σ ε} (hs : s.heap = h) :
    (typeDiscipline h 0).Sound s (p.execute fuel s) := by
  refine sound_pipeline p fuel (D := typeDiscipline h 0) hs (fun src hmem s' hs' => ?_) ?_
  · refine sound_typed hw hrank fuel 0 src .empty 0 s' (hfuel src) ?_ hs'
    have hclass := hsrc src hmem
    cases hobj : (h src).obj with
    | source out q process => rfl
    | _ =>
      rw [hobj] at hclass
      cases hclass
  · intro hnil front hfront
    rcases hp with hp | hp
    · exact absurd hnil hp
    · rw [hp] at hfront
      cases hfront

/-- Without a source the first module is handed the empty any, which it cannot cast. -/
theorem pipeline_badCast (hw : WellTyped h) (fuel : Nat) {p : Pipeline ι}
    (hnode : ∀ i ∈ p.nodes, (h i).obj.isNode = true) (hp : ¬ p.Startable)
    {s : Machine ι β σ ε} (hs : s.heap = h) :
    ∃ e s', p.execute (fuel + 1) s = .error e s' ∧ IsBadCast e ∧ s'.log = s.log := by
  obtain ⟨hsrc, hnodes⟩ : p.sources = [] ∧ p.nodes ≠ [] := by
    rw [Pipeline.Startable] at hp
    push Not at hp
    exact hp
  obtain ⟨front, rest, hcons⟩ := List.exists_cons_of_ne_nil hnodes
  have hclass := hnode front (by rw [hcons]; exact List.mem_cons_self)
  have hbasic := hw.basic front
  obtain ⟨t, ht, hsink⟩ : ∃ t, (h front).obj.inputType = some t ∧
      (h front).obj.isSink = false := by
    cases hobj : (h front).obj with
    | module inp out q process => exact ⟨inp, rfl, rfl⟩
    | aggregator inp out toOut toIn process self =>
      rw [hobj] at hbasic
      cases hbasic
    | _ =>
      rw [hobj] at hclass
      cases hclass
  obtain ⟨e, s', hrun, he, -, hlog⟩ := execute_badCast fuel 0 0 hw.basic hs
    (by rw [hsink]; nofun) ht (anyCast_empty t)
  refine ⟨e, s', ?_, he, hlog⟩
  rw [Pipeline.execute, if_neg (not_not.2 hsrc), hcons]
  exact hrun

/-- In a graph of sources, modules and sinks with well-typed edges, an execute of the pipeline
throws no failed cast, and calls nothing below a call that returned `std::nullopt`, exactly when it
starts at a source, every call that returned `std::nullopt` was made by a fanout block that feeds
only sinks, and no call of a round-robin block returned bits. -/
theorem pipeline_typeSound_iff {fuel : Nat} (obj : ι → Obj β σ ε) (u : σ) (ops : List (Op ι))
    (S : System ι β σ ε) (hrun : ((System.init obj u).run fuel ops).2 = S)
    (hw : WellTyped S.machine.heap) (hacyclic : Acyclic (Edge S.machine.heap))
    (hfuel : (tails (Edge S.machine.heap)).ncard < fuel) :
    stopOf (S.pipeline.execute fuel S.machine) ≠ some .outOfFuel ∧
      ∃ new, (finalState (S.pipeline.execute fuel S.machine)).log = S.machine.log ++ new ∧
        (¬ BadCast (S.pipeline.execute fuel S.machine) ∧ Quiet new ↔
          S.pipeline.Startable ∧
            (∀ e ∈ new, e.call.ret = .absent → FeedsOnlySinks S.machine.heap e.block) ∧
            ∀ e ∈ new, ¬ HandsBits S.machine.heap e) := by
  have hclasses : Classes obj S := hrun ▸ classes_run fuel ops (classes_init obj u)
  have hfin : (tails (Edge S.machine.heap)).Finite :=
    hrun ▸ finite_tails_run fuel ops (finite_tails_init obj u)
  obtain ⟨rank, hbound, hrank⟩ := exists_rank_of_acyclic hfin hacyclic
  -- with a source the run follows the discipline, without one the first cast fails
  by_cases hstart : S.pipeline.Startable
  · have hsrc : ∀ i ∈ S.pipeline.sources, (S.machine.heap i).obj.isSource = true := fun i hi => by
      rw [← isSource_shape, hclasses.shape i, isSource_shape]
      exact hclasses.sources i hi
    have hsound := sound_typed_pipeline hw hrank (fun i => lt_of_le_of_lt (hbound i) hfuel) hsrc
      hstart (s := S.machine) rfl
    refine ⟨fun hstop => ?_, ?_⟩
    · obtain ⟨_, _, he⟩ := hsound.stops _ hstop
      cases he
    · obtain ⟨new, hlog, hnested, hiff⟩ := hsound.trace
      refine ⟨new, hlog, ?_⟩
      have hbad : BadCast (S.pipeline.execute fuel S.machine) ↔
          ∃ e ∈ new, e.call.ret = .absent ∧ ¬ FeedsOnlySinks S.machine.heap e.block ∨
            HandsBits S.machine.heap e := hiff
      rw [hbad]
      constructor
      · rintro ⟨hgood, -⟩
        refine ⟨hstart, ?_, ?_⟩
        · intro e he habs
          by_contra hfeeds
          exact hgood ⟨e, he, .inl ⟨habs, hfeeds⟩⟩
        · intro e he hbits
          exact hgood ⟨e, he, .inr hbits⟩
      · rintro ⟨-, hfeeds, hbits⟩
        refine ⟨?_, hnested.2.2⟩
        rintro ⟨e, he, ⟨habs, hf⟩ | hb⟩
        · exact hf (hfeeds e he habs)
        · exact hbits e he hb
  · obtain ⟨fuel, rfl⟩ : ∃ n, fuel = n + 1 := ⟨fuel - 1, by omega⟩
    have hnode : ∀ i ∈ S.pipeline.nodes, (S.machine.heap i).obj.isNode = true := fun i hi => by
      rw [← isNode_shape, hclasses.shape i, isNode_shape]
      exact hclasses.nodes i hi
    obtain ⟨e, s', hexec, he, hlog⟩ := pipeline_badCast hw fuel hnode hstart
      (s := S.machine) rfl
    rw [hexec]
    refine ⟨fun hstop => ?_, [], ?_, ?_⟩
    · obtain ⟨_, _, rfl⟩ := he
      cases hstop
    · rw [finalState_error, hlog, List.append_nil]
    · refine iff_of_false (fun hgood => hgood.1 ⟨e, rfl, he⟩) fun hgood => hstart hgood.1

end Execution

/-! ## A source without a value in front of a module -/

/-- A source that has no value, a module and a sink. -/
def absentBlocks : Nat → Obj (fun _ : Unit => Nat) Unit Empty
  | 0 => .source (.base ()) .Fanout fun u => (.ok none, u)
  | 1 => .module (.base ()) (.base ()) .Fanout fun x u => (.ok (some x), u)
  | _ => .sink (.base ()) fun _ u => (.ok (), u)

/-- The pipeline of the three blocks. -/
def absentSystem : System Nat (fun _ : Unit => Nat) Unit Empty :=
  ((System.init absentBlocks ()).run 4 [.add 0, .add 1, .add 2]).2

theorem absentSystem_edge {i j : Nat} (h : Edge absentSystem.machine.heap i j) :
    i = 0 ∧ j = 1 ∨ i = 1 ∧ j = 2 := by
  have hheap : absentSystem.machine.heap =
      addConsumer (addConsumer (fun i => ⟨absentBlocks i, []⟩) 0 1) 1 2 := rfl
  rw [hheap] at h
  rcases edge_addConsumer h with h | ⟨rfl, rfl⟩
  · rcases edge_addConsumer h with ⟨id, hid⟩ | ⟨rfl, rfl⟩
    · cases hid
    · exact .inl ⟨rfl, rfl⟩
  · exact .inr ⟨rfl, rfl⟩

theorem absentSystem_wellTyped : WellTyped absentSystem.machine.heap where
  basic i := by match i with | 0 => rfl | 1 => rfl | 2 => rfl | _ + 3 => rfl
  noThrow i := by
    match i with
    | 0 => exact fun u => ⟨none, rfl⟩
    | 1 => exact fun x u => ⟨some x, rfl⟩
    | 2 => exact fun x u => rfl
    | _ + 3 => exact fun x u => rfl
  consumers i hi := by
    match i with
    | 0 => exact List.cons_ne_nil _ _
    | 1 => exact List.cons_ne_nil _ _
    | 2 => cases hi
    | _ + 3 => cases hi
  typed i j hij := by
    rcases absentSystem_edge hij with ⟨rfl, rfl⟩ | ⟨rfl, rfl⟩
    · rfl
    · rfl

theorem absentSystem_acyclic : Acyclic (Edge absentSystem.machine.heap) := by
  refine acyclic_of_rank (fun i => 3 - i) fun i j hij => ?_
  rcases absentSystem_edge hij with ⟨rfl, rfl⟩ | ⟨rfl, rfl⟩
  · decide
  · decide

theorem absentSystem_fuel : (tails (Edge absentSystem.machine.heap)).ncard < 4 := by
  have hsub : tails (Edge absentSystem.machine.heap) ⊆ ({0, 1} : Set Nat) := by
    rintro i ⟨j, hij⟩
    rcases absentSystem_edge hij with ⟨rfl, -⟩ | ⟨rfl, -⟩
    · exact .inl rfl
    · exact .inr rfl
  refine lt_of_le_of_lt (Set.ncard_le_ncard hsub) ?_
  rw [Set.ncard_pair (by decide)]
  decide

/-- The source returns `std::nullopt` and the execute throws `bad_any_cast_with_info`. -/
theorem absentSystem_badCast :
    Accepted ((System.init absentBlocks ()).run 4 [.add 0, .add 1, .add 2]).1 ∧
      WellTyped absentSystem.machine.heap ∧ Acyclic (Edge absentSystem.machine.heap) ∧
      BadCast (absentSystem.pipeline.execute 4 absentSystem.machine) := by
  refine ⟨?_, absentSystem_wellTyped, absentSystem_acyclic, ?_⟩
  · have hreplies : ((System.init absentBlocks ()).run 4 [.add 0, .add 1, .add 2]).1 =
        [.returned, .returned, .returned] := rfl
    intro e he
    rw [hreplies] at he
    simp at he
  · exact ⟨.threw (.badAnyCastWithInfo .nullopt (.ty (.base ()))), rfl, _, _, rfl⟩

theorem absentSystem_typeSound_iff :
    stopOf (absentSystem.pipeline.execute 4 absentSystem.machine) ≠ some .outOfFuel ∧
      ∃ new, (finalState (absentSystem.pipeline.execute 4 absentSystem.machine)).log =
          absentSystem.machine.log ++ new ∧
        (¬ BadCast (absentSystem.pipeline.execute 4 absentSystem.machine) ∧ Quiet new ↔
          absentSystem.pipeline.Startable ∧
            (∀ e ∈ new, e.call.ret = .absent →
              FeedsOnlySinks absentSystem.machine.heap e.block) ∧
            ∀ e ∈ new, ¬ HandsBits absentSystem.machine.heap e) :=
  pipeline_typeSound_iff absentBlocks () [.add 0, .add 1, .add 2] absentSystem rfl
    absentSystem_wellTyped absentSystem_acyclic absentSystem_fuel

/-- A round-robin source of bits in front of a sink of `bool`. -/
example :
    let bits : System Nat (fun _ : Unit => Nat) Unit Empty :=
      ((System.init (fun i => if i = 0 then
          .source (.vector .bool) .RoundRobin fun u => (.ok (some [true]), u)
        else .sink .bool fun _ u => (.ok (), u)) ()).run 2 [.add 0, .add 1]).2
    stopOf (bits.pipeline.execute 2 bits.machine) =
      some (.threw (.badAnyCastWithInfo .bitReference (.ty .bool))) :=
  rfl

end PipelineTools.FlowEngine
