import PipelineTools.FlowEngine.Workers
import PipelineTools.FlowEngine.Mission

/-!
# Order along a chain of pipelines

A `QueueChain` is a row of pipelines: each has one source, pure modules in a row, and sinks behind
them; the sink of each but the last is the `QueueSink` of a queue, and the source of the next is the
`QueueSource` of the same queue. The workers of the pipelines take turns in any order.

Three things keep the order. What has left a pipeline's source has reached its sinks in order, but
for what is in flight in its worker's thread (`InFlight`); what has left a queue and what is in it
was pushed in this order, with gaps where the queue was full; and what leaves the queue is what the
next source emits. `chain_received` puts them together: what a sink of the last pipeline received is
a subsequence of what the first source emitted, under the composed functions of the modules.
-/

set_option autoImplicit false

namespace PipelineTools.FlowEngine

open PipelineTools.Library PipelineTools.Queues

variable {ι κ : Type} {β : κ → Type} {σ ε : Type}

/-! ## Pure modules -/

/-- A module whose `process` is a function of its input alone. -/
structure PureModule {κ : Type} (β : κ → Type) where
  inp : Ty κ
  out : Ty κ
  f : inp.Val β → Option (out.Val β)

def PureModule.obj (m : PureModule β) : Obj β σ ε :=
  .module m.inp m.out .Fanout fun v u => (.ok (m.f v), u)

/-- A type-erased value, if there is one. -/
def Any.present : Any β → Option (Any β)
  | .val t v => some (.val t v)
  | _ => none

/-- The function of a module, on type-erased values. -/
def PureModule.apply [DecidableEq κ] (m : PureModule β) (a : Any β) : Option (Any β) :=
  (anyCast m.inp a).bind fun v => (m.f v).map (.val m.out)

/-- The composed functions of modules in a row. -/
def compose [DecidableEq κ] : List (PureModule β) → Any β → Option (Any β)
  | [], a => a.present
  | m :: ms, a => (m.apply a).bind (compose ms)

/-! ## Chains -/

/-- A pipeline of one source, modules in a row, and sinks behind the last of them. -/
structure Segment (ι : Type) {κ : Type} (β : κ → Type) where
  source : ι
  modules : List (ι × PureModule β)
  sinks : List ι

namespace Segment

def blocks (g : Segment ι β) : List ι := g.source :: (g.modules.map Prod.fst ++ g.sinks)

def pipeline (g : Segment ι β) : Pipeline ι := ⟨[g.source], g.modules.map Prod.fst⟩

end Segment

/-- The consumers of `x` and of the modules behind it. -/
def Row (h : Heap ι β σ ε) (sinks : List ι) : ι → List (ι × PureModule β) → Prop
  | x, [] => (h x).nextNodes.map Prod.fst = sinks
  | x, m :: ms => (h x).nextNodes.map Prod.fst = [m.1] ∧ (h m.1).obj = m.2.obj ∧ Row h sinks m.1 ms

/-- Pipelines in a row, each but the first with the queue it reads: its element type and index. -/
structure QueueChain (ι : Type) {κ : Type} (β : κ → Type) where
  first : Segment ι β
  rest : List ((Ty κ × Nat) × Segment ι β)

namespace QueueChain

def segments (c : QueueChain ι β) : List (Segment ι β) := c.first :: c.rest.map Prod.snd

def pipelines (c : QueueChain ι β) : List (Pipeline ι) := c.segments.map Segment.pipeline

/-- All modules, in the order a value passes them. -/
def modules (c : QueueChain ι β) : List (PureModule β) :=
  c.segments.flatMap fun g => g.modules.map Prod.snd

/-- The blocks of the chain are wired as its pipelines say, and no block is used twice. The blocks
of the user know nothing of the queues. -/
structure InHeap [DecidableEq κ] (c : QueueChain ι β) (h : Heap ι β (Shared β σ) ε) : Prop where
  rows : ∀ g ∈ c.segments, Row h g.sinks g.source g.modules
  nodup : ∀ g ∈ c.segments, g.blocks.Nodup
  disjoint : ∀ (i j : Nat) (g g' : Segment ι β), c.segments[i]? = some g →
    c.segments[j]? = some g' → ∀ b ∈ g.blocks, b ∈ g'.blocks → i = j
  keys : (c.rest.map Prod.fst).Nodup
  source : ∃ out process, (h c.first.source).obj = .source out .Fanout process ∧
    ∀ u, (process u).2.queues = u.queues
  /-- Two consecutive pipelines share a queue. -/
  link : ∀ (i : Nat) (g g' : Segment ι β) (t : Ty κ) (q : Nat), c.segments[i]? = some g →
    c.rest[i]? = some ((t, q), g') → ∃ x, g.sinks = [x] ∧
      (h x).obj = queueBlock t q .sink ∧ (h g'.source).obj = queueBlock t q .source
  sinks : ∀ g, c.segments[c.rest.length]? = some g → ∀ x ∈ g.sinks,
    ∃ inp process, (h x).obj = .sink inp process ∧ ∀ v u, (process v u).2.queues = u.queues

end QueueChain

/-! ## Histories -/

section Histories

variable [DecidableEq ι]

/-- The values that the block `i` has returned. -/
def outputsOf (i : ι) (log : List (Event ι β ε)) : List (Any β) :=
  log.filterMap fun e =>
    if e.block = i then
      match e.call.ret with
      | .value a => some a
      | _ => none
    else none

/-- The values that the block `i` was called with. -/
def inputsOf (i : ι) (log : List (Event ι β ε)) : List (Any β) :=
  log.filterMap fun e => if e.block = i then e.call.args.head? else none

theorem outputsOf_concat_of_ne {i : ι} {log : List (Event ι β ε)} {e : Event ι β ε}
    (h : e.block ≠ i) : outputsOf i (log ++ [e]) = outputsOf i log := by
  rw [outputsOf, List.filterMap_append, List.filterMap_cons, if_neg h, List.filterMap_nil,
    List.append_nil, outputsOf]

theorem inputsOf_concat_of_ne {i : ι} {log : List (Event ι β ε)} {e : Event ι β ε}
    (h : e.block ≠ i) : inputsOf i (log ++ [e]) = inputsOf i log := by
  rw [inputsOf, List.filterMap_append, List.filterMap_cons, if_neg h, List.filterMap_nil,
    List.append_nil, inputsOf]

theorem outputsOf_concat_value (log : List (Event ι β ε)) {e : Event ι β ε} {a : Any β}
    (h : e.call.ret = .value a) :
    outputsOf e.block (log ++ [e]) = outputsOf e.block log ++ [a] := by
  simp [outputsOf, h]

theorem outputsOf_concat_absent (log : List (Event ι β ε)) {e : Event ι β ε}
    (h : e.call.ret = .absent) : outputsOf e.block (log ++ [e]) = outputsOf e.block log := by
  simp [outputsOf, h]

theorem inputsOf_concat (log : List (Event ι β ε)) {e : Event ι β ε} {a : Any β}
    (h : e.call.args = [a]) : inputsOf e.block (log ++ [e]) = inputsOf e.block log ++ [a] := by
  simp [inputsOf, h]

end Histories

/-! ## One turn -/

section Turn

variable [DecidableEq ι] [DecidableEq κ]

/-- What `process_any` makes of the result of `process`. -/
def packed (out : Ty κ) : Option (out.Val β) → Any β
  | some v => .val out v
  | none => .nullopt

/-- The result of `process` as it is logged. -/
def returned (ε : Type) (out : Ty κ) : Option (out.Val β) → Ret β ε
  | some v => .value (.val out v)
  | none => .absent

omit [DecidableEq κ] in
/-- A call that leaves the members of the block as they are. -/
theorem finalState_of_obj_eq {depth : Nat} {i : ι} {a : Any β} {producerId : Nat}
    {s : Machine ι β σ ε} [DecidableEq κ]
    (h : ((s.heap i).obj.processAny a producerId s.user).2.1 = (s.heap i).obj) :
    finalState (processAny depth i a producerId s) =
      { s with
        user := ((s.heap i).obj.processAny a producerId s.user).2.2
        log := s.log ++ (((s.heap i).obj.processAny a producerId s.user).1.call.map
          fun c => ⟨depth, i, c⟩).toList } := by
  rw [finalState_processAny, h]
  have hheap : Function.update s.heap i { s.heap i with obj := (s.heap i).obj } = s.heap :=
    Function.update_eq_self i s.heap
  rw [hheap]

/-- What a turn of a block that is not a sink hands on. -/
theorem activate_eq_ok {t : Task ι β} {s m : Machine ι β σ ε} {ts : List (Task ι β)}
    (h : activate t s = .ok ts m) (hsink : (s.heap t.block).obj.isSink = false)
    (hin : t.input.type ≠ .nullopt) :
    ∃ output, ((s.heap t.block).obj.processAny t.input t.producerId s.user).1.result = .ok output ∧
      m = finalState (processAny t.depth t.block t.input t.producerId s) ∧
      (output.hasValue = true → ∃ ds, (s.heap t.block).hand output = .ok ds ∧
        ts = tasksOf (t.depth + 1) ds) := by
  have hsink' : ¬ (s.heap t.block).obj.isSink = true := by
    rw [hsink]
    exact Bool.false_ne_true
  cases hrun : processAny t.depth t.block t.input t.producerId s with
  | error e s' =>
    simp only [activate, if_neg hsink', hrun] at h
    cases h
  | ok output s' =>
    simp only [activate, if_neg hsink', hrun] at h
    refine ⟨output, result_of_processAny_ok hrun, ?_, ?_⟩
    · split at h
      · split at h
        · cases h
          rfl
        · cases h
      · cases h
        rfl
    · intro hvalue
      rw [if_pos (by simp [hvalue, hin])] at h
      cases hhand : (s.heap t.block).hand output with
      | error e =>
        rw [hhand] at h
        cases h
      | ok ds =>
        rw [hhand] at h
        cases h
        exact ⟨ds, rfl, rfl⟩

/-- A turn of a source. -/
theorem activate_source {t : Task ι β} {s m : Machine ι β σ ε} {ts : List (Task ι β)} {out : Ty κ}
    {process : Process σ ε (out.Val β)} (hobj : (s.heap t.block).obj = .source out .Fanout process)
    (hin : t.input = .empty) (h : activate t s = .ok ts m) :
    ∃ o ds, process s.user = (.ok o, m.user) ∧ m.heap = s.heap ∧
      m.log = s.log ++ [⟨t.depth, t.block, ⟨[], returned ε out o⟩⟩] ∧
      (s.heap t.block).hand (packed out o) = .ok ds ∧ ts = tasksOf (t.depth + 1) ds := by
  obtain ⟨output, hresult, rfl, hhand⟩ :=
    activate_eq_ok h (by rw [hobj]; rfl) (by rw [hin]; simp [Any.type])
  have hsame : ((s.heap t.block).obj.processAny t.input t.producerId s.user).2.1 =
      (s.heap t.block).obj := by rw [hobj]; rfl
  rw [finalState_of_obj_eq hsame]
  rw [hobj] at hresult ⊢
  rcases hp : process s.user with ⟨r, u⟩
  cases r with
  | error e =>
    simp [Obj.processAny, Source.processAny, pack, hp] at hresult
  | ok o =>
    have houtput : output = packed out o := by
      cases o <;> simp [Obj.processAny, Source.processAny, pack, hp] at hresult <;>
        exact hresult.symm
    obtain ⟨ds, hds, hts⟩ := hhand (by rw [houtput]; cases o <;> rfl)
    refine ⟨o, ds, ?_, rfl, ?_, ?_, hts⟩
    · cases o <;> simp [Obj.processAny, Source.processAny, pack, hp]
    · cases o <;> simp [Obj.processAny, Source.processAny, pack, hp, returned]
    · rw [← houtput]
      exact hds

/-- A turn of a pure module. -/
theorem activate_pureModule {t : Task ι β} {s m : Machine ι β σ ε} {ts : List (Task ι β)}
    {p : PureModule β} (hobj : (s.heap t.block).obj = p.obj) (h : activate t s = .ok ts m) :
    ∃ v ds, t.input = .val p.inp v ∧ m.user = s.user ∧ m.heap = s.heap ∧
      m.log = s.log ++ [⟨t.depth, t.block, ⟨[.val p.inp v], returned ε p.out (p.f v)⟩⟩] ∧
      (s.heap t.block).hand (packed p.out (p.f v)) = .ok ds ∧ ts = tasksOf (t.depth + 1) ds := by
  have hsink : (s.heap t.block).obj.isSink = false := by rw [hobj]; rfl
  have hsame : ((s.heap t.block).obj.processAny t.input t.producerId s.user).2.1 =
      (s.heap t.block).obj := by rw [hobj]; rfl
  cases hcast : anyCastWithInfo ε p.inp t.input with
  | error e =>
    have hresult : ((s.heap t.block).obj.processAny t.input t.producerId s.user).1.result =
        .error e := by
      simp [hobj, PureModule.obj, Obj.processAny, Module.processAny, hcast]
    simp only [activate, hsink, Bool.false_eq_true, if_false] at h
    generalize hr : processAny t.depth t.block t.input t.producerId s = r at h
    rw [processAny_error hresult] at hr
    rw [← hr] at h
    cases h
  | ok v =>
    have hinput := anyCastWithInfo_eq_ok_iff.1 hcast
    obtain ⟨output, hresult, rfl, hhand⟩ := activate_eq_ok h hsink (by
      rw [hinput]
      exact fun heq => by cases heq)
    rw [finalState_of_obj_eq hsame]
    rw [hobj] at hresult ⊢
    have houtput : output = packed p.out (p.f v) := by
      cases hf : p.f v <;>
        simp [PureModule.obj, Obj.processAny, Module.processAny, pack, hcast, hf] at hresult <;>
        exact hresult.symm
    obtain ⟨ds, hds, hts⟩ := hhand (by rw [houtput]; cases p.f v <;> rfl)
    refine ⟨v, ds, hinput, ?_, rfl, ?_, ?_, hts⟩
    · cases hf : p.f v <;>
        simp [PureModule.obj, Obj.processAny, Module.processAny, pack, hcast, hf]
    · cases hf : p.f v <;>
        simp [PureModule.obj, Obj.processAny, Module.processAny, pack, hcast, hf, returned]
    · rw [← houtput]
      exact hds

/-- A turn of a sink: it skips what is no value. -/
theorem activate_sink {t : Task ι β} {s m : Machine ι β σ ε} {ts : List (Task ι β)} {inp : Ty κ}
    {process : inp.Val β → σ → Except ε Unit × σ} (hobj : (s.heap t.block).obj = .sink inp process)
    (h : activate t s = .ok ts m) :
    ts = [] ∧ ((t.input.present = none ∧ m = s) ∨
      ∃ v, t.input = .val inp v ∧ process v s.user = (.ok (), m.user) ∧ m.heap = s.heap ∧
        m.log = s.log ++ [⟨t.depth, t.block, ⟨[.val inp v], .void⟩⟩]) := by
  have hsink : (s.heap t.block).obj.isSink = true := by rw [hobj]; rfl
  have hsame : ((s.heap t.block).obj.processAny t.input t.producerId s.user).2.1 =
      (s.heap t.block).obj := by rw [hobj]; rfl
  -- what holds no value is skipped without a call
  by_cases hskip : (!t.input.hasValue || decide (t.input.type = .nullopt)) = true
  · simp only [activate, if_pos hsink, if_pos hskip] at h
    cases h
    refine ⟨rfl, .inl ⟨?_, rfl⟩⟩
    cases hin : t.input with
    | val u v => simp [hin, Any.hasValue, Any.type] at hskip
    | _ => rfl
  · simp only [activate, if_pos hsink, if_neg hskip] at h
    cases hrun : processAny t.depth t.block t.input t.producerId s with
    | error e s' =>
      rw [hrun] at h
      cases h
    | ok output s' =>
      rw [hrun] at h
      cases h
      refine ⟨rfl, .inr ?_⟩
      have hresult := result_of_processAny_ok hrun
      have hfinal : m = finalState (processAny t.depth t.block t.input t.producerId s) := by
        rw [hrun, finalState_ok]
      rw [finalState_of_obj_eq hsame] at hfinal
      rw [hobj] at hresult hfinal
      cases hcast : anyCastWithInfo ε inp t.input with
      | error e => simp [Obj.processAny, Sink.processAny, hcast] at hresult
      | ok v =>
        rcases hp : process v s.user with ⟨r, u⟩
        cases r with
        | error e => simp [Obj.processAny, Sink.processAny, hcast, hp] at hresult
        | ok w =>
          refine ⟨v, anyCastWithInfo_eq_ok_iff.1 hcast, ?_, ?_, ?_⟩ <;>
            simp [hfinal, Obj.processAny, Sink.processAny, hcast, hp]

end Turn

/-! ## What is in flight -/

section InFlight

variable [DecidableEq ι] [DecidableEq κ]

omit [DecidableEq ι] in
theorem compose_of_present_eq_none (ms : List (PureModule β)) {a : Any β} (h : a.present = none) :
    compose ms a = none := by
  cases ms with
  | nil => exact h
  | cons p ms =>
    cases a with
    | val t v => cases h
    | _ => rfl

omit [DecidableEq ι] in
theorem compose_append (ms ms' : List (PureModule β)) (a : Any β) :
    compose (ms ++ ms') a = (compose ms a).bind (compose ms') := by
  induction ms generalizing a with
  | nil =>
    cases a with
    | val t v => rfl
    | empty => exact compose_of_present_eq_none ms' rfl
    | nullopt => exact compose_of_present_eq_none ms' rfl
    | bitReference bit => exact compose_of_present_eq_none ms' rfl
  | cons p ms ih =>
    rw [List.cons_append, compose, compose, Option.bind_assoc]
    congr 1
    funext b
    exact ih b

omit [DecidableEq ι] in
theorem compose_cons_val (p : PureModule β) (ms : List (PureModule β)) (v : p.inp.Val β) :
    compose (p :: ms) (.val p.inp v) = compose ms (packed p.out (p.f v)) := by
  rw [compose, PureModule.apply, anyCast_val_self, Option.bind_some]
  cases p.f v with
  | none => exact (compose_of_present_eq_none ms rfl).symm
  | some w => rfl

/-- The stack of the thread that executes the pipeline `g`, and the values that are still to reach
each of its sinks. -/
inductive InFlight (h : Heap ι β σ ε) (g : Segment ι β) :
    List (Task ι β) → (ι → List (Any β)) → Prop
  | idle : InFlight h g [] fun _ => []
  | starting {t : Task ι β} : t.block = g.source → t.input = .empty → InFlight h g [t] fun _ => []
  | atModule {t : Task ι β} {p : PureModule β} {ms : List (ι × PureModule β)} :
      (t.block, p) :: ms <:+ g.modules → (h t.block).obj = p.obj → Row h g.sinks t.block ms →
      InFlight h g [t] fun _ => (compose (p :: ms.map Prod.snd) t.input).toList
  | atSinks {ts : List (Task ι β)} : (∀ t ∈ ts, t.block ∈ g.sinks) →
      InFlight h g ts fun x => ts.filterMap fun t => if t.block = x then t.input.present else none

omit [DecidableEq κ] in
/-- One member of a list without repetitions is picked out once. -/
theorem filterMap_eq_toList {l : List ι} (hl : l.Nodup) {x : ι} (hx : x ∈ l)
    (a : Option (Any β)) : (l.filterMap fun y => if y = x then a else none) = a.toList := by
  induction l with
  | nil => cases hx
  | cons y l ih =>
    obtain ⟨hy, hl⟩ := List.nodup_cons.1 hl
    have hnone : ∀ l' : List ι, x ∉ l' →
        (l'.filterMap fun y => if y = x then a else none) = [] := by
      intro l' hl'
      rw [List.filterMap_eq_nil_iff]
      intro z hz
      exact if_neg fun hzx : z = x => hl' (hzx ▸ hz)
    by_cases hyx : y = x
    · subst hyx
      cases a with
      | none => rw [List.filterMap_cons, if_pos rfl]; exact hnone l hy
      | some b =>
        rw [List.filterMap_cons, if_pos rfl]
        simp [hnone l hy]
    · rw [List.filterMap_cons, if_neg hyx]
      exact ih hl ((List.mem_cons.1 hx).resolve_left (Ne.symm hyx))

/-- What a block of a row hands on is in flight to all sinks. -/
theorem inFlight_hand {h : Heap ι β σ ε} {g : Segment ι β} {x : ι} {ms : List (ι × PureModule β)}
    (hrow : Row h g.sinks x ms) (hms : ms <:+ g.modules) (hsinks : g.sinks.Nodup)
    (hpolicy : (h x).obj.policy = .Fanout) {output : Any β} {ds : List (ι × Any β × Nat)}
    (hhand : (h x).hand output = .ok ds) (depth : Nat) :
    ∃ flight, InFlight h g (tasksOf depth ds) flight ∧
      ∀ y ∈ g.sinks, flight y = (compose (ms.map Prod.snd) output).toList := by
  have hds : ds = (h x).nextNodes.map fun c => (c.1, output, c.2) := by
    simp only [Flow.hand, hpolicy] at hhand
    cases hnext : (h x).nextNodes with
    | nil =>
      rw [hnext] at hhand
      cases hhand
    | cons c cs =>
      rw [hnext] at hhand
      exact (Except.ok.inj hhand).symm
  subst hds
  -- behind the last module are the sinks, before it the next module
  cases ms with
  | nil =>
    have hnext : (h x).nextNodes.map Prod.fst = g.sinks := hrow
    refine ⟨_, .atSinks ?_, ?_⟩
    · intro t ht
      obtain ⟨d, hd, rfl⟩ := List.mem_map.1 ht
      obtain ⟨c, hc, rfl⟩ := List.mem_map.1 hd
      rw [← hnext]
      exact List.mem_map_of_mem hc
    · intro y hy
      have hpick := filterMap_eq_toList hsinks hy output.present
      rw [← hnext, List.filterMap_map] at hpick
      rw [tasksOf, List.filterMap_map, List.filterMap_map]
      exact hpick
  | cons m ms =>
    obtain ⟨hnext, hobj, hrest⟩ := hrow
    obtain ⟨⟨n, id⟩, hcs, hn⟩ := List.map_eq_singleton_iff.1 hnext
    obtain rfl : n = m.1 := hn
    rw [hcs]
    exact ⟨_, .atModule (t := ⟨depth, m.1, output, id⟩) hms hobj hrest, fun y _ => rfl⟩

/-- What has left the source of a pipeline has reached each sink, or is in flight. -/
def Accounted (h : Heap ι β σ ε) (g : Segment ι β) (tasks : List (Task ι β))
    (log : List (Event ι β ε)) : Prop :=
  ∃ flight, InFlight h g tasks flight ∧ ∀ x ∈ g.sinks,
    inputsOf x log ++ flight x =
      (outputsOf g.source log).filterMap (compose (g.modules.map Prod.snd))

/-- A pipeline of a chain and the blocks it is made of. -/
structure Segment.Placed (g : Segment ι β) (h : Heap ι β σ ε) : Prop where
  row : Row h g.sinks g.source g.modules
  nodup : g.blocks.Nodup
  source : ∃ out process, (h g.source).obj = .source out .Fanout process
  sinks : ∀ x ∈ g.sinks, ∃ inp process, (h x).obj = .sink inp process

/-- What a turn in the pipeline `g` does besides moving values through its thread. -/
inductive Effect (g : Segment ι β) (s m : Machine ι β σ ε) : Prop
  | source {out : Ty κ} {process : Process σ ε (out.Val β)} {o : Option (out.Val β)} {d : Nat} :
      (s.heap g.source).obj = .source out .Fanout process → process s.user = (.ok o, m.user) →
      m.log = s.log ++ [⟨d, g.source, ⟨[], returned ε out o⟩⟩] → Effect g s m
  | module {e : Event ι β ε} : e.block ∈ g.modules.map Prod.fst → m.user = s.user →
      m.log = s.log ++ [e] → Effect g s m
  | sink {x : ι} {inp : Ty κ} {process : inp.Val β → σ → Except ε Unit × σ} {v : inp.Val β}
      {d : Nat} : x ∈ g.sinks → (s.heap x).obj = .sink inp process →
      process v s.user = (.ok (), m.user) →
      m.log = s.log ++ [⟨d, x, ⟨[.val inp v], .void⟩⟩] → Effect g s m
  | skipped : m = s → Effect g s m

namespace Segment

variable {g : Segment ι β}

omit [DecidableEq ι] [DecidableEq κ] in
theorem sinks_nodup (h : g.blocks.Nodup) : g.sinks.Nodup :=
  (List.nodup_append.1 (List.nodup_cons.1 h).2).2.1

omit [DecidableEq ι] [DecidableEq κ] in
theorem source_notMem_sinks (h : g.blocks.Nodup) : g.source ∉ g.sinks := fun hmem =>
  (List.nodup_cons.1 h).1 (List.mem_append_right _ hmem)

omit [DecidableEq ι] [DecidableEq κ] in
theorem ne_of_mem_modules (h : g.blocks.Nodup) {x : ι} (hx : x ∈ g.modules.map Prod.fst) :
    x ≠ g.source ∧ x ∉ g.sinks := by
  obtain ⟨hsource, hrest⟩ := List.nodup_cons.1 h
  constructor
  · rintro rfl
    exact hsource (List.mem_append_left _ hx)
  · intro hsink
    exact (List.nodup_append.1 hrest).2.2 x hx x hsink rfl

end Segment

omit [DecidableEq κ] in
/-- The calls of modules do not show at the ends of the pipeline. -/
theorem histories_of_module {g : Segment ι β} (hnodup : g.blocks.Nodup)
    (log : List (Event ι β ε)) {e : Event ι β ε} (he : e.block ∈ g.modules.map Prod.fst) :
    outputsOf g.source (log ++ [e]) = outputsOf g.source log ∧
      ∀ x ∈ g.sinks, inputsOf x (log ++ [e]) = inputsOf x log := by
  obtain ⟨hsource, hsinks⟩ := Segment.ne_of_mem_modules hnodup he
  refine ⟨outputsOf_concat_of_ne hsource, ?_⟩
  intro x hx
  apply inputsOf_concat_of_ne
  rintro rfl
  exact hsinks hx

/-- A turn of the source: the value it returns, if there is one, is in flight. -/
theorem accounted_source {s m : Machine ι β σ ε} {g : Segment ι β} (hg : g.Placed s.heap)
    {t : Task ι β} {ts : List (Task ι β)} (hblock : t.block = g.source) (hin : t.input = .empty)
    (hacc : ∀ x ∈ g.sinks, inputsOf x s.log ++ [] =
      (outputsOf g.source s.log).filterMap (compose (g.modules.map Prod.snd)))
    (h : activate t s = .ok ts m) :
    m.heap = s.heap ∧ Effect g s m ∧ Accounted s.heap g ts m.log := by
  obtain ⟨out, process, hobj⟩ := hg.source
  rw [← hblock] at hobj
  obtain ⟨o, ds, hprocess, hheap, hlog, hhand, rfl⟩ := activate_source hobj hin h
  rw [hblock] at hobj hhand hlog
  refine ⟨hheap, .source hobj hprocess hlog, ?_⟩
  obtain ⟨flight, hflight, hvalues⟩ := inFlight_hand hg.row List.suffix_rfl
    (Segment.sinks_nodup hg.nodup) (by rw [hobj]; rfl) hhand (t.depth + 1)
  refine ⟨flight, hflight, ?_⟩
  intro x hx
  have hne : g.source ≠ x := by
    rintro rfl
    exact Segment.source_notMem_sinks hg.nodup hx
  have hold := hacc x hx
  rw [List.append_nil] at hold
  rw [hvalues x hx, hlog, inputsOf_concat_of_ne hne, hold]
  -- an absent value leaves nothing in flight
  cases o with
  | none =>
    have hkept := outputsOf_concat_absent s.log
      (e := ⟨t.depth, g.source, ⟨[], returned ε out none⟩⟩) rfl
    rw [hkept, packed, compose_of_present_eq_none _ rfl, Option.toList_none, List.append_nil]
  | some v =>
    have hgrown := outputsOf_concat_value s.log (a := .val out v)
      (e := ⟨t.depth, g.source, ⟨[], returned ε out (some v)⟩⟩) rfl
    have hone : [Any.val out v].filterMap (compose (g.modules.map Prod.snd)) =
        (compose (g.modules.map Prod.snd) (.val out v)).toList := by
      cases hv : compose (g.modules.map Prod.snd) (.val out v) <;> simp [hv]
    rw [hgrown, List.filterMap_append, hone]
    rfl

/-- A turn of a module: what it returns takes the place of what it was given. -/
theorem accounted_module {s m : Machine ι β σ ε} {g : Segment ι β} (hg : g.Placed s.heap)
    {t : Task ι β} {ts : List (Task ι β)} {p : PureModule β} {ms : List (ι × PureModule β)}
    (hms : (t.block, p) :: ms <:+ g.modules) (hobj : (s.heap t.block).obj = p.obj)
    (hrow : Row s.heap g.sinks t.block ms)
    (hacc : ∀ x ∈ g.sinks, inputsOf x s.log ++ (compose (p :: ms.map Prod.snd) t.input).toList =
      (outputsOf g.source s.log).filterMap (compose (g.modules.map Prod.snd)))
    (h : activate t s = .ok ts m) :
    m.heap = s.heap ∧ Effect g s m ∧ Accounted s.heap g ts m.log := by
  obtain ⟨v, ds, hinput, huser, hheap, hlog, hhand, rfl⟩ := activate_pureModule hobj h
  have hmem : t.block ∈ g.modules.map Prod.fst :=
    List.mem_map_of_mem (f := Prod.fst) (hms.subset List.mem_cons_self)
  refine ⟨hheap, .module hmem huser hlog, ?_⟩
  obtain ⟨flight, hflight, hvalues⟩ := inFlight_hand hrow ((List.suffix_cons _ _).trans hms)
    (Segment.sinks_nodup hg.nodup) (by rw [hobj]; rfl) hhand (t.depth + 1)
  obtain ⟨houtputs, hinputs⟩ := histories_of_module hg.nodup s.log
    (e := ⟨t.depth, t.block, ⟨[.val p.inp v], returned ε p.out (p.f v)⟩⟩) hmem
  refine ⟨flight, hflight, ?_⟩
  intro x hx
  rw [hlog, houtputs, hinputs x hx, hvalues x hx, ← hacc x hx, hinput, compose_cons_val]

/-- A turn of a sink: it has received what was in flight to it. -/
theorem accounted_sink {s m : Machine ι β σ ε} {g : Segment ι β} (hg : g.Placed s.heap)
    {t : Task ι β} {rest ts : List (Task ι β)} (hts : ∀ t' ∈ t :: rest, t'.block ∈ g.sinks)
    (hacc : ∀ x ∈ g.sinks, inputsOf x s.log ++ ((t :: rest).filterMap fun t =>
        if t.block = x then t.input.present else none) =
      (outputsOf g.source s.log).filterMap (compose (g.modules.map Prod.snd)))
    (h : activate t s = .ok ts m) :
    m.heap = s.heap ∧ Effect g s m ∧ Accounted s.heap g (ts ++ rest) m.log := by
  obtain ⟨ht, hrest⟩ := List.forall_mem_cons.1 hts
  obtain ⟨inp, process, hobj⟩ := hg.sinks t.block ht
  obtain ⟨rfl, ⟨hnone, rfl⟩ | ⟨v, hinput, hprocess, hheap, hlog⟩⟩ := activate_sink hobj h
  · refine ⟨rfl, .skipped rfl, _, .atSinks hrest, ?_⟩
    intro x hx
    have hsame := hacc x hx
    rw [List.filterMap_cons, hnone, ite_self] at hsame
    exact hsame
  · refine ⟨hheap, .sink ht hobj hprocess hlog, _, .atSinks hrest, ?_⟩
    intro x hx
    have hne : t.block ≠ g.source := by
      intro heq
      rw [heq] at ht
      exact Segment.source_notMem_sinks hg.nodup ht
    have hold := hacc x hx
    rw [hlog, outputsOf_concat_of_ne hne, ← hold, List.filterMap_cons]
    -- the value moves from flight to what the sink has received
    by_cases hx : t.block = x
    · subst hx
      have hgrown := inputsOf_concat s.log (a := .val inp v)
        (e := ⟨t.depth, t.block, ⟨[.val inp v], .void⟩⟩) rfl
      rw [hgrown, if_pos rfl, hinput, List.append_assoc]
      rfl
    · rw [inputsOf_concat_of_ne hx, if_neg hx]
      rfl

/-- Every turn accounts for the values in its pipeline. -/
theorem accounted_turn {s m : Machine ι β σ ε} {g : Segment ι β} (hg : g.Placed s.heap)
    {t : Task ι β} {rest ts : List (Task ι β)}
    (hacc : Accounted s.heap g (t :: rest) s.log) (h : activate t s = .ok ts m) :
    m.heap = s.heap ∧ Effect g s m ∧ Accounted s.heap g (ts ++ rest) m.log := by
  obtain ⟨flight, hflight, hvalues⟩ := hacc
  cases hflight with
  | starting hblock hin =>
    rw [List.append_nil]
    exact accounted_source hg hblock hin hvalues h
  | atModule hms hobj hrow =>
    rw [List.append_nil]
    exact accounted_module hg hms hobj hrow hvalues h
  | atSinks hts => exact accounted_sink hg hts hvalues h

end InFlight

end PipelineTools.FlowEngine
