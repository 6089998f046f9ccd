import PipelineTools.FlowEngine.Workers
import PipelineTools.FlowEngine.Mission
import PipelineTools.Library.Clients
import PipelineTools.Queues.QueueImplementations

/-!
# Workers whose queue calls take time

`Threads.step` makes a call of a queue within one turn. Here the workers are a client of the queues
(`queueClient`): a worker whose next block is a `QueueSource` or a `QueueSink` calls the queue,
makes one access to it after the other while the other workers go on, and finishes the turn when the
call returns. The user's blocks do not know the queues (`Obj.withQueues`).
-/

set_option autoImplicit false

namespace PipelineTools.FlowEngine

open PipelineTools.Library PipelineTools.Queues
open Moodycamel (Role)

variable {ι κ : Type} {β : κ → Type} {σ ε : Type}

/-! ## Blocks that do not know the queues -/

/-- A result on the user's part of the shared state. -/
def beside {ρ : Type} (u : Shared β σ) (r : ρ × σ) : ρ × Shared β σ := (r.1, { u with user := r.2 })

/-- A block of the user, next to the queues. -/
def Obj.withQueues : Obj β σ ε → Obj β (Shared β σ) ε
  | .source out p process => .source out p fun u => beside u (process u.user)
  | .module inp out p process => .module inp out p fun v u => beside u (process v u.user)
  | .aggregator inp out toOut toIn process self =>
      .aggregator inp out toOut toIn (fun vs u => beside u (process vs u.user)) self
  | .sink inp process => .sink inp fun v u => beside u (process v u.user)
  | .other p processAny => .other p fun a producerId u => beside u (processAny a producerId u.user)

theorem pack_beside (args : List (Any β)) (out : Ty κ) (absent : Any β) (u : Shared β σ)
    (r : Except ε (Option (out.Val β)) × σ) :
    pack args out absent (beside u r) = beside u (pack args out absent r) := by
  obtain ⟨result, u'⟩ := r
  cases result with
  | error e => rfl
  | ok value =>
    cases value with
    | none => rfl
    | some v => rfl

section

variable [DecidableEq κ]

theorem moduleProcessAny_beside (inp out : Ty κ) (process : inp.Val β → Process σ ε (out.Val β))
    (a : Any β) (u : Shared β σ) :
    Module.processAny inp out (fun v u => beside u (process v u.user)) a u =
      beside u (Module.processAny inp out process a u.user) := by
  rw [Module.processAny, Module.processAny]
  cases anyCastWithInfo ε inp a with
  | error e => rfl
  | ok v => exact pack_beside _ out _ u (process v u.user)

theorem sinkProcessAny_beside (inp : Ty κ) (process : inp.Val β → σ → Except ε Unit × σ)
    (a : Any β) (u : Shared β σ) :
    Sink.processAny inp (fun v u => beside u (process v u.user)) a u =
      beside u (Sink.processAny inp process a u.user) := by
  rw [Sink.processAny, Sink.processAny]
  cases anyCastWithInfo ε inp a with
  | error e => rfl
  | ok v =>
    rcases hp : process v u.user with ⟨result, u'⟩
    cases result with
    | error e => simp only [beside, hp]
    | ok w => simp only [beside, hp]

/-- An aggregator runs the user's process only in the branch that ends a round. -/
theorem aggregatorProcessAny_beside (inp out : Ty κ) (toOut : inp.Val β → out.Val β)
    (toIn : out.Val β → inp.Val β) (process : List (inp.Val β) → Process σ ε (out.Val β))
    (agg : Aggregator (out.Val β)) (a : Any β) (producerId : Nat) (u : Shared β σ) :
    agg.processAny inp out toOut toIn (fun vs u => beside u (process vs u.user)) a producerId u =
      let r := agg.processAny inp out toOut toIn process a producerId u.user
      (r.1, r.2.1, { u with user := r.2.2 }) := by
  rw [Aggregator.processAny, Aggregator.processAny]
  cases producerMask producerId with
  | none => rfl
  | some idx =>
    simp only
    by_cases hbit : agg.state &&& idx ≠ 0
    · rw [if_pos hbit, if_pos hbit]
    · rw [if_neg hbit, if_neg hbit]
      cases anyCastWithInfo ε inp a with
      | error e => rfl
      | ok v =>
        cases fullMask agg.producerCount with
        | none => rfl
        | some full =>
          simp only
          by_cases hfull : (agg.store producerId idx (toOut v)).state = full
          · rw [if_pos hfull, if_pos hfull]
            simp only [Aggregator.complete, pack_beside]
            rfl
          · rw [if_neg hfull, if_neg hfull]

/-- A block of the user does the same next to the queues, and leaves them alone. -/
theorem processAny_withQueues (obj : Obj β σ ε) (a : Any β) (producerId : Nat) (u : Shared β σ) :
    obj.withQueues.processAny a producerId u =
      let r := obj.processAny a producerId u.user
      (r.1, r.2.1.withQueues, { u with user := r.2.2 }) := by
  cases obj with
  | source out p process =>
    simp only [Obj.withQueues, Obj.processAny, Source.processAny, pack_beside]
    rfl
  | module inp out p process =>
    simp only [Obj.withQueues, Obj.processAny, moduleProcessAny_beside]
    rfl
  | aggregator inp out toOut toIn process self =>
    simp only [Obj.withQueues, Obj.processAny, aggregatorProcessAny_beside]
  | sink inp process =>
    simp only [Obj.withQueues, Obj.processAny, sinkProcessAny_beside]
    rfl
  | other p processAny =>
    rcases hp : processAny a producerId u.user with ⟨result, u'⟩
    cases result with
    | error e => simp only [Obj.withQueues, Obj.processAny, beside, hp]
    | ok b => simp only [Obj.withQueues, Obj.processAny, beside, hp]

/-- The heap with the queue blocks in their places. -/
def Heap.withQueues (ends : ι → Option (AutoBlock κ)) (h : Heap ι β σ ε) :
    Heap ι β (Shared β σ) ε := fun x =>
  { obj := match ends x with
      | some b => queueBlock b.elem b.queue b.kind
      | none => (h x).obj.withQueues
    nextNodes := (h x).nextNodes }

end

/-! ## Turns of blocks that look alike -/

/-- The two blocks look alike, and so do their calls of `process_any`. -/
structure Flow.Alike [DecidableEq κ] {σ' : Type} (a : Any β) (producerId : Nat)
    (f : Flow ι β σ ε) (u : σ) (f' : Flow ι β σ' ε) (u' : σ') : Prop where
  isSink : f'.obj.isSink = f.obj.isSink
  policy : f'.obj.policy = f.obj.policy
  outputType : f'.obj.outputType = f.obj.outputType
  nextNodes : f'.nextNodes = f.nextNodes
  outcome : (f'.obj.processAny a producerId u').1 = (f.obj.processAny a producerId u).1

section

variable [DecidableEq ι] [DecidableEq κ] {σ' : Type}

/-- The entries that a turn makes in the log. -/
def Task.entries (t : Task ι β) (o : Outcome β ε) : List (Event ι β ε) :=
  (o.call.map fun c => ⟨t.depth, t.block, c⟩).toList

omit [DecidableEq ι] [DecidableEq κ] in
theorem block_of_mem_entries {t : Task ι β} {o : Outcome β ε} {e : Event ι β ε}
    (he : e ∈ t.entries o) : e.block = t.block := by
  cases hcall : o.call with
  | none => simp [Task.entries, hcall] at he
  | some c =>
    simp only [Task.entries, hcall, Option.map_some, Option.toList_some,
      List.mem_singleton] at he
    rw [he]

/-- The machine after the call of `process_any`. -/
def Machine.called (t : Task ι β) (s : Machine ι β σ ε) : Machine ι β σ ε :=
  let r := (s.heap t.block).obj.processAny t.input t.producerId s.user
  { heap := Function.update s.heap t.block { s.heap t.block with obj := r.2.1 }
    user := r.2.2
    log := s.log ++ t.entries r.1 }

/-- A sink is not called without a value. -/
def Task.skips (t : Task ι β) : Bool := !t.input.hasValue || t.input.type = .nullopt

/-- What follows a call of `process_any`: the turns it asks for. -/
def Flow.after (f : Flow ι β σ ε) (t : Task ι β) (o : Outcome β ε) :
    Except (Stop κ ε) (List (Task ι β)) :=
  match o.result with
  | .error e => .error e
  | .ok output =>
    if f.obj.isSink then .ok []
    else if output.hasValue && t.input.type ≠ .nullopt then
      match f.hand output with
      | .ok ds => .ok (tasksOf (t.depth + 1) ds)
      | .error e => .error e
    else .ok []

theorem activate_of_skips {t : Task ι β} {s : Machine ι β σ ε}
    (hsink : (s.heap t.block).obj.isSink = true) (hskip : t.skips = true) :
    activate t s = .ok [] s := by
  have hskip' : (!t.input.hasValue || decide (t.input.type = .nullopt)) = true := hskip
  simp only [activate, if_pos hsink, if_pos hskip']

/-- A turn in which `process_any` is called. -/
theorem activate_of_called {t : Task ι β} {s : Machine ι β σ ε}
    (hcalled : (s.heap t.block).obj.isSink = true → t.skips = false) :
    activate t s =
      match (s.heap t.block).after t
        ((s.heap t.block).obj.processAny t.input t.producerId s.user).1 with
      | .ok ts => .ok ts (s.called t)
      | .error e => .error e (s.called t) := by
  have hfinal : finalState (processAny t.depth t.block t.input t.producerId s) = s.called t := by
    rw [finalState_processAny]
    rfl
  cases hresult : ((s.heap t.block).obj.processAny t.input t.producerId s.user).1.result with
  | error e =>
    have hrun : processAny t.depth t.block t.input t.producerId s = .error e (s.called t) := by
      rw [← hfinal]
      exact processAny_error hresult
    by_cases hsink : (s.heap t.block).obj.isSink = true
    · have hskip : ¬ (!t.input.hasValue || decide (t.input.type = .nullopt)) = true := by
        rw [show (!t.input.hasValue || decide (t.input.type = .nullopt)) = false from hcalled hsink]
        exact Bool.false_ne_true
      simp only [activate, if_pos hsink, if_neg hskip, hrun, Flow.after, hresult]
    · simp only [activate, if_neg hsink, hrun, Flow.after, hresult]
  | ok output =>
    have hrun : processAny t.depth t.block t.input t.producerId s = .ok output (s.called t) := by
      rw [← hfinal]
      exact processAny_ok hresult
    by_cases hsink : (s.heap t.block).obj.isSink = true
    · have hskip : ¬ (!t.input.hasValue || decide (t.input.type = .nullopt)) = true := by
        rw [show (!t.input.hasValue || decide (t.input.type = .nullopt)) = false from hcalled hsink]
        exact Bool.false_ne_true
      simp only [activate, if_pos hsink, if_neg hskip, hrun, Flow.after, hresult]
    · simp only [activate, if_neg hsink, hrun, Flow.after, hresult]
      by_cases hgo : (output.hasValue && decide (t.input.type ≠ .nullopt)) = true
      · simp only [if_pos hgo]
        cases (s.heap t.block).hand output with
        | ok ds => rfl
        | error e => rfl
      · simp only [if_neg hgo]

omit [DecidableEq ι] in
theorem after_alike {t : Task ι β} {f : Flow ι β σ ε} {u : σ} {f' : Flow ι β σ' ε} {u' : σ'}
    (h : f.Alike t.input t.producerId u f' u') :
    f'.after t (f'.obj.processAny t.input t.producerId u').1 =
      f.after t (f.obj.processAny t.input t.producerId u).1 := by
  have hhand : ∀ output, f'.hand output = f.hand output := by
    intro output
    rw [Flow.hand, Flow.hand, h.policy, h.outputType, h.nextNodes]
  rw [h.outcome]
  simp only [Flow.after, h.isSink, hhand]

end

/-! ## The workers as clients of the queues -/

/-- The end of a queue: its element type, its index, and the side. -/
abbrev QueueSide (κ : Type) := (Ty κ × Nat) × Role

/-- A call of one of the queues, and a result. -/
abbrev QueueCall (β : κ → Type) := Σ k : Ty κ × Nat, QueueOp (k.1.Val β)

abbrev QueueReply (β : κ → Type) := Σ k : Ty κ × Nat, QueueResult (k.1.Val β)

/-- The process of a queue block whose queue has answered. There is none if `push` threw. -/
def answered : QueueEnd → QueueReply β → Option (Obj β Unit ε)
  | .source, ⟨k, .popped item⟩ => some (.source k.1 .Fanout fun u => (.ok item, u))
  | .sink, ⟨k, .pushed _⟩ => some (.sink k.1 fun _ u => (.ok (), u))
  | _, _ => none

section

variable [DecidableEq κ]

/-- The call that the process of a queue block makes. A sink is not called without a value, and a
value of another type makes it throw. -/
def request (ends : ι → Option (AutoBlock κ)) (t : Task ι β) : Option (QueueSide κ × QueueCall β) :=
  (ends t.block).bind fun b =>
    match b.kind with
    | .source => some (((b.elem, b.queue), .consumer), ⟨(b.elem, b.queue), .pop⟩)
    | .sink => (anyCast b.elem t.input).map fun value =>
        (((b.elem, b.queue), .producer), ⟨(b.elem, b.queue), .push value⟩)

variable [DecidableEq ι]

/-- The rest of a turn behind the call of the queue: on a machine with nothing but the block. -/
def finish (ends : ι → Option (AutoBlock κ)) (nextNodes : ι → List (ι × Nat)) (t : Task ι β)
    (reply : QueueReply β) : Option (List (Task ι β) × List (Event ι β ε)) :=
  (ends t.block).bind fun b =>
    (answered b.kind reply).bind fun obj =>
      match activate t ⟨fun _ => ⟨obj, nextNodes t.block⟩, (), []⟩ with
      | .ok ts m => some (ts, m.log)
      | .error _ _ => none

/-- The workers. A turn of a queue block is cut in two by the call of the queue. -/
def queueClient (pipelines : List (Pipeline ι)) (ends : ι → Option (AutoBlock κ)) :
    Client (QueueSide κ) (QueueCall β) (QueueReply β) Nat (Threads ι β σ ε) where
  turn g w :=
    match pipelines[w]?, g.tasks w with
    | none, _ => none
    | some p, [] => some { g with tasks := Function.update g.tasks w (tasksOf 0 p.starts) }
    | some _, t :: rest =>
      match ends t.block with
      | none =>
        match activate t g.machine with
        | .ok ts m => some ⟨m, Function.update g.tasks w (ts ++ rest)⟩
        | .error _ _ => none
      | some b =>
        if b.kind = .sink ∧ t.skips = true then
          some { g with tasks := Function.update g.tasks w rest }
        else none
  pending g w := (g.tasks w).head?.bind (request ends)
  resume g w reply :=
    match g.tasks w with
    | [] => none
    | t :: rest =>
      (finish ends (fun x => (g.machine.heap x).nextNodes) t reply).map fun r =>
        ⟨{ g.machine with log := g.machine.log ++ r.2 }, Function.update g.tasks w (r.1 ++ rest)⟩

/-- The workers over the queues that `make_queue` builds for the type. -/
def queuesCode (β : κ → Type) (type : QueueType) :
    Implementation (QueueSide κ) (QueueCall β) (QueueReply β) Bool :=
  .family fun k => queueCode (k.1.Val β) type

end

end PipelineTools.FlowEngine
