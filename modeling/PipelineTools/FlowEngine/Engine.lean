import PipelineTools.FlowEngine.Blocks
import Mathlib.Logic.Function.Basic

/-!
# The flow engine

A `Flow` is a block together with the ordered list of its consumers and the producer id it has at
each of them. Blocks live in a heap, indexed by their addresses `ι`; a graph may share blocks and
may even contain cycles, so `execute` takes a bound on the depth of the recursion between
`execute` and `produce`.

The machine state holds the heap, the user state that the user's `process` functions transform,
and a log of their calls in the order they happen. Each entry of the log carries the recursion
depth of the activation that made the call, so the log describes the tree of activations: the
calls that an activation at depth `d` causes downstream are the entries of depth greater than `d`
that follow its own.
-/

set_option autoImplicit false

namespace PipelineTools.FlowEngine

variable {ι κ : Type} {β : κ → Type} {σ ε : Type}

/-- How a block spreads its output over its consumers. -/
inductive ProductionPolicy where
  | Fanout
  | RoundRobin
  deriving DecidableEq

/-- The blocks: the four kinds of the framework, and any other class derived from `Flow` that
overrides `process_any` only. An aggregator carries its own mutable members. -/
inductive Obj (β : κ → Type) (σ ε : Type) where
  | source (out : Ty κ) (policy : ProductionPolicy) (process : Process σ ε (out.Val β))
  | module (inp out : Ty κ) (policy : ProductionPolicy)
      (process : inp.Val β → Process σ ε (out.Val β))
  | aggregator (inp out : Ty κ) (toOut : inp.Val β → out.Val β) (toIn : out.Val β → inp.Val β)
      (process : List (inp.Val β) → Process σ ε (out.Val β)) (self : Aggregator (out.Val β))
  | sink (inp : Ty κ) (process : inp.Val β → σ → Except ε Unit × σ)
  | other (policy : ProductionPolicy)
      (processAny : Any β → Nat → σ → Except ε (Any β) × σ)

namespace Obj

/-- The policy a block was constructed with. -/
def policy : Obj β σ ε → ProductionPolicy
  | .source _ p _ => p
  | .module _ _ p _ => p
  | .aggregator .. => .Fanout
  | .sink .. => .Fanout
  | .other p _ => p

/-- The member type `input_type`; `none` is `void`. -/
def inputType : Obj β σ ε → Option (Ty κ)
  | .module inp .. => some inp
  | .aggregator inp .. => some inp
  | .sink inp _ => some inp
  | _ => none

/-- The member type `output_type`; `none` is `void`. -/
def outputType : Obj β σ ε → Option (Ty κ)
  | .source out .. => some out
  | .module _ out .. => some out
  | .aggregator _ out .. => some out
  | _ => none

/-- The concept `SourceLike`. -/
def isSource : Obj β σ ε → Bool
  | .source .. => true
  | _ => false

/-- The concept `NodeLike`: modules and aggregators. -/
def isNode : Obj β σ ε → Bool
  | .module .. => true
  | .aggregator .. => true
  | _ => false

/-- The concept `SinkLike`. -/
def isSink : Obj β σ ε → Bool
  | .sink .. => true
  | _ => false

/-- `Flow::register_producer`, overridden by the aggregator. -/
def registerProducer : Obj β σ ε → Nat × Obj β σ ε
  | .aggregator inp out toOut toIn process self =>
      (self.registerProducer.1, .aggregator inp out toOut toIn process self.registerProducer.2)
  | obj => (0, obj)

/-- How a call of `process_any` on a block of another class ended. -/
def retOfAny : Any β → Ret β ε
  | .empty => .void
  | .nullopt => .absent
  | .bitReference bit => .value (.bitReference bit)
  | .val t v => .value (.val t v)

/-- The virtual call `process_any(in, producer_id)`. -/
def processAny [DecidableEq κ] (a : Any β) (producerId : Nat) (u : σ) :
    Obj β σ ε → Outcome β ε × Obj β σ ε × σ
  | .source out p process =>
      let r := Source.processAny out process u
      (r.1, .source out p process, r.2)
  | .module inp out p process =>
      let r := Module.processAny inp out process a u
      (r.1, .module inp out p process, r.2)
  | .aggregator inp out toOut toIn process self =>
      let r := Aggregator.processAny inp out toOut toIn process self a producerId u
      (r.1, .aggregator inp out toOut toIn process r.2.1, r.2.2)
  | .sink inp process =>
      let r := Sink.processAny inp process a u
      (r.1, .sink inp process, r.2)
  | .other p processAny =>
      match processAny a producerId u with
      | (.ok b, u) => (⟨some ⟨[a], retOfAny b⟩, .ok b⟩, .other p processAny, u)
      | (.error e, u) =>
        (⟨some ⟨[a], .threw e⟩, .error (.threw (.user e))⟩, .other p processAny, u)

end Obj

/-- A block with its consumers: `next_nodes` pairs each with the producer id it gave out. -/
structure Flow (ι : Type) {κ : Type} (β : κ → Type) (σ ε : Type) where
  obj : Obj β σ ε
  nextNodes : List (ι × Nat) := []

/-- All blocks, by address. -/
abbrev Heap (ι : Type) {κ : Type} (β : κ → Type) (σ ε : Type) := ι → Flow ι β σ ε

/-- A call of a user's `process`, with the block and the depth of the activation. -/
structure Event (ι : Type) {κ : Type} (β : κ → Type) (ε : Type) where
  depth : Nat
  block : ι
  call : Call β ε

/-- The state the engine runs on. -/
structure Machine (ι : Type) {κ : Type} (β : κ → Type) (σ ε : Type) where
  heap : Heap ι β σ ε
  user : σ
  log : List (Event ι β ε) := []

/-- Computations of the engine. -/
abbrev Eng (ι : Type) {κ : Type} (β : κ → Type) (σ ε : Type) :=
  EStateM (Stop κ ε) (Machine ι β σ ε)

/-- `a - b` in `size_t`, which wraps around below zero. -/
def sizeSub (a b : Nat) : Nat := if b ≤ a then a - b else a + 2 ^ 64 - b

section Execution

variable [DecidableEq ι] [DecidableEq κ]

/-- Call `process_any` of the block at `i` and log the call of the user's function. -/
def processAny (depth : Nat) (i : ι) (a : Any β) (producerId : Nat) : Eng ι β σ ε (Any β) :=
  fun s =>
    let r := (s.heap i).obj.processAny a producerId s.user
    let s' : Machine ι β σ ε :=
      { heap := Function.update s.heap i { s.heap i with obj := r.2.1 }
        user := r.2.2
        log := s.log ++ (r.1.call.map fun c => ⟨depth, i, c⟩).toList }
    match r.1.result with
    | .ok b => .ok b s'
    | .error e => .error e s'

/-- The loop of `Flow::produce` over the consumers `i`, `i + 1`, …, with `left` turns to go. -/
def fanoutLoop (exec : ι → Any β → Nat → Eng ι β σ ε Unit) (nextNodes : List (ι × Nat))
    (output : Any β) : Nat → Nat → Eng ι β σ ε Unit
  | 0, _ => pure ()
  | left + 1, i =>
    match nextNodes[i]? with
    | none => throw (.undefined .nextNodes)
    | some (next, id) => do
      exec next output id
      fanoutLoop exec nextNodes output left (i + 1)

/-- The loop of `round_robin_produce`. -/
def roundRobinLoop (exec : ι → Any β → Nat → Eng ι β σ ε Unit) (nextNodes : List (ι × Nat))
    (t : Ty κ) (outputs : List (t.Val β)) : Nat → Nat → Eng ι β σ ε Unit
  | 0, _ => pure ()
  | left + 1, i =>
    match nextNodes[i]? with
    | none => throw (.undefined .nextNodes)
    | some (next, id) =>
      match outputs[i]? with
      | none => throw (.threw .outOfRange)
      | some v => do
        exec next (.element t v) id
        roundRobinLoop exec nextNodes t outputs left (i + 1)

/-- `round_robin_produce`, which only producers of vectors override. -/
def roundRobinProduce (exec : ι → Any β → Nat → Eng ι β σ ε Unit) (f : Flow ι β σ ε)
    (output : Any β) : Eng ι β σ ε Unit :=
  match f.obj.outputType with
  | some (.vector t) =>
    match anyCastWithInfo ε (.vector t) output with
    | .error e => throw e
    | .ok outputs =>
      roundRobinLoop exec f.nextNodes t outputs (min (List.length outputs) f.nextNodes.length) 0
  | _ => throw (.threw (.runtimeError "Round Robin not implemented for this flow object."))

/-- `Flow::produce`. The loop bound is computed in `size_t`; the last consumer is looked up with
`at`, which throws when it is out of range. -/
def Flow.produce (exec : ι → Any β → Nat → Eng ι β σ ε Unit) (f : Flow ι β σ ε)
    (output : Any β) : Eng ι β σ ε Unit :=
  match f.obj.policy with
  | .RoundRobin => roundRobinProduce exec f output
  | .Fanout => do
    fanoutLoop exec f.nextNodes output (sizeSub f.nextNodes.length 1) 0
    match f.nextNodes[sizeSub f.nextNodes.length 1]? with
    | none => throw (.threw .outOfRange)
    | some (last, id) => exec last output id

/-- `execute(in, producer_id)` on the block at `i`: `Sink::execute` for sinks, `Flow::execute` for
all others. -/
def execute : Nat → Nat → ι → Any β → Nat → Eng ι β σ ε Unit
  | 0, _, _, _, _ => throw .outOfFuel
  | fuel + 1, depth, i, a, producerId => do
    let f := (← get).heap i
    if f.obj.isSink then
      if !a.hasValue || a.type = .nullopt then
        pure ()
      else do
        let _ ← processAny depth i a producerId
        pure ()
    else do
      let output ← processAny depth i a producerId
      if output.hasValue && a.type ≠ .nullopt then
        f.produce (execute fuel (depth + 1)) output
      else
        pure ()

end Execution

end PipelineTools.FlowEngine
