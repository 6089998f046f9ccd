import PipelineTools.FlowEngine.Engine

/-!
# Pipelines

`Pipeline::add` wires a block to what was added before: a source is only remembered, a module,
aggregator or sink becomes a consumer of the last node, or of all sources while there is no node.
`connect` adds an edge by hand. `Pipeline::execute` runs the sources in order, or the first node
when there is no source.

A `System` is a pipeline together with the machine its blocks live in; `System.run` performs any
sequence of calls of these three functions on it, the caller catching the exceptions.
-/

set_option autoImplicit false

namespace PipelineTools.FlowEngine

variable {ι κ : Type} {β : κ → Type} {σ ε : Type}

/-- The exceptions of `Pipeline::add`. -/
inductive AddError where
  | unorderedSources
  | unknownFlowObject
  deriving DecidableEq

/-- The members of a `Pipeline`. -/
structure Pipeline (ι : Type) where
  sources : List ι := []
  nodes : List ι := []

/-- A pipeline and the machine its blocks live in. -/
structure System (ι : Type) {κ : Type} (β : κ → Type) (σ ε : Type) where
  pipeline : Pipeline ι
  machine : Machine ι β σ ε

section Wiring

variable [DecidableEq ι]

/-- `this->add_consumer(next)`. -/
def addConsumer (h : Heap ι β σ ε) (this next : ι) : Heap ι β σ ε :=
  let r := (h next).obj.registerProducer
  let h := Function.update h next { h next with obj := r.2 }
  Function.update h this { h this with nextNodes := (h this).nextNodes ++ [(next, r.1)] }

/-- `connect(from, to)`. -/
def connect (h : Heap ι β σ ε) (source target : ι) : Heap ι β σ ε :=
  addConsumer h source target

/-- The consumer edges that `Pipeline::add` creates for a module, aggregator or sink. -/
def Pipeline.wire (p : Pipeline ι) (h : Heap ι β σ ε) (f : ι) : Heap ι β σ ε :=
  match p.nodes.getLast? with
  | some back => addConsumer h back f
  | none => p.sources.foldl (fun h src => addConsumer h src f) h

/-- `Pipeline::add`: the exception, if one is thrown, and the pipeline and heap afterwards. A source
added too late has already been pushed when the exception is thrown. -/
def Pipeline.add (p : Pipeline ι) (h : Heap ι β σ ε) (f : ι) :
    Option AddError × Pipeline ι × Heap ι β σ ε :=
  match (h f).obj with
  | .source .. =>
    let p' := { p with sources := p.sources ++ [f] }
    if p.nodes ≠ [] then (some .unorderedSources, p', h) else (none, p', h)
  | .module .. => (none, { p with nodes := p.nodes ++ [f] }, p.wire h f)
  | .aggregator .. => (none, { p with nodes := p.nodes ++ [f] }, p.wire h f)
  | .sink .. => (none, p, p.wire h f)
  | .other .. => (some .unknownFlowObject, p, h)

/-- The message of an exception of `add`, given the demangled name of the block's class. -/
def AddError.what (className : String) : AddError → String
  | .unorderedSources => "unordered_sources: Source added after module/aggregator/sink"
  | .unknownFlowObject => "unknown_flow_object: " ++ className

variable [DecidableEq κ]

/-- `Pipeline::execute`. -/
def Pipeline.execute (p : Pipeline ι) (fuel : Nat) : Eng ι β σ ε Unit :=
  if p.sources ≠ [] then
    forM p.sources fun src => FlowEngine.execute fuel 0 src .empty 0
  else
    match p.nodes with
    | front :: _ => FlowEngine.execute fuel 0 front .empty 0
    | [] => pure ()

/-- The calls a client makes on a pipeline and its blocks. -/
inductive Op (ι : Type) where
  | add (f : ι)
  | connect (source target : ι)
  | execute
  deriving DecidableEq

/-- How a call ended. -/
inductive Reply (κ ε : Type) where
  | returned
  | addThrew (e : AddError)
  | stopped (e : Stop κ ε)

/-- Perform one call. The caller catches the exceptions. -/
def System.step (fuel : Nat) (S : System ι β σ ε) : Op ι → Reply κ ε × System ι β σ ε
  | .add f =>
    match S.pipeline.add S.machine.heap f with
    | (none, p, h) => (.returned, { pipeline := p, machine := { S.machine with heap := h } })
    | (some e, p, h) => (.addThrew e, { pipeline := p, machine := { S.machine with heap := h } })
  | .connect i j =>
    (.returned, { S with machine := { S.machine with heap := connect S.machine.heap i j } })
  | .execute =>
    match S.pipeline.execute fuel S.machine with
    | .ok _ m => (.returned, { S with machine := m })
    | .error e m => (.stopped e, { S with machine := m })

/-- Perform a sequence of calls; the replies come in the order of the calls. -/
def System.run (fuel : Nat) : List (Op ι) → System ι β σ ε → List (Reply κ ε) × System ι β σ ε
  | [], S => ([], S)
  | op :: ops, S =>
    let r := S.step fuel op
    let rest := System.run fuel ops r.2
    (r.1 :: rest.1, rest.2)

/-- No call of `add` threw. -/
def Accepted (replies : List (Reply κ ε)) : Prop :=
  ∀ e, Reply.addThrew e ∉ replies

end Wiring

/-- The system before the first call: an empty pipeline over freshly constructed blocks. -/
def System.init (obj : ι → Obj β σ ε) (u : σ) : System ι β σ ε :=
  { pipeline := {}, machine := { heap := fun i => { obj := obj i }, user := u } }

/-- The edges of the graph. -/
def Edge (h : Heap ι β σ ε) (i j : ι) : Prop :=
  ∃ id, (j, id) ∈ (h i).nextNodes

end PipelineTools.FlowEngine
