import PipelineTools.FlowEngine.Pipeline
import PipelineTools.Library.TraceLogic
import PipelineTools.Queues.IQueue

/-!
# Missions

A `Mission` collects pipelines. `Mission.add` builds one from tuples of sources, nodes and sinks; a
missing source or sink end is replaced by a `QueueSource` or `QueueSink` on a queue of the mission.
`getOrCreateQueue` decides which queue that is: the last one, if its flag `used` is not set yet, or
a new one. Its element type is deduced from the first input type or the last output type of the
blocks given.

The blocks made on the way live next to the caller's own blocks, at addresses of their own
(`Addr`). Their processes work on the queues, which are part of the state the processes share.
`add` may throw in the middle; what it has done by then stays done.
-/

set_option autoImplicit false

namespace PipelineTools.FlowEngine

open PipelineTools.Library PipelineTools.Queues

variable {ι κ : Type} {β : κ → Type} {σ ε : Type}

/-- Addresses of blocks: those of the caller, and those made by auto-connection, in the order they
were made. -/
inductive Addr (ι : Type) where
  | given (i : ι)
  | auto (n : Nat)
  deriving DecidableEq

/-- The two kinds of queue blocks. -/
inductive QueueEnd where
  | source
  | sink
  deriving DecidableEq

/-- A queue block made by auto-connection: its kind, its element type, its queue. -/
structure AutoBlock (κ : Type) where
  kind : QueueEnd
  elem : Ty κ
  queue : Nat

/-- `Mission::QueueWrapper`; the element type stands for the type of the wrapped pointer. -/
structure QueueWrapper (κ : Type) where
  elem : Ty κ
  used : Bool := false

/-- The members of a `Mission`, and the queue blocks it has made. -/
structure Mission (ι κ : Type) where
  queueType : QueueType := .LOCK_FREE
  pipelines : List (Pipeline (Addr ι)) := []
  queues : List (QueueWrapper κ) := []
  made : List (AutoBlock κ) := []

/-- The state shared by all processes: that of the user's blocks, and the queues by element type
and index. -/
structure Shared (β : κ → Type) (σ : Type) where
  user : σ
  queues : (t : Ty κ) → Nat → IQueue (t.Val β)

/-- A mission and the heap of its blocks. -/
structure MissionState (ι : Type) {κ : Type} (β : κ → Type) (σ ε : Type) where
  mission : Mission ι κ
  heap : Heap (Addr ι) β (Shared β σ) ε

/-- What `Mission::add` can throw. The compiler rejects a call whose queue type is `void`. -/
inductive MissionExn (κ : Type) where
  | rejected
  | addThrew (e : AddError)
  | badAnyCastWithInfo (source target : Ty κ)
  deriving DecidableEq

/-- Computations that build a mission. -/
abbrev Build (ι : Type) {κ : Type} (β : κ → Type) (σ ε α : Type) :=
  EStateM (MissionExn κ) (MissionState ι β σ ε) α

/-- The arguments of one call of `Mission::add`. -/
structure AddArgs (ι : Type) where
  sources : List ι
  nodes : List ι
  sinks : List ι

/-- The two kinds of queue blocks, as objects on the queue `q` of element type `t`. -/
def queueBlock [DecidableEq κ] (t : Ty κ) (q : Nat) : QueueEnd → Obj β (Shared β σ) ε
  | .source => .source t .Fanout fun u =>
      let r := QueueSource.process (u.queues t q)
      (r.1, { u with queues := Function.update u.queues t (Function.update (u.queues t) q r.2) })
  | .sink => .sink t fun input u =>
      let r := QueueSink.process input (u.queues t q)
      (r.1, { u with queues := Function.update u.queues t (Function.update (u.queues t) q r.2) })

namespace Mission

/-- `Mission::apply_flows_to_pipeline`. -/
def applyFlows [DecidableEq ι] (p : Pipeline (Addr ι)) :
    List (Addr ι) → Build ι β σ ε (Pipeline (Addr ι))
  | [] => pure p
  | f :: fs => fun S =>
    match p.add S.heap f with
    | (none, p, h) => applyFlows p fs { S with heap := h }
    | (some e, _, h) => .error (.addThrew e) { S with heap := h }

/-- The queue is entered into the mission, not used by a second block yet. -/
def createQueue (t : Ty κ) : Build ι β σ ε Nat := fun S =>
  .ok S.mission.queues.length
    { S with mission := { S.mission with queues := S.mission.queues ++ [{ elem := t }] } }

variable [DecidableEq ι] [DecidableEq κ]

/-- `Mission::get_or_create_queue`. -/
def getOrCreateQueue (t : Ty κ) : Build ι β σ ε Nat := fun S =>
  match S.mission.queues.getLast? with
  | none => createQueue t S
  | some back =>
    if back.used then createQueue t S
    else
      let S' := { S with mission := { S.mission with
        queues := S.mission.queues.dropLast ++ [{ back with used := true }] } }
      if back.elem = t then .ok (S.mission.queues.length - 1) S'
      else .error (.badAnyCastWithInfo back.elem t) S'

/-- `std::make_shared` of a queue block. -/
def makeBlock (b : AutoBlock κ) : Build ι β σ ε (Addr ι) := fun S =>
  let address := .auto S.mission.made.length
  .ok address
    { mission := { S.mission with made := S.mission.made ++ [b] }
      heap := Function.update S.heap address { obj := queueBlock b.elem b.queue b.kind } }

/-- The common part of `make_queue_source` and `make_queue_sink`, for the deduced queue type. -/
def makeQueueEnd (kind : QueueEnd) : Option (Ty κ) → Build ι β σ ε (Addr ι)
  | none => throw .rejected
  | some t => do
    let q ← getOrCreateQueue t
    makeBlock ⟨kind, t, q⟩

/-- `get_input_type_from_first_flow`. -/
def inputTypeFromFirstFlow (h : Heap (Addr ι) β (Shared β σ) ε) (flows : List ι) :
    Option (Ty κ) :=
  flows.head?.bind fun i => (h (.given i)).obj.inputType

/-- `get_output_type_from_last_flow`. -/
def outputTypeFromLastFlow (h : Heap (Addr ι) β (Shared β σ) ε) (flows : List ι) :
    Option (Ty κ) :=
  flows.getLast?.bind fun i => (h (.given i)).obj.outputType

/-- `Mission::make_queue_source`. -/
def makeQueueSource (flows : List ι) : Build ι β σ ε (Addr ι) := fun S =>
  makeQueueEnd .source (inputTypeFromFirstFlow S.heap flows) S

/-- `Mission::make_queue_sink`. -/
def makeQueueSink (flows : List ι) : Build ι β σ ε (Addr ι) := fun S =>
  makeQueueEnd .sink (outputTypeFromLastFlow S.heap flows) S

/-- The sources of a new pipeline. -/
def addSources (a : AddArgs ι) (p : Pipeline (Addr ι)) : Build ι β σ ε (Pipeline (Addr ι)) :=
  if a.sources ≠ [] then applyFlows p (a.sources.map .given)
  else do
    let src ← makeQueueSource (a.nodes ++ a.sinks)
    applyFlows p [src]

/-- The sinks of a new pipeline. -/
def addSinks (a : AddArgs ι) (p : Pipeline (Addr ι)) : Build ι β σ ε (Pipeline (Addr ι)) :=
  if a.sinks ≠ [] then applyFlows p (a.sinks.map .given)
  else do
    let snk ← makeQueueSink (a.sources ++ a.nodes)
    applyFlows p [snk]

/-- `Mission::add` of a tuple of sources, a tuple of nodes and a tuple of sinks. -/
def add (a : AddArgs ι) : Build ι β σ ε Unit := do
  let p ← addSources a {}
  let p ← applyFlows p (a.nodes.map .given)
  let p ← addSinks a p
  modify fun S => { S with mission := { S.mission with pipelines := S.mission.pipelines ++ [p] } }

/-- A `build()` that makes the calls `calls`, one after the other. -/
def build (calls : List (AddArgs ι)) : Build ι β σ ε Unit := calls.forM add

end Mission

/-- A new mission over the caller's blocks; no queue block has been made. -/
def MissionState.init (queueType : QueueType) (obj : ι → Obj β (Shared β σ) ε) :
    MissionState ι β σ ε where
  mission := { queueType := queueType }
  heap
    | .given i => { obj := obj i }
    | .auto _ => { obj := .other .Fanout fun a _ u => (.ok a, u) }

end PipelineTools.FlowEngine
