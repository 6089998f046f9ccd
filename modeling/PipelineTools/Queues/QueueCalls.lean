import PipelineTools.Queues.IQueue

/-!
# Calls of a queue

The calls that the blocks at the two ends of a queue make, and what they do to a queue of `IQueue`
when they take effect at once.
-/

set_option autoImplicit false

namespace PipelineTools.Queues

variable {α : Type}

/-- What can be called. -/
inductive QueueOp (α : Type) where
  | push (value : α)
  | pop

/-- What is returned. `push` throws when there is no memory; `undefined` is a use of an element that
is not there or has been moved from. -/
inductive QueueResult (α : Type) where
  | pushed (success : Bool)
  | popped (item : Option α)
  | badAlloc
  | undefined

/-- What the calls do. -/
inductive QueueDoes : QueueOp α → IQueue α → QueueResult α → IQueue α → Prop
  | push (x : α) (q : IQueue α) : QueueDoes (.push x) q (.pushed (q.push x).1) (q.push x).2
  | pop (q : IQueue α) : QueueDoes .pop q (.popped q.pop.1) q.pop.2
  | throws (x : α) (q : IQueue α) : QueueDoes (.push x) q .badAlloc q

end PipelineTools.Queues
