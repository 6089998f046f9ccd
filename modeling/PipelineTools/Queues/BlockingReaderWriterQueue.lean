import PipelineTools.Queues.Moodycamel
import PipelineTools.Queues.LightweightSemaphore

/-!
# The blocking reader-writer queue

`BlockingReaderWriterQueue` is a reader-writer queue next to a semaphore that counts its elements.
The producer signals after each element, and the consumer takes an element only after it has
acquired the semaphore, so that it can sleep until there is one. `peek` goes to the inner queue
without the semaphore.

The threads make the steps of the inner queue and those of the semaphore, in any order. An assertion
that does not hold ends in `failed`; among them are those that an element is there once the
semaphore was acquired.
-/

set_option autoImplicit false

namespace PipelineTools.Queues.Moodycamel.Blocking

open PipelineTools.Library

variable {α : Type}

/-- The functions of the consumer. -/
inductive DequeueOp where
  | tryDequeue
  | waitDequeue
  | waitDequeueTimed (timeoutUsecs : Int)
  | pop
  | peek
  deriving DecidableEq

namespace DequeueOp

/-- What is called of the inner queue. -/
def inner : DequeueOp → Moodycamel.DequeueOp
  | .tryDequeue | .waitDequeue | .waitDequeueTimed _ => .tryDequeue
  | .pop => .pop
  | .peek => .peek

/-- What `wait` is called with; `tryWait` is called if there is no timeout. -/
def timeoutUsecs? : DequeueOp → Option Int
  | .waitDequeue => some (-1)
  | .waitDequeueTimed timeoutUsecs => some timeoutUsecs
  | .tryDequeue | .pop | .peek => none

/-- What is returned, with the front element. -/
def result : DequeueOp → Option α → Result α
  | .tryDequeue, front | .waitDequeue, front | .waitDequeueTimed _, front => .dequeued front
  | .pop, front => .popped front.isSome
  | .peek, front => .peeked front

end DequeueOp

/-- What can be called. -/
inductive Op (α : Type) where
  | enqueue (mode : AllocationMode) (element : α)
  | dequeue (op : DequeueOp)

/-- The producer thread: in the inner queue, or in `signal`. -/
inductive Producer where
  | idle
  | inner
  | signal (pc : SignalPc)
  | returning (success : Bool)
  | failed

/-- The consumer thread: in the semaphore, or in the inner queue. -/
inductive Consumer (α : Type) where
  | idle
  | waiting (op : DequeueOp) (pc : WaitPc)
  | inner (op : DequeueOp)
  | returning (op : DequeueOp) (front : Option α)
  | failed

/-- `class BlockingReaderWriterQueue` with its two threads. -/
structure State (α : Type) where
  inner : Moodycamel.State α
  sema : LightweightSemaphore
  producer : Producer
  consumer : Consumer α

/-- What may happen next; `wakes` tells what happens to a thread that sleeps in the kernel. -/
inductive Action (α : Type) where
  | callEnqueue (mode : AllocationMode) (element : α)
  | stepEnqueue (malloc : Bool)
  | returnEnqueue
  | callDequeue (op : DequeueOp)
  | stepDequeue (wakes : Bool)
  | returnDequeue

namespace State

/-- One step of `try_enqueue` or `enqueue`. -/
def enqueue (maxBlockSize : Nat) (malloc : Bool) (s : State α) : Option (State α) :=
  match s.producer with
  | .inner =>
      match s.inner.producer with
      | .returning success =>
          (s.inner.step maxBlockSize .returnEnqueue).map fun inner =>
            { s with
              inner := inner
              producer := if success then .signal .fetchAdd else .returning false }
      | .failed => some { s with producer := .failed }
      | _ =>
          (s.inner.step maxBlockSize (.stepEnqueue malloc)).map fun inner =>
            { s with inner := inner }
  | .signal pc =>
      match s.sema.signal pc with
      | (sema, .goesOn pc) => some { s with sema := sema, producer := .signal pc }
      | (sema, .returns _) => some { s with sema := sema, producer := .returning true }
      | (sema, .fails) => some { s with sema := sema, producer := .failed }
  | _ => none

/-- One step of a function of the consumer. -/
def dequeue (maxBlockSize : Nat) (wakes : Bool) (s : State α) : Option (State α) :=
  match s.consumer with
  | .waiting op pc =>
      match s.sema.acquire op.timeoutUsecs? wakes pc with
      | some (sema, .goesOn pc) => some { s with sema := sema, consumer := .waiting op pc }
      | some (sema, .returns true) =>
          (s.inner.step maxBlockSize (.callDequeue op.inner)).map fun inner =>
            { s with inner := inner, sema := sema, consumer := .inner op }
      | some (sema, .returns false) =>
          -- `wait_dequeue` waits again
          if op = .waitDequeue then
            some { s with sema := sema, consumer := .waiting op (.tryWait .load) }
          else some { s with sema := sema, consumer := .returning op none }
      | some (sema, .fails) => some { s with sema := sema, consumer := .failed }
      | none => none
  | .inner op =>
      match s.inner.consumer with
      | .returning _ front =>
          (s.inner.step maxBlockSize .returnDequeue).map fun inner =>
            { s with
              inner := inner
              consumer := if op ≠ .peek ∧ front.isNone then .failed else .returning op front }
      | .failed => some { s with consumer := .failed }
      | _ =>
          (s.inner.step maxBlockSize .stepDequeue).map fun inner => { s with inner := inner }
  | _ => none

/-- One step of one of the two threads, if it is there. -/
def step (maxBlockSize : Nat) (s : State α) : Action α → Option (State α)
  | .callEnqueue mode element =>
      match s.producer with
      | .idle =>
          (s.inner.step maxBlockSize (.callEnqueue mode element)).map fun inner =>
            { s with inner := inner, producer := .inner }
      | _ => none
  | .stepEnqueue malloc => s.enqueue maxBlockSize malloc
  | .returnEnqueue =>
      match s.producer with
      | .returning _ => some { s with producer := .idle }
      | _ => none
  | .callDequeue op =>
      match s.consumer with
      | .idle =>
          if op = .peek then
            (s.inner.step maxBlockSize (.callDequeue .peek)).map fun inner =>
              { s with inner := inner, consumer := .inner .peek }
          else some { s with consumer := .waiting op (.tryWait .load) }
      | _ => none
  | .stepDequeue wakes => s.dequeue maxBlockSize wakes
  | .returnDequeue =>
      match s.consumer with
      | .returning _ _ => some { s with consumer := .idle }
      | _ => none

/-- What can be seen of a step. -/
def events (s : State α) : Action α → List (Event Role (Op α) (Result α))
  | .callEnqueue mode element => [.call .producer (.enqueue mode element)]
  | .returnEnqueue =>
      match s.producer with
      | .returning success => [.ret .producer (.enqueued success)]
      | _ => []
  | .callDequeue op => [.call .consumer (.dequeue op)]
  | .returnDequeue =>
      match s.consumer with
      | .returning op front => [.ret .consumer (op.result front)]
      | _ => []
  | _ => []

end State

end PipelineTools.Queues.Moodycamel.Blocking
