import PipelineTools.Queues.IQueue
import PipelineTools.Library.Runs
import Mathlib.Data.List.Perm.Basic

/-!
# Transfer of values between two pipelines

One pipeline's `QueueSink` and another pipeline's `QueueSource` share a queue. Each call of the
sink's `process` makes one push and each call of the source's `process` one pop, so the runs of the
two pipelines interleave at this granularity. `Transfer` records, next to the queue, which values
were handed to the sink, which were popped, and which calls of the sink reported a failure.

A value that finds the queue full is dropped without a report. `conserved_iff` says that this is
the only way to lose one: no value is lost in any state of a run exactly when every call of the
sink finds room in the queue.
-/

set_option autoImplicit false

namespace PipelineTools.Queues

open PipelineTools.Library

variable {α : Type}

/-- The steps of the two pipelines. -/
inductive TransferOp (α : Type) where
  | sink (input : α)
  | source

/-- The shared queue and what has happened at its ends. -/
structure Transfer (α : Type) where
  queue : IQueue α
  handed : List α
  popped : List α
  reported : List α

namespace Transfer

/-- The queue as `make_queue` builds it. -/
def start (capacity : Nat) (type : QueueType) : Transfer α := ⟨makeQueue capacity type, [], [], []⟩

/-- One step. A call of the sink that fails would report its value as not delivered. -/
def step (s : Transfer α) : TransferOp α → Transfer α
  | .sink input =>
      let r : Except Empty Unit × IQueue α := QueueSink.process input s.queue
      { queue := r.2
        handed := s.handed ++ [input]
        popped := s.popped
        reported := s.reported ++ match r.1 with
          | .ok () => []
          | .error _ => [input] }
  | .source =>
      let r : Except Empty (Option α) × IQueue α := QueueSource.process s.queue
      { s with
        queue := r.2
        popped := s.popped ++ match r.1 with
          | .ok (some value) => [value]
          | _ => [] }

/-- Every value handed to the sink was popped once, is in the queue, or was reported. -/
def Conserved (s : Transfer α) : Prop :=
  s.handed.Perm (s.popped ++ s.queue.items ++ s.reported)

/-- A call of the sink finds room in the queue. -/
def FindsRoom (s : Transfer α) : TransferOp α → Prop
  | .sink _ => s.queue.HasRoom
  | .source => True

theorem conserved_start (capacity : Nat) (type : QueueType) :
    (start capacity type : Transfer α).Conserved := by
  simp [Conserved, start]

/-- The source moves the oldest element of the queue, if there is one, to the popped values. -/
theorem popped_append_items_source (s : Transfer α) :
    (s.step .source).popped ++ (s.step .source).queue.items = s.popped ++ s.queue.items := by
  cases hitems : s.queue.items with
  | nil =>
    have hpop := IQueue.pop_nil hitems
    simp [step, QueueSource.process, hpop, hitems]
  | cons value rest =>
    obtain ⟨hvalue, hrest, -⟩ := IQueue.pop_cons hitems
    simp [step, QueueSource.process, hvalue, hrest]

theorem conserved_source {s : Transfer α} (h : s.Conserved) : (s.step .source).Conserved := by
  have hsame : (s.step .source).popped ++ (s.step .source).queue.items ++
      (s.step .source).reported = s.popped ++ s.queue.items ++ s.reported := by
    rw [popped_append_items_source]
    rfl
  rw [Conserved]
  rw [hsame]
  exact h

theorem conserved_sink {s : Transfer α} (h : s.Conserved) {input : α} (hroom : s.queue.HasRoom) :
    (s.step (.sink input)).Conserved := by
  obtain ⟨-, hitems, -⟩ := IQueue.push_of_hasRoom hroom input
  have hmove : (s.handed ++ [input]).Perm (s.popped ++ (s.queue.items ++ [input]) ++ s.reported) :=
    calc (s.handed ++ [input]).Perm (s.popped ++ s.queue.items ++ s.reported ++ [input]) :=
          h.append_right _
      _ = s.popped ++ s.queue.items ++ (s.reported ++ [input]) := List.append_assoc _ _ _
      List.Perm _ (s.popped ++ s.queue.items ++ ([input] ++ s.reported)) :=
          List.perm_append_comm.append_left _
      _ = s.popped ++ (s.queue.items ++ [input]) ++ s.reported := by simp
  simpa [Conserved, step, QueueSink.process, hitems] using hmove

/-- A value that finds the queue full is lost. -/
theorem not_conserved_sink {s : Transfer α} (h : s.Conserved) {input : α}
    (hfull : ¬ s.queue.HasRoom) : ¬ (s.step (.sink input)).Conserved := by
  intro hnext
  have hbefore := h.length_eq
  have hafter := hnext.length_eq
  simp [step, QueueSink.process, IQueue.push_of_full hfull] at hafter
  simp at hbefore
  omega

theorem conserved_step_iff {s : Transfer α} (h : s.Conserved) (op : TransferOp α) :
    (s.step op).Conserved ↔ s.FindsRoom op := by
  cases op with
  | source => exact ⟨fun _ => trivial, fun _ => conserved_source h⟩
  | sink input =>
    constructor
    · intro hnext
      by_contra hfull
      exact not_conserved_sink h hfull hnext
    · exact conserved_sink h

/-- No value is lost in any state of a run from a fresh queue exactly when every call of the sink
finds room. -/
theorem conserved_iff (capacity : Nat) (type : QueueType) (ops : List (TransferOp α)) :
    InEveryState step Conserved (start capacity type) ops ↔
      AtEach step FindsRoom (start capacity type) ops := by
  apply inEveryState_iff_atEach
  · intro s op h
    exact conserved_step_iff h op
  · exact conserved_start capacity type

/-- Sixteen values in a row for a lock-free queue that holds fifteen. -/
theorem sixteenth_value_lost :
    ¬ InEveryState step Conserved (start 15 .LOCK_FREE)
      ((List.range 16).map TransferOp.sink) := by
  intro h
  have hlost := h ((List.range 16).map TransferOp.sink) [] (List.append_nil _).symm
  have hlen := hlost.length_eq
  revert hlen
  decide

end Transfer

end PipelineTools.Queues
