import Mathlib.Data.List.Basic

/-!
# The queues between pipelines

`IQueue` is the interface of the queues, with one constructor for each class that `make_queue` can
build. `StdQueue` is unbounded. The two queues built on moodycamel's reader-writer queue hold at
most `capacity` elements: `try_enqueue` never allocates and refuses a value when the queue is full.
Both are first-in first-out, and each operation takes effect at once.

`push_of_hasRoom`, `push_of_full`, `pop_nil` and `pop_cons` say what the operations do in terms of
the queue's content; nothing else about the three classes is used elsewhere.
-/

set_option autoImplicit false

namespace PipelineTools.Queues

variable {α : Type}

/-- `enum class QueueType`. -/
inductive QueueType where
  | STD_QUEUE
  | BLOCKING
  | LOCK_FREE
  deriving DecidableEq

/-- `StdQueue`: a `std::queue` behind a mutex. -/
structure StdQueue (α : Type) where
  items : List α := []

/-- `moodycamel::ReaderWriterQueue` and its blocking variant, as far as `try_enqueue` and
`try_dequeue` use it. -/
structure ReaderWriterQueue (α : Type) where
  capacity : Nat
  items : List α
  fits : items.length ≤ capacity

namespace ReaderWriterQueue

/-- An empty queue for `capacity` elements. -/
def make (capacity : Nat) : ReaderWriterQueue α := ⟨capacity, [], Nat.zero_le _⟩

/-- `try_enqueue`. -/
def tryEnqueue (q : ReaderWriterQueue α) (value : α) : Bool × ReaderWriterQueue α :=
  if h : q.items.length < q.capacity then
    (true, ⟨q.capacity, q.items ++ [value], by rw [List.length_append]; exact h⟩)
  else (false, q)

/-- `try_dequeue`. -/
def tryDequeue : ReaderWriterQueue α → Option α × ReaderWriterQueue α
  | ⟨capacity, [], fits⟩ => (none, ⟨capacity, [], fits⟩)
  | ⟨capacity, value :: items, fits⟩ => (some value, ⟨capacity, items, Nat.le_of_succ_le fits⟩)

end ReaderWriterQueue

/-- `IQueue`, by the class of the object behind the pointer. -/
inductive IQueue (α : Type) where
  | stdQueue (q : StdQueue α)
  | blockingQueue (q : ReaderWriterQueue α)
  | lockFreeQueue (q : ReaderWriterQueue α)

/-- `make_queue`. The capacity is the one moodycamel's default constructor provides. -/
def makeQueue (capacity : Nat) : QueueType → IQueue α
  | .STD_QUEUE => .stdQueue {}
  | .BLOCKING => .blockingQueue (.make capacity)
  | .LOCK_FREE => .lockFreeQueue (.make capacity)

namespace IQueue

/-- The elements, oldest first. -/
def items : IQueue α → List α
  | .stdQueue q => q.items
  | .blockingQueue q => q.items
  | .lockFreeQueue q => q.items

/-- Number of elements the queue can hold; `none` when it is unbounded. -/
def capacity : IQueue α → Option Nat
  | .stdQueue _ => none
  | .blockingQueue q => some q.capacity
  | .lockFreeQueue q => some q.capacity

/-- `push(T&&)`: `true` if the value was taken. -/
def push (value : α) : IQueue α → Bool × IQueue α
  | .stdQueue q => (true, .stdQueue ⟨q.items ++ [value]⟩)
  | .blockingQueue q => ((q.tryEnqueue value).1, .blockingQueue (q.tryEnqueue value).2)
  | .lockFreeQueue q => ((q.tryEnqueue value).1, .lockFreeQueue (q.tryEnqueue value).2)

/-- `pop(T&)`: the value written to the argument, if there was one. -/
def pop : IQueue α → Option α × IQueue α
  | .stdQueue ⟨[]⟩ => (none, .stdQueue ⟨[]⟩)
  | .stdQueue ⟨value :: items⟩ => (some value, .stdQueue ⟨items⟩)
  | .blockingQueue q => (q.tryDequeue.1, .blockingQueue q.tryDequeue.2)
  | .lockFreeQueue q => (q.tryDequeue.1, .lockFreeQueue q.tryDequeue.2)

/-- The queue is unbounded or not full. -/
def HasRoom (q : IQueue α) : Prop := ∀ c, q.capacity = some c → q.items.length < c

instance (q : IQueue α) : Decidable q.HasRoom :=
  match h : q.capacity with
  | none => .isTrue (fun c hc => by rw [h] at hc; cases hc)
  | some c =>
    if hlt : q.items.length < c then
      .isTrue (fun c' hc => by rw [h] at hc; cases hc; exact hlt)
    else .isFalse (fun hroom => hlt (hroom c h))

/-! ## What the operations do to the content -/

@[simp] theorem items_makeQueue (capacity : Nat) (type : QueueType) :
    (makeQueue capacity type : IQueue α).items = [] := by
  cases type <;> rfl

/-- A queue with room takes the value at its end. -/
theorem push_of_hasRoom {q : IQueue α} (h : q.HasRoom) (value : α) :
    (q.push value).1 = true ∧ (q.push value).2.items = q.items ++ [value] ∧
      (q.push value).2.capacity = q.capacity := by
  cases q with
  | stdQueue q => exact ⟨rfl, rfl, rfl⟩
  | blockingQueue q =>
    have hlt : q.items.length < q.capacity := h q.capacity rfl
    simp [push, ReaderWriterQueue.tryEnqueue, hlt, items, capacity]
  | lockFreeQueue q =>
    have hlt : q.items.length < q.capacity := h q.capacity rfl
    simp [push, ReaderWriterQueue.tryEnqueue, hlt, items, capacity]

/-- A full queue refuses the value and stays as it is. -/
theorem push_of_full {q : IQueue α} (h : ¬ q.HasRoom) (value : α) :
    q.push value = (false, q) := by
  cases q with
  | stdQueue q => exact absurd (fun c hc => by cases hc) h
  | blockingQueue q =>
    have hfull : ¬ q.items.length < q.capacity := fun hlt =>
      h (fun c hc => by cases hc; exact hlt)
    simp [push, ReaderWriterQueue.tryEnqueue, hfull]
  | lockFreeQueue q =>
    have hfull : ¬ q.items.length < q.capacity := fun hlt =>
      h (fun c hc => by cases hc; exact hlt)
    simp [push, ReaderWriterQueue.tryEnqueue, hfull]

theorem pop_nil {q : IQueue α} (h : q.items = []) : q.pop = (none, q) := by
  cases q with
  | stdQueue q =>
    obtain ⟨items⟩ := q
    cases h
    rfl
  | blockingQueue q =>
    obtain ⟨capacity, items, fits⟩ := q
    cases h
    rfl
  | lockFreeQueue q =>
    obtain ⟨capacity, items, fits⟩ := q
    cases h
    rfl

/-- A nonempty queue hands out its oldest element. -/
theorem pop_cons {q : IQueue α} {value : α} {rest : List α} (h : q.items = value :: rest) :
    q.pop.1 = some value ∧ q.pop.2.items = rest ∧ q.pop.2.capacity = q.capacity := by
  cases q with
  | stdQueue q =>
    obtain ⟨items⟩ := q
    cases h
    exact ⟨rfl, rfl, rfl⟩
  | blockingQueue q =>
    obtain ⟨capacity, items, fits⟩ := q
    cases h
    exact ⟨rfl, rfl, rfl⟩
  | lockFreeQueue q =>
    obtain ⟨capacity, items, fits⟩ := q
    cases h
    exact ⟨rfl, rfl, rfl⟩

end IQueue

/-! ## The blocks at the two ends of a queue -/

/-- `QueueSink::process`; what `push` returns is not looked at. -/
def QueueSink.process {ε : Type} (input : α) (queue : IQueue α) : Except ε Unit × IQueue α :=
  (.ok (), (queue.push input).2)

/-- `QueueSource::process`. -/
def QueueSource.process {ε : Type} (queue : IQueue α) : Except ε (Option α) × IQueue α :=
  (.ok queue.pop.1, queue.pop.2)

end PipelineTools.Queues
