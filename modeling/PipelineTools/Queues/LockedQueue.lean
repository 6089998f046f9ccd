import PipelineTools.Library.LockedObject
import PipelineTools.Queues.QueueCalls

/-!
# The queue behind a mutex

`push` and `pop` of `StdQueue`, access by access: `pop` looks whether the `std::queue` is empty,
moves the front element out, and removes what is left of it. Any number of threads may call them.
The mutex makes each of them one step, so that a `StdQueue` is the queue of `IQueue` for all its
callers (`stdQueue_linearizable`).
-/

set_option autoImplicit false

namespace PipelineTools.Queues.StdQueue

open PipelineTools.Library

universe u

variable {α : Type}

/-- Where a thread stands while it holds the mutex. -/
inductive Pc (α : Type) where
  | push (value : α)
  | empty
  | front
  | pop (item : α)

/-- The functions under their `lock_guard`. An element of `queue_` that has been moved from is
`none`. -/
def code : CriticalSection (QueueOp α) (QueueResult α) (List (Option α)) (Pc α) Bool where
  enter
    | .push value => .push value
    | .pop => .empty
  next memory pc queue_ :=
    match pc with
    | .push value =>
        if memory then (queue_ ++ [some value], .inr (.pushed true)) else (queue_, .inr .badAlloc)
    | .empty => if queue_.isEmpty then (queue_, .inr (.popped none)) else (queue_, .inl .front)
    | .front =>
        match queue_ with
        | some item :: rest => (none :: rest, .inl (.pop item))
        | _ => (queue_, .inr .undefined)
    | .pop item => (queue_.tail, .inr (.popped (some item)))

/-- Between the calls all elements are there. -/
def Shows (queue_ : List (Option α)) (q : IQueue α) : Prop :=
  queue_ = q.items.map some ∧ q.capacity = none

theorem does_push {x : α} {queue_ queue_' : List (Option α)} {q : IQueue α} {result : QueueResult α}
    (hq : Shows queue_ q) (h : code.Completes (.push x) queue_ result queue_') :
    ∃ q', QueueDoes (.push x) q result q' ∧ Shows queue_' q' := by
  obtain ⟨hitems, hcapacity⟩ := hq
  cases h with
  | @last memory _ _ _ _ hnext =>
    cases memory with
    | true =>
      obtain ⟨rfl, hresult⟩ := Prod.mk.inj hnext
      obtain rfl := Sum.inr.inj hresult
      have hroom : q.HasRoom := by
        intro c hc
        rw [hcapacity] at hc
        cases hc
      obtain ⟨hpush, hcontent, hsame⟩ := IQueue.push_of_hasRoom hroom x
      refine ⟨_, hpush ▸ .push x q, ?_, hsame.trans hcapacity⟩
      rw [hcontent, hitems, List.map_append]
      rfl
    | false =>
      obtain ⟨rfl, hresult⟩ := Prod.mk.inj hnext
      obtain rfl := Sum.inr.inj hresult
      exact ⟨q, .throws x q, hitems, hcapacity⟩
  | @more memory _ _ _ _ _ _ hnext hrest =>
    cases memory with
    | true => cases (Prod.mk.inj hnext).2
    | false => cases (Prod.mk.inj hnext).2

/-- The critical section of `pop` on a queue with elements. -/
theorem ends_front {x : α} {rest queue_' : List (Option α)} {result : QueueResult α}
    (h : (code (α := α)).Ends .front (some x :: rest) result queue_') :
    result = .popped (some x) ∧ queue_' = rest := by
  cases h with
  | last hnext => cases (Prod.mk.inj hnext).2
  | more hnext hrest =>
    obtain ⟨rfl, hpc⟩ := Prod.mk.inj hnext
    obtain rfl := Sum.inl.inj hpc
    cases hrest with
    | last hnext' =>
      obtain ⟨rfl, hresult⟩ := Prod.mk.inj hnext'
      exact ⟨(Sum.inr.inj hresult).symm, rfl⟩
    | more hnext' _ => cases (Prod.mk.inj hnext').2

theorem does_pop {queue_ queue_' : List (Option α)} {q : IQueue α} {result : QueueResult α}
    (hq : Shows queue_ q) (h : code.Completes .pop queue_ result queue_') :
    ∃ q', QueueDoes .pop q result q' ∧ Shows queue_' q' := by
  obtain ⟨rfl, hcapacity⟩ := hq
  have hdoes := QueueDoes.pop q
  cases hitems : q.items with
  | nil =>
    rw [IQueue.pop_nil hitems] at hdoes
    rw [hitems] at h
    cases h with
    | last hnext =>
      obtain ⟨rfl, hresult⟩ := Prod.mk.inj hnext
      obtain rfl := Sum.inr.inj hresult
      exact ⟨q, hdoes, by rw [hitems], hcapacity⟩
    | more hnext _ => cases (Prod.mk.inj hnext).2
  | cons x rest =>
    obtain ⟨hpop, hcontent, hsame⟩ := IQueue.pop_cons hitems
    rw [hpop] at hdoes
    rw [hitems, List.map_cons] at h
    cases h with
    | last hnext => cases (Prod.mk.inj hnext).2
    | more hnext hrest =>
      obtain ⟨rfl, hpc⟩ := Prod.mk.inj hnext
      obtain rfl := Sum.inl.inj hpc
      obtain ⟨rfl, rfl⟩ := ends_front hrest
      exact ⟨_, hdoes, by rw [hcontent], hsame.trans hcapacity⟩

theorem does_completes {op : QueueOp α} {queue_ queue_' : List (Option α)} {q : IQueue α}
    {result : QueueResult α} (hq : Shows queue_ q) (h : code.Completes op queue_ result queue_') :
    ∃ q', QueueDoes op q result q' ∧ Shows queue_' q' := by
  cases op with
  | push x => exact does_push hq h
  | pop => exact does_pop hq h

/-- For any number of threads: every interleaving of their calls of `push` and `pop`, access by
access, has the results of a queue of `IQueue` that is used by one thread at a time. -/
theorem stdQueue_linearizable {T : Type u} [DecidableEq T] (capacity : Nat)
    {ls : List (LockedStep T (QueueOp α) Bool)}
    {c : LockedObject T (QueueOp α) (QueueResult α) (List (Option α)) (Pc α)}
    {history : List (Event T (QueueOp α) (QueueResult α))}
    (hrun : runFrom (withHistory (LockedObject.step code) LockedObject.events) (.start [], []) ls =
      some (c, history)) : Linearizable QueueDoes (makeQueue capacity .STD_QUEUE) history := by
  have hinit : Shows ([] : List (Option α)) (makeQueue capacity .STD_QUEUE) := by
    rw [Shows, IQueue.items_makeQueue]
    exact ⟨rfl, rfl⟩
  have hcalls : ∀ t op, .call t op ∈ history → (fun _ : QueueOp α => True) op :=
    fun t op _ => True.intro
  exact (linearizable_of_locked hrun).refine (fun _ _ _ _ _ _ => does_completes) hinit hcalls

/-- `1` and `2` push while `3` waits to pop. There is no memory for the element of `2`. -/
def crowded : List (LockedStep Nat (QueueOp Nat) Bool) :=
  [.call 1 (.push 5), .call 2 (.push 6), .lock 2, .call 3 .pop, .access 2 false, .unlock 2,
    .lock 1, .access 1 true, .unlock 1, .lock 3, .leave 2, .access 3 true, .access 3 true,
    .access 3 true, .unlock 3, .leave 1, .leave 3]

theorem stdQueue_linearizable_crowded : ∃ c history,
    runFrom (withHistory (LockedObject.step code) LockedObject.events) (.start [], []) crowded =
      some (c, history) ∧ Linearizable QueueDoes (makeQueue 0 .STD_QUEUE) history := by
  have hrun : ∃ c history, runFrom (withHistory (LockedObject.step code) LockedObject.events)
      (.start [], []) crowded = some (c, history) := ⟨_, _, rfl⟩
  obtain ⟨c, history, h⟩ := hrun
  exact ⟨c, history, h, stdQueue_linearizable 0 h⟩

end PipelineTools.Queues.StdQueue
