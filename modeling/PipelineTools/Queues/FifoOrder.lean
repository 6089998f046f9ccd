import PipelineTools.Queues.Linearization

/-!
# First in, first out

`accepted` and `dequeued` read off a history which elements were enqueued with success, and which
elements `try_dequeue` returned. If every operation takes effect at once the accepted elements are
those that were dequeued, in the same order, followed by those that are still in the queue
(`accepted_eq`).
-/

set_option autoImplicit false

namespace PipelineTools.Queues.Moodycamel

open PipelineTools.Library

variable {α : Type}

/-- What a history tells about the elements; `offered` is the argument of the last enqueue. -/
structure Log (α : Type) where
  accepted : List α
  offered : Option α
  dequeued : List α

/-- One more event. -/
def Log.note (g : Log α) : Event Role (Op α) (Result α) → Log α
  | .call _ (.enqueue _ x) => { g with offered := some x }
  | .ret _ (.enqueued true) => { g with accepted := g.accepted ++ g.offered.toList }
  | .ret _ (.dequeued (some x)) => { g with dequeued := g.dequeued ++ [x] }
  | _ => g

def logOf (history : List (Event Role (Op α) (Result α))) : Log α :=
  history.foldl Log.note ⟨[], none, []⟩

/-- The elements for which an enqueue returned `true`. -/
def accepted (history : List (Event Role (Op α) (Result α))) : List α := (logOf history).accepted

/-- The elements that `try_dequeue` returned. -/
def dequeued (history : List (Event Role (Op α) (Result α))) : List α := (logOf history).dequeued

/-- Every thread keeps to its operations, and the consumer does not call `pop`, which does not tell
what element it removes. -/
def Told (t : Role) (op : Op α) : Prop := op ≠ .dequeue .pop ∧ t = op.role

/-- `inn` are the elements that have entered the queue. -/
inductive ProducerLog (accepted : List α) (offered : Option α) (inn : List α) :
    CallStatus (Op α) (Result α) → Prop
  | idle (h : inn = accepted) : ProducerLog accepted offered inn .idle
  | called (mode : AllocationMode) {x : α} (hx : offered = some x) (h : inn = accepted) :
      ProducerLog accepted offered inn (.called (.enqueue mode x))
  | accepted {x : α} (hx : offered = some x) (h : inn = accepted ++ [x]) :
      ProducerLog accepted offered inn (.done (.enqueued true))
  | refused (h : inn = accepted) : ProducerLog accepted offered inn (.done (.enqueued false))

/-- `out` are the elements that have left the queue. -/
inductive ConsumerLog (dequeued out : List α) : CallStatus (Op α) (Result α) → Prop
  | idle (h : out = dequeued) : ConsumerLog dequeued out .idle
  | called {op : DequeueOp} (hop : op ≠ .pop) (h : out = dequeued) :
      ConsumerLog dequeued out (.called (.dequeue op))
  | took {x : α} (h : out = dequeued ++ [x]) :
      ConsumerLog dequeued out (.done (.dequeued (some x)))
  | nothing (h : out = dequeued) : ConsumerLog dequeued out (.done (.dequeued none))
  | looked (front : Option α) (h : out = dequeued) :
      ConsumerLog dequeued out (.done (.peeked front))

/-- What entered is what left and what is in the queue. -/
structure Balanced (g : Log α) (a : AtomicObject Role (Op α) (Result α) (List α))
    (inn out : List α) : Prop where
  split : inn = out ++ a.object
  producer : ProducerLog g.accepted g.offered inn (a.status .producer)
  consumer : ConsumerLog g.dequeued out (a.status .consumer)

variable {lim : Limits} {g : Log α} {a b : AtomicObject Role (Op α) (Result α) (List α)}
  {inn out : List α}

theorem Balanced.call (h : Balanced g a inn out) {t : Role} {op : Op α}
    (htold : Told t op) (hidle : a.status t = .idle) :
    Balanced (g.note (.call t op)) (a.set t (.called op)) inn out := by
  obtain ⟨hsplit, hproducer, hconsumer⟩ := h
  cases t with
  | producer =>
    cases op with
    | dequeue op => cases htold.2
    | enqueue mode x =>
      rw [hidle] at hproducer
      refine ⟨hsplit, ?_, ?_⟩
      · rw [AtomicObject.status_set_self]
        cases hproducer with
        | idle h => exact .called mode rfl h
      · rw [AtomicObject.status_set_of_ne _ (by decide)]
        exact hconsumer
  | consumer =>
    cases op with
    | enqueue mode x => cases htold.2
    | dequeue op =>
      rw [hidle] at hconsumer
      refine ⟨hsplit, ?_, ?_⟩
      · rw [AtomicObject.status_set_of_ne _ (by decide)]
        exact hproducer
      · rw [AtomicObject.status_set_self]
        cases hconsumer with
        | idle h => exact .called (fun hop => htold.1 (by rw [hop])) h

theorem Balanced.ret (h : Balanced g a inn out) {t : Role} {result : Result α}
    (hdone : a.status t = .done result) :
    Balanced (g.note (.ret t result)) (a.set t .idle) inn out := by
  obtain ⟨hsplit, hproducer, hconsumer⟩ := h
  cases t with
  | producer =>
    rw [hdone] at hproducer
    refine ⟨hsplit, ?_, ?_⟩
    · rw [AtomicObject.status_set_self]
      cases hproducer with
      | accepted hx h =>
        refine .idle ?_
        show inn = g.accepted ++ g.offered.toList
        rw [h, hx]
        rfl
      | refused h => exact .idle h
    · rw [AtomicObject.status_set_of_ne _ (by decide)]
      cases hproducer with
      | accepted hx h => exact hconsumer
      | refused h => exact hconsumer
  | consumer =>
    rw [hdone] at hconsumer
    refine ⟨hsplit, ?_, ?_⟩
    · rw [AtomicObject.status_set_of_ne _ (by decide)]
      cases hconsumer with
      | took h => exact hproducer
      | nothing h => exact hproducer
      | looked front h => exact hproducer
    · rw [AtomicObject.status_set_self]
      cases hconsumer with
      | took h => exact .idle h
      | nothing h => exact .idle h
      | looked front h => exact .idle h

/-- What an operation of the consumer does to the queue. -/
theorem Fifo.dequeue_cases {op : DequeueOp} {items items' : List α} {result : Result α}
    (h : Fifo lim (.dequeue op) items result items') :
    (∃ x, op ≠ .peek ∧ items = x :: items' ∧ result = op.result (some x)) ∨
      (op = .peek ∧ items' = items ∧ ∃ front, result = .peeked front) ∨
      (items' = items ∧ result = op.result none) := by
  cases h with
  | remove op notPeek => exact .inl ⟨_, notPeek, rfl, rfl⟩
  | look => exact .inr (.inl ⟨rfl, rfl, _, rfl⟩)
  | empty op => exact .inr (.inr ⟨rfl, rfl⟩)

/-- The effect of an operation moves an element into the queue, out of it, or nothing. -/
theorem Balanced.effect (h : Balanced g a inn out) {t : Role} {op : Op α} {result : Result α}
    {items : List α} (hcalled : a.status t = .called op)
    (heffect : Fifo lim op a.object result items) :
    ∃ inn out, Balanced g (({ a with object := items }).set t (.done result)) inn out := by
  obtain ⟨hsplit, hproducer, hconsumer⟩ := h
  have hother : ∀ t', t' ≠ t →
      (({ a with object := items }).set t (.done result)).status t' = a.status t' :=
    fun t' ht => AtomicObject.status_set_of_ne _ ht _
  cases t with
  | producer =>
    rw [hcalled] at hproducer
    cases hproducer with
    | @called mode x hx h =>
      cases heffect with
      | accept mode x room =>
        -- the element goes in
        refine ⟨inn ++ [x], out, ?_, ?_, ?_⟩
        · rw [hsplit, List.append_assoc]
          rfl
        · rw [AtomicObject.status_set_self]
          exact .accepted hx (by rw [h])
        · rw [hother .consumer (by decide)]
          exact hconsumer
      | refuse x full =>
        refine ⟨inn, out, hsplit, ?_, ?_⟩
        · rw [AtomicObject.status_set_self]
          exact .refused h
        · rw [hother .consumer (by decide)]
          exact hconsumer
      | noMemory x fails =>
        refine ⟨inn, out, hsplit, ?_, ?_⟩
        · rw [AtomicObject.status_set_self]
          exact .refused h
        · rw [hother .consumer (by decide)]
          exact hconsumer
  | consumer =>
    rw [hcalled] at hconsumer
    have hproducer' : ProducerLog g.accepted g.offered inn
        ((({ a with object := items }).set .consumer (.done result)).status .producer) := by
      rw [hother .producer (by decide)]
      exact hproducer
    cases hconsumer with
    | @called op hop h =>
      rcases heffect.dequeue_cases with
        ⟨x, hpeek, hitems, rfl⟩ | ⟨rfl, rfl, front, rfl⟩ | ⟨rfl, rfl⟩
      · -- an element comes out
        refine ⟨inn, out ++ [x], ?_, hproducer', ?_⟩
        · rw [hsplit, hitems, List.append_assoc]
          rfl
        · rw [AtomicObject.status_set_self]
          cases op with
          | tryDequeue => exact .took (by rw [h])
          | pop => exact absurd rfl hop
          | peek => exact absurd rfl hpeek
      · refine ⟨inn, out, hsplit, hproducer', ?_⟩
        rw [AtomicObject.status_set_self]
        exact .looked front h
      · refine ⟨inn, out, hsplit, hproducer', ?_⟩
        rw [AtomicObject.status_set_self]
        cases op with
        | tryDequeue => exact .nothing h
        | pop => exact absurd rfl hop
        | peek => exact .looked none h

/-- The balance is kept along an atomic run. -/
theorem Balanced.run (h : Balanced g a inn out) {ms : List (Moment Role (Op α) (Result α) (List α))}
    (hrun : AtomicRun (.atOnce (Fifo lim)) a ms b)
    (hcalls : ∀ t op, .call t op ∈ ms.filterMap Moment.event? → Told t op) :
    ∃ inn out, Balanced ((ms.filterMap Moment.event?).foldl Log.note g) b inn out := by
  induction hrun generalizing g inn out with
  | nil a => exact ⟨inn, out, h⟩
  | cons hstep hrun ih =>
    cases hstep with
    | @call t op hidle =>
      have hrest := fun t' op' hmem => hcalls t' op' (List.mem_cons_of_mem _ hmem)
      exact ih (h.call (hcalls t op List.mem_cons_self) hidle) hrest
    | @effect t op result items hcalled heffect =>
      obtain ⟨inn', out', h'⟩ := h.effect hcalled heffect
      exact ih h' hcalls
    | prepare hcalled hprepare => cases hprepare
    | @ret t result hdone =>
      have hrest := fun t' op' hmem => hcalls t' op' (List.mem_cons_of_mem _ hmem)
      exact ih (h.ret hdone) hrest

/-- When no call is pending the accepted elements are those that were dequeued and those that are
still in the queue, in this order. -/
theorem accepted_eq {ms : List (Moment Role (Op α) (Result α) (List α))}
    (hrun : AtomicRun (.atOnce (Fifo lim)) (.start []) ms b)
    (hcalls : ∀ t op, .call t op ∈ ms.filterMap Moment.event? → Told t op)
    (hidle : ∀ t, b.status t = .idle) :
    accepted (ms.filterMap Moment.event?) = dequeued (ms.filterMap Moment.event?) ++ b.object := by
  have hstart : Balanced (⟨[], none, []⟩ : Log α)
      (.start [] : AtomicObject Role (Op α) (Result α) (List α)) [] [] :=
    ⟨rfl, .idle rfl, .idle rfl⟩
  obtain ⟨inn, out, hsplit, hproducer, hconsumer⟩ := hstart.run hrun hcalls
  rw [hidle] at hproducer hconsumer
  cases hproducer with
  | idle hinn =>
    cases hconsumer with
    | idle hout =>
      rw [accepted, dequeued, logOf, ← hinn, ← hout]
      exact hsplit

end PipelineTools.Queues.Moodycamel
