import PipelineTools.Library.Implementations
import PipelineTools.Queues.BlockingQueue
import PipelineTools.Queues.LockedQueue

/-!
# The classes behind the interface

`queueCode` is the code of `push` and `pop` of the three classes that `make_queue` can build, for
one thread that pushes and one that pops. Whatever the class, it implements the queue of `IQueue`
(`implements_queueCode`).
-/

set_option autoImplicit false

namespace PipelineTools.Queues

open PipelineTools.Library Moodycamel

variable {α : Type}

/-! ## The queues built on moodycamel's -/

/-- What `MoodycamelQueue` calls. -/
def QueueOp.moodycamel : QueueOp α → Moodycamel.Op α
  | .push value => .enqueue .CannotAlloc value
  | .pop => .dequeue .tryDequeue

/-- What it returns. -/
inductive Returned : Moodycamel.Result α → QueueResult α → Prop
  | pushed (success : Bool) : Returned (.enqueued success) (.pushed success)
  | popped (item : Option α) : Returned (.dequeued item) (.popped item)

theorem returned_enqueued (success : Bool) (r : QueueResult α)
    (h : Returned (.enqueued success) r) : r = .pushed success := by
  cases h
  rfl

theorem returned_dequeued (front : Option α) (r : QueueResult α)
    (h : Returned (.dequeued front) r) : r = .popped front := by
  cases h
  rfl

/-- The queue around a reader-writer queue with room for fifteen elements. -/
def Wraps (wrap : ReaderWriterQueue α → IQueue α) (items : List α) (q : IQueue α) : Prop :=
  ∃ fits, q = wrap ⟨15, items, fits⟩

section Wraps

variable {wrap : ReaderWriterQueue α → IQueue α}
  (hpush : ∀ x r, (wrap r).push x = ((r.tryEnqueue x).1, wrap (r.tryEnqueue x).2))
  (hpop : ∀ r, (wrap r).pop = (r.tryDequeue.1, wrap r.tryDequeue.2))

include hpush hpop in
theorem does_of_wraps {op : QueueOp α} {items items' : List α} {result : Moodycamel.Result α}
    {q : IQueue α} (hq : Wraps wrap items q)
    (h : Moodycamel.Fifo (limitsOf α 512 15 False True) op.moodycamel items result items') :
    ∃ result' q', Returned result result' ∧ QueueDoes op q result' q' ∧ Wraps wrap items' q' := by
  obtain ⟨hmaximal, hguaranteed⟩ := limitsOf_default (α := α) True
  obtain ⟨fits, rfl⟩ := hq
  cases op with
  | push x =>
    have hdoes := QueueDoes.push x (wrap ⟨15, items, fits⟩)
    rw [hpush] at hdoes
    generalize hop : QueueOp.moodycamel (.push x) = mop at h
    cases h with
    | accept mode y room =>
      cases hop
      have hlt : items.length < 15 := hmaximal ▸ room id
      rw [ReaderWriterQueue.tryEnqueue, dif_pos hlt] at hdoes
      exact ⟨_, _, .pushed true, hdoes, _, rfl⟩
    | refuse y full =>
      cases hop
      rw [hguaranteed] at full
      rw [ReaderWriterQueue.tryEnqueue, dif_neg (Nat.not_lt.2 full)] at hdoes
      exact ⟨_, _, .pushed false, hdoes, _, rfl⟩
    | _ => cases hop
  | pop =>
    have hdoes := QueueDoes.pop (wrap ⟨15, items, fits⟩)
    rw [hpop] at hdoes
    generalize hop : QueueOp.moodycamel .pop = mop at h
    cases h with
    | remove op notPeek =>
      cases hop
      exact ⟨_, _, .popped _, hdoes, _, rfl⟩
    | empty op =>
      cases hop
      exact ⟨_, _, .popped none, hdoes, _, rfl⟩
    | _ => cases hop

theorem wraps_unique (items : List α) (q q' : IQueue α) (h : Wraps wrap items q)
    (h' : Wraps wrap items q') : q = q' := by
  obtain ⟨fits, rfl⟩ := h
  obtain ⟨fits', rfl⟩ := h'
  rfl

end Wraps

/-- One thread pushes, the other one pops. -/
def endCalls {L : Type} (push : α → L) (pop : L) : Role → QueueOp α → Option L
  | .producer, .push value => some (push value)
  | .consumer, .pop => some pop
  | _, _ => none

theorem endCalls_cases {L : Type} {push : α → L} {pop : L} {P : Role → QueueOp α → L → Prop}
    (hpush : ∀ value, P .producer (.push value) (push value)) (hpop : P .consumer .pop pop)
    {t : Role} {op : QueueOp α} {l : L} (h : endCalls push pop t op = some l) : P t op l := by
  cases t with
  | producer =>
    cases op with
    | push value =>
      obtain rfl := Option.some.inj h
      exact hpush value
    | pop => cases h
  | consumer =>
    cases op with
    | push value => cases h
    | pop =>
      obtain rfl := Option.some.inj h
      exact hpop

/-- `LockFreeQueue`, as `make_queue` builds it. -/
def lockFreeCode (α : Type) : Implementation Role (QueueOp α) (QueueResult α) Bool :=
  .ofSteps (Moodycamel.State.step 512) (.start (.make 512 15))
    (endCalls (.callEnqueue .CannotAlloc) (.callDequeue .tryDequeue))
    (fun _ t i =>
      match t with
      | .producer => some (.stepEnqueue i)
      | .consumer => some .stepDequeue)
    (fun s t =>
      match t with
      | .producer =>
          match s.producer with
          | .returning success => some (.pushed success, .returnEnqueue)
          | _ => none
      | .consumer =>
          match s.consumer with
          | .returning .tryDequeue front => some (.popped front, .returnDequeue)
          | _ => none)

theorem stepsMatched_lockFree (lim : Limits) (least maxBlockSize : Nat) :
    StepsMatched (State.step (α := α) maxBlockSize) State.events Action.role (Allowed lim)
      (.atOnce (Fifo lim)) fun s o => ∃ g, Related lim least s o g := by
  rintro s a s' o ⟨g, hrelated⟩ hallowed hstep
  obtain ⟨o', g', hobserved, hrelated'⟩ := related_step hrelated hallowed hstep
  exact ⟨o', hobserved, g', hrelated'⟩

theorem implements_lockFree :
    (lockFreeCode α).Implements QueueDoes (makeQueue 15 .LOCK_FREE) := by
  obtain ⟨least, g, hready⟩ := ready_make (α := α) (by decide : 512 = 2 ^ 9) (by decide)
    (by decide) (by decide : 1 ≤ 15) (by decide) False True
  refine implements_ofSteps (stepsMatched_lockFree _ least 512)
    (fun op op' => op = QueueOp.moodycamel op') Returned (Wraps .lockFreeQueue)
    ⟨g, hready.related⟩ ⟨Nat.zero_le _, rfl⟩ ?_
    (fun _ _ _ _ _ _ _ hprepared => hprepared.elim) wraps_unique ?_ ?_ ?_
  · rintro _ op items result items' q rfl hq h
    exact does_of_wraps (fun _ _ => rfl) (fun _ => rfl) hq h
  · intro s t op a ha
    refine endCalls_cases (P := fun t op a => Allowed _ a ∧ a.role = t ∧
      ∃ mop, mop = QueueOp.moodycamel op ∧ s.events a = [.call t mop]) ?_ ?_ ha
    · exact fun value => ⟨trivial, rfl, _, rfl, rfl⟩
    · exact ⟨trivial, rfl, _, rfl, rfl⟩
  · intro s t i a ha
    cases t with
    | producer =>
      obtain rfl := Option.some.inj ha
      cases i with
      | true => exact ⟨trivial, rfl, rfl⟩
      | false => exact ⟨trivial, rfl, rfl⟩
    | consumer =>
      obtain rfl := Option.some.inj ha
      exact ⟨trivial, rfl, rfl⟩
  · intro s t result a ha
    cases t with
    | producer =>
      cases hp : s.producer with
      | returning success =>
        simp only [hp, Option.some.injEq, Prod.mk.injEq] at ha
        obtain ⟨rfl, rfl⟩ := ha
        have hevents : s.events .returnEnqueue = [.ret .producer (.enqueued success)] := by
          simp only [State.events, hp]
        exact ⟨trivial, rfl, _, returned_enqueued success, hevents⟩
      | _ => simp [hp] at ha
    | consumer =>
      cases hc : s.consumer with
      | returning op front =>
        cases op with
        | tryDequeue =>
          simp only [hc, Option.some.injEq, Prod.mk.injEq] at ha
          obtain ⟨rfl, rfl⟩ := ha
          have hevents : s.events .returnDequeue = [.ret .consumer (.dequeued front)] := by
            simp only [State.events, hc, DequeueOp.result]
          exact ⟨trivial, rfl, _, returned_dequeued front, hevents⟩
        | _ => simp [hc] at ha
      | _ => simp [hc] at ha

/-- `BlockingQueue`, as `make_queue` builds it. An access may be a look at a kernel semaphore; `i`
tells whether it lets the thread pass. -/
def blockingCode (α : Type) : Implementation Role (QueueOp α) (QueueResult α) Bool :=
  .ofSteps (Blocking.State.step 512) (.start (.make 512 15))
    (endCalls (.callEnqueue .CannotAlloc) (.callDequeue .tryDequeue))
    (fun _ t i =>
      match t with
      | .producer => some (.stepEnqueue i)
      | .consumer => some (.stepDequeue i))
    (fun s t =>
      match t with
      | .producer =>
          match s.producer with
          | .returning success => some (.pushed success, .returnEnqueue)
          | _ => none
      | .consumer =>
          match s.consumer with
          | .returning .tryDequeue front => some (.popped front, .returnDequeue)
          | _ => none)

theorem stepsMatched_blocking (lim : Limits) (least maxBlockSize : Nat) :
    StepsMatched (Blocking.State.step (α := α) maxBlockSize) Blocking.State.events
      Blocking.Action.role (Blocking.Allowed lim) (Blocking.fifo lim)
      fun s o => ∃ i g available, Blocking.Related lim least s o i g available := by
  rintro s a s' o ⟨i, g, available, hrelated⟩ hallowed hstep
  obtain ⟨o', i', g', available', hobserved, hrelated'⟩ :=
    Blocking.matched_step hrelated hallowed hstep
  exact ⟨o', hobserved, i', g', available', hrelated'⟩

/-- What `BlockingQueue` calls. -/
def QueueOp.blocking : QueueOp α → Blocking.Op α
  | .push value => .enqueue .CannotAlloc value
  | .pop => .dequeue .tryDequeue

theorem QueueOp.blocking_inner (op : QueueOp α) :
    Blocking.MoodycamelCalls op.blocking ∧ op.blocking.inner = op.moodycamel := by
  cases op with
  | push value => exact ⟨rfl, rfl⟩
  | pop => exact ⟨rfl, rfl⟩

theorem implements_blocking :
    (blockingCode α).Implements QueueDoes (makeQueue 15 .BLOCKING) := by
  obtain ⟨least, g, hready⟩ := ready_make (α := α) (by decide : 512 = 2 ^ 9) (by decide)
    (by decide) (by decide : 1 ≤ 15) (by decide) False True
  -- what is announced cannot be seen by `push` and `pop`
  let view (c : Blocking.Content α) (q : IQueue α) : Prop :=
    Wraps .blockingQueue c.signalled q ∧ c.Fits (limitsOf α 512 15 False True)
  have hinit : view ⟨[], none⟩ (makeQueue 15 .BLOCKING) :=
    ⟨⟨Nat.zero_le _, rfl⟩, Blocking.fits_of_still rfl⟩
  refine implements_ofSteps (stepsMatched_blocking _ least 512)
    (fun op op' => op = QueueOp.blocking op') Returned view
    ⟨_, g, 0, hready.related, counts_make, rfl, .idle rfl, .idle rfl⟩ hinit ?_ ?_ ?_ ?_ ?_ ?_
  · rintro _ op c result c' q rfl ⟨hq, hfits⟩ h
    obtain ⟨hinner, hfits'⟩ := Blocking.fifo_inner op.blocking_inner.1 hfits h
    rw [op.blocking_inner.2] at hinner
    obtain ⟨result', q', hresult, hdoes, hq'⟩ :=
      does_of_wraps (fun _ _ => rfl) (fun _ => rfl) hq hinner
    exact ⟨result', q', hresult, hdoes, hq', hfits'⟩
  · rintro _ op c c' q - ⟨hq, -⟩ h
    obtain ⟨mode, x, -, hsignalled, -, hfits'⟩ := Blocking.Announces.cases h
    rw [← hsignalled] at hq
    exact ⟨hq, hfits'⟩
  · rintro c q q' ⟨hq, -⟩ ⟨hq', -⟩
    exact wraps_unique c.signalled q q' hq hq'
  · intro s t op a ha
    refine endCalls_cases (P := fun t op a => Blocking.Allowed _ a ∧ a.role = t ∧
      ∃ bop, bop = QueueOp.blocking op ∧ s.events a = [.call t bop]) ?_ ?_ ha
    · exact fun value => ⟨trivial, rfl, _, rfl, rfl⟩
    · exact ⟨trivial, rfl, _, rfl, rfl⟩
  · intro s t i a ha
    cases t with
    | producer =>
      obtain rfl := Option.some.inj ha
      cases i with
      | true => exact ⟨trivial, rfl, rfl⟩
      | false => exact ⟨trivial, rfl, rfl⟩
    | consumer =>
      obtain rfl := Option.some.inj ha
      exact ⟨trivial, rfl, rfl⟩
  · intro s t result a ha
    cases t with
    | producer =>
      cases hp : s.producer with
      | returning success =>
        simp only [hp, Option.some.injEq, Prod.mk.injEq] at ha
        obtain ⟨rfl, rfl⟩ := ha
        have hevents : s.events .returnEnqueue = [.ret .producer (.enqueued success)] := by
          simp only [Blocking.State.events, hp]
        exact ⟨trivial, rfl, _, returned_enqueued success, hevents⟩
      | _ => simp [hp] at ha
    | consumer =>
      cases hc : s.consumer with
      | returning op front =>
        cases op with
        | tryDequeue =>
          simp only [hc, Option.some.injEq, Prod.mk.injEq] at ha
          obtain ⟨rfl, rfl⟩ := ha
          have hevents : s.events .returnDequeue = [.ret .consumer (.dequeued front)] := by
            simp only [Blocking.State.events, hc, Blocking.DequeueOp.result]
          exact ⟨trivial, rfl, _, returned_dequeued front, hevents⟩
        | _ => simp [hc] at ha
      | _ => simp [hc] at ha

/-! ## The queue behind a mutex -/

/-- `StdQueue`. An access takes the mutex, is one under it, or releases it; in `push`, `i` tells
whether there is memory. -/
def stdCode (α : Type) : Implementation Role (QueueOp α) (QueueResult α) Bool :=
  .ofSteps (LockedObject.step StdQueue.code) (.start [])
    (endCalls (fun value => .call .producer (.push value)) (.call .consumer .pop))
    (fun c t i =>
      match c.call t with
      | .waiting _ => some (.lock t)
      | .inside _ _ => some (.access t i)
      | .unlocking _ => some (.unlock t)
      | _ => none)
    (fun c t =>
      match c.call t with
      | .returning result => some (result, .leave t)
      | _ => none)

theorem shows_unique (queue_ : List (Option α)) (q q' : IQueue α) (h : StdQueue.Shows queue_ q)
    (h' : StdQueue.Shows queue_ q') : q = q' := by
  have hitems : q.items = q'.items :=
    List.map_injective_iff.2 (Option.some_injective α) (h.1.symm.trans h'.1)
  obtain ⟨-, hcapacity⟩ := h
  obtain ⟨-, hcapacity'⟩ := h'
  cases q with
  | stdQueue q =>
    cases q' with
    | stdQueue q' =>
      obtain ⟨items⟩ := q
      obtain ⟨items'⟩ := q'
      obtain rfl : items = items' := hitems
      rfl
    | _ => cases hcapacity'
  | _ => cases hcapacity

theorem implements_std : (stdCode α).Implements QueueDoes (makeQueue 15 .STD_QUEUE) := by
  have hmatched : StepsMatched (LockedObject.step (T := Role) (StdQueue.code (α := α)))
      LockedObject.events LockedStep.thread (fun _ => True) (.atOnce StdQueue.code.Completes)
      (LockedRelated StdQueue.code) := fun c l c' o hrelated _ hstep => locked_step hrelated hstep
  refine implements_ofSteps hmatched Eq Eq StdQueue.Shows (locked_start []) ⟨rfl, rfl⟩ ?_
    (fun _ _ _ _ _ _ _ hprepared => hprepared.elim) shows_unique ?_ ?_ ?_
  · rintro op _ queue_ result queue_' q rfl hq h
    obtain ⟨q', hdoes, hq'⟩ := StdQueue.does_completes hq h
    exact ⟨result, q', rfl, hdoes, hq'⟩
  · intro c t op l hl
    refine endCalls_cases (P := fun t op l => True ∧ l.thread = t ∧
      ∃ op', op' = op ∧ c.events l = [.call t op']) ?_ ?_ hl
    · exact fun value => ⟨trivial, rfl, _, rfl, rfl⟩
    · exact ⟨trivial, rfl, _, rfl, rfl⟩
  · intro c t i l hl
    cases hcall : c.call t with
    | idle => simp [hcall] at hl
    | returning result => simp [hcall] at hl
    | _ =>
      simp only [hcall, Option.some.injEq] at hl
      subst hl
      exact ⟨trivial, rfl, rfl⟩
  · intro c t result l hl
    cases hcall : c.call t with
    | returning result' =>
      simp only [hcall, Option.some.injEq, Prod.mk.injEq] at hl
      obtain ⟨rfl, rfl⟩ := hl
      have hevents : c.events (.leave t : LockedStep Role (QueueOp α) Bool) =
          [.ret t result'] := by
        simp only [LockedObject.events, hcall]
      exact ⟨trivial, rfl, _, fun r hr => hr.symm, hevents⟩
    | _ => simp [hcall] at hl

/-! ## `make_queue` -/

/-- The code behind the pointer that `make_queue` returns. -/
def queueCode (α : Type) : QueueType → Implementation Role (QueueOp α) (QueueResult α) Bool
  | .STD_QUEUE => stdCode α
  | .BLOCKING => blockingCode α
  | .LOCK_FREE => lockFreeCode α

/-- Whatever the class, its code implements the queue whose operations take effect at once. -/
theorem implements_queueCode (type : QueueType) :
    (queueCode α type).Implements QueueDoes (makeQueue 15 type) := by
  cases type with
  | STD_QUEUE => exact implements_std
  | BLOCKING => exact implements_blocking
  | LOCK_FREE => exact implements_lockFree

end PipelineTools.Queues
