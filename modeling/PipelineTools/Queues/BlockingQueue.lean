import PipelineTools.Queues.BlockingLinearization
import PipelineTools.Queues.QueueConstruction
import PipelineTools.Queues.LockFreeQueue

/-!
# The blocking queue

What the two pipelines at the ends of a `BlockingQueue` may rely on. In no interleaving an assertion
fails: the count of the semaphore is never below minus one, and an element is there once the
semaphore was acquired (`blocking_never_fails`). The calls can be put in an order in which the queue
is a first-in first-out queue, where only `peek` sees an element before its enqueue takes effect
(`blocking_linearizable`); for `push` and `pop` it is the queue of `IQueue`
(`blockingQueue_linearizable`). A consumer that sleeps can be woken up if and only if there is an
element for it (`no_lost_wakeup`).
-/

set_option autoImplicit false

namespace PipelineTools.Queues.Moodycamel.Blocking

open PipelineTools.Library

variable {α : Type}

/-- No thread has failed an assertion, in the semaphore or in one of the two queues. -/
def State.Sound (s : State α) : Prop :=
  s.producer ≠ .failed ∧ s.consumer ≠ .failed ∧ s.inner.Sound

theorem Related.sound {lim : Limits} {least available : Nat} {s : State α} {g : Layout α}
    {o : Observed Role (Op α) (Result α) (Content α)}
    {i : Observed Role (Moodycamel.Op α) (Result α) (List α)}
    (h : Related lim least s o i g available) : s.Sound := by
  refine ⟨?_, ?_, h.inner.inv.sound⟩
  · intro hfailed
    have hseen := h.producer
    rw [hfailed] at hseen
    cases hseen
  · intro hfailed
    have hseen := h.consumer
    rw [hfailed] at hseen
    cases hseen

/-- Nothing restricts the calls of a queue that may grow. -/
theorem allowed_of_mayGrow {lim : Limits} (hgrow : lim.mayGrow) (hfail : lim.mayFail)
    (a : Action α) : Allowed lim a := by
  cases a with
  | callEnqueue mode x =>
    cases mode with
    | CanAlloc => exact hgrow
    | CannotAlloc => trivial
  | stepEnqueue malloc =>
    cases malloc with
    | true => trivial
    | false => exact hfail
  | _ => trivial

section

variable {maxBlockSize k size : Nat}

/-- The assertions of the blocking queue, of its semaphore and of its inner queue hold in every
interleaving. -/
theorem blocking_never_fails (hmax : maxBlockSize = 2 ^ k) (hk : 1 ≤ k) (hle : k ≤ 62)
    (hone : 1 ≤ size) (hsmall : size < 2 ^ 63) (as : List (Action α)) :
    EveryState (State.step maxBlockSize) State.Sound (.start (.make maxBlockSize size)) as := by
  intro pre post s hpre hrun
  obtain ⟨least, g, hready⟩ := ready_make (α := α) hmax hk hle hone hsmall True True
  obtain ⟨history, hrecorded⟩ := exists_recorded_run (h := []) hrun
  obtain ⟨ms, a, o, i, g', available, -, -, hrelated⟩ :=
    explains_of_ready hready (fun a ha => allowed_of_mayGrow trivial trivial a) hrecorded
  exact hrelated.sound

/-- The consumer acquires the semaphore while the producer is on its way to the second element. -/
def acquiring : List (Action Nat) :=
  [.callEnqueue .CanAlloc 7, .stepEnqueue true, .stepEnqueue true, .stepEnqueue true,
    .stepEnqueue true, .stepEnqueue true, .returnEnqueue, .callEnqueue .CanAlloc 8,
    .stepEnqueue true, .callDequeue .pop, .stepDequeue true, .stepEnqueue true, .stepDequeue true,
    .stepDequeue true, .stepEnqueue true, .stepDequeue true]

theorem blocking_never_fails_acquiring :
    (∃ s, runFrom (State.step 2) (.start (.make 2 1)) acquiring = some s ∧ s.sema.mCount = 0) ∧
      EveryState (State.step 2) State.Sound (.start (.make 2 1)) acquiring :=
  ⟨⟨_, rfl, rfl⟩,
    blocking_never_fails (by decide : 2 = 2 ^ 1) (by decide) (by decide) (by decide) (by decide)
      acquiring⟩

/-- The history of every interleaving is that of a first-in first-out queue that takes at least
`size` elements; an enqueue announces its element before it takes effect. -/
theorem blocking_linearizable (hmax : maxBlockSize = 2 ^ k) (hk : 1 ≤ k) (hle : k ≤ 62)
    (hone : 1 ≤ size) (hsmall : size < 2 ^ 63) (mayGrow mayFail : Prop) {as : List (Action α)}
    (hallowed : ∀ a ∈ as, Allowed (limitsOf α maxBlockSize size mayGrow mayFail) a) {s : State α}
    {history : List (Event Role (Op α) (Result α))}
    (hrun : runFrom (withHistory (State.step maxBlockSize) State.events)
      (.start (.make maxBlockSize size), []) as = some (s, history)) :
    (fifo (limitsOf α maxBlockSize size mayGrow mayFail)).Linearizable ⟨[], none⟩ history := by
  obtain ⟨least, g, hready⟩ := ready_make (α := α) hmax hk hle hone hsmall mayGrow mayFail
  exact linearizable_of_ready hready hallowed hrun

/-- `peek` finds the element before its signal, and `try_dequeue` does not. -/
def peekingEarly : List (Action Nat) :=
  [.callEnqueue .CannotAlloc 7, .stepEnqueue true, .stepEnqueue true, .stepEnqueue true,
    .callDequeue .peek, .stepDequeue true, .stepDequeue true, .stepDequeue true, .stepDequeue true,
    .returnDequeue, .callDequeue .tryDequeue, .stepDequeue true, .returnDequeue, .stepEnqueue true,
    .stepEnqueue true, .returnEnqueue]

theorem blocking_linearizable_peekingEarly : ∃ s history,
    runFrom (withHistory (State.step 512) State.events) (.start (.make 512 15), []) peekingEarly =
        some (s, history) ∧
      history = [.call .producer (.enqueue .CannotAlloc 7), .call .consumer (.dequeue .peek),
        .ret .consumer (.peeked (some 7)), .call .consumer (.dequeue .tryDequeue),
        .ret .consumer (.dequeued none), .ret .producer (.enqueued true)] ∧
      (fifo (limitsOf Nat 512 15 False False)).Linearizable ⟨[], none⟩ history := by
  have hallowed : ∀ a ∈ peekingEarly, Allowed (limitsOf Nat 512 15 False False) a := by
    simp [peekingEarly, Allowed]
  exact ⟨_, _, rfl, rfl, blocking_linearizable (by decide : 512 = 2 ^ 9) (by decide)
    (by decide) (by decide : 1 ≤ 15) (by decide) False False hallowed rfl⟩

end

/-! ## Waking up -/

/-- What a call that returns this has added to the queue. -/
def gain : Result α → Int
  | .enqueued true => 1
  | .dequeued (some _) => -1
  | .popped true => -1
  | _ => 0

/-- The elements that were accepted, less those that were handed out. -/
def balance (history : List (Event Role (Op α) (Result α))) : Int :=
  (history.map fun
    | .call _ _ => 0
    | .ret _ result => gain result).sum

/-- An effect that the history does not show yet. -/
def credit : CallStatus (Op α) (Result α) → Int
  | .done result => gain result
  | _ => 0

theorem length_of_fifo {lim : Limits} {op : Op α} {c c' : Content α} {result : Result α}
    (h : Fifo lim op c result c') :
    (c'.signalled.length : Int) = c.signalled.length + gain result := by
  cases h with
  | accept mode x => simp [gain]
  | refuse x full => simp [gain]
  | noMemory x fails => simp [gain]
  | @remove x items ahead op notPeek =>
    have hgain : gain (op.result (some x)) = -1 := by
      cases op with
      | peek => exact absurd rfl notPeek
      | _ => rfl
    show (items.length : Int) = ((x :: items).length : Int) + _
    rw [hgain, List.length_cons]
    omega
  | @empty ahead op notPeek mayFail =>
    have hgain : gain (op.result (none : Option α)) = 0 := by cases op <;> rfl
    rw [hgain]
    rfl
  | look => simp [gain, DequeueOp.result]

section Balance

variable {lim : Limits} {a b : AtomicObject Role (Op α) (Result α) (Content α)}

/-- What a thread has in store. -/
theorem credit_set (t : Role) (st : CallStatus (Op α) (Result α)) :
    credit ((a.set t st).status .producer) + credit ((a.set t st).status .consumer) +
        credit (a.status t) =
      credit (a.status .producer) + credit (a.status .consumer) + credit st := by
  cases t with
  | producer =>
    rw [AtomicObject.status_set_self, AtomicObject.status_set_of_ne _ (by decide)]
    omega
  | consumer =>
    rw [AtomicObject.status_set_self, AtomicObject.status_set_of_ne _ (by decide)]
    omega

/-- The queue holds what was accepted and not handed out. -/
theorem length_of_run {ms : List (Moment Role (Op α) (Result α) (Content α))}
    (h : AtomicRun (fifo lim) a ms b) :
    (b.object.signalled.length : Int) + credit (a.status .producer) +
        credit (a.status .consumer) =
      a.object.signalled.length + balance (ms.filterMap Moment.event?) +
        credit (b.status .producer) + credit (b.status .consumer) := by
  induction h with
  | nil a =>
    show _ = (a.object.signalled.length : Int) + 0 + _ + _
    omega
  | @cons a b c m ms hstep hrun ih =>
    cases hstep with
    | @call t op hidle =>
      have hset := credit_set (a := a) t (.called op)
      rw [hidle] at hset
      have hbalance : balance (List.filterMap Moment.event? (.event (.call t op) :: ms)) =
          0 + balance (ms.filterMap Moment.event?) := rfl
      have hzero : credit (.idle : CallStatus (Op α) (Result α)) = 0 := rfl
      have hcalled : credit (.called op : CallStatus (Op α) (Result α)) = 0 := rfl
      rw [AtomicObject.object_set] at ih
      rw [hbalance]
      omega
    | @effect t op result s hcalled heffect =>
      have hset := credit_set (a := { a with object := s }) t (.done result)
      have hstatus : ({ a with object := s } : AtomicObject Role (Op α) (Result α)
          (Content α)).status t = .called op := hcalled
      rw [hstatus] at hset
      have hlength := length_of_fifo heffect
      have hbalance : balance (List.filterMap Moment.event? (.effect t result s :: ms)) =
          balance (ms.filterMap Moment.event?) := rfl
      have hzero : credit (.called op : CallStatus (Op α) (Result α)) = 0 := rfl
      have hdone : credit (.done result : CallStatus (Op α) (Result α)) = gain result := rfl
      rw [AtomicObject.object_set] at ih
      rw [hbalance]
      simp only at hset ih
      omega
    | @prepare t op c hcalled hprepare =>
      -- the announcement counts no element
      obtain ⟨mode, x, -, hsignalled, -⟩ := Announces.cases hprepare
      have hbalance : balance (List.filterMap Moment.event? (.prepare t c :: ms)) =
          balance (ms.filterMap Moment.event?) := rfl
      rw [hbalance]
      simp only [hsignalled] at ih
      exact ih
    | @ret t result hdone =>
      have hset := credit_set (a := a) t .idle
      rw [hdone] at hset
      have hbalance : balance (List.filterMap Moment.event? (.event (.ret t result) :: ms)) =
          gain result + balance (ms.filterMap Moment.event?) := rfl
      have hzero : credit (.idle : CallStatus (Op α) (Result α)) = 0 := rfl
      have hcredit : credit (.done result : CallStatus (Op α) (Result α)) = gain result := rfl
      rw [AtomicObject.object_set] at ih
      rw [hbalance]
      omega

/-- At first the queue is empty, and nobody has called. -/
theorem length_of_start {ms : List (Moment Role (Op α) (Result α) (Content α))}
    (h : AtomicRun (fifo lim) (.start ⟨[], none⟩) ms b) :
    (b.object.signalled.length : Int) = balance (ms.filterMap Moment.event?) +
      credit (b.status .producer) + credit (b.status .consumer) := by
  have hlength := length_of_run h
  let start : AtomicObject Role (Op α) (Result α) (Content α) := .start ⟨[], none⟩
  have hcredit : ∀ t, credit (start.status t) = 0 := fun t => rfl
  have hnil : (start.object.signalled.length : Int) = 0 := rfl
  rw [hcredit, hcredit, hnil] at hlength
  omega

end Balance

/-- A sleeper is woken up by a token. -/
theorem wakes_iff {maxBlockSize : Nat} {s : State α} {op : DequeueOp} {t : Int}
    (hsleeps : s.consumer = .waiting op (.partialSpinning .sleep))
    (htimeout : op.timeoutUsecs? = some t) (hidle : s.inner.consumer = .idle) :
    (∃ s', s.step maxBlockSize (.stepDequeue true) = some s') ↔ 0 < s.sema.mSema := by
  have hacquire : s.sema.acquire op.timeoutUsecs? true (.partialSpinning .sleep) =
      if s.sema.mSema > 0 then some ({ s.sema with mSema := s.sema.mSema - 1 }, .returns true)
      else none := by
    rw [htimeout]
    simp only [LightweightSemaphore.acquire, LightweightSemaphore.wait,
      LightweightSemaphore.waitWithPartialSpinning, if_pos]
    split <;> rfl
  simp only [State.step, State.dequeue, hsleeps, hacquire]
  by_cases htoken : s.sema.mSema > 0
  · simp [htoken, Moodycamel.State.step, hidle]
  · simp [htoken]

/-- While the producer is between two calls, a consumer that sleeps in the kernel can be woken up if
and only if more elements were accepted than handed out. -/
theorem no_lost_wakeup {maxBlockSize k size : Nat} (hmax : maxBlockSize = 2 ^ k) (hk : 1 ≤ k)
    (hle : k ≤ 62) (hone : 1 ≤ size) (hsmall : size < 2 ^ 63) {as : List (Action α)} {s : State α}
    {history : List (Event Role (Op α) (Result α))}
    (hrun : runFrom (withHistory (State.step maxBlockSize) State.events)
      (.start (.make maxBlockSize size), []) as = some (s, history))
    (hproducer : s.producer = .idle) {op : DequeueOp}
    (hsleeps : s.consumer = .waiting op (.partialSpinning .sleep)) :
    (∃ s', s.step maxBlockSize (.stepDequeue true) = some s') ↔ 0 < balance history := by
  obtain ⟨least, g, hready⟩ := ready_make (α := α) hmax hk hle hone hsmall True True
  obtain ⟨ms, a, o, i, g', available, hexplains, rfl, hrelated⟩ :=
    explains_of_ready hready (fun a ha => allowed_of_mayGrow trivial trivial a) hrun
  have hcounts := hrelated.counts
  have hpseen := hrelated.producer
  have hcseen := hrelated.consumer
  rw [hproducer] at hcounts hpseen
  rw [hsleeps] at hcounts hcseen
  have hlength := length_of_start hexplains.run
  -- neither call has taken effect yet
  have hpcredit : credit (a.status .producer) = 0 := by
    have hagrees := hexplains.agrees .producer
    generalize hst : o.status .producer = st at hpseen hagrees
    generalize i.status .producer = ist at hpseen
    cases hpseen with
    | idle still =>
      rw [hagrees.eq_idle]
      rfl
  have hinner := hrelated.inner.consumer
  have hagrees := hexplains.agrees .consumer
  generalize o.status .consumer = st at hcseen hagrees
  generalize i.status .consumer = ist at hcseen hinner
  cases hcseen with
  | waiting notPeek fits now counted =>
    have hccredit : credit (a.status .consumer) = 0 := by
      rw [hagrees.eq_called.1]
      rfl
    have hidle : s.inner.consumer = .idle := by
      cases hc : s.inner.consumer with
      | idle => rfl
      | inside iop pc =>
        rw [hc] at hinner
        obtain ⟨past, habsurd, -⟩ := hinner
        cases habsurd
      | returning iop front =>
        rw [hc] at hinner
        cases hinner
      | failed =>
        rw [hc] at hinner
        cases hinner
    obtain ⟨t, htimeout, -⟩ := fits
    rw [wakes_iff hsleeps htimeout hidle, hcounts.token_iff]
    rw [hpcredit, hccredit, hexplains.object, counted] at hlength
    omega

/-- A thread that finds nothing spins. -/
theorem spin_run {maxBlockSize n : Nat} {s : State α} {op : DequeueOp} {t : Int}
    (hspins : s.consumer = .waiting op (.partialSpinning (.spin n)))
    (htimeout : op.timeoutUsecs? = some t) (hnothing : s.sema.mCount ≤ 0)
    (history : List (Event Role (Op α) (Result α))) :
    runFrom (withHistory (State.step maxBlockSize) State.events) (s, history)
        (List.replicate n (.stepDequeue true)) =
      some ({ s with consumer := .waiting op (.partialSpinning (.spin 0)) }, history) := by
  induction n generalizing s with
  | zero =>
    rw [← hspins]
    rfl
  | succ n ih =>
    have hnot : ¬ s.sema.mCount > 0 := by omega
    have hstep : s.step maxBlockSize (.stepDequeue true) =
        some { s with consumer := .waiting op (.partialSpinning (.spin n)) } := by
      simp [State.step, State.dequeue, hspins, htimeout, LightweightSemaphore.acquire,
        LightweightSemaphore.wait, LightweightSemaphore.waitWithPartialSpinning, hnot, Progress.map]
    rw [List.replicate_succ, runFrom_cons]
    exact ⟨(_, history), recorded_eq_some_iff.2 ⟨hstep, List.append_nil _⟩, ih rfl hnothing⟩

/-- The consumer goes to sleep, and then an element arrives. -/
def arrival : List (Action Nat) :=
  [.stepDequeue true, .callEnqueue .CannotAlloc 7, .stepEnqueue true, .stepEnqueue true,
    .stepEnqueue true, .stepEnqueue true, .stepEnqueue true, .stepEnqueue true, .returnEnqueue]

theorem no_lost_wakeup_arrival : ∃ as s history,
    runFrom (withHistory (State.step 512) State.events)
        (.start (.make 512 15 : ReaderWriterQueue Nat), []) as = some (s, history) ∧
      balance history = 1 ∧
      ((∃ s', s.step 512 (.stepDequeue true) = some s') ↔ 0 < balance history) := by
  have hspin : runFrom (withHistory (State.step 512) State.events)
      (.start (.make 512 15 : ReaderWriterQueue Nat), [])
      [.callDequeue .waitDequeue, .stepDequeue true] =
        some (⟨.start (.make 512 15), .make, .idle,
          .waiting .waitDequeue (.partialSpinning (.spin 1024))⟩,
          [.call .consumer (.dequeue .waitDequeue)]) := rfl
  have hrun := runFrom_append.2 ⟨_, runFrom_append.2 ⟨_, hspin, spin_run rfl rfl (by decide) _⟩,
    (rfl : runFrom (withHistory (State.step 512) State.events) _ arrival = some _)⟩
  exact ⟨_, _, _, hrun, rfl, no_lost_wakeup (by decide : 512 = 2 ^ 9) (by decide) (by decide)
    (by decide) (by decide) hrun rfl rfl⟩

/-! ## The queue of `make_queue` -/

/-- The same call of a reader-writer queue. -/
def Op.inner : Op α → Moodycamel.Op α
  | .enqueue mode x => .enqueue mode x
  | .dequeue op => .dequeue op.inner

/-- What is called. -/
def Action.op? : Action α → Option (Op α)
  | .callEnqueue mode x => some (.enqueue mode x)
  | .callDequeue op => some (.dequeue op)
  | _ => none

/-- The calls that `push` and `pop` make. -/
def MoodycamelCalls : Op α → Prop
  | .enqueue mode _ => mode = .CannotAlloc
  | .dequeue op => op = .tryDequeue

theorem MoodycamelCalls.inner {op : Op α} (h : MoodycamelCalls op) :
    Moodycamel.MoodycamelCalls op.inner := by
  cases op with
  | enqueue mode x => exact h
  | dequeue op =>
    obtain rfl : op = .tryDequeue := h
    exact fun habsurd => by cases habsurd

/-- For these calls the two queues do the same. -/
theorem fifo_inner {lim : Limits} {op : Op α} {c c' : Content α} {result : Result α}
    (hcalls : MoodycamelCalls op) (hfits : c.Fits lim) (h : Fifo lim op c result c') :
    Moodycamel.Fifo lim op.inner c.signalled result c'.signalled ∧ c'.Fits lim := by
  cases h with
  | accept mode x =>
    exact ⟨.accept mode x (hfits (Option.some_ne_none x)), fits_of_still rfl⟩
  | refuse x full => exact ⟨.refuse x full, fits_of_still rfl⟩
  | noMemory x fails => exact ⟨.noMemory x fails, fits_of_still rfl⟩
  | remove op notPeek =>
    obtain rfl : op = .tryDequeue := hcalls
    exact ⟨.remove .tryDequeue (by decide),
      fun hahead hnot => Nat.lt_of_succ_lt (hfits hahead hnot)⟩
  | @empty ahead op notPeek mayFail =>
    obtain rfl : op = .tryDequeue := hcalls
    exact ⟨.empty .tryDequeue, hfits⟩
  | look => cases hcalls

/-- A restriction of the calls restricts the history. -/
theorem calls_of_history {P : Op α → Prop} {maxBlockSize : Nat} {s s' : State α}
    {history : List (Event Role (Op α) (Result α))} {as : List (Action α)}
    (hcalls : ∀ a ∈ as, ∀ op, a.op? = some op → P op)
    (hrun : runFrom (withHistory (State.step maxBlockSize) State.events) (s, []) as =
      some (s', history)) {t : Role} {op : Op α} (h : .call t op ∈ history) : P op := by
  have hstep : ∀ (s : State α) a, (∀ op, a.op? = some op → P op) →
      ∀ e ∈ s.events a, ∀ t op, e = .call t op → P op := by
    rintro s a ha _ he t op rfl
    cases a with
    | callEnqueue mode x =>
      cases List.mem_singleton.1 he
      exact ha _ rfl
    | callDequeue op =>
      cases List.mem_singleton.1 he
      exact ha _ rfl
    | returnEnqueue => cases hp : s.producer <;> simp [State.events, hp] at he
    | returnDequeue => cases hc : s.consumer <;> simp [State.events, hc] at he
    | stepEnqueue malloc => simp [State.events] at he
    | stepDequeue wakes => simp [State.events] at he
  have hall := forall_events_of_run hstep hcalls hrun (by simp)
  exact hall _ h t op rfl

/-- The queue of a `BlockingQueue`: every interleaving of the thread that pushes and the thread that
pops has the results of a queue of `IQueue` that is used by one thread at a time. -/
theorem blockingQueue_linearizable {as : List (Action α)}
    (hcalls : ∀ a ∈ as, ∀ op, a.op? = some op → MoodycamelCalls op) {s : State α}
    {history : List (Event Role (Op α) (Result α))}
    (hrun : runFrom (withHistory (State.step 512) State.events) (.start (.make 512 15), []) as =
      some (s, history)) :
    Linearizable (fun op : Op α => Does op.inner) (makeQueue 15 .BLOCKING) history := by
  have hallowed : ∀ a ∈ as, Allowed (limitsOf α 512 15 False True) a := by
    intro a ha
    cases a with
    | callEnqueue mode x =>
      have hmode : mode = .CannotAlloc := hcalls _ ha _ rfl
      subst hmode
      trivial
    | stepEnqueue malloc =>
      cases malloc with
      | true => trivial
      | false => trivial
    | _ => trivial
  obtain ⟨least, g, hready⟩ := ready_make (α := α) (by decide : 512 = 2 ^ 9) (by decide)
    (by decide) (by decide : 1 ≤ 15) (by decide) False True
  have hlinearizable := linearizable_of_ready hready hallowed hrun
  obtain ⟨hmaximal, hguaranteed⟩ := limitsOf_default (α := α) True
  have hinit : IsBoundedQueue 15 ([] : List α) (makeQueue 15 .BLOCKING) :=
    ⟨IQueue.items_makeQueue 15 .BLOCKING, rfl⟩
  -- an announcement cannot be seen by `push` and `pop`
  let rel (c : Content α) (q : IQueue α) : Prop :=
    IsBoundedQueue 15 c.signalled q ∧ c.Fits (limitsOf α 512 15 False True)
  have hspec : ∀ op c result c' q, MoodycamelCalls op → rel c q →
      Fifo (limitsOf α 512 15 False True) op c result c' →
      ∃ q', Does op.inner q result q' ∧ rel c' q' := by
    rintro op c result c' q hop ⟨hq, hfits⟩ h
    obtain ⟨hinner, hfits'⟩ := fifo_inner hop hfits h
    obtain ⟨q', hdoes, hq'⟩ := does_of_fifo hmaximal hguaranteed id hop.inner hq hinner
    exact ⟨q', hdoes, hq', hfits'⟩
  have hprepare : ∀ op c c' q, MoodycamelCalls op → rel c q →
      Announces (limitsOf α 512 15 False True) op c c' → rel c' q := by
    rintro op c c' q - ⟨hq, -⟩ h
    obtain ⟨mode, x, -, hsignalled, -, hfits'⟩ := Announces.cases h
    rw [← hsignalled] at hq
    exact ⟨hq, hfits'⟩
  have hstart : rel ⟨[], none⟩ (makeQueue 15 .BLOCKING) := ⟨hinit, fits_of_still rfl⟩
  exact Spec.Linearizable.refine hlinearizable hspec hprepare hstart
    fun t op h => calls_of_history hcalls hrun h

/-- `pop` comes between the element and its signal, and a second time after it. -/
def poppingTwice : List (Action Nat) :=
  [.callEnqueue .CannotAlloc 7, .stepEnqueue true, .stepEnqueue true, .stepEnqueue true,
    .callDequeue .tryDequeue, .stepEnqueue true, .stepDequeue true, .stepEnqueue true,
    .returnEnqueue, .returnDequeue, .callDequeue .tryDequeue, .stepDequeue true, .stepDequeue true,
    .stepDequeue true, .stepDequeue true, .stepDequeue true, .stepDequeue true, .stepDequeue true,
    .returnDequeue]

theorem blockingQueue_linearizable_twice : ∃ s history,
    runFrom (withHistory (State.step 512) State.events) (.start (.make 512 15), []) poppingTwice =
        some (s, history) ∧
      history = [.call .producer (.enqueue .CannotAlloc 7), .call .consumer (.dequeue .tryDequeue),
        .ret .producer (.enqueued true), .ret .consumer (.dequeued none),
        .call .consumer (.dequeue .tryDequeue), .ret .consumer (.dequeued (some 7))] ∧
      Linearizable (fun op : Op Nat => Does op.inner) (makeQueue 15 .BLOCKING) history := by
  have hcalls : ∀ a ∈ poppingTwice, ∀ op, a.op? = some op → MoodycamelCalls op := by
    simp [poppingTwice, Action.op?, MoodycamelCalls]
  exact ⟨_, _, rfl, rfl, blockingQueue_linearizable hcalls rfl⟩

end PipelineTools.Queues.Moodycamel.Blocking
