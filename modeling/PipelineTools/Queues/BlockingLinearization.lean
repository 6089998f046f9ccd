import PipelineTools.Queues.BlockingReaderWriterQueue
import PipelineTools.Queues.Linearization

/-!
# The blocking queue is linearizable

The proof uses the inner queue by what it does at once (`Moodycamel.Related`), and the semaphore by
what its counters say (`Counts`). An element is in the queue when its signal has been counted: the
inner queue holds one element more from the effect of the inner enqueue to the signal. Once the
consumer has acquired the semaphore the inner queue is never empty, so that its dequeue cannot fail.

Only `peek`, which does not ask the semaphore, can tell that the producer is ahead: it finds an
element that `try_dequeue` does not find yet. So an enqueue prepares its effect (`Announces`): it
puts its element behind the others, where `peek` looks, and it can no longer be refused.
-/

set_option autoImplicit false

namespace PipelineTools.Queues.Moodycamel.Blocking

open PipelineTools.Library

variable {α : Type}

/-- The functions that return without an element if there is none. -/
def DequeueOp.MayFail : DequeueOp → Prop
  | .waitDequeue => False
  | .waitDequeueTimed timeoutUsecs => 0 ≤ timeoutUsecs
  | .tryDequeue | .pop | .peek => True

/-- The elements whose signal has been counted, and one that was announced. -/
structure Content (α : Type) where
  signalled : List α
  ahead : Option α

namespace Content

/-- What `peek` looks at. -/
def items (c : Content α) : List α := c.signalled ++ c.ahead.toList

theorem items_of_still {c : Content α} (h : c.ahead = none) : c.items = c.signalled := by
  rw [items, h]
  exact List.append_nil _

theorem items_of_ahead {c : Content α} {x : α} (h : c.ahead = some x) :
    c.items = c.signalled ++ [x] := by
  rw [items, h]
  rfl

theorem eq_of_still {c : Content α} (h : c.ahead = none) : c = ⟨c.items, none⟩ := by
  rw [items_of_still h, ← h]

theorem eq_of_ahead {c : Content α} {x : α} (h : c.ahead = some x) : c = ⟨c.signalled, some x⟩ := by
  rw [← h]

/-- There is room for the element that was announced. -/
def Fits (lim : Limits) (c : Content α) : Prop :=
  c.ahead ≠ none → ¬ lim.mayGrow → c.signalled.length < lim.maximal

end Content

/-- A first-in first-out queue within the limits. An enqueue only succeeds with the element that was
announced, and only fails if there is none. -/
inductive Fifo (lim : Limits) : Op α → Content α → Result α → Content α → Prop
  | accept {items : List α} (mode : AllocationMode) (x : α) :
      Fifo lim (.enqueue mode x) ⟨items, some x⟩ (.enqueued true) ⟨items ++ [x], none⟩
  | refuse {items : List α} (x : α) (full : lim.guaranteed ≤ items.length) :
      Fifo lim (.enqueue .CannotAlloc x) ⟨items, none⟩ (.enqueued false) ⟨items, none⟩
  | noMemory {items : List α} (x : α) (fails : lim.mayFail) :
      Fifo lim (.enqueue .CanAlloc x) ⟨items, none⟩ (.enqueued false) ⟨items, none⟩
  | remove {x : α} {items : List α} {ahead : Option α} (op : DequeueOp) (notPeek : op ≠ .peek) :
      Fifo lim (.dequeue op) ⟨x :: items, ahead⟩ (op.result (some x)) ⟨items, ahead⟩
  | empty {ahead : Option α} {op : DequeueOp} (notPeek : op ≠ .peek) (mayFail : op.MayFail) :
      Fifo lim (.dequeue op) ⟨[], ahead⟩ (op.result none) ⟨[], ahead⟩
  | look (c : Content α) : Fifo lim (.dequeue .peek) c (DequeueOp.result .peek c.items.head?) c

/-- A pending enqueue announces its element. -/
inductive Announces (lim : Limits) : Op α → Content α → Content α → Prop
  | announce {items : List α} (mode : AllocationMode) (x : α)
      (room : ¬ lim.mayGrow → items.length < lim.maximal) :
      Announces lim (.enqueue mode x) ⟨items, none⟩ ⟨items, some x⟩

/-- The blocking queue. -/
def fifo (lim : Limits) : Spec (Op α) (Result α) (Content α) := ⟨Fifo lim, Announces lim⟩

section Spec

variable {lim : Limits} {op : Op α} {c c' : Content α} {result : Result α}

theorem fits_of_still (h : c.ahead = none) : c.Fits lim := fun habsurd => absurd h habsurd

/-- An announcement leaves the other elements where they are. -/
theorem Announces.cases (h : Announces lim op c c') : ∃ mode x, op = .enqueue mode x ∧
    c'.signalled = c.signalled ∧ c'.ahead = some x ∧ c'.Fits lim := by
  cases h with
  | announce mode x room => exact ⟨mode, x, rfl, rfl, rfl, fun _ => room⟩

/-- No dequeue touches the element that was announced. -/
theorem Fifo.ahead_eq (h : Fifo lim op c result c') :
    c'.ahead = none ∨ (c'.ahead = c.ahead ∧ ∃ dop, op = .dequeue dop) := by
  cases h with
  | accept mode x => exact Or.inl rfl
  | refuse x full => exact Or.inl rfl
  | noMemory x fails => exact Or.inl rfl
  | remove op notPeek => exact Or.inr ⟨rfl, op, rfl⟩
  | empty notPeek mayFail => exact Or.inr ⟨rfl, _, rfl⟩
  | look c => exact Or.inr ⟨rfl, _, rfl⟩

/-- An element that was announced is that of a pending enqueue. -/
theorem pending_of_ahead {T : Type} [DecidableEq T]
    {a b : AtomicObject T (Op α) (Result α) (Content α)}
    {ms : List (Moment T (Op α) (Result α) (Content α))} (hrun : AtomicRun (fifo lim) a ms b)
    (ha : ∀ x, a.object.ahead = some x → ∃ t mode, a.status t = .called (.enqueue mode x)) :
    ∀ x, b.object.ahead = some x → ∃ t mode, b.status t = .called (.enqueue mode x) := by
  induction hrun with
  | nil a => exact ha
  | @cons a b c m ms hstep hrun ih =>
    apply ih
    intro x hx
    -- another thread than the one whose call is pending leaves that call alone
    have hother : ∀ u mode, m.thread ≠ u → a.status u = .called (.enqueue mode x) →
        ∃ t mode, b.status t = .called (.enqueue mode x) :=
      fun u mode hne hu => ⟨u, mode, (hstep.status_eq hne).trans hu⟩
    cases hstep with
    | @call t op hidle =>
      obtain ⟨u, mode, hu⟩ := ha x hx
      refine hother u mode ?_ hu
      rintro rfl
      cases hidle.symm.trans hu
    | @ret t result hdone =>
      obtain ⟨u, mode, hu⟩ := ha x hx
      refine hother u mode ?_ hu
      rintro rfl
      cases hdone.symm.trans hu
    | @prepare t op c hcalled hprepare =>
      obtain ⟨mode, y, rfl, -, hahead, -⟩ := Announces.cases hprepare
      obtain rfl := Option.some.inj (hahead.symm.trans hx)
      exact ⟨t, mode, hcalled⟩
    | @effect t op result c hcalled heffect =>
      rcases Fifo.ahead_eq heffect with hnone | ⟨hsame, dop, rfl⟩
      · cases hnone.symm.trans hx
      · obtain ⟨u, mode, hu⟩ := ha x (hsame.symm.trans hx)
        refine hother u mode ?_ hu
        rintro rfl
        cases hcalled.symm.trans hu

end Spec

/-! ## What the inner queue does -/

section Inner

variable {lim : Limits}

/-- What an enqueue of the inner queue does to its content. -/
theorem enqueue_cases {mode : AllocationMode} {x : α} {l l' : List α} {result : Result α}
    (h : Moodycamel.Fifo lim (.enqueue mode x) l result l') :
    (result = .enqueued true ∧ l' = l ++ [x] ∧ (¬ lim.mayGrow → l.length < lim.maximal)) ∨
      (result = .enqueued false ∧ l' = l ∧
        Fifo lim (.enqueue mode x) ⟨l, none⟩ (.enqueued false) ⟨l, none⟩) := by
  cases h with
  | accept mode x room => exact Or.inl ⟨rfl, rfl, room⟩
  | refuse x full => exact Or.inr ⟨rfl, rfl, .refuse x full⟩
  | noMemory x fails => exact Or.inr ⟨rfl, rfl, .noMemory x fails⟩

/-- A dequeue of the inner queue removes the front element, or it changes nothing. -/
theorem dequeue_cases {op : DequeueOp} {l l' : List α} {result : Result α}
    (h : Moodycamel.Fifo lim (.dequeue op.inner) l result l') :
    (op ≠ .peek ∧ ∃ x, l = x :: l' ∧ result = op.inner.result (some x)) ∨
      (l' = l ∧ result = op.inner.result l.head? ∧ (op = .peek ∨ l = [])) := by
  have hpeek : op.inner = .peek → op = .peek := by cases op <;> simp [DequeueOp.inner]
  generalize hop : op.inner = iop at h hpeek
  cases h with
  | @remove x rest iop notPeek =>
    refine Or.inl ⟨?_, x, rfl, rfl⟩
    rintro rfl
    exact notPeek hop.symm
  | look => exact Or.inr ⟨rfl, rfl, Or.inl (hpeek rfl)⟩
  | empty iop => exact Or.inr ⟨rfl, rfl, Or.inr rfl⟩

/-- The results of the two queues tell the same. -/
theorem result_eq {op : DequeueOp} {iop : Moodycamel.DequeueOp} {front front' : Option α}
    (h : iop.result front' = op.inner.result front) :
    op.result front' = op.result front ∧ front'.isNone = front.isNone := by
  cases op with
  | pop =>
    cases iop with
    | pop =>
      have hsome : front'.isSome = front.isSome := Result.popped.inj h
      refine ⟨congrArg Result.popped hsome, ?_⟩
      rw [← Option.not_isSome, ← Option.not_isSome, hsome]
    | _ => cases h
  | peek =>
    cases iop with
    | peek =>
      obtain rfl := Result.peeked.inj h
      exact ⟨rfl, rfl⟩
    | _ => cases h
  | _ =>
    cases iop with
    | tryDequeue =>
      obtain rfl := Result.dequeued.inj h
      exact ⟨rfl, rfl⟩
    | _ => cases h

end Inner

/-! ## The simulation -/

/-- A post to the kernel is still to come. -/
def Producer.posting : Producer → Bool
  | .signal .post => true
  | _ => false

/-- Where the consumer stands in the semaphore. -/
def Consumer.waiter : Consumer α → Option WaitPc
  | .waiting _ pc => some pc
  | _ => none

/-- The call of the producer in the inner queue and in the queue whose operations take effect at
once, which holds `object`. -/
inductive ProducerSeen (object : Content α) :
    Producer → Pending (Moodycamel.Op α) (Result α) (List α) →
      Pending (Op α) (Result α) (Content α) → Prop
  | idle (still : object.ahead = none) : ProducerSeen object .idle .idle .idle
  | calling {mode : AllocationMode} {x : α} {past : List (Content α)} {ipast : List (List α)}
      (still : object.ahead = none) (now : object ∈ past)
      (seen : ∀ l ∈ ipast, (⟨l, none⟩ : Content α) ∈ past) :
      ProducerSeen object .inner (.called (.enqueue mode x) ipast) (.called (.enqueue mode x) past)
  | accepted {mode : AllocationMode} {x : α} {past : List (Content α)}
      (ahead : object.ahead = some x) :
      ProducerSeen object .inner (.done (.enqueued true)) (.called (.enqueue mode x) past)
  | refused (still : object.ahead = none) :
      ProducerSeen object .inner (.done (.enqueued false)) (.done (.enqueued false))
  | signalling {mode : AllocationMode} {x : α} {past : List (Content α)}
      (ahead : object.ahead = some x) :
      ProducerSeen object (.signal .fetchAdd) .idle (.called (.enqueue mode x) past)
  | posting (still : object.ahead = none) :
      ProducerSeen object (.signal .post) .idle (.done (.enqueued true))
  | returning (success : Bool) (still : object.ahead = none) :
      ProducerSeen object (.returning success) .idle (.done (.enqueued success))

/-- The call of the consumer in the two queues. The element that it has acquired is still there
until the inner dequeue takes effect. -/
inductive ConsumerSeen (object : Content α) (available : Nat) :
    Consumer α → Pending (Moodycamel.Op α) (Result α) (List α) →
      Pending (Op α) (Result α) (Content α) → Prop
  | idle (counted : object.signalled.length = available) :
      ConsumerSeen object available .idle .idle .idle
  | waiting {op : DequeueOp} {pc : WaitPc} {past : List (Content α)} (notPeek : op ≠ .peek)
      (fits : pc.Fits op.timeoutUsecs?) (now : object ∈ past)
      (counted : object.signalled.length = available) :
      ConsumerSeen object available (.waiting op pc) .idle (.called (.dequeue op) past)
  | looking {op : DequeueOp} {past : List (Content α)} {ipast : List (List α)}
      (now : object ∈ past) (seen : ∀ l ∈ ipast, ∃ c ∈ past, c.items = l)
      (acquired : op ≠ .peek → ∀ l ∈ ipast, l ≠ [])
      (counted : object.signalled.length = available + if op = .peek then 0 else 1) :
      ConsumerSeen object available (.inner op) (.called (.dequeue op.inner) ipast)
        (.called (.dequeue op) past)
  | found {op : DequeueOp} {front : Option α} (acquired : op ≠ .peek → front.isNone = false)
      (counted : object.signalled.length = available) :
      ConsumerSeen object available (.inner op) (.done (op.inner.result front))
        (.done (op.result front))
  | returning (op : DequeueOp) (front : Option α) (counted : object.signalled.length = available) :
      ConsumerSeen object available (.returning op front) .idle (.done (op.result front))

/-- A state of the two threads, the inner queue, and the queue whose operations take effect at
once. -/
structure Related (lim : Limits) (least : Nat) (s : State α)
    (o : Observed Role (Op α) (Result α) (Content α))
    (i : Observed Role (Moodycamel.Op α) (Result α) (List α)) (g : Layout α) (available : Nat) :
    Prop where
  inner : Moodycamel.Related lim least s.inner i g
  counts : Counts s.sema s.producer.posting available s.consumer.waiter
  items : i.object = o.object.items
  producer : ProducerSeen o.object s.producer (i.status .producer) (o.status .producer)
  consumer : ConsumerSeen o.object available s.consumer (i.status .consumer) (o.status .consumer)

section Seen

variable {object object' : Content α} {p : Producer} {c : Consumer α} {available : Nat}
  {ist : Pending (Moodycamel.Op α) (Result α) (List α)} {st : Pending (Op α) (Result α) (Content α)}

/-- The consumer takes the front element out of both queues. -/
theorem ProducerSeen.remove (h : ProducerSeen object p ist st)
    (hahead : object'.ahead = object.ahead) :
    ProducerSeen object' p (ist.pass object'.items) (st.pass object') := by
  cases h with
  | idle still => exact .idle (hahead.trans still)
  | calling still now seen =>
    have hstill := hahead.trans still
    refine .calling hstill List.mem_cons_self ?_
    intro l hl
    rcases List.mem_cons.1 hl with rfl | hl
    · rw [← Content.eq_of_still hstill]
      exact List.mem_cons_self
    · exact List.mem_cons_of_mem _ (seen l hl)
  | accepted ahead => exact .accepted (hahead.trans ahead)
  | refused still => exact .refused (hahead.trans still)
  | signalling ahead => exact .signalling (hahead.trans ahead)
  | posting still => exact .posting (hahead.trans still)
  | returning success still => exact .returning success (hahead.trans still)

/-- The consumer has looked at the inner queue. -/
theorem ProducerSeen.look (h : ProducerSeen object p ist st) :
    ProducerSeen object p (ist.pass object.items) st := by
  cases h with
  | idle still => exact .idle still
  | calling still now seen =>
    refine .calling still now ?_
    intro l hl
    rcases List.mem_cons.1 hl with rfl | hl
    · rw [← Content.eq_of_still still]
      exact now
    · exact seen l hl
  | accepted ahead => exact .accepted ahead
  | refused still => exact .refused still
  | signalling ahead => exact .signalling ahead
  | posting still => exact .posting still
  | returning success still => exact .returning success still

/-- What has been acquired is in the inner queue. -/
theorem items_ne_nil {op : DequeueOp} (hop : op ≠ .peek)
    (counted : object.signalled.length = available + if op = .peek then 0 else 1) :
    object.items ≠ [] := by
  intro hnil
  rw [Content.items, List.append_eq_nil_iff] at hnil
  rw [hnil.1, if_neg hop] at counted
  cases counted

/-- The producer has looked at the inner queue. -/
theorem ConsumerSeen.look (h : ConsumerSeen object available c ist st) :
    ConsumerSeen object available c (ist.pass object.items) st := by
  cases h with
  | idle counted => exact .idle counted
  | waiting notPeek fits now counted => exact .waiting notPeek fits now counted
  | looking now seen acquired counted =>
    refine .looking now ?_ ?_ counted
    · intro l hl
      rcases List.mem_cons.1 hl with rfl | hl
      · exact ⟨object, now, rfl⟩
      · exact seen l hl
    · intro hop l hl
      rcases List.mem_cons.1 hl with rfl | hl
      · exact items_ne_nil hop counted
      · exact acquired hop l hl
  | found acquired counted => exact .found acquired counted
  | returning op front counted => exact .returning op front counted

/-- The producer announces an element. -/
theorem ConsumerSeen.announce (h : ConsumerSeen object available c ist st)
    (hsame : object'.signalled = object.signalled) :
    ConsumerSeen object' available c (ist.pass object'.items) (st.pass object') := by
  have hlength : object'.signalled.length = object.signalled.length := by rw [hsame]
  cases h with
  | idle counted => exact .idle (hlength.trans counted)
  | waiting notPeek fits now counted =>
    exact .waiting notPeek fits List.mem_cons_self (hlength.trans counted)
  | looking now seen acquired counted =>
    refine .looking List.mem_cons_self ?_ ?_ (hlength.trans counted)
    · intro l hl
      rcases List.mem_cons.1 hl with rfl | hl
      · exact ⟨object', List.mem_cons_self, rfl⟩
      · obtain ⟨c, hc, hitems⟩ := seen l hl
        exact ⟨c, List.mem_cons_of_mem _ hc, hitems⟩
    · intro hop l hl
      rcases List.mem_cons.1 hl with rfl | hl
      · exact items_ne_nil hop (hlength.trans counted)
      · exact acquired hop l hl
  | found acquired counted => exact .found acquired (hlength.trans counted)
  | returning op front counted => exact .returning op front (hlength.trans counted)

/-- A signal makes one more element available. -/
theorem ConsumerSeen.signal (h : ConsumerSeen object available c ist st)
    (hmore : object'.signalled.length = object.signalled.length + 1) :
    ConsumerSeen object' (available + 1) c ist (st.pass object') := by
  cases h with
  | idle counted => exact .idle (by rw [hmore, counted])
  | waiting notPeek fits now counted =>
    exact .waiting notPeek fits List.mem_cons_self (by rw [hmore, counted])
  | looking now seen acquired counted =>
    refine .looking List.mem_cons_self ?_ acquired ?_
    · intro l hl
      obtain ⟨c, hc, hitems⟩ := seen l hl
      exact ⟨c, List.mem_cons_of_mem _ hc, hitems⟩
    · rw [hmore, counted]
      omega
  | found acquired counted => exact .found acquired (by rw [hmore, counted])
  | returning op front counted => exact .returning op front (by rw [hmore, counted])

end Seen

/-! ## Calls of the inner queue -/

section Calls

variable {lim : Limits} {least maxBlockSize : Nat} {s s' : Moodycamel.State α} {g : Layout α}
  {i : Observed Role (Moodycamel.Op α) (Result α) (List α)}

theorem inner_callEnqueue (h : Moodycamel.Related lim least s i g) {mode : AllocationMode} {x : α}
    (hallowed : Moodycamel.Allowed lim (.callEnqueue mode x))
    (hstep : s.step maxBlockSize (.callEnqueue mode x) = some s') :
    ∃ g', Moodycamel.Related lim least s'
      (i.set .producer (.called (.enqueue mode x) [i.object])) g' := by
  obtain ⟨i', g', hobserved, hrelated⟩ := related_callEnqueue h hallowed hstep
  have hevents : s.events (.callEnqueue mode x) = [.call .producer (.enqueue mode x)] := rfl
  rw [hevents] at hobserved
  cases hobserved
  exact ⟨g', hrelated⟩

theorem inner_returnEnqueue (h : Moodycamel.Related lim least s i g) {success : Bool}
    (hreturning : s.producer = .returning success)
    (hstep : s.step maxBlockSize .returnEnqueue = some s') :
    ∃ g', Moodycamel.Related lim least s' (i.set .producer .idle) g' := by
  obtain ⟨i', g', hobserved, hrelated⟩ := related_returnEnqueue h hstep
  have hevents : s.events .returnEnqueue = [.ret .producer (.enqueued success)] := by
    rw [Moodycamel.State.events, hreturning]
  rw [hevents] at hobserved
  cases hobserved
  exact ⟨g', hrelated⟩

theorem inner_callDequeue (h : Moodycamel.Related lim least s i g) {op : Moodycamel.DequeueOp}
    (hstep : s.step maxBlockSize (.callDequeue op) = some s') :
    ∃ g', Moodycamel.Related lim least s'
      (i.set .consumer (.called (.dequeue op) [i.object])) g' := by
  obtain ⟨i', g', hobserved, hrelated⟩ := related_callDequeue h hstep
  have hevents : s.events (.callDequeue op) = [.call .consumer (.dequeue op)] := rfl
  rw [hevents] at hobserved
  cases hobserved
  exact ⟨g', hrelated⟩

theorem inner_returnDequeue (h : Moodycamel.Related lim least s i g) {op : Moodycamel.DequeueOp}
    {front : Option α} (hreturning : s.consumer = .returning op front)
    (hstep : s.step maxBlockSize .returnDequeue = some s') :
    ∃ g', Moodycamel.Related lim least s' (i.set .consumer .idle) g' := by
  obtain ⟨i', g', hobserved, hrelated⟩ := related_returnDequeue h hstep
  have hevents : s.events .returnDequeue = [.ret .consumer (op.result front)] := by
    rw [Moodycamel.State.events, hreturning]
  rw [hevents] at hobserved
  cases hobserved
  exact ⟨g', hrelated⟩

end Calls

/-! ## The steps of the producer -/

/-- `enqueue` is called of queues that may grow, and there may be no memory. -/
def Allowed (lim : Limits) : Action α → Prop
  | .callEnqueue .CanAlloc _ => lim.mayGrow
  | .stepEnqueue false => lim.mayFail
  | _ => True

/-- The step of `t` that ends in `s'` is matched. -/
def Matched (lim : Limits) (least : Nat) (t : Role)
    (o : Observed Role (Op α) (Result α) (Content α)) (es : List (Event Role (Op α) (Result α)))
    (s' : State α) : Prop :=
  ∃ o' i' g' available', ObservedStep (fifo lim) t o es o' ∧
    Related lim least s' o' i' g' available'

section Steps

variable {lim : Limits} {least maxBlockSize available : Nat} {s s' : State α} {g : Layout α}
  {o : Observed Role (Op α) (Result α) (Content α)}
  {i : Observed Role (Moodycamel.Op α) (Result α) (List α)}

theorem matched_callEnqueue (h : Related lim least s o i g available) {mode : AllocationMode}
    {x : α} (hallowed : Allowed lim (.callEnqueue mode x))
    (hstep : s.step maxBlockSize (.callEnqueue mode x) = some s') :
    Matched lim least .producer o (s.events (.callEnqueue mode x)) s' := by
  obtain ⟨inner, sema, p, c⟩ := s
  obtain ⟨hinner, hcounts, hitems, hproducer, hconsumer⟩ := h
  cases p with
  | idle =>
    generalize hist : i.status .producer = ist at hproducer
    generalize hst : o.status .producer = st at hproducer
    cases hproducer with
    | idle still =>
      obtain ⟨inner', hcall, rfl⟩ := Option.map_eq_some_iff.1 hstep
      have hmay : Moodycamel.Allowed lim (.callEnqueue mode x) := by
        cases mode with
        | CanAlloc => exact hallowed
        | CannotAlloc => trivial
      obtain ⟨g', hinner'⟩ := inner_callEnqueue hinner hmay hcall
      refine ⟨_, _, g', available, .call (.enqueue mode x) hst, hinner', hcounts, ?_, ?_, ?_⟩
      · exact hitems
      · rw [Observed.status_set_self, Observed.status_set_self]
        refine .calling still (List.mem_singleton.2 rfl) ?_
        intro l hl
        rw [List.mem_singleton.1 hl, hitems, ← Content.eq_of_still still]
        exact List.mem_singleton.2 rfl
      · rw [Observed.status_set_of_ne _ (by decide), Observed.status_set_of_ne _ (by decide)]
        exact hconsumer
  | _ => cases hstep

theorem matched_returnEnqueue (h : Related lim least s o i g available)
    (hstep : s.step maxBlockSize .returnEnqueue = some s') :
    Matched lim least .producer o (s.events .returnEnqueue) s' := by
  obtain ⟨inner, sema, p, c⟩ := s
  obtain ⟨hinner, hcounts, hitems, hproducer, hconsumer⟩ := h
  cases p with
  | returning success =>
    generalize hist : i.status .producer = ist at hproducer
    generalize hst : o.status .producer = st at hproducer
    cases hproducer with
    | returning success still =>
      obtain rfl := Option.some.inj hstep
      refine ⟨_, i, g, available, .ret hst, hinner, hcounts, hitems, ?_, ?_⟩
      · rw [Observed.status_set_self, hist]
        exact .idle still
      · rw [Observed.status_set_of_ne _ (by decide)]
        exact hconsumer
  | _ => cases hstep

/-- A step of the producer inside the inner queue. -/
theorem matched_innerEnqueue (h : Related lim least s o i g available)
    (hcalled : s.producer = .inner) {malloc : Bool} (hallowed : malloc = false → lim.mayFail)
    {mode : AllocationMode} {x : α} {pc : EnqueuePc}
    (hinside : s.inner.producer = .inside mode x pc) {inner' : Moodycamel.State α}
    (hinnerStep : s.inner.step maxBlockSize (.stepEnqueue malloc) = some inner') :
    Matched lim least .producer o [] { s with inner := inner' } := by
  obtain ⟨inner, sema, p, c⟩ := s
  obtain rfl : p = .inner := hcalled
  obtain ⟨hinner, hcounts, hitems, hproducer, hconsumer⟩ := h
  have hmay : Moodycamel.Allowed (α := α) lim (.stepEnqueue malloc) := by
    cases malloc with
    | true => trivial
    | false => exact hallowed rfl
  obtain ⟨i', g', hobserved, hinner'⟩ := related_stepEnqueue hinner hmay hinnerStep
  have hseen := hinner.producer
  rw [hinside] at hseen
  obtain ⟨ipast, hist, -⟩ := hseen
  rw [hist] at hproducer
  generalize hst : o.status .producer = st at hproducer
  cases hproducer with
  | @calling _ _ past _ still now seen =>
    -- the call ends without the element, as it may have done when the object held `l`
    have hrefused : ∀ l, (⟨l, none⟩ : Content α) ∈ past →
        Fifo lim (.enqueue mode x) ⟨l, none⟩ (.enqueued false) ⟨l, none⟩ →
        i'.object = i.object → i'.status .producer = .done (.enqueued false) →
        ConsumerSeen o.object available c (i'.status .consumer) (o.status .consumer) →
        Matched lim least .producer o [] ⟨inner', sema, .inner, c⟩ := by
      intro l hl hfifo hobject hdone hconsumer'
      refine ⟨_, i', g', available, .late hst hl hfifo, hinner', hcounts, hobject.trans hitems, ?_,
        ?_⟩
      · rw [Observed.status_set_self, hdone]
        exact .refused still
      · rw [Observed.status_set_of_ne _ (by decide)]
        exact hconsumer'
    have hevents : inner.events (.stepEnqueue malloc) = [] := rfl
    rw [hevents] at hobserved
    cases hobserved with
    | stay =>
      refine ⟨o, i, g', available, .stay o, hinner', hcounts, hitems, ?_, hconsumer⟩
      rw [hist, hst]
      exact .calling still now seen
    | effect hcall heffect =>
      cases hist.symm.trans hcall
      rcases enqueue_cases heffect with ⟨rfl, rfl, room⟩ | ⟨rfl, rfl, hfifo⟩
      · -- the element is in the inner queue, and not yet signalled
        rw [hitems, Content.items_of_still still] at room
        have hannounce : Announces lim (.enqueue mode x) o.object ⟨o.object.signalled, some x⟩ := by
          have hobject : o.object = ⟨o.object.signalled, none⟩ := by rw [← still]
          rw [hobject]
          exact .announce mode x room
        have hmore : i.object ++ [x] = (⟨o.object.signalled, some x⟩ : Content α).items := by
          rw [hitems, Content.items_of_still still]
          rfl
        refine ⟨_, _, g', available, .prepare hst hannounce, hinner', hcounts, hmore, ?_, ?_⟩
        · rw [Observed.status_pass_self]
          have hself : (o.prepare .producer (.enqueue mode x) ⟨o.object.signalled, some x⟩).status
              .producer = .called (.enqueue mode x) [⟨o.object.signalled, some x⟩] :=
            o.status_change_self _ _ _
          rw [hself]
          exact .accepted rfl
        · rw [Observed.status_pass_of_ne _ (by decide), hmore]
          have hother : (o.prepare .producer (.enqueue mode x) ⟨o.object.signalled, some x⟩).status
              .consumer = (o.status .consumer).pass ⟨o.object.signalled, some x⟩ :=
            o.status_change_of_ne (by decide) _ _
          rw [hother]
          exact hconsumer.announce rfl
      · rw [hitems] at hfifo
        have hnow := now
        rw [Content.eq_of_still still] at hnow
        refine hrefused _ hnow hfifo rfl (Observed.status_pass_self _ _ _ _) ?_
        rw [Observed.status_pass_of_ne _ (by decide), hitems]
        exact hconsumer.look
    | prepare hcall hprepare => cases hprepare
    | late hcall hl heffect =>
      cases hist.symm.trans hcall
      rcases enqueue_cases heffect with ⟨-, habsurd, -⟩ | ⟨rfl, -, hfifo⟩
      · have hlen := congrArg List.length habsurd
        simp at hlen
      · refine hrefused _ (seen _ hl) hfifo rfl (Observed.status_set_self _ _ _) ?_
        rw [Observed.status_set_of_ne _ (by decide)]
        exact hconsumer

/-- The inner enqueue returns. -/
theorem matched_innerReturn (h : Related lim least s o i g available)
    (hcalled : s.producer = .inner) {success : Bool}
    (hreturning : s.inner.producer = .returning success) {inner' : Moodycamel.State α}
    (hinnerStep : s.inner.step maxBlockSize .returnEnqueue = some inner') :
    Matched lim least .producer o []
      { s with
        inner := inner'
        producer := if success then .signal .fetchAdd else .returning false } := by
  obtain ⟨inner, sema, p, c⟩ := s
  obtain rfl : p = .inner := hcalled
  obtain ⟨hinner, hcounts, hitems, hproducer, hconsumer⟩ := h
  obtain ⟨g', hinner'⟩ := inner_returnEnqueue hinner hreturning hinnerStep
  have hseen := hinner.producer
  rw [hreturning] at hseen
  have hist : i.status .producer = .done (.enqueued success) := hseen
  rw [hist] at hproducer
  have hconsumer' : ConsumerSeen o.object available c ((i.set .producer .idle).status .consumer)
      (o.status .consumer) := by
    rw [Observed.status_set_of_ne _ (by decide)]
    exact hconsumer
  generalize hst : o.status .producer = st at hproducer
  cases hproducer with
  | accepted ahead =>
    refine ⟨o, _, g', available, .stay o, hinner', hcounts, hitems, ?_, hconsumer'⟩
    rw [Observed.status_set_self, hst]
    exact .signalling ahead
  | refused still =>
    refine ⟨o, _, g', available, .stay o, hinner', hcounts, hitems, ?_, hconsumer'⟩
    rw [Observed.status_set_self, hst]
    exact .returning false still

/-- A step of `signal`. -/
theorem matched_signal (h : Related lim least s o i g available) {pc : SignalPc}
    (hsignal : s.producer = .signal pc) {malloc : Bool}
    (hstep : s.enqueue maxBlockSize malloc = some s') : Matched lim least .producer o [] s' := by
  obtain ⟨inner, sema, p, c⟩ := s
  obtain rfl : p = .signal pc := hsignal
  obtain ⟨hinner, hcounts, hitems, hproducer, hconsumer⟩ := h
  generalize hist : i.status .producer = ist at hproducer
  generalize hst : o.status .producer = st at hproducer
  cases hproducer with
  | @signalling mode x past ahead =>
    obtain ⟨posting, hcounts', hsema⟩ := signal_fetchAdd hcounts
    -- the announced element counts from now on
    let object : Content α := ⟨o.object.signalled ++ [x], none⟩
    have hsame : i.object = object.items := by
      rw [hitems, Content.items_of_ahead ahead]
      exact (List.append_nil _).symm
    have hconsumer' : ConsumerSeen object (available + 1) c (i.status .consumer)
        ((o.pass .producer (.enqueued true) object).status .consumer) := by
      rw [Observed.status_pass_of_ne _ (by decide)]
      exact hconsumer.signal List.length_append
    have hobserved : ObservedStep (fifo lim) .producer o []
        (o.pass .producer (.enqueued true) object) := by
      have hfifo : Fifo lim (.enqueue mode x) o.object (.enqueued true) object := by
        rw [Content.eq_of_ahead ahead]
        exact .accept mode x
      exact .effect hst hfifo
    cases posting with
    | true =>
      simp only [State.enqueue, hsema, if_pos] at hstep
      obtain rfl := Option.some.inj hstep
      refine ⟨_, i, g, available + 1, hobserved, hinner, hcounts', hsame, ?_, hconsumer'⟩
      rw [Observed.status_pass_self, hist]
      exact .posting rfl
    | false =>
      simp only [State.enqueue, hsema] at hstep
      obtain rfl := Option.some.inj hstep
      refine ⟨_, i, g, available + 1, hobserved, hinner, hcounts', hsame, ?_, hconsumer'⟩
      rw [Observed.status_pass_self, hist]
      exact .returning true rfl
  | posting still =>
    -- the token is put into the semaphore; the enqueue has taken effect before
    obtain rfl := Option.some.inj hstep
    refine ⟨o, i, g, available, .stay o, hinner, signal_post hcounts, hitems, ?_, hconsumer⟩
    rw [hist, hst]
    exact .returning true still

theorem matched_stepEnqueue (h : Related lim least s o i g available) {malloc : Bool}
    (hallowed : Allowed (α := α) lim (.stepEnqueue malloc))
    (hstep : s.step maxBlockSize (.stepEnqueue malloc) = some s') :
    Matched lim least .producer o (s.events (.stepEnqueue malloc)) s' := by
  have hevents : s.events (.stepEnqueue malloc) = [] := rfl
  rw [hevents]
  have hmay : malloc = false → lim.mayFail := by
    rintro rfl
    exact hallowed
  cases hp : s.producer with
  | inner =>
    cases hi : s.inner.producer with
    | inside mode x pc =>
      simp only [State.step, State.enqueue, hp, hi] at hstep
      obtain ⟨inner', hinnerStep, rfl⟩ := Option.map_eq_some_iff.1 hstep
      have hmatched := matched_innerEnqueue h hp hmay hi hinnerStep
      rw [hp] at hmatched
      exact hmatched
    | returning success =>
      simp only [State.step, State.enqueue, hp, hi] at hstep
      obtain ⟨inner', hinnerStep, rfl⟩ := Option.map_eq_some_iff.1 hstep
      exact matched_innerReturn h hp hi hinnerStep
    | idle => simp [State.step, State.enqueue, Moodycamel.State.step, hp, hi] at hstep
    | failed =>
      have hseen := h.inner.producer
      rw [hi] at hseen
      cases hseen
  | signal pc => exact matched_signal h hp hstep
  | _ => simp [State.step, State.enqueue, hp] at hstep

/-! ## The steps of the consumer -/

theorem matched_callDequeue (h : Related lim least s o i g available) {op : DequeueOp}
    (hstep : s.step maxBlockSize (.callDequeue op) = some s') :
    Matched lim least .consumer o (s.events (.callDequeue op)) s' := by
  obtain ⟨inner, sema, p, c⟩ := s
  obtain ⟨hinner, hcounts, hitems, hproducer, hconsumer⟩ := h
  cases c with
  | idle =>
    generalize hist : i.status .consumer = ist at hconsumer
    generalize hst : o.status .consumer = st at hconsumer
    cases hconsumer with
    | idle counted =>
      by_cases hop : op = .peek
      · subst hop
        obtain ⟨inner', hcall, rfl⟩ := Option.map_eq_some_iff.1 hstep
        obtain ⟨g', hinner'⟩ := inner_callDequeue hinner hcall
        refine ⟨_, _, g', available, .call (.dequeue .peek) hst, hinner', hcounts, ?_, ?_, ?_⟩
        · exact hitems
        · rw [Observed.status_set_of_ne _ (by decide), Observed.status_set_of_ne _ (by decide)]
          exact hproducer
        · rw [Observed.status_set_self, Observed.status_set_self]
          refine .looking (List.mem_singleton.2 rfl) ?_ (fun hnot => absurd rfl hnot)
            counted
          intro l hl
          rw [List.mem_singleton.1 hl]
          exact ⟨o.object, List.mem_singleton.2 rfl, hitems.symm⟩
      · simp only [State.step, if_neg hop] at hstep
        obtain rfl := Option.some.inj hstep
        have hcalm : Counts sema p.posting available (some (.tryWait .load)) :=
          ⟨hcounts.count, hcounts.tokens, by rintro ⟨⟩⟩
        refine ⟨_, i, g, available, .call (.dequeue op) hst, hinner, hcalm, ?_, ?_, ?_⟩
        · exact hitems
        · rw [Observed.status_set_of_ne _ (by decide)]
          exact hproducer
        · rw [Observed.status_set_self, hist]
          exact .waiting hop trivial (List.mem_singleton.2 rfl) counted
  | _ => cases hstep

theorem matched_returnDequeue (h : Related lim least s o i g available)
    (hstep : s.step maxBlockSize .returnDequeue = some s') :
    Matched lim least .consumer o (s.events .returnDequeue) s' := by
  obtain ⟨inner, sema, p, c⟩ := s
  obtain ⟨hinner, hcounts, hitems, hproducer, hconsumer⟩ := h
  cases c with
  | returning op front =>
    generalize hist : i.status .consumer = ist at hconsumer
    generalize hst : o.status .consumer = st at hconsumer
    cases hconsumer with
    | returning op front counted =>
      obtain rfl := Option.some.inj hstep
      refine ⟨_, i, g, available, .ret hst, hinner, hcounts, hitems, ?_, ?_⟩
      · rw [Observed.status_set_of_ne _ (by decide)]
        exact hproducer
      · rw [Observed.status_set_self, hist]
        exact .idle counted
  | _ => cases hstep

/-- A step of the consumer in the semaphore. -/
theorem matched_waiting (h : Related lim least s o i g available) {op : DequeueOp} {pc : WaitPc}
    (hwaiting : s.consumer = .waiting op pc) {wakes : Bool}
    (hstep : s.dequeue maxBlockSize wakes = some s') : Matched lim least .consumer o [] s' := by
  obtain ⟨inner, sema, p, c⟩ := s
  obtain rfl : c = .waiting op pc := hwaiting
  obtain ⟨hinner, hcounts, hitems, hproducer, hconsumer⟩ := h
  generalize hist : i.status .consumer = ist at hconsumer
  generalize hst : o.status .consumer = st at hconsumer
  cases hconsumer with
  | @waiting _ _ past notPeek fits now counted =>
    cases hacquire : sema.acquire op.timeoutUsecs? wakes pc with
    | none => simp [State.dequeue, hacquire] at hstep
    | some r =>
      have hwaits := acquire_spec hcounts fits hacquire
      obtain ⟨sema', next⟩ := r
      cases hwaits with
      | goesOn fits' counts' =>
        simp only [State.dequeue, hacquire] at hstep
        obtain rfl := Option.some.inj hstep
        refine ⟨o, i, g, available, .stay o, hinner, counts', hitems, hproducer, ?_⟩
        rw [hist, hst]
        exact .waiting notPeek fits' now counted
      | @acquires rest one counts' =>
        -- the element that was acquired is in both queues
        simp only [State.dequeue, hacquire] at hstep
        obtain ⟨inner', hcall, rfl⟩ := Option.map_eq_some_iff.1 hstep
        obtain ⟨g', hinner'⟩ := inner_callDequeue hinner hcall
        refine ⟨o, _, g', rest, .stay o, hinner', counts', hitems, ?_, ?_⟩
        · rw [Observed.status_set_of_ne _ (by decide)]
          exact hproducer
        · rw [Observed.status_set_self, hst]
          refine .looking now ?_ ?_ (by rw [if_neg notPeek, counted, one])
          · intro l hl
            rw [List.mem_singleton.1 hl]
            exact ⟨o.object, now, hitems.symm⟩
          · intro _ l hl
            rw [List.mem_singleton.1 hl, hitems]
            exact items_ne_nil notPeek (by rw [if_neg notPeek, counted, one])
      | givesUp nothing counts' impatient =>
        have hempty : o.object = ⟨[], o.object.ahead⟩ := by
          rw [nothing] at counted
          rw [← List.length_eq_zero_iff.1 counted]
        have hmay : op.MayFail := by
          cases op with
          | waitDequeue =>
            have hnegative := impatient (-1) rfl
            omega
          | waitDequeueTimed timeoutUsecs => exact impatient timeoutUsecs rfl
          | _ => trivial
        have hagain : op ≠ .waitDequeue := by
          rintro rfl
          exact hmay
        simp only [State.dequeue, hacquire, if_neg hagain] at hstep
        obtain rfl := Option.some.inj hstep
        have hfifo : Fifo lim (.dequeue op) o.object (op.result none) o.object := by
          rw [hempty]
          exact .empty notPeek hmay
        refine ⟨_, i, g, 0, .late hst now hfifo, hinner, counts', hitems, ?_, ?_⟩
        · rw [Observed.status_set_of_ne _ (by decide)]
          exact hproducer
        · rw [Observed.status_set_self, hist]
          exact .returning op none (by rw [Observed.object_set, counted, nothing])

/-- A step of the consumer inside the inner queue. -/
theorem matched_innerDequeue (h : Related lim least s o i g available) {op : DequeueOp}
    (hcalled : s.consumer = .inner op) {iop : Moodycamel.DequeueOp} {pc : DequeuePc α}
    (hinside : s.inner.consumer = .inside iop pc) {inner' : Moodycamel.State α}
    (hinnerStep : s.inner.step maxBlockSize .stepDequeue = some inner') :
    Matched lim least .consumer o [] { s with inner := inner' } := by
  obtain ⟨inner, sema, p, c⟩ := s
  obtain rfl : c = .inner op := hcalled
  obtain ⟨hinner, hcounts, hitems, hproducer, hconsumer⟩ := h
  obtain ⟨i', g', hobserved, hinner'⟩ := related_stepDequeue hinner hinnerStep
  have hseen := hinner.consumer
  rw [hinside] at hseen
  obtain ⟨ipast, hist, hmem, -⟩ := hseen
  rw [hist] at hconsumer
  generalize hst : o.status .consumer = st at hconsumer
  generalize hcall' : Pending.called (Moodycamel.Op.dequeue iop) ipast = ist at hconsumer
  cases hconsumer with
  | found acquired counted => cases hcall'
  | @looking _ past ipast' now seen acquired counted =>
    cases hcall'
    -- only `peek` ends without removing an element
    have hlooked : ∀ l ∈ ipast, op = .peek ∨ l = [] → i'.object = i.object →
        i'.status .consumer = .done (op.inner.result l.head?) →
        ProducerSeen o.object p (i'.status .producer) (o.status .producer) →
        Matched lim least .consumer o [] ⟨inner', sema, p, .inner op⟩ := by
      intro l hl hpeek hobject hdone hproducer'
      have hop : op = .peek := by
        by_contra hnot
        exact acquired hnot l hl (hpeek.resolve_left hnot)
      subst hop
      obtain ⟨seenThen, hpast, rfl⟩ := seen l hl
      refine ⟨_, i', g', available, .late hst hpast (Fifo.look seenThen), hinner', hcounts,
        hobject.trans hitems, ?_, ?_⟩
      · rw [Observed.status_set_of_ne _ (by decide)]
        exact hproducer'
      · rw [Observed.status_set_self, hdone]
        exact .found (fun hnot => absurd rfl hnot) counted
    have hevents : inner.events .stepDequeue = [] := rfl
    rw [hevents] at hobserved
    cases hobserved with
    | stay =>
      refine ⟨o, i, g', available, .stay o, hinner', hcounts, hitems, hproducer, ?_⟩
      rw [hist, hst]
      exact .looking now seen acquired counted
    | @effect _ _ _ items hcall heffect =>
      cases hist.symm.trans hcall
      rcases dequeue_cases heffect with ⟨notPeek, x, hfront, rfl⟩ | ⟨rfl, rfl, hpeek⟩
      · rw [if_neg notPeek] at counted
        cases hsignalled : o.object.signalled with
        | nil =>
          rw [hsignalled] at counted
          cases counted
        | cons y rest =>
          let object : Content α := ⟨rest, o.object.ahead⟩
          have hobject : o.object = ⟨y :: rest, o.object.ahead⟩ := by rw [← hsignalled]
          have hboth : x :: items = y :: object.items := by
            rw [← hfront, hitems, Content.items, hsignalled]
            rfl
          obtain ⟨rfl, hsame⟩ := List.cons.inj hboth
          have hfifo : Fifo lim (.dequeue op) o.object (op.result (some x)) object := by
            rw [hobject]
            exact .remove op notPeek
          refine ⟨_, _, g', available, .effect hst hfifo, hinner', hcounts, hsame, ?_, ?_⟩
          · rw [Observed.status_pass_of_ne _ (by decide), Observed.status_pass_of_ne _ (by decide),
              hsame]
            exact hproducer.remove rfl
          · rw [Observed.status_pass_self, Observed.status_pass_self]
            rw [hsignalled, List.length_cons] at counted
            exact .found (fun _ => rfl) (Nat.succ.inj counted)
      · refine hlooked i.object hmem hpeek rfl (Observed.status_pass_self _ _ _ _) ?_
        rw [Observed.status_pass_of_ne _ (by decide), hitems]
        exact hproducer.look
    | prepare hcall hprepare => cases hprepare
    | late hcall hl heffect =>
      cases hist.symm.trans hcall
      rcases dequeue_cases heffect with ⟨-, x, habsurd, -⟩ | ⟨-, rfl, hpeek⟩
      · have hlen := congrArg List.length habsurd
        simp at hlen
      · refine hlooked _ hl hpeek rfl (Observed.status_set_self _ _ _) ?_
        rw [Observed.status_set_of_ne _ (by decide)]
        exact hproducer

/-- The inner dequeue returns, with an element unless it was `peek`. -/
theorem matched_innerFound (h : Related lim least s o i g available) {op : DequeueOp}
    (hcalled : s.consumer = .inner op) {iop : Moodycamel.DequeueOp} {front : Option α}
    (hreturning : s.inner.consumer = .returning iop front) {inner' : Moodycamel.State α}
    (hinnerStep : s.inner.step maxBlockSize .returnDequeue = some inner') :
    Matched lim least .consumer o []
      { s with
        inner := inner'
        consumer := if op ≠ .peek ∧ front.isNone then .failed else .returning op front } := by
  obtain ⟨inner, sema, p, c⟩ := s
  obtain rfl : c = .inner op := hcalled
  obtain ⟨hinner, hcounts, hitems, hproducer, hconsumer⟩ := h
  obtain ⟨g', hinner'⟩ := inner_returnDequeue hinner hreturning hinnerStep
  have hseen := hinner.consumer
  rw [hreturning] at hseen
  have hist : i.status .consumer = .done (iop.result front) := hseen
  rw [hist] at hconsumer
  generalize hst : o.status .consumer = st at hconsumer
  generalize hdone : Pending.done (iop.result front) = ist at hconsumer
  cases hconsumer with
  | looking now seen acquired counted => cases hdone
  | found acquired counted =>
    obtain ⟨hresult, hnone⟩ := result_eq (Pending.done.inj hdone)
    have hsome : ¬ (op ≠ .peek ∧ front.isNone = true) := by
      rintro ⟨hop, hfront⟩
      rw [hnone, acquired hop] at hfront
      cases hfront
    rw [if_neg hsome]
    refine ⟨o, _, g', available, .stay o, hinner', hcounts, hitems, ?_, ?_⟩
    · rw [Observed.status_set_of_ne _ (by decide)]
      exact hproducer
    · rw [Observed.status_set_self, hst, ← hresult]
      exact .returning op front counted

theorem matched_stepDequeue (h : Related lim least s o i g available) {wakes : Bool}
    (hstep : s.step maxBlockSize (.stepDequeue wakes) = some s') :
    Matched lim least .consumer o (s.events (.stepDequeue wakes)) s' := by
  have hevents : s.events (.stepDequeue wakes) = [] := rfl
  rw [hevents]
  cases hc : s.consumer with
  | waiting op pc => exact matched_waiting h hc hstep
  | inner op =>
    cases hi : s.inner.consumer with
    | inside iop pc =>
      simp only [State.step, State.dequeue, hc, hi] at hstep
      obtain ⟨inner', hinnerStep, rfl⟩ := Option.map_eq_some_iff.1 hstep
      have hmatched := matched_innerDequeue h hc hi hinnerStep
      rw [hc] at hmatched
      exact hmatched
    | returning iop front =>
      simp only [State.step, State.dequeue, hc, hi] at hstep
      obtain ⟨inner', hinnerStep, rfl⟩ := Option.map_eq_some_iff.1 hstep
      exact matched_innerFound h hc hi hinnerStep
    | idle => simp [State.step, State.dequeue, Moodycamel.State.step, hc, hi] at hstep
    | failed =>
      have hseen := h.inner.consumer
      rw [hi] at hseen
      cases hseen
  | _ => simp [State.step, State.dequeue, hc] at hstep

/-- The thread that acts. -/
def Action.role : Action α → Role
  | .callEnqueue _ _ | .stepEnqueue _ | .returnEnqueue => .producer
  | .callDequeue _ | .stepDequeue _ | .returnDequeue => .consumer

/-- Every step of the two threads is matched by the queue whose operations take effect at once. -/
theorem matched_step (h : Related lim least s o i g available) {a : Action α}
    (hallowed : Allowed lim a) (hstep : s.step maxBlockSize a = some s') :
    Matched lim least a.role o (s.events a) s' := by
  cases a with
  | callEnqueue mode x => exact matched_callEnqueue h hallowed hstep
  | stepEnqueue malloc => exact matched_stepEnqueue h hallowed hstep
  | returnEnqueue => exact matched_returnEnqueue h hstep
  | callDequeue op => exact matched_callDequeue h hstep
  | stepDequeue wakes => exact matched_stepDequeue h hstep
  | returnDequeue => exact matched_returnDequeue h hstep

end Steps

/-! ## Runs -/

/-- The constructor, and nobody has called yet. -/
def State.start (q : ReaderWriterQueue α) : State α := ⟨.start q, .make, .idle, .idle⟩

/-- The run of the two threads is that of a queue whose operations take effect at once. -/
theorem explains_of_ready {lim : Limits} {least maxBlockSize : Nat} {q : ReaderWriterQueue α}
    {g : Layout α} (h : Ready lim least q g) {as : List (Action α)}
    (hallowed : ∀ a ∈ as, Allowed lim a) {s : State α}
    {history : List (Event Role (Op α) (Result α))}
    (hrun : runFrom (withHistory (State.step maxBlockSize) State.events) (.start q, []) as =
      some (s, history)) :
    ∃ ms a o i g available, Explains (fifo lim) ⟨[], none⟩ ms a o ∧
      ms.filterMap Moment.event? = history ∧ Related lim least s o i g available := by
  have hrelated : ∃ i g available,
      Related lim least (.start q) (.start ⟨[], none⟩) i g available :=
    ⟨_, g, 0, h.related, counts_make, rfl, .idle rfl, .idle rfl⟩
  have hstep : ∀ (s : State α) a s' o, (∃ i g available, Related lim least s o i g available) →
      Allowed lim a → s.step maxBlockSize a = some s' →
      ∃ o', ObservedStep (fifo lim) a.role o (s.events a) o' ∧
        ∃ i g available, Related lim least s' o' i g available := by
    rintro s a s' o ⟨i, g, available, hrelated⟩ ha hstep
    obtain ⟨o', i', g', available', hobserved, hrelated'⟩ := matched_step hrelated ha hstep
    exact ⟨o', hobserved, i', g', available', hrelated'⟩
  obtain ⟨ms, a, o, hexplains, hvisible, i, g', available, hrelated'⟩ :=
    explains_of_run hstep hallowed hrun hrelated (explains_start _) rfl
  exact ⟨ms, a, o, i, g', available, hexplains, hvisible, hrelated'⟩

theorem linearizable_of_ready {lim : Limits} {least maxBlockSize : Nat} {q : ReaderWriterQueue α}
    {g : Layout α} (h : Ready lim least q g) {as : List (Action α)}
    (hallowed : ∀ a ∈ as, Allowed lim a) {s : State α}
    {history : List (Event Role (Op α) (Result α))}
    (hrun : runFrom (withHistory (State.step maxBlockSize) State.events) (.start q, []) as =
      some (s, history)) : (fifo lim).Linearizable ⟨[], none⟩ history := by
  obtain ⟨ms, a, o, i, g', available, hexplains, hvisible, -⟩ := explains_of_ready h hallowed hrun
  exact ⟨ms, a, hexplains.run, hvisible⟩

end PipelineTools.Queues.Moodycamel.Blocking
