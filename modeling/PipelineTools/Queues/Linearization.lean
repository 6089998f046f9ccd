import PipelineTools.Queues.EnqueueSteps
import PipelineTools.Queues.DequeueSteps
import Mathlib.Algebra.Order.Ring.Nat
import Mathlib.Algebra.Order.Ring.Int
import Mathlib.Algebra.Order.BigOperators.Group.List

/-!
# The reader-writer queue is linearizable

`Fifo` is a queue whose operations take effect at once. `Limits` says how many elements it takes:
`try_enqueue` does not refuse an element while fewer than `guaranteed` are in the queue, and a queue
that may not grow never holds more than `maximal`.

An enqueue takes effect when `tail` is stored, or `tailBlock` if the element is in another block
than the one before; a dequeue takes effect when `front` is stored. A dequeue that fails takes
effect when the tail of the front block is read, and so does a refused enqueue of a queue with one
block when the front is read; both are decided by a later read.
-/

set_option autoImplicit false

namespace PipelineTools.Queues.Moodycamel

open PipelineTools.Library

variable {α : Type}

/-- What a queue promises about its size. -/
structure Limits where
  guaranteed : Nat
  maximal : Nat
  mayGrow : Prop
  mayFail : Prop

/-- A first-in first-out queue within the limits. -/
inductive Fifo (lim : Limits) : Op α → List α → Result α → List α → Prop
  | accept {items : List α} (mode : AllocationMode) (x : α)
      (room : ¬ lim.mayGrow → items.length < lim.maximal) :
      Fifo lim (.enqueue mode x) items (.enqueued true) (items ++ [x])
  | refuse {items : List α} (x : α) (full : lim.guaranteed ≤ items.length) :
      Fifo lim (.enqueue .CannotAlloc x) items (.enqueued false) items
  | noMemory {items : List α} (x : α) (fails : lim.mayFail) :
      Fifo lim (.enqueue .CanAlloc x) items (.enqueued false) items
  | remove {x : α} {items : List α} (op : DequeueOp) (notPeek : op ≠ .peek) :
      Fifo lim (.dequeue op) (x :: items) (op.result (some x)) items
  | look {x : α} {items : List α} :
      Fifo lim (.dequeue .peek) (x :: items) (DequeueOp.result .peek (some x)) (x :: items)
  | empty (op : DequeueOp) : Fifo lim (.dequeue op) [] (op.result none) []

/-- Calls of `enqueue` are for queues that may grow, and there may be no memory. -/
def Allowed (lim : Limits) : Action α → Prop
  | .callEnqueue .CanAlloc _ => lim.mayGrow
  | .stepEnqueue false => lim.mayFail
  | _ => True

/-- Nothing restricts the calls of a queue that may grow. -/
theorem allowed_of_mayGrow {lim : Limits} (hgrow : lim.mayGrow) (hfail : lim.mayFail)
    (a : Action α) : Allowed lim a := by
  cases a with
  | callEnqueue mode x =>
    cases mode with
    | CanAlloc => exact hgrow
    | CannotAlloc => trivial
  | stepEnqueue malloc =>
    cases malloc with
    | true => trivial
    | false => exact hfail
  | _ => trivial

/-- What is called. -/
def Action.op? : Action α → Option (Op α)
  | .callEnqueue mode x => some (.enqueue mode x)
  | .callDequeue op => some (.dequeue op)
  | _ => none

/-- The thread that may call an operation. -/
def Op.role : Op α → Role
  | .enqueue _ _ => .producer
  | .dequeue _ => .consumer

/-- The thread that acts. -/
def Action.role : Action α → Role
  | .callEnqueue _ _ | .stepEnqueue _ | .returnEnqueue => .producer
  | .callDequeue _ | .stepDequeue | .returnDequeue => .consumer

/-- The consumer leaves the producer where it is. -/
theorem State.step_producer {maxBlockSize : Nat} {s s' : State α} {a : Action α}
    (hstep : s.step maxBlockSize a = some s') (ha : a.role = .consumer) :
    s'.producer = s.producer := by
  obtain ⟨q, p, c⟩ := s
  cases a with
  | callDequeue op =>
    cases c with
    | idle =>
      obtain rfl := Option.some.inj hstep
      rfl
    | _ => cases hstep
  | stepDequeue =>
    cases c with
    | inside op pc =>
      obtain rfl := Option.some.inj hstep
      rfl
    | _ => cases hstep
  | returnDequeue =>
    cases c with
    | returning op front =>
      obtain rfl := Option.some.inj hstep
      rfl
    | _ => cases hstep
  | _ => cases ha

/-- The producer leaves the consumer where it is. -/
theorem State.step_consumer {maxBlockSize : Nat} {s s' : State α} {a : Action α}
    (hstep : s.step maxBlockSize a = some s') (ha : a.role = .producer) :
    s'.consumer = s.consumer := by
  obtain ⟨q, p, c⟩ := s
  cases a with
  | callEnqueue mode x =>
    cases p with
    | idle =>
      obtain rfl := Option.some.inj hstep
      rfl
    | _ => cases hstep
  | stepEnqueue malloc =>
    cases p with
    | inside mode x pc =>
      obtain rfl := Option.some.inj hstep
      rfl
    | _ => cases hstep
  | returnEnqueue =>
    cases p with
    | returning success =>
      obtain rfl := Option.some.inj hstep
      rfl
    | _ => cases hstep
  | _ => cases ha

/-- The calls in a history are made by the actions, each by its own thread. -/
theorem call_mem_events {s : State α} {a : Action α} {t : Role} {op : Op α}
    (h : .call t op ∈ s.events a) : a.op? = some op ∧ t = op.role := by
  cases a with
  | callEnqueue mode x =>
    cases List.mem_singleton.1 h
    exact ⟨rfl, rfl⟩
  | callDequeue op =>
    cases List.mem_singleton.1 h
    exact ⟨rfl, rfl⟩
  | returnEnqueue => cases hp : s.producer <;> simp [State.events, hp] at h
  | returnDequeue => cases hc : s.consumer <;> simp [State.events, hc] at h
  | stepEnqueue malloc => simp [State.events] at h
  | stepDequeue => simp [State.events] at h

/-- A restriction of the calls restricts the history. -/
theorem calls_of_run {P : Op α → Prop} {maxBlockSize : Nat} {s s' : State α}
    {history : List (Event Role (Op α) (Result α))} {as : List (Action α)}
    (hcalls : ∀ a ∈ as, ∀ op, a.op? = some op → P op)
    (hrun : runFrom (withHistory (State.step maxBlockSize) State.events) (s, []) as =
      some (s', history)) {t : Role} {op : Op α} (h : .call t op ∈ history) :
    P op ∧ t = op.role := by
  have hstep : ∀ (s : State α) a, (∀ op, a.op? = some op → P op) →
      ∀ e ∈ s.events a, ∀ t op, e = .call t op → P op ∧ t = op.role := by
    rintro s a ha _ he t op rfl
    obtain ⟨hop, ht⟩ := call_mem_events he
    exact ⟨ha op hop, ht⟩
  have hall := forall_events_of_run hstep hcalls hrun (by simp)
  exact hall _ h t op rfl

/-! ## The invariant of all runs -/

/-- The memory has the layout `g`, and both threads know what their program counters say. -/
structure Inv (least : Nat) (s : State α) (g : Layout α) : Prop where
  memory : Memory least s.queue g s.consumer.taken s.producer.pending s.producer.unpublished
  producer : ProducerAt least s.queue g s.producer
  consumer : ConsumerAt s.queue g s.consumer

section Sizes

variable {least : Nat} {q : ReaderWriterQueue α} {g : Layout α} {taken : Nat → Nat}
  {pending unpublished : Nat → List α}

/-- Number of elements for which the blocks have room. -/
def capacity (q : ReaderWriterQueue α) (g : Layout α) : Nat :=
  (g.ring.map fun b => (q.blocks b).sizeMask).sum

theorem Memory.length_items_le (h : Memory least q g taken pending unpublished) :
    g.items.length ≤ capacity q g := by
  have hbusy : g.items.length ≤ (g.busy.map fun b => (q.blocks b).sizeMask).sum := by
    rw [Layout.items, List.length_flatMap]
    apply List.sum_le_sum
    intro b hb
    exact (h.shows b (Memory.mem_ring_of_busy hb)).length_le
  rw [capacity, Layout.ring, List.map_append, List.sum_append]
  omega

/-- If the tail block is full, so are all blocks behind the front block. -/
theorem Memory.le_length_items (h : Memory least q g taken pending unpublished)
    (hfull : Full q g) : (g.busy.length - 1) * least ≤ g.items.length := by
  obtain ⟨rest, hbusy⟩ := h.busy_eq_cons
  have hnodup := h.nodup_busy
  rw [hbusy, List.nodup_cons] at hnodup
  have hrest : ∀ b ∈ rest, least ≤ (g.view b).contents.length := by
    intro b hb
    have hmem : b ∈ g.busy := by
      rw [hbusy]
      exact List.mem_cons_of_mem _ hb
    have hne : b ≠ q.frontBlock := fun heq => hnodup.1 (heq ▸ hb)
    have hleast := h.least_le b (Memory.mem_ring_of_busy hmem)
    by_cases htail : b = q.tailBlock
    · subst htail
      rw [hfull hne]
      exact hleast
    · rw [h.passed b hmem hne htail]
      exact hleast
  have hsum : rest.length * least ≤ (rest.map fun b => (g.view b).contents.length).sum := by
    have hle := List.card_nsmul_le_sum (rest.map fun b => (g.view b).contents.length) least
      (by simpa using hrest)
    simpa using hle
  rw [Layout.items, hbusy, List.flatMap_cons, List.length_append, List.length_flatMap,
    List.length_cons, Nat.add_sub_cancel]
  omega

/-- The blocks are enough for the limits. -/
structure Sized (lim : Limits) (least : Nat) (q : ReaderWriterQueue α) (g : Layout α) : Prop where
  guaranteed : lim.guaranteed ≤ max 1 (g.ring.length - 1) * least
  maximal : ¬ lim.mayGrow → capacity q g ≤ lim.maximal

variable {lim : Limits} {q' : ReaderWriterQueue α} {g' : Layout α}

theorem Sized.of_perm (h : Sized lim least q g) (hperm : g'.ring.Perm g.ring)
    (hmask : ∀ b ∈ g.ring, (q'.blocks b).sizeMask = (q.blocks b).sizeMask) :
    Sized lim least q' g' := by
  have hcapacity : capacity q' g' = capacity q g := by
    rw [capacity, capacity, (hperm.map _).sum_eq]
    congr 1
    exact List.map_congr_left hmask
  refine ⟨?_, ?_⟩
  · rw [hperm.length_eq]
    exact h.guaranteed
  · rw [hcapacity]
    exact h.maximal

theorem Sized.of_grow (h : Sized lim least q g) (hlen : g'.ring.length = g.ring.length + 1)
    (hgrow : lim.mayGrow) : Sized lim least q' g' := by
  refine ⟨Nat.le_trans h.guaranteed (Nat.mul_le_mul_right _ ?_), fun hnot => absurd hgrow hnot⟩
  omega

/-- With one block the guarantee is about that block. -/
theorem Sized.guaranteed_of_one (h : Sized lim least q g) (hone : g.ring.length = 1) :
    lim.guaranteed ≤ least := by
  have hle := h.guaranteed
  rw [hone] at hle
  simpa using hle

end Sizes

/-! ## The simulation -/

/-- The call of the producer in the queue whose operations take effect at once. At `compareNext` the
only block was full when its front was read. -/
def ProducerSeen (lim : Limits) (g : Layout α) (object : List α) :
    Producer α → Pending (Op α) (Result α) (List α) → Prop
  | .idle, st => st = .idle
  | .returning success, st => st = .done (.enqueued success)
  | .failed, _ => False
  | .inside mode x pc, st =>
      ∃ past, st = .called (.enqueue mode x) past ∧ object ∈ past ∧
        (mode = .CanAlloc → lim.mayGrow) ∧
        ∀ b, pc = .compareNext b → g.ring.length = 1 → ∃ s ∈ past, lim.guaranteed ≤ s.length

/-- The call of the consumer. At `loadTailBlock` the queue was empty when the tail was read if no
other block is in use. -/
def ConsumerSeen (q : ReaderWriterQueue α) (object : List α) :
    Consumer α → Pending (Op α) (Result α) (List α) → Prop
  | .idle, st => st = .idle
  | .returning op front, st => st = .done (op.result front)
  | .failed, _ => False
  | .inside op pc, st =>
      ∃ past, st = .called (.dequeue op) past ∧ object ∈ past ∧
        ∀ b, pc = .loadTailBlock b → q.tailBlock = q.frontBlock → [] ∈ past

/-- A state of the two threads and a state of the queue whose operations take effect at once. -/
structure Related (lim : Limits) (least : Nat) (s : State α)
    (o : Observed Role (Op α) (Result α) (List α)) (g : Layout α) : Prop where
  inv : Inv least s g
  sized : Sized lim least s.queue g
  made : s.queue.allocated = g.ring.length + s.producer.unlinked
  object : o.object = g.items
  producer : ProducerSeen lim g o.object s.producer (o.status .producer)
  consumer : ConsumerSeen s.queue o.object s.consumer (o.status .consumer)

section Seen

variable {lim : Limits} {q q' : ReaderWriterQueue α} {g g' : Layout α} {object object' : List α}

theorem ProducerSeen.of_length {p : Producer α} {st : Pending (Op α) (Result α) (List α)}
    (h : ProducerSeen lim g object p st) (hlen : g'.ring.length = g.ring.length) :
    ProducerSeen lim g' object p st := by
  cases p with
  | inside mode x pc =>
    obtain ⟨past, hst, hobject, hgrow, hfull⟩ := h
    refine ⟨past, hst, hobject, hgrow, ?_⟩
    rw [hlen]
    exact hfull
  | idle => exact h
  | returning success => exact h
  | failed => exact h

theorem ProducerSeen.pass {p : Producer α} {st : Pending (Op α) (Result α) (List α)}
    (h : ProducerSeen lim g object p st) : ProducerSeen lim g object' p (st.pass object') := by
  cases p with
  | inside mode x pc =>
    obtain ⟨past, rfl, hobject, hgrow, hfull⟩ := h
    refine ⟨object' :: past, rfl, List.mem_cons_self, hgrow, ?_⟩
    intro b hb hone
    obtain ⟨s, hs, hle⟩ := hfull b hb hone
    exact ⟨s, List.mem_cons_of_mem _ hs, hle⟩
  | idle =>
    obtain rfl := h
    exact rfl
  | returning success =>
    obtain rfl := h
    exact rfl
  | failed => exact h

theorem ConsumerSeen.of_tail {c : Consumer α} {st : Pending (Op α) (Result α) (List α)}
    (h : ConsumerSeen q object c st)
    (htail : q'.tailBlock = q'.frontBlock → q.tailBlock = q.frontBlock) :
    ConsumerSeen q' object c st := by
  cases c with
  | inside op pc =>
    obtain ⟨past, hst, hobject, hempty⟩ := h
    exact ⟨past, hst, hobject, fun b hb hlast => hempty b hb (htail hlast)⟩
  | idle => exact h
  | returning op front => exact h
  | failed => exact h

theorem ConsumerSeen.pass {c : Consumer α} {st : Pending (Op α) (Result α) (List α)}
    (h : ConsumerSeen q object c st) : ConsumerSeen q object' c (st.pass object') := by
  cases c with
  | inside op pc =>
    obtain ⟨past, rfl, hobject, hempty⟩ := h
    exact ⟨object' :: past, rfl, List.mem_cons_self,
      fun b hb hlast => List.mem_cons_of_mem _ (hempty b hb hlast)⟩
  | idle =>
    obtain rfl := h
    exact rfl
  | returning op front =>
    obtain rfl := h
    exact rfl
  | failed => exact h

/-- The producer only takes more blocks into use. -/
theorem ProducerMoves.tail_eq_front {least : Nat} (h : ProducerMoves q q' g g')
    {taken taken' : Nat → Nat} {pending unpublished pending' unpublished' : Nat → List α}
    (hmem : Memory least q g taken pending unpublished)
    (hmem' : Memory least q' g' taken' pending' unpublished')
    (heq : q'.tailBlock = q'.frontBlock) : q.tailBlock = q.frontBlock := by
  apply hmem.tail_eq_front
  have hlen := h.busy.length_le
  rw [hmem'.busy_eq_singleton heq, List.length_singleton] at hlen
  omega

/-- Only blocks of the ring have elements that are taken out. -/
theorem Inv.taken_eq_zero {least : Nat} {s : State α} (h : Inv least s g) {b : Nat}
    (hb : b ∉ g.ring) : s.consumer.taken b = 0 := by
  have hat := h.consumer
  cases hc : s.consumer with
  | idle => rfl
  | returning op front => rfl
  | failed => rfl
  | inside op pc =>
    rw [hc] at hat
    cases pc with
    | storeFront x block blockFront =>
      obtain ⟨-, rfl, -⟩ := hat
      have hne : b ≠ s.queue.frontBlock := by
        intro heq
        exact hb (heq ▸ Memory.mem_ring_of_busy h.memory.frontBlock_mem)
      exact if_neg hne
    | _ => rfl

/-- Nothing is hidden in the blocks in use. -/
theorem Inv.unpublished_eq_nil {least : Nat} {s : State α} (h : Inv least s g) {b : Nat}
    (hb : b ∈ g.busy) : s.producer.unpublished b = [] := by
  have hat := h.producer
  cases hp : s.producer with
  | idle => rfl
  | returning success => rfl
  | failed => rfl
  | inside mode x pc =>
    rw [hp] at hat
    cases pc with
    | storeTailBlock block =>
      obtain ⟨-, rest, hfree⟩ := hat
      have hne : b ≠ block := by
        rintro rfl
        exact h.memory.not_busy_of_free (by simp [hfree]) hb
      exact if_neg hne
    | _ => rfl

end Seen

section Steps

variable {lim : Limits} {least maxBlockSize : Nat} {s s' : State α}
  {o : Observed Role (Op α) (Result α) (List α)} {g : Layout α}

theorem related_callEnqueue (h : Related lim least s o g) {mode : AllocationMode} {x : α}
    (hallowed : Allowed lim (.callEnqueue mode x))
    (hstep : s.step maxBlockSize (.callEnqueue mode x) = some s') :
    ∃ o' g', ObservedStep (.atOnce (Fifo lim)) .producer o (s.events (.callEnqueue mode x)) o' ∧
      Related lim least s' o' g' := by
  have hproducer := h.producer
  have hmem := h.inv.memory
  cases hp : s.producer with
  | idle =>
    have hmade := h.made
    rw [hp] at hproducer hmem hmade
    simp only [State.step, hp, Option.some.injEq] at hstep
    subst hstep
    refine ⟨_, g, .call (.enqueue mode x) hproducer, ?_⟩
    refine ⟨⟨hmem, trivial, h.inv.consumer⟩, h.sized, hmade, h.object, ?_, ?_⟩
    · rw [Observed.status_set_self]
      refine ⟨_, rfl, List.mem_singleton.2 rfl, ?_, by simp⟩
      rintro rfl
      exact hallowed
    · rw [Observed.status_set_of_ne _ (by decide)]
      exact h.consumer
  | inside mode' x' pc => simp [State.step, hp] at hstep
  | returning success => simp [State.step, hp] at hstep
  | failed => simp [State.step, hp] at hstep

theorem related_returnEnqueue (h : Related lim least s o g)
    (hstep : s.step maxBlockSize .returnEnqueue = some s') :
    ∃ o' g', ObservedStep (.atOnce (Fifo lim)) .producer o (s.events .returnEnqueue) o' ∧
      Related lim least s' o' g' := by
  have hproducer := h.producer
  have hmem := h.inv.memory
  cases hp : s.producer with
  | returning success =>
    have hmade := h.made
    rw [hp] at hproducer hmem hmade
    simp only [State.step, hp, Option.some.injEq] at hstep
    subst hstep
    simp only [State.events, hp]
    refine ⟨_, g, .ret hproducer, ?_⟩
    refine ⟨⟨hmem, trivial, h.inv.consumer⟩, h.sized, hmade, h.object, ?_, ?_⟩
    · rw [Observed.status_set_self]
      rfl
    · rw [Observed.status_set_of_ne _ (by decide)]
      exact h.consumer
  | idle => simp [State.step, hp] at hstep
  | inside mode' x' pc => simp [State.step, hp] at hstep
  | failed => simp [State.step, hp] at hstep

theorem related_callDequeue (h : Related lim least s o g) {op : DequeueOp}
    (hstep : s.step maxBlockSize (.callDequeue op) = some s') :
    ∃ o' g', ObservedStep (.atOnce (Fifo lim)) .consumer o (s.events (.callDequeue op)) o' ∧
      Related lim least s' o' g' := by
  have hconsumer := h.consumer
  have hmem := h.inv.memory
  cases hc : s.consumer with
  | idle =>
    rw [hc] at hconsumer hmem
    simp only [State.step, hc, Option.some.injEq] at hstep
    subst hstep
    refine ⟨_, g, .call (.dequeue op) hconsumer, ?_⟩
    refine ⟨⟨hmem, h.inv.producer, trivial⟩, h.sized, h.made, h.object, ?_, ?_⟩
    · rw [Observed.status_set_of_ne _ (by decide)]
      exact h.producer
    · rw [Observed.status_set_self]
      exact ⟨_, rfl, List.mem_singleton.2 rfl, by simp⟩
  | inside op' pc => simp [State.step, hc] at hstep
  | returning op' front => simp [State.step, hc] at hstep
  | failed => simp [State.step, hc] at hstep

theorem related_returnDequeue (h : Related lim least s o g)
    (hstep : s.step maxBlockSize .returnDequeue = some s') :
    ∃ o' g', ObservedStep (.atOnce (Fifo lim)) .consumer o (s.events .returnDequeue) o' ∧
      Related lim least s' o' g' := by
  have hconsumer := h.consumer
  have hmem := h.inv.memory
  cases hc : s.consumer with
  | returning op front =>
    rw [hc] at hconsumer hmem
    simp only [State.step, hc, Option.some.injEq] at hstep
    subst hstep
    simp only [State.events, hc]
    refine ⟨_, g, .ret hconsumer, ?_⟩
    refine ⟨⟨hmem, h.inv.producer, trivial⟩, h.sized, h.made, h.object, ?_, ?_⟩
    · rw [Observed.status_set_of_ne _ (by decide)]
      exact h.producer
    · rw [Observed.status_set_self]
      rfl
  | idle => simp [State.step, hc] at hstep
  | inside op' pc => simp [State.step, hc] at hstep
  | failed => simp [State.step, hc] at hstep

/-- A ring of one block has only its front block in use. -/
theorem Memory.tail_eq_front_of_one {q : ReaderWriterQueue α} {taken : Nat → Nat}
    {pending unpublished : Nat → List α} (h : Memory least q g taken pending unpublished)
    (hone : g.ring.length = 1) : q.tailBlock = q.frontBlock := by
  apply h.tail_eq_front
  rw [Layout.ring, List.length_append] at hone
  omega

/-- A refused element: the guarantee was reached at some time of the call. -/
theorem Related.refused (h : Related lim least s o g) {past : List (List α)} {b : Nat}
    (hobject : o.object ∈ past) (hfree : g.free = []) (hfull : Full s.queue g)
    (hone : ∀ c, EnqueuePc.compareNext b = .compareNext c → g.ring.length = 1 →
      ∃ l ∈ past, lim.guaranteed ≤ l.length) : ∃ l ∈ past, lim.guaranteed ≤ l.length := by
  by_cases hlen : g.ring.length = 1
  · exact hone b rfl hlen
  · refine ⟨o.object, hobject, ?_⟩
    have hguaranteed := h.sized.guaranteed
    have hitems := h.inv.memory.le_length_items hfull
    have hring : g.ring = g.busy := by rw [Layout.ring, hfree, List.append_nil]
    rw [hring] at hguaranteed hlen
    have hpos := List.length_pos_of_mem h.inv.memory.frontBlock_mem
    rw [max_eq_right (by omega)] at hguaranteed
    rw [h.object]
    exact Nat.le_trans hguaranteed hitems

theorem related_stepEnqueue (h : Related lim least s o g) {malloc : Bool}
    (hallowed : Allowed (α := α) lim (.stepEnqueue malloc))
    (hstep : s.step maxBlockSize (.stepEnqueue malloc) = some s') :
    ∃ o' g', ObservedStep (.atOnce (Fifo lim)) .producer o (s.events (.stepEnqueue malloc)) o' ∧
      Related lim least s' o' g' := by
  have hseen := h.producer
  have hmem := h.inv.memory
  have hat := h.inv.producer
  have hmade := h.made
  cases hp : s.producer with
  | idle => simp [State.step, hp] at hstep
  | returning success => simp [State.step, hp] at hstep
  | failed => simp [State.step, hp] at hstep
  | inside mode x pc =>
    rw [hp] at hseen hmem hat hmade
    obtain ⟨past, hst, hobject, hgrow, hone⟩ := hseen
    obtain ⟨g', hcorrect⟩ := innerEnqueue_spec malloc maxBlockSize hmem hat
      fun c hc => h.inv.taken_eq_zero hc
    simp only [State.step, hp, Option.some.injEq] at hstep
    subst hstep
    generalize s.queue.innerEnqueue maxBlockSize malloc mode x pc = r at hcorrect
    obtain ⟨q', p'⟩ := r
    obtain ⟨hmem', hknows, hmoves, hring, hblocks, houtcome⟩ := hcorrect
    have hinv' : Inv least { s with queue := q', producer := p' } g' :=
      ⟨hmem', hknows, h.inv.consumer.stable hmoves hmem⟩
    have hsized' : Sized lim least q' g' := by
      rcases hring with hsame | ⟨hmode, hlen⟩
      · exact h.sized.of_perm (by rw [hsame]) hmoves.sizeMask
      · exact h.sized.of_grow hlen (hgrow hmode)
    have hmade' : q'.allocated = g'.ring.length + p'.unlinked := by
      have hcount : q'.allocated + g.ring.length + (Producer.inside mode x pc).unlinked =
        s.queue.allocated + g'.ring.length + p'.unlinked := hblocks
      omega
    have hconsumer : ConsumerSeen q' o.object s.consumer (o.status .consumer) :=
      h.consumer.of_tail fun heq => hmoves.tail_eq_front hmem hmem' heq
    -- a call that changes nothing in the queue may end where its result was decided
    have hlate : ∀ success l, p' = .returning success → g'.items = g.items → l ∈ past →
        Fifo lim (.enqueue mode x) l (.enqueued success) l →
        ∃ o' g', ObservedStep (.atOnce (Fifo lim)) .producer o [] o' ∧
          Related lim least { s with queue := q', producer := p' } o' g' := by
      intro success l hreturning hitems hl hfifo
      refine ⟨_, g', .late hst hl hfifo, hinv', hsized', hmade', ?_, ?_, ?_⟩
      · rw [Observed.object_set, h.object, hitems]
      · rw [Observed.status_set_self, hreturning]
        rfl
      · rw [Observed.status_set_of_ne _ (by decide)]
        exact hconsumer
    show ∃ o' g', ObservedStep (.atOnce (Fifo lim)) .producer o [] o' ∧ _
    cases houtcome with
    | goes items full =>
      refine ⟨o, g', .stay o, hinv', hsized', hmade', by rw [h.object, items], ?_, hconsumer⟩
      refine ⟨past, hst, hobject, hgrow, ?_⟩
      rintro b rfl hlen
      refine ⟨o.object, hobject, ?_⟩
      have hlen' : g.ring.length = 1 := by
        rcases hring with hsame | ⟨hmode, hsucc⟩
        · rw [← hsame, hlen]
        · have hpos := List.length_pos_of_mem (Memory.mem_ring_of_busy hmem.frontBlock_mem)
          omega
      have heq := hmem.tail_eq_front_of_one hlen'
      have hmask := full b rfl
      have hleast := hmem.least_le _ (Memory.mem_ring_of_busy hmem.tailBlock_mem)
      rw [h.object, hmem.items_eq_of_tail_eq_front heq, ← heq, hmask]
      exact Nat.le_trans (h.sized.guaranteed_of_one hlen') hleast
    | accepts items =>
      have hfifo : Fifo lim (.enqueue mode x) o.object (.enqueued true) g'.items := by
        rw [h.object, items]
        refine .accept mode x fun hnot => ?_
        have hle : g'.items.length ≤ capacity q' g' := hmem'.length_items_le
        have hmax := hsized'.maximal hnot
        rw [items, List.length_append, List.length_singleton] at hle
        omega
      refine ⟨_, g', .effect hst hfifo, hinv', hsized', hmade', rfl, ?_, ?_⟩
      · rw [Observed.status_pass_self]
        rfl
      · rw [Observed.status_pass_of_ne _ (by decide)]
        exact hconsumer.pass
    | refuses items cannot free full =>
      obtain ⟨l, hl, hle⟩ := h.refused hobject free full hone
      refine hlate false l rfl items hl ?_
      rw [cannot]
      exact .refuse x hle
    | noMemory items can none =>
      subst none
      refine hlate false o.object rfl items hobject ?_
      rw [can]
      exact .noMemory x hallowed

theorem related_stepDequeue (h : Related lim least s o g)
    (hstep : s.step maxBlockSize .stepDequeue = some s') :
    ∃ o' g', ObservedStep (.atOnce (Fifo lim)) .consumer o (s.events .stepDequeue) o' ∧
      Related lim least s' o' g' := by
  have hseen := h.consumer
  have hmem := h.inv.memory
  have hat := h.inv.consumer
  cases hc : s.consumer with
  | idle => simp [State.step, hc] at hstep
  | returning op front => simp [State.step, hc] at hstep
  | failed => simp [State.step, hc] at hstep
  | inside op pc =>
    rw [hc] at hseen hmem hat
    obtain ⟨past, hst, hobject, hempty⟩ := hseen
    obtain ⟨g', hcorrect⟩ := dequeue_spec hmem hat fun c hc => h.inv.unpublished_eq_nil hc
    simp only [State.step, hc, Option.some.injEq] at hstep
    subst hstep
    generalize s.queue.dequeue op pc = r at hcorrect
    obtain ⟨q', c'⟩ := r
    obtain ⟨hmem', hknows, hmoves, houtcome⟩ := hcorrect
    have hinv' : Inv least { s with queue := q', consumer := c' } g' :=
      ⟨hmem', h.inv.producer.stable hmoves, hknows⟩
    have hsized' : Sized lim least q' g' :=
      h.sized.of_perm hmoves.ring fun b hb => hmoves.sizeMask b
    have hmade' : q'.allocated = g'.ring.length + s.producer.unlinked := by
      have hallocated : q'.allocated = s.queue.allocated := hmoves.allocated
      rw [hallocated, hmoves.ring.length_eq]
      exact h.made
    have hproducer : ProducerSeen lim g' o.object s.producer (o.status .producer) :=
      h.producer.of_length hmoves.ring.length_eq
    -- what leaves the queue as it is may take effect at an earlier time of the call
    have hlate : ∀ front l, c' = .returning op front → g'.items = g.items → l ∈ past →
        Fifo lim (.dequeue op) l (op.result front) l →
        ∃ o' g', ObservedStep (.atOnce (Fifo lim)) .consumer o [] o' ∧
          Related lim least { s with queue := q', consumer := c' } o' g' := by
      intro front l hreturning hitems hl hfifo
      refine ⟨_, g', .late hst hl hfifo, hinv', hsized', hmade', ?_, ?_, ?_⟩
      · rw [Observed.object_set, h.object, hitems]
      · rw [Observed.status_set_of_ne _ (by decide)]
        exact hproducer
      · rw [Observed.status_set_self, hreturning]
        rfl
    show ∃ o' g', ObservedStep (.atOnce (Fifo lim)) .consumer o [] o' ∧ _
    cases houtcome with
    | goes items empty =>
      refine ⟨o, g', .stay o, hinv', hsized', hmade', by rw [h.object, items], hproducer, ?_⟩
      refine ⟨past, hst, hobject, ?_⟩
      rintro b rfl hlast
      -- the consumer has seen an empty queue: that time is noted
      have hnil := empty b rfl hlast
      rw [h.object, hnil] at hobject
      exact hobject
    | @removes pc x items notPeek =>
      -- the element is removed now, so the call takes effect now
      have hfifo : Fifo lim (.dequeue op) o.object (op.result (some x)) g'.items := by
        rw [h.object, items]
        exact .remove op notPeek
      refine ⟨_, g', .effect hst hfifo, hinv', hsized', hmade', rfl, ?_, ?_⟩
      · rw [Observed.status_pass_of_ne _ (by decide)]
        exact hproducer.pass
      · rw [Observed.status_pass_self]
        rfl
    | @peeks pc x rest items same isPeek =>
      refine hlate (some x) o.object rfl same hobject ?_
      rw [h.object, items, isPeek]
      exact .look
    | fails same last =>
      exact hlate none [] rfl same (hempty _ rfl last) (.empty op)

/-- Every step of the two threads is matched by the queue whose operations take effect at once. -/
theorem related_step (h : Related lim least s o g) {a : Action α} (hallowed : Allowed lim a)
    (hstep : s.step maxBlockSize a = some s') :
    ∃ o' g', ObservedStep (.atOnce (Fifo lim)) a.role o (s.events a) o' ∧
      Related lim least s' o' g' := by
  cases a with
  | callEnqueue mode element => exact related_callEnqueue h hallowed hstep
  | stepEnqueue malloc => exact related_stepEnqueue h hallowed hstep
  | returnEnqueue => exact related_returnEnqueue h hstep
  | callDequeue op => exact related_callDequeue h hstep
  | stepDequeue => exact related_stepDequeue h hstep
  | returnDequeue => exact related_returnDequeue h hstep

end Steps

/-! ## Runs -/

/-- Nobody has called yet. -/
def State.start (q : ReaderWriterQueue α) : State α := ⟨q, .idle, .idle⟩

/-- An empty queue with its blocks. -/
structure Ready (lim : Limits) (least : Nat) (q : ReaderWriterQueue α) (g : Layout α) : Prop where
  memory : Memory least q g (fun _ => 0) (fun _ => []) (fun _ => [])
  sized : Sized lim least q g
  made : q.allocated = g.ring.length
  items : g.items = []

section Runs

variable {lim : Limits} {least maxBlockSize : Nat} {q : ReaderWriterQueue α} {g : Layout α}

theorem Ready.related (h : Ready lim least q g) :
    Related lim least (.start q) (.start []) g :=
  ⟨⟨h.memory, trivial, trivial⟩, h.sized, h.made, h.items.symm, rfl, rfl⟩

/-- A matched state stays matched along a run. -/
theorem related_run {s s' : State α} {as : List (Action α)}
    (hstart : ∃ o g, Related lim least s o g) (hallowed : ∀ a ∈ as, Allowed lim a)
    (hrun : runFrom (State.step maxBlockSize) s as = some s') :
    ∃ o g, Related lim least s' o g := by
  induction as generalizing s with
  | nil =>
    obtain rfl := Option.some.inj hrun
    exact hstart
  | cons a as ih =>
    rw [List.forall_mem_cons] at hallowed
    obtain ⟨m, hstep, hrest⟩ := runFrom_cons.1 hrun
    obtain ⟨o, g, hrelated⟩ := hstart
    obtain ⟨o', g', -, hrelated'⟩ := related_step hrelated hallowed.1 hstep
    exact ih ⟨o', g', hrelated'⟩ hallowed.2 hrest

/-- The run of the two threads is that of a queue whose operations take effect at once. -/
theorem Ready.explains (h : Ready lim least q g) {as : List (Action α)}
    (hallowed : ∀ a ∈ as, Allowed lim a) {s : State α}
    {history : List (Event Role (Op α) (Result α))}
    (hrun : runFrom (withHistory (State.step maxBlockSize) State.events) (.start q, []) as =
      some (s, history)) :
    ∃ ms a o g, Explains (.atOnce (Fifo lim)) [] ms a o ∧ ms.filterMap Moment.event? = history ∧
      Related lim least s o g := by
  have hrelated : ∃ g, Related lim least (.start q) (.start []) g := ⟨g, h.related⟩
  have hstep : ∀ (s : State α) a s' o, (∃ g, Related lim least s o g) → Allowed lim a →
      s.step maxBlockSize a = some s' →
      ∃ o', ObservedStep (.atOnce (Fifo lim)) a.role o (s.events a) o' ∧
        ∃ g, Related lim least s' o' g := by
    rintro s a s' o ⟨g, hrelated⟩ ha hstep
    obtain ⟨o', g', hobserved, hrelated'⟩ := related_step hrelated ha hstep
    exact ⟨o', hobserved, g', hrelated'⟩
  obtain ⟨ms, a, o, hexplains, hvisible, g', hrelated'⟩ :=
    explains_of_run hstep hallowed hrun hrelated (explains_start []) rfl
  exact ⟨ms, a, o, g', hexplains, hvisible, hrelated'⟩

theorem Ready.linearizable (h : Ready lim least q g) {as : List (Action α)}
    (hallowed : ∀ a ∈ as, Allowed lim a) {s : State α}
    {history : List (Event Role (Op α) (Result α))}
    (hrun : runFrom (withHistory (State.step maxBlockSize) State.events) (.start q, []) as =
      some (s, history)) : Linearizable (Fifo lim) [] history := by
  obtain ⟨ms, a, o, g', hexplains, hvisible, -⟩ := h.explains hallowed hrun
  exact ⟨ms, a, hexplains.run, hvisible⟩

end Runs

end PipelineTools.Queues.Moodycamel
