import PipelineTools.Queues.QueueConstruction
import PipelineTools.Queues.IQueue

/-!
# The lock-free queue

What the two pipelines at the ends of a `LockFreeQueue` may rely on. No interleaving of the two
threads ends in a failed assertion or in an access to a slot that is in the wrong state, and each
block has got the bytes that its slots take (`never_fails`). The calls of every interleaving can be
put in an order in which the queue is a first-in first-out queue (`linearizable_make`). For the
queue that `make_queue` builds this is the queue of `IQueue`, with room for exactly fifteen elements
(`lockFreeQueue_linearizable`).
-/

set_option autoImplicit false

namespace PipelineTools.Queues.Moodycamel

open PipelineTools.Library

variable {α : Type}

/-- No thread has failed an assertion or used a slot that is in the wrong state. -/
def State.Sound (s : State α) : Prop := s.producer ≠ .failed ∧ s.consumer ≠ .failed

theorem Inv.sound {least : Nat} {s : State α} {g : Layout α} (h : Inv least s g) : s.Sound := by
  refine ⟨?_, ?_⟩
  · intro hfailed
    have hat := h.producer
    rw [hfailed] at hat
    exact hat
  · intro hfailed
    have hat := h.consumer
    rw [hfailed] at hat
    exact hat

/-! ## The memory of the blocks -/

/-- No block has more than `n` slots, and none is made that has. -/
structure ReaderWriterQueue.BlocksAtMost (n : Nat) (q : ReaderWriterQueue α) : Prop where
  blocks : ∀ b < q.allocated, (q.blocks b).sizeMask < n
  largest : q.largestBlockSize ≤ n

section Blocks

variable {n maxBlockSize : Nat} {q : ReaderWriterQueue α}

/-- A store leaves the capacity of a block as it is. -/
theorem ReaderWriterQueue.BlocksAtMost.setBlock (h : q.BlocksAtMost n) {b : Nat} {block : Block α}
    (hmask : block.sizeMask = (q.blocks b).sizeMask) : (q.setBlock b block).BlocksAtMost n := by
  refine ⟨?_, h.largest⟩
  intro b' hb'
  rw [q.member_setBlock Block.sizeMask hmask]
  exact h.blocks b' hb'

/-- One block more, and a new size for the next one. -/
theorem ReaderWriterQueue.BlocksAtMost.made (h : q.BlocksAtMost n) {block : Block α} {m : Nat}
    (hmask : block.sizeMask < n) (hm : m ≤ n) :
    ReaderWriterQueue.BlocksAtMost n { q with
      blocks := Function.update q.blocks q.allocated block
      allocated := q.allocated + 1
      largestBlockSize := m } := by
  refine ⟨?_, hm⟩
  intro b hb
  show (Function.update q.blocks q.allocated block b).sizeMask < n
  have hlt : b < q.allocated + 1 := hb
  by_cases hnew : b = q.allocated
  · rw [hnew, Function.update_self]
    exact hmask
  · rw [Function.update_of_ne hnew]
    exact h.blocks b (by omega)

theorem ReaderWriterQueue.BlocksAtMost.innerEnqueue (h : q.BlocksAtMost n)
    (hmax : maxBlockSize * 2 ≤ n) (hpos : 0 < n) (malloc : Bool) (mode : AllocationMode) (x : α)
    (pc : EnqueuePc) : (q.innerEnqueue maxBlockSize malloc mode x pc).1.BlocksAtMost n := by
  cases pc with
  | start =>
    rw [ReaderWriterQueue.innerEnqueue]
    split_ifs <;> exact h
  | loadFront b t u =>
    rw [ReaderWriterQueue.innerEnqueue]
    split_ifs <;> exact h.setBlock rfl
  | construct b t u =>
    simp only [ReaderWriterQueue.innerEnqueue]
    split
    · exact h
    · exact h.setBlock rfl
  | storeTail b t => exact h.setBlock rfl
  | compareNext b =>
    simp only [ReaderWriterQueue.innerEnqueue]
    split_ifs
    · exact h
    · cases mode <;> exact h
  | loadNextFront b =>
    rw [ReaderWriterQueue.innerEnqueue]
    split_ifs <;> exact h.setBlock rfl
  | constructNext b t =>
    simp only [ReaderWriterQueue.innerEnqueue]
    split
    · exact h
    · exact h.setBlock rfl
  | storeNextTail b t => exact h.setBlock rfl
  | makeBlock b =>
    -- the size is doubled only below `maxBlockSize`
    have hlargest := h.largest
    simp only [ReaderWriterQueue.innerEnqueue]
    cases malloc with
    | false => exact h
    | true =>
      by_cases hlarge : q.largestBlockSize ≥ maxBlockSize
      · simp only [if_pos hlarge]
        exact h.made (by show q.largestBlockSize - 1 < n; omega) hlargest
      · simp only [if_neg hlarge]
        exact h.made (by show q.largestBlockSize * 2 - 1 < n; omega) (by omega)
  | link b b' => exact h.setBlock rfl
  | storeTailBlock b => exact ⟨h.blocks, h.largest⟩

theorem ReaderWriterQueue.BlocksAtMost.dequeue (h : q.BlocksAtMost n) (op : DequeueOp)
    (pc : DequeuePc α) : (q.dequeue op pc).1.BlocksAtMost n := by
  cases pc with
  | start =>
    rw [ReaderWriterQueue.dequeue]
    split_ifs <;> exact h
  | loadTail b t =>
    rw [ReaderWriterQueue.dequeue]
    split_ifs <;> exact h.setBlock rfl
  | loadTailBlock b =>
    rw [ReaderWriterQueue.dequeue]
    split_ifs <;> exact h
  | reloadTail =>
    rw [ReaderWriterQueue.dequeue]
    split_ifs <;> exact h.setBlock rfl
  | loadNext b => exact h
  | loadNextTail b t =>
    rw [ReaderWriterQueue.dequeue]
    split_ifs
    · exact h
    · exact h
    · exact h.setBlock rfl
  | storeFrontBlock b t => exact ⟨h.blocks, h.largest⟩
  | take b t =>
    simp only [ReaderWriterQueue.dequeue]
    split
    · exact h
    · split_ifs
      · exact h
      · exact h.setBlock rfl
  | storeFront x b t => exact h.setBlock rfl

/-- No step makes a larger block. -/
theorem blocksAtMost_step (hmax : maxBlockSize * 2 ≤ n) (hpos : 0 < n) {s s' : State α}
    {a : Action α} (h : s.queue.BlocksAtMost n) (hstep : s.step maxBlockSize a = some s') :
    s'.queue.BlocksAtMost n := by
  cases a with
  | stepEnqueue malloc =>
    rw [State.step] at hstep
    split at hstep
    · obtain rfl := Option.some.inj hstep
      exact h.innerEnqueue hmax hpos _ _ _ _
    · cases hstep
  | stepDequeue =>
    rw [State.step] at hstep
    split at hstep
    · obtain rfl := Option.some.inj hstep
      exact h.dequeue _ _
    · cases hstep
  | _ =>
    rw [State.step] at hstep
    split at hstep
    · obtain rfl := Option.some.inj hstep
      exact h
    · cases hstep

/-- Neither the one block nor those of the list are larger than `2 * maxBlockSize`. -/
theorem blocksAtMost_make {k size : Nat} (hmax : maxBlockSize = 2 ^ k) (hk : 1 ≤ k) (hle : k ≤ 62)
    (hone : 1 ≤ size) (hsmall : size < 2 ^ 63) :
    (.make maxBlockSize size : ReaderWriterQueue α).BlocksAtMost (maxBlockSize * 2) := by
  obtain ⟨n, -, hmade⟩ := exists_make_eq (α := α) hmax hk hle hone hsmall
  have htwo : 2 ≤ maxBlockSize := by
    rw [hmax]
    exact Nat.le_self_pow (by omega) 2
  by_cases hlarge : 2 ^ n > maxBlockSize * 2
  · rw [hmade, if_pos hlarge]
    refine ⟨?_, by show maxBlockSize ≤ maxBlockSize * 2; omega⟩
    intro b hb
    show ((List.range _).foldl (addBlock maxBlockSize) noBlocks b).sizeMask < maxBlockSize * 2
    rw [foldl_addBlock _ _ b hb]
    show maxBlockSize - 1 < maxBlockSize * 2
    omega
  · rw [hmade, if_neg hlarge]
    refine ⟨?_, Nat.le_of_not_lt hlarge⟩
    intro b hb
    show ((List.range 1).foldl (addBlock (2 ^ n)) noBlocks b).sizeMask < maxBlockSize * 2
    rw [foldl_addBlock _ _ b hb]
    show 2 ^ n - 1 < maxBlockSize * 2
    omega

end Blocks

/-- Every block has got the bytes that it needs. -/
def State.HasMemory (elementSize elementAlign : Nat) (s : State α) : Prop :=
  ∀ b < s.queue.allocated, EnoughBytes elementSize elementAlign ((s.queue.blocks b).sizeMask + 1)

/-- Where the bytes of the largest block can be counted, those of all others can. -/
theorem enoughBytes_of_le {elementSize elementAlign capacity n : Nat} (halign : 1 ≤ elementAlign)
    (hbytes : 160 + 7 + (elementSize * n + (elementAlign - 1)) < 2 ^ 64) (hle : capacity ≤ n) :
    EnoughBytes elementSize elementAlign capacity := by
  have hmul : elementSize * capacity ≤ elementSize * n := Nat.mul_le_mul_left _ hle
  have hproduct : (BitVec.ofNat 64 elementSize * BitVec.ofNat 64 capacity).toNat =
      elementSize * capacity := by
    rw [← BitVec.ofNat_mul, BitVec.toNat_ofNat]
    exact Nat.mod_eq_of_lt (by omega)
  have hbits : (BitVec.ofNat 64 elementAlign).toNat = elementAlign := by
    rw [BitVec.toNat_ofNat]
    exact Nat.mod_eq_of_lt (by omega)
  rw [EnoughBytes, blockBytes]
  generalize BitVec.ofNat 64 elementSize * BitVec.ofNat 64 capacity = product at hproduct ⊢
  generalize BitVec.ofNat 64 elementAlign = align at hbits ⊢
  bv_omega

section

variable {maxBlockSize k size : Nat}

/-- No interleaving fails. -/
theorem everyState_sound (hmax : maxBlockSize = 2 ^ k) (hk : 1 ≤ k) (hle : k ≤ 62)
    (hone : 1 ≤ size) (hsmall : size < 2 ^ 63) (as : List (Action α)) :
    EveryState (State.step maxBlockSize) State.Sound (.start (.make maxBlockSize size)) as := by
  intro pre post s hpre hrun
  obtain ⟨least, g, hready⟩ := ready_make (α := α) hmax hk hle hone hsmall True True
  obtain ⟨o, g', hrelated⟩ := related_run ⟨_, g, hready.related⟩
    (fun a ha => allowed_of_mayGrow trivial trivial a) hrun
  exact hrelated.inv.sound

/-- The assertions of the queue hold in every interleaving, elements are only read where they live,
and only constructed where none does; and no block is shorter than its slots. -/
theorem never_fails {elementSize elementAlign : Nat} (hmax : maxBlockSize = 2 ^ k) (hk : 1 ≤ k)
    (hle : k ≤ 62) (hone : 1 ≤ size) (hsmall : size < 2 ^ 63) (halign : 1 ≤ elementAlign)
    (hbytes : 160 + 7 + (elementSize * (maxBlockSize * 2) + (elementAlign - 1)) < 2 ^ 64)
    (as : List (Action α)) :
    EveryState (State.step maxBlockSize)
      (fun s => s.Sound ∧ s.HasMemory elementSize elementAlign)
      (.start (.make maxBlockSize size)) as := by
  intro pre post s hpre hrun
  refine ⟨everyState_sound hmax hk hle hone hsmall as pre post s hpre hrun, ?_⟩
  have hpos : 0 < maxBlockSize * 2 := by
    rw [hmax]
    exact Nat.mul_pos (Nat.two_pow_pos k) (by decide)
  have hblocks := runFrom_invariant
    (fun s a s' h hstep => blocksAtMost_step (Nat.le_refl _) hpos h hstep)
    (blocksAtMost_make hmax hk hle hone hsmall) hrun
  intro b hb
  exact enoughBytes_of_le halign hbytes (hblocks.blocks b hb)

/-- The second block is made while the consumer is inside `try_dequeue`. -/
def growing : List (Action Nat) :=
  [.callEnqueue .CanAlloc 7, .stepEnqueue true, .stepEnqueue true, .stepEnqueue true,
    .returnEnqueue, .callEnqueue .CanAlloc 8, .stepEnqueue true, .callDequeue .tryDequeue,
    .stepDequeue, .stepEnqueue true, .stepEnqueue true, .stepEnqueue true, .stepDequeue]

theorem never_fails_growing :
    (∃ s, runFrom (State.step 2) (.start (.make 2 1)) growing = some s ∧ s.queue.allocated = 2) ∧
      EveryState (State.step 2) (fun s => s.Sound ∧ s.HasMemory 4 4) (.start (.make 2 1)) growing :=
  ⟨⟨_, rfl, rfl⟩, never_fails (by decide : 2 = 2 ^ 1) (by decide) (by decide) (by decide)
    (by decide) (by decide) (by decide) growing⟩

/-- The history of every interleaving is that of a first-in first-out queue that takes at least
`size` elements. -/
theorem linearizable_make (hmax : maxBlockSize = 2 ^ k) (hk : 1 ≤ k) (hle : k ≤ 62)
    (hone : 1 ≤ size) (hsmall : size < 2 ^ 63) (mayGrow mayFail : Prop) {as : List (Action α)}
    (hallowed : ∀ a ∈ as, Allowed (limitsOf α maxBlockSize size mayGrow mayFail) a) {s : State α}
    {history : List (Event Role (Op α) (Result α))}
    (hrun : runFrom (withHistory (State.step maxBlockSize) State.events)
      (.start (.make maxBlockSize size), []) as = some (s, history)) :
    Linearizable (Fifo (limitsOf α maxBlockSize size mayGrow mayFail)) [] history := by
  obtain ⟨least, g, hready⟩ := ready_make (α := α) hmax hk hle hone hsmall mayGrow mayFail
  exact hready.linearizable hallowed hrun

/-- An element arrives while `try_dequeue` looks for one. -/
def overlapping : List (Action Nat) :=
  [.callEnqueue .CannotAlloc 7, .stepEnqueue true, .callDequeue .tryDequeue, .stepDequeue,
    .stepEnqueue true, .stepEnqueue true, .returnEnqueue, .stepDequeue, .stepDequeue, .stepDequeue,
    .returnDequeue]

theorem linearizable_make_overlapping : ∃ s history,
    runFrom (withHistory (State.step 2) State.events) (.start (.make 2 4), []) overlapping =
        some (s, history) ∧
      history = [.call .producer (.enqueue .CannotAlloc 7), .call .consumer (.dequeue .tryDequeue),
        .ret .producer (.enqueued true), .ret .consumer (.dequeued (some 7))] ∧
      Linearizable (Fifo (limitsOf Nat 2 4 False False)) [] history := by
  have hallowed : ∀ a ∈ overlapping, Allowed (limitsOf Nat 2 4 False False) a := by
    simp [overlapping, Allowed]
  exact ⟨_, _, rfl, rfl, linearizable_make (by decide : 2 = 2 ^ 1) (by decide)
    (by decide) (by decide : 1 ≤ 4) (by decide) False False hallowed rfl⟩

end

/-! ## The queue of `make_queue` -/

/-- The calls that `MoodycamelQueue` makes: `push` calls `try_enqueue`, and `pop` calls
`try_dequeue`. -/
def MoodycamelCalls : Op α → Prop
  | .enqueue mode _ => mode = .CannotAlloc
  | .dequeue op => op ≠ .pop

/-- What these calls do to a queue behind the interface `IQueue`. -/
inductive Does : Op α → IQueue α → Result α → IQueue α → Prop
  | push (x : α) (q : IQueue α) :
      Does (.enqueue .CannotAlloc x) q (.enqueued (q.push x).1) (q.push x).2
  | pop (q : IQueue α) : Does (.dequeue .tryDequeue) q (.dequeued q.pop.1) q.pop.2
  | peek (q : IQueue α) : Does (.dequeue .peek) q (.peeked q.items.head?) q

/-- A bounded queue with the elements `items`. -/
def IsBoundedQueue (capacity : Nat) (items : List α) (q : IQueue α) : Prop :=
  q.items = items ∧ q.capacity = some capacity

/-- A first-in first-out queue with a fixed capacity is one of the queues of `IQueue`. -/
theorem does_of_fifo {lim : Limits} {capacity : Nat} (hmaximal : lim.maximal = capacity)
    (hguaranteed : lim.guaranteed = capacity) (hgrow : ¬ lim.mayGrow) {op : Op α}
    {items items' : List α} {result : Result α} {q : IQueue α} (hcalls : MoodycamelCalls op)
    (hq : IsBoundedQueue capacity items q) (h : Fifo lim op items result items') :
    ∃ q', Does op q result q' ∧ IsBoundedQueue capacity items' q' := by
  obtain ⟨hitems, hcapacity⟩ := hq
  cases h with
  | accept mode x room =>
    obtain rfl : mode = .CannotAlloc := hcalls
    -- the queue cannot grow, so an accepted element has found room
    have hroom : q.HasRoom := by
      intro c hc
      obtain rfl := Option.some.inj (hcapacity.symm.trans hc)
      rw [← hmaximal, hitems]
      exact room hgrow
    obtain ⟨hpush, hcontent, hsame⟩ := IQueue.push_of_hasRoom hroom x
    exact ⟨_, hpush ▸ .push x q, by rw [hcontent, hitems], hsame.trans hcapacity⟩
  | refuse x full =>
    -- refused with at least as many elements as the queue guarantees
    have hfull : ¬ q.HasRoom := by
      intro hroom
      have hlt := hroom capacity hcapacity
      rw [hitems] at hlt
      omega
    have hdoes := Does.push x q
    rw [IQueue.push_of_full hfull x] at hdoes
    exact ⟨q, hdoes, hitems, hcapacity⟩
  | noMemory x fails => cases hcalls
  | @remove x rest op notPeek =>
    have hop : op = .tryDequeue := by
      cases op with
      | tryDequeue => rfl
      | pop => exact absurd rfl hcalls
      | peek => exact absurd rfl notPeek
    subst hop
    obtain ⟨hpop, hcontent, hsame⟩ := IQueue.pop_cons hitems
    have hdoes := Does.pop q
    rw [hpop] at hdoes
    exact ⟨_, hdoes, hcontent, hsame.trans hcapacity⟩
  | @look x rest =>
    have hdoes := Does.peek q
    rw [hitems] at hdoes
    exact ⟨q, hdoes, hitems, hcapacity⟩
  | empty op =>
    cases op with
    | tryDequeue =>
      have hdoes := Does.pop q
      rw [IQueue.pop_nil hitems] at hdoes
      exact ⟨q, hdoes, hitems, hcapacity⟩
    | pop => exact absurd rfl hcalls
    | peek =>
      have hdoes := Does.peek q
      rw [hitems] at hdoes
      exact ⟨q, hdoes, hitems, hcapacity⟩

/-- `make_queue` makes its lock-free queue with the default size of fifteen elements, in blocks of
at most 512. -/
theorem limitsOf_default (mayFail : Prop) :
    (limitsOf α 512 15 False mayFail).maximal = 15 ∧
      (limitsOf α 512 15 False mayFail).guaranteed = 15 := by
  have hceil : ceilToPow2 (BitVec.ofNat 64 15 + 1) = 16#64 := by decide
  refine ⟨?_, rfl⟩
  simp only [limitsOf, ReaderWriterQueue.make, hceil]
  rfl

/-- The queue of a `LockFreeQueue`: every interleaving of the thread that pushes and the thread that
pops and peeks has the results of a queue of `IQueue` that is used by one thread at a time. -/
theorem lockFreeQueue_linearizable {as : List (Action α)}
    (hcalls : ∀ a ∈ as, ∀ op, a.op? = some op → MoodycamelCalls op) {s : State α}
    {history : List (Event Role (Op α) (Result α))}
    (hrun : runFrom (withHistory (State.step 512) State.events) (.start (.make 512 15), []) as =
      some (s, history)) : Linearizable Does (makeQueue 15 .LOCK_FREE) history := by
  have hallowed : ∀ a ∈ as, Allowed (limitsOf α 512 15 False True) a := by
    intro a ha
    cases a with
    | callEnqueue mode x =>
      have hmode : mode = .CannotAlloc := hcalls _ ha _ rfl
      subst hmode
      trivial
    | stepEnqueue malloc =>
      cases malloc with
      | true => trivial
      | false => trivial
    | _ => trivial
  obtain ⟨least, g, hready⟩ := ready_make (α := α) (by decide : 512 = 2 ^ 9) (by decide)
    (by decide) (by decide : 1 ≤ 15) (by decide) False True
  have hlinearizable := hready.linearizable hallowed hrun
  obtain ⟨hmaximal, hguaranteed⟩ := limitsOf_default (α := α) True
  have hinit : IsBoundedQueue 15 ([] : List α) (makeQueue 15 .LOCK_FREE) :=
    ⟨IQueue.items_makeQueue 15 .LOCK_FREE, rfl⟩
  exact hlinearizable.refine
    (fun op s result s' t hop hrel h => does_of_fifo hmaximal hguaranteed id hop hrel h) hinit
    fun t op h => (calls_of_run hcalls hrun h).1

/-- An element is pushed, looked at and popped, and a second `pop` finds nothing. -/
def pushPeekPop : List (Action Nat) :=
  [.callEnqueue .CannotAlloc 7, .stepEnqueue true, .stepEnqueue true, .stepEnqueue true,
    .returnEnqueue, .callDequeue .peek, .stepDequeue, .stepDequeue, .stepDequeue, .returnDequeue,
    .callDequeue .tryDequeue, .stepDequeue, .stepDequeue, .stepDequeue, .returnDequeue,
    .callDequeue .tryDequeue, .stepDequeue, .stepDequeue, .stepDequeue, .returnDequeue]

theorem lockFreeQueue_linearizable_pop : ∃ s history,
    runFrom (withHistory (State.step 512) State.events) (.start (.make 512 15), []) pushPeekPop =
        some (s, history) ∧
      history = [.call .producer (.enqueue .CannotAlloc 7), .ret .producer (.enqueued true),
        .call .consumer (.dequeue .peek), .ret .consumer (.peeked (some 7)),
        .call .consumer (.dequeue .tryDequeue), .ret .consumer (.dequeued (some 7)),
        .call .consumer (.dequeue .tryDequeue), .ret .consumer (.dequeued none)] ∧
      Linearizable Does (makeQueue 15 .LOCK_FREE) history := by
  have hcalls : ∀ a ∈ pushPeekPop, ∀ op, a.op? = some op → MoodycamelCalls op := by
    simp [pushPeekPop, Action.op?, MoodycamelCalls]
  exact ⟨_, _, rfl, rfl, lockFreeQueue_linearizable hcalls rfl⟩

end PipelineTools.Queues.Moodycamel
