import PipelineTools.Library.Linearizability

/-!
# moodycamel's reader-writer queue

The queue is a circular list of blocks, each of them a circular buffer. One thread, the producer,
calls `try_enqueue` or `enqueue`, another one, the consumer, `try_dequeue`, `pop` or `peek`, and
neither takes a lock. `Block` and `ReaderWriterQueue` have the members of the two classes; a block
is known by the number of blocks made before it, and a slot of its `data` is `none` while no object
lives in it.

`innerEnqueue` and `dequeue` are the bodies of the two functions, cut into steps. A step makes one
access to a variable that the other thread writes or reads; what a thread does with its own
variables goes into the step that follows. `State.step` interleaves the two threads at will. An
assertion that does not hold, a read of a slot without an object and the construction of an object
over another one end in `failed`.
-/

set_option autoImplicit false

namespace PipelineTools.Queues.Moodycamel

open PipelineTools.Library

variable {α : Type}

/-- `struct Block`. -/
structure Block (α : Type) where
  front : Nat
  localTail : Nat
  tail : Nat
  localFront : Nat
  next : Nat
  data : Nat → Option α
  sizeMask : Nat

/-- The bytes that `make_block` asks `malloc` for, computed in `size_t`; `sizeof(Block)` is 160, and
a block is aligned to 8. -/
def blockBytes (elementSize elementAlign capacity : Nat) : BitVec 64 :=
  let size : BitVec 64 := 160 + 8 - 1
  size + (BitVec.ofNat 64 elementSize * BitVec.ofNat 64 capacity + BitVec.ofNat 64 elementAlign - 1)

/-- These bytes are enough for the block, its slots and the alignment of both: the computation has
not wrapped around. -/
def EnoughBytes (elementSize elementAlign capacity : Nat) : Prop :=
  160 + 7 + (elementSize * capacity + (elementAlign - 1)) ≤
    (blockBytes elementSize elementAlign capacity).toNat

/-- `make_block`, when there is memory for it, and enough of it for all slots. `next` is set by the
caller. -/
def makeBlock (capacity : Nat) : Block α where
  front := 0
  localTail := 0
  tail := 0
  localFront := 0
  next := 0
  data _ := none
  sizeMask := capacity - 1

/-- `class ReaderWriterQueue` and the blocks it has allocated. -/
structure ReaderWriterQueue (α : Type) where
  blocks : Nat → Block α
  allocated : Nat
  frontBlock : Nat
  tailBlock : Nat
  largestBlockSize : Nat

/-- `enum AllocationMode`: `enqueue` may allocate, `try_enqueue` may not. -/
inductive AllocationMode where
  | CanAlloc
  | CannotAlloc
  deriving DecidableEq

/-- The functions of the consumer. -/
inductive DequeueOp where
  | tryDequeue
  | pop
  | peek
  deriving DecidableEq

/-- Where the producer stands in `inner_enqueue`, with its local variables. -/
inductive EnqueuePc where
  | start
  | loadFront (tailBlock_ blockTail nextBlockTail : Nat)
  | construct (tailBlock_ blockTail nextBlockTail : Nat)
  | storeTail (tailBlock_ nextBlockTail : Nat)
  | compareNext (tailBlock_ : Nat)
  | loadNextFront (tailBlock_ : Nat)
  | constructNext (tailBlockNext nextBlockTail : Nat)
  | storeNextTail (tailBlockNext nextBlockTail : Nat)
  | makeBlock (tailBlock_ : Nat)
  | link (tailBlock_ newBlock : Nat)
  | storeTailBlock (block : Nat)

/-- Where the consumer stands, with its local variables. -/
inductive DequeuePc (α : Type) where
  | start
  | loadTail (frontBlock_ blockFront : Nat)
  | loadTailBlock (frontBlock_ : Nat)
  | reloadTail
  | loadNext (frontBlock_ : Nat)
  | loadNextTail (nextBlock nextBlockFront : Nat)
  | storeFrontBlock (nextBlock nextBlockFront : Nat)
  | take (block blockFront : Nat)
  | storeFront (element : α) (block blockFront : Nat)

/-- The producer thread. -/
inductive Producer (α : Type) where
  | idle
  | inside (mode : AllocationMode) (element : α) (pc : EnqueuePc)
  | returning (success : Bool)
  | failed

/-- The consumer thread; it returns with the front element if there was one. -/
inductive Consumer (α : Type) where
  | idle
  | inside (op : DequeueOp) (pc : DequeuePc α)
  | returning (op : DequeueOp) (front : Option α)
  | failed

namespace ReaderWriterQueue

/-- Store to the members of a block. -/
def setBlock (q : ReaderWriterQueue α) (b : Nat) (block : Block α) : ReaderWriterQueue α :=
  { q with blocks := Function.update q.blocks b block }

/-- One step of `inner_enqueue<mode>(element)`. `malloc` tells whether there is memory for a new
block. -/
def innerEnqueue (maxBlockSize : Nat) (malloc : Bool) (mode : AllocationMode) (element : α)
    (q : ReaderWriterQueue α) : EnqueuePc → ReaderWriterQueue α × Producer α
  | .start =>
      let block := q.blocks q.tailBlock
      let nextBlockTail := (block.tail + 1) &&& block.sizeMask
      if nextBlockTail ≠ block.localFront then
        (q, .inside mode element (.construct q.tailBlock block.tail nextBlockTail))
      else (q, .inside mode element (.loadFront q.tailBlock block.tail nextBlockTail))
  | .loadFront tailBlock_ blockTail nextBlockTail =>
      let block := q.blocks tailBlock_
      let q := q.setBlock tailBlock_ { block with localFront := block.front }
      if nextBlockTail ≠ block.front then
        (q, .inside mode element (.construct tailBlock_ blockTail nextBlockTail))
      else (q, .inside mode element (.compareNext tailBlock_))
  | .construct tailBlock_ blockTail nextBlockTail =>
      let block := q.blocks tailBlock_
      match block.data blockTail with
      | some _ => (q, .failed)
      | none =>
          (q.setBlock tailBlock_
            { block with data := Function.update block.data blockTail (some element) },
            .inside mode element (.storeTail tailBlock_ nextBlockTail))
  | .storeTail tailBlock_ nextBlockTail =>
      (q.setBlock tailBlock_ { q.blocks tailBlock_ with tail := nextBlockTail }, .returning true)
  | .compareNext tailBlock_ =>
      if (q.blocks tailBlock_).next ≠ q.frontBlock then
        (q, .inside mode element (.loadNextFront tailBlock_))
      else match mode with
        | .CanAlloc => (q, .inside mode element (.makeBlock tailBlock_))
        | .CannotAlloc => (q, .returning false)
  | .loadNextFront tailBlock_ =>
      let tailBlockNext := (q.blocks tailBlock_).next
      let block := q.blocks tailBlockNext
      let q := q.setBlock tailBlockNext { block with localFront := block.front }
      if block.front = block.tail then
        (q, .inside mode element (.constructNext tailBlockNext block.tail))
      else (q, .failed)
  | .constructNext tailBlockNext nextBlockTail =>
      let block := q.blocks tailBlockNext
      match block.data nextBlockTail with
      | some _ => (q, .failed)
      | none =>
          (q.setBlock tailBlockNext
            { block with data := Function.update block.data nextBlockTail (some element) },
            .inside mode element (.storeNextTail tailBlockNext nextBlockTail))
  | .storeNextTail tailBlockNext nextBlockTail =>
      let block := q.blocks tailBlockNext
      (q.setBlock tailBlockNext { block with tail := (nextBlockTail + 1) &&& block.sizeMask },
        .inside mode element (.storeTailBlock tailBlockNext))
  | .makeBlock tailBlock_ =>
      let newBlockSize :=
        if q.largestBlockSize ≥ maxBlockSize then q.largestBlockSize else q.largestBlockSize * 2
      if malloc then
        let newBlock : Block α := Moodycamel.makeBlock newBlockSize
        -- nobody else knows the new block before it is linked
        ({ q with
            blocks := Function.update q.blocks q.allocated
              { newBlock with
                data := Function.update newBlock.data 0 (some element)
                tail := 1
                localTail := 1
                next := (q.blocks tailBlock_).next }
            allocated := q.allocated + 1
            largestBlockSize := newBlockSize },
          .inside mode element (.link tailBlock_ q.allocated))
      else (q, .returning false)
  | .link tailBlock_ newBlock =>
      (q.setBlock tailBlock_ { q.blocks tailBlock_ with next := newBlock },
        .inside mode element (.storeTailBlock newBlock))
  | .storeTailBlock block => ({ q with tailBlock := block }, .returning true)

/-- One step of `try_dequeue`, `pop` or `peek`. `peek` leaves the element where it is and does not
move on to the next block; the other two move the element out and destroy it. -/
def dequeue (op : DequeueOp) (q : ReaderWriterQueue α) :
    DequeuePc α → ReaderWriterQueue α × Consumer α
  | .start =>
      let block := q.blocks q.frontBlock
      if block.front ≠ block.localTail then (q, .inside op (.take q.frontBlock block.front))
      else (q, .inside op (.loadTail q.frontBlock block.front))
  | .loadTail frontBlock_ blockFront =>
      let block := q.blocks frontBlock_
      let q := q.setBlock frontBlock_ { block with localTail := block.tail }
      if blockFront ≠ block.tail then (q, .inside op (.take frontBlock_ blockFront))
      else (q, .inside op (.loadTailBlock frontBlock_))
  | .loadTailBlock frontBlock_ =>
      if frontBlock_ ≠ q.tailBlock then (q, .inside op .reloadTail)
      else (q, .returning op none)
  | .reloadTail =>
      let frontBlock_ := q.frontBlock
      let block := q.blocks frontBlock_
      let q := q.setBlock frontBlock_ { block with localTail := block.tail }
      if block.front ≠ block.tail then (q, .inside op (.take frontBlock_ block.front))
      else (q, .inside op (.loadNext frontBlock_))
  | .loadNext frontBlock_ =>
      let nextBlock := (q.blocks frontBlock_).next
      (q, .inside op (.loadNextTail nextBlock (q.blocks nextBlock).front))
  | .loadNextTail nextBlock nextBlockFront =>
      let block := q.blocks nextBlock
      if nextBlockFront = block.tail then (q, .failed)
      else if op = .peek then (q, .inside op (.take nextBlock nextBlockFront))
      else
        (q.setBlock nextBlock { block with localTail := block.tail },
          .inside op (.storeFrontBlock nextBlock nextBlockFront))
  | .storeFrontBlock nextBlock nextBlockFront =>
      ({ q with frontBlock := nextBlock }, .inside op (.take nextBlock nextBlockFront))
  | .take b blockFront =>
      let block := q.blocks b
      match block.data blockFront with
      | none => (q, .failed)
      | some element =>
          if op = .peek then (q, .returning op (some element))
          else
            (q.setBlock b { block with data := Function.update block.data blockFront none },
              .inside op (.storeFront element b ((blockFront + 1) &&& block.sizeMask)))
  | .storeFront element b blockFront =>
      (q.setBlock b { q.blocks b with front := blockFront }, .returning op (some element))

end ReaderWriterQueue

/-! ## The two threads -/

/-- What can be called. -/
inductive Op (α : Type) where
  | enqueue (mode : AllocationMode) (element : α)
  | dequeue (op : DequeueOp)

/-- What is returned. -/
inductive Result (α : Type) where
  | enqueued (success : Bool)
  | dequeued (element : Option α)
  | popped (success : Bool)
  | peeked (element : Option α)

/-- What a function of the consumer returns. -/
def DequeueOp.result : DequeueOp → Option α → Result α
  | .tryDequeue, front => .dequeued front
  | .pop, front => .popped front.isSome
  | .peek, front => .peeked front

inductive Role where
  | producer
  | consumer
  deriving DecidableEq

/-- A queue with its two threads. -/
structure State (α : Type) where
  queue : ReaderWriterQueue α
  producer : Producer α
  consumer : Consumer α

/-- What may happen next. -/
inductive Action (α : Type) where
  | callEnqueue (mode : AllocationMode) (element : α)
  | stepEnqueue (malloc : Bool)
  | returnEnqueue
  | callDequeue (op : DequeueOp)
  | stepDequeue
  | returnDequeue

namespace State

/-- One step of one of the two threads, if it is there. -/
def step (maxBlockSize : Nat) (s : State α) : Action α → Option (State α)
  | .callEnqueue mode element =>
      match s.producer with
      | .idle => some { s with producer := .inside mode element .start }
      | _ => none
  | .stepEnqueue malloc =>
      match s.producer with
      | .inside mode element pc =>
          let r := s.queue.innerEnqueue maxBlockSize malloc mode element pc
          some { s with queue := r.1, producer := r.2 }
      | _ => none
  | .returnEnqueue =>
      match s.producer with
      | .returning _ => some { s with producer := .idle }
      | _ => none
  | .callDequeue op =>
      match s.consumer with
      | .idle => some { s with consumer := .inside op .start }
      | _ => none
  | .stepDequeue =>
      match s.consumer with
      | .inside op pc =>
          let r := s.queue.dequeue op pc
          some { s with queue := r.1, consumer := r.2 }
      | _ => none
  | .returnDequeue =>
      match s.consumer with
      | .returning _ _ => some { s with consumer := .idle }
      | _ => none

/-- What can be seen of a step. -/
def events (s : State α) : Action α → List (Event Role (Op α) (Result α))
  | .callEnqueue mode element => [.call .producer (.enqueue mode element)]
  | .returnEnqueue =>
      match s.producer with
      | .returning success => [.ret .producer (.enqueued success)]
      | _ => []
  | .callDequeue op => [.call .consumer (.dequeue op)]
  | .returnDequeue =>
      match s.consumer with
      | .returning op front => [.ret .consumer (op.result front)]
      | _ => []
  | _ => []

end State

end PipelineTools.Queues.Moodycamel
