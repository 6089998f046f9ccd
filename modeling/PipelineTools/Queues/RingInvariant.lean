import PipelineTools.Library.Ring
import PipelineTools.Queues.BlockViews
import Mathlib.Data.List.Perm.Basic

/-!
# The invariant of the circular list of blocks

`Layout` divides the circular list, entered at the front block, into the blocks from the front to
the tail block and the free ones behind. Its `items` are the elements of the queue. `Memory` says
what the members of the queue and of its blocks have to do with the layout.

`ProducerAt` and `ConsumerAt` are the assertions at the program counters. `ProducerMoves` and
`ConsumerMoves` list what the steps of one thread leave alone; the assertions of the other thread
are stable under them (`ConsumerAt.stable`, `ProducerAt.stable`).
-/

set_option autoImplicit false

namespace PipelineTools.Queues.Moodycamel

open PipelineTools.Library

variable {α : Type}

/-- The blocks from the front to the tail block, the other ones, and what they hold. -/
structure Layout (α : Type) where
  busy : List Nat
  free : List Nat
  view : Nat → View α

namespace Layout

/-- All blocks from the front block on. -/
def ring (g : Layout α) : List Nat := g.busy ++ g.free

/-- The elements of the queue, oldest first. -/
def items (g : Layout α) : List α := g.busy.flatMap fun b => (g.view b).contents

def setView (g : Layout α) (b : Nat) (v : View α) : Layout α :=
  { g with view := Function.update g.view b v }

@[simp] theorem busy_setView (g : Layout α) (b : Nat) (v : View α) :
    (g.setView b v).busy = g.busy := rfl

@[simp] theorem free_setView (g : Layout α) (b : Nat) (v : View α) :
    (g.setView b v).free = g.free := rfl

@[simp] theorem ring_setView (g : Layout α) (b : Nat) (v : View α) :
    (g.setView b v).ring = g.ring := rfl

@[simp] theorem view_setView_self (g : Layout α) (b : Nat) (v : View α) :
    (g.setView b v).view b = v := Function.update_self _ _ _

theorem view_setView_of_ne (g : Layout α) {b c : Nat} (h : c ≠ b) (v : View α) :
    (g.setView b v).view c = g.view c :=
  Function.update_of_ne h _ _

/-- A member that stays the same in one view does so in all. -/
theorem member_setView {γ : Type} (member : View α → γ) (g : Layout α) {b : Nat} {v : View α}
    (h : member v = member (g.view b)) (c : Nat) :
    member ((g.setView b v).view c) = member (g.view c) := by
  by_cases hc : c = b
  · rw [hc, view_setView_self, h]
  · rw [view_setView_of_ne g hc]

/-- A view with the same elements does not change the elements of the queue. -/
theorem items_setView_of_contents (g : Layout α) {b : Nat} {v : View α}
    (h : v.contents = (g.view b).contents) : (g.setView b v).items = g.items := by
  rw [items, items, busy_setView]
  congr 1
  funext c
  by_cases hc : c = b
  · subst hc
    rw [view_setView_self, h]
  · rw [view_setView_of_ne g hc]

/-- A block that is not in use does not change the elements of the queue. -/
theorem items_setView_of_not_mem (g : Layout α) {b : Nat} {v : View α} (h : b ∉ g.busy) :
    (g.setView b v).items = g.items := by
  rw [items, items, busy_setView, List.flatMap_def, List.flatMap_def]
  congr 1
  apply List.map_congr_left
  intro c hc
  have hne : c ≠ b := fun heq => h (heq ▸ hc)
  rw [view_setView_of_ne g hne]

end Layout

namespace ReaderWriterQueue

@[simp] theorem blocks_setBlock_self (q : ReaderWriterQueue α) (b : Nat) (block : Block α) :
    (q.setBlock b block).blocks b = block := Function.update_self _ _ _

theorem blocks_setBlock_of_ne (q : ReaderWriterQueue α) {b c : Nat} (h : c ≠ b) (block : Block α) :
    (q.setBlock b block).blocks c = q.blocks c :=
  Function.update_of_ne h _ _

/-- A member that is not stored keeps its value in every block. -/
theorem member_setBlock {γ : Type} (member : Block α → γ) (q : ReaderWriterQueue α) {b : Nat}
    {block : Block α} (h : member block = member (q.blocks b)) (c : Nat) :
    member ((q.setBlock b block).blocks c) = member (q.blocks c) := by
  by_cases hc : c = b
  · rw [hc, blocks_setBlock_self, h]
  · rw [blocks_setBlock_of_ne q hc]

@[simp] theorem frontBlock_setBlock (q : ReaderWriterQueue α) (b : Nat) (block : Block α) :
    (q.setBlock b block).frontBlock = q.frontBlock := rfl

@[simp] theorem tailBlock_setBlock (q : ReaderWriterQueue α) (b : Nat) (block : Block α) :
    (q.setBlock b block).tailBlock = q.tailBlock := rfl

@[simp] theorem allocated_setBlock (q : ReaderWriterQueue α) (b : Nat) (block : Block α) :
    (q.setBlock b block).allocated = q.allocated := rfl

@[simp] theorem largestBlockSize_setBlock (q : ReaderWriterQueue α) (b : Nat) (block : Block α) :
    (q.setBlock b block).largestBlockSize = q.largestBlockSize := rfl

end ReaderWriterQueue

/-! ## What is under way -/

/-- Elements that are constructed in a block and not yet counted in its `tail`. -/
def Producer.pending : Producer α → Nat → List α
  | .inside _ element (.storeTail tailBlock_ _), b => if b = tailBlock_ then [element] else []
  | .inside _ element (.storeNextTail tailBlockNext _), b =>
      if b = tailBlockNext then [element] else []
  | _, _ => []

/-- Elements of a block that nobody can reach before `tailBlock` is stored. -/
def Producer.unpublished : Producer α → Nat → List α
  | .inside _ element (.storeTailBlock block), b => if b = block then [element] else []
  | _, _ => []

/-- Blocks that are made and not yet in the ring. -/
def Producer.unlinked : Producer α → Nat
  | .inside _ _ (.link _ _) => 1
  | _ => 0

/-- Elements that are taken out of a block and still counted by its `front`. -/
def Consumer.taken : Consumer α → Nat → Nat
  | .inside _ (.storeFront _ block _), b => if b = block then 1 else 0
  | _, _ => 0

/-! ## The memory -/

/-- The members of the queue and its blocks have the layout `g`. Blocks between the front and the
tail block are full, those behind are empty, and every block has room for `least` elements. -/
structure Memory (least : Nat) (q : ReaderWriterQueue α) (g : Layout α) (taken : Nat → Nat)
    (pending unpublished : Nat → List α) : Prop where
  front : g.busy.head? = some q.frontBlock
  tail : g.busy.getLast? = some q.tailBlock
  links : Links (fun b => (q.blocks b).next) g.ring q.frontBlock
  nodup : g.ring.Nodup
  made : ∀ b ∈ g.ring, b < q.allocated
  shows : ∀ b ∈ g.ring, Shows (q.blocks b) (g.view b) (taken b) (pending b)
  passed : ∀ b ∈ g.busy, b ≠ q.frontBlock → b ≠ q.tailBlock →
    (g.view b).contents.length = (q.blocks b).sizeMask
  last : q.tailBlock ≠ q.frontBlock → (g.view q.tailBlock).contents ≠ []
  free : ∀ b ∈ g.free, (g.view b).contents = unpublished b
  least_pos : 1 ≤ least
  least_le : ∀ b ∈ g.ring, least ≤ (q.blocks b).sizeMask
  largest : least + 1 ≤ q.largestBlockSize ∧ ∃ k, q.largestBlockSize = 2 ^ k

namespace Memory

variable {least : Nat} {q : ReaderWriterQueue α} {g : Layout α} {taken : Nat → Nat}
  {pending unpublished : Nat → List α}

theorem busy_eq_cons (h : Memory least q g taken pending unpublished) :
    ∃ rest, g.busy = q.frontBlock :: rest := by
  have hfront := h.front
  cases hbusy : g.busy with
  | nil => simp [hbusy] at hfront
  | cons b rest =>
    rw [hbusy] at hfront
    obtain rfl := Option.some.inj hfront
    exact ⟨rest, rfl⟩

theorem busy_eq_concat (h : Memory least q g taken pending unpublished) :
    ∃ init, g.busy = init ++ [q.tailBlock] :=
  List.getLast?_eq_some_iff.1 h.tail

theorem frontBlock_mem (h : Memory least q g taken pending unpublished) :
    q.frontBlock ∈ g.busy := by
  obtain ⟨rest, hbusy⟩ := h.busy_eq_cons
  rw [hbusy]
  exact List.mem_cons_self

theorem tailBlock_mem (h : Memory least q g taken pending unpublished) : q.tailBlock ∈ g.busy :=
  List.mem_of_getLast? h.tail

theorem mem_ring_of_busy {b : Nat} (hb : b ∈ g.busy) : b ∈ g.ring := List.mem_append_left _ hb

theorem mem_ring_of_free {b : Nat} (hb : b ∈ g.free) : b ∈ g.ring := List.mem_append_right _ hb

theorem not_busy_of_free (h : Memory least q g taken pending unpublished) {b : Nat}
    (hb : b ∈ g.free) : b ∉ g.busy :=
  fun hbusy => List.disjoint_of_nodup_append h.nodup hbusy hb

theorem nodup_busy (h : Memory least q g taken pending unpublished) : g.busy.Nodup :=
  List.Nodup.of_append_left h.nodup

/-- The front block is the tail block exactly if no other block is in use. -/
theorem busy_eq_singleton (h : Memory least q g taken pending unpublished)
    (heq : q.tailBlock = q.frontBlock) : g.busy = [q.frontBlock] := by
  obtain ⟨rest, hbusy⟩ := h.busy_eq_cons
  obtain ⟨init, hconcat⟩ := h.busy_eq_concat
  have hnodup := h.nodup_busy
  cases init with
  | nil => rw [hconcat, heq, List.nil_append]
  | cons b init =>
    rw [hbusy, List.cons_append] at hconcat
    obtain ⟨rfl, rfl⟩ := List.cons.inj hconcat
    rw [hbusy, heq] at hnodup
    simp at hnodup

theorem tail_eq_front (h : Memory least q g taken pending unpublished)
    (hlen : g.busy.length < 2) : q.tailBlock = q.frontBlock := by
  obtain ⟨rest, hbusy⟩ := h.busy_eq_cons
  have htail := h.tail
  cases rest with
  | nil =>
    rw [hbusy] at htail
    exact (Option.some.inj htail).symm
  | cons b rest =>
    rw [hbusy, List.length_cons, List.length_cons] at hlen
    omega

theorem tail_ne_front (h : Memory least q g taken pending unpublished)
    (hlen : 2 ≤ g.busy.length) : q.tailBlock ≠ q.frontBlock := by
  intro heq
  rw [h.busy_eq_singleton heq] at hlen
  simp at hlen

/-- If only the tail block is in use the elements are those of the front block. -/
theorem items_eq_of_tail_eq_front (h : Memory least q g taken pending unpublished)
    (heq : q.tailBlock = q.frontBlock) : g.items = (g.view q.frontBlock).contents := by
  rw [Layout.items, h.busy_eq_singleton heq, List.flatMap_cons, List.flatMap_nil, List.append_nil]

/-- The block behind the tail block is the first free one, or the front block. -/
theorem next_tailBlock (h : Memory least q g taken pending unpublished) :
    (q.blocks q.tailBlock).next = g.free.headD q.frontBlock := by
  obtain ⟨init, hbusy⟩ := h.busy_eq_concat
  have hlinks := h.links
  rw [Layout.ring, hbusy, List.append_assoc, links_append] at hlinks
  exact hlinks.2.1

/-- The block behind the front block. -/
theorem next_frontBlock (h : Memory least q g taken pending unpublished) {b : Nat}
    {rest : List Nat} (hbusy : g.busy = q.frontBlock :: b :: rest) :
    (q.blocks q.frontBlock).next = b := by
  have hlinks := h.links
  rw [Layout.ring, hbusy] at hlinks
  exact hlinks.1

/-- A store to one block: the block has a new view, and its place in the ring allows for what the
view holds. -/
theorem setBlock (h : Memory least q g taken pending unpublished) {b : Nat} (hb : b ∈ g.ring)
    {block : Block α} {v : View α} {taken' : Nat → Nat} {pending' unpublished' : Nat → List α}
    (hshows : Shows block v (taken' b) (pending' b))
    (hnext : block.next = (q.blocks b).next) (hmask : block.sizeMask = (q.blocks b).sizeMask)
    (hother : ∀ c, c ≠ b → taken' c = taken c ∧ pending' c = pending c ∧
      unpublished' c = unpublished c)
    (hpassed : b ∈ g.busy → b ≠ q.frontBlock → b ≠ q.tailBlock →
      v.contents.length = block.sizeMask)
    (hlast : b = q.tailBlock → q.tailBlock ≠ q.frontBlock → v.contents ≠ [])
    (hfree : b ∈ g.free → v.contents = unpublished' b) :
    Memory least (q.setBlock b block) (g.setView b v) taken' pending' unpublished' := by
  refine { h with links := ?_, shows := ?_, passed := ?_, last := ?_, free := ?_, least_le := ?_ }
  · exact h.links.congr fun c _ => q.member_setBlock Block.next hnext c
  · intro c hc
    by_cases hcb : c = b
    · subst hcb
      rw [ReaderWriterQueue.blocks_setBlock_self, Layout.view_setView_self]
      exact hshows
    · obtain ⟨htaken, hpending, -⟩ := hother c hcb
      rw [ReaderWriterQueue.blocks_setBlock_of_ne q hcb, Layout.view_setView_of_ne g hcb, htaken,
        hpending]
      exact h.shows c hc
  · intro c hc hfront htail
    by_cases hcb : c = b
    · subst hcb
      rw [ReaderWriterQueue.blocks_setBlock_self, Layout.view_setView_self]
      exact hpassed hc hfront htail
    · rw [ReaderWriterQueue.blocks_setBlock_of_ne q hcb, Layout.view_setView_of_ne g hcb]
      exact h.passed c hc hfront htail
  · intro hne
    by_cases hcb : q.tailBlock = b
    · rw [ReaderWriterQueue.tailBlock_setBlock, hcb, Layout.view_setView_self]
      exact hlast hcb.symm hne
    · rw [ReaderWriterQueue.tailBlock_setBlock, Layout.view_setView_of_ne g hcb]
      exact h.last hne
  · intro c hc
    by_cases hcb : c = b
    · subst hcb
      rw [Layout.view_setView_self]
      exact hfree hc
    · rw [Layout.view_setView_of_ne g hcb, (hother c hcb).2.2]
      exact h.free c hc
  · intro c hc
    rw [q.member_setBlock Block.sizeMask hmask]
    exact h.least_le c hc

/-- A store to one block that leaves its elements as they are. -/
theorem setBlock_of_contents (h : Memory least q g taken pending unpublished) {b : Nat}
    (hb : b ∈ g.ring) {block : Block α} {v : View α} {taken' : Nat → Nat}
    {pending' : Nat → List α} (hshows : Shows block v (taken' b) (pending' b))
    (hcontents : v.contents = (g.view b).contents)
    (hnext : block.next = (q.blocks b).next) (hmask : block.sizeMask = (q.blocks b).sizeMask)
    (hother : ∀ c, c ≠ b → taken' c = taken c ∧ pending' c = pending c) :
    Memory least (q.setBlock b block) (g.setView b v) taken' pending' unpublished := by
  refine h.setBlock hb hshows hnext hmask ?_ ?_ ?_ ?_
  · intro c hc
    exact ⟨(hother c hc).1, (hother c hc).2, rfl⟩
  · intro hbusy hfront htail
    rw [hcontents, hmask]
    exact h.passed b hbusy hfront htail
  · rintro rfl hne
    rw [hcontents]
    exact h.last hne
  · intro hfree
    rw [hcontents]
    exact h.free b hfree

end Memory

/-! ## The assertions at the program counters -/

/-- The tail block is full unless the consumer is in it. -/
def Full (q : ReaderWriterQueue α) (g : Layout α) : Prop :=
  q.tailBlock ≠ q.frontBlock →
    (g.view q.tailBlock).contents.length = (q.blocks q.tailBlock).sizeMask

/-- The first free block, with room for an element, is `b`. -/
structure NextFree (q : ReaderWriterQueue α) (g : Layout α) (b : Nat) : Prop where
  first : ∃ rest, g.free = b :: rest
  room : HasRoom (q.blocks b) (g.view b)

/-- A new block behind the tail block, not yet linked, with its first element. -/
structure Unlinked (least : Nat) (q : ReaderWriterQueue α) (g : Layout α) (b : Nat)
    (element : α) : Prop where
  new : b ∉ g.ring
  made : b < q.allocated
  next : (q.blocks b).next = (q.blocks q.tailBlock).next
  shows : Shows (q.blocks b) (View.empty.push element).seeTail 0 []
  least_le : least ≤ (q.blocks b).sizeMask

/-- What the producer knows. -/
def ProducerAt (least : Nat) (q : ReaderWriterQueue α) (g : Layout α) : Producer α → Prop
  | .idle => True
  | .returning _ => True
  | .failed => False
  | .inside mode element pc =>
      match pc with
      | .start => True
      | .loadFront tailBlock_ blockTail nextBlockTail =>
          tailBlock_ = q.tailBlock ∧ blockTail = (q.blocks q.tailBlock).tail ∧
            nextBlockTail = (blockTail + 1) &&& (q.blocks q.tailBlock).sizeMask
      | .construct tailBlock_ blockTail nextBlockTail =>
          tailBlock_ = q.tailBlock ∧ blockTail = (q.blocks q.tailBlock).tail ∧
            nextBlockTail = (blockTail + 1) &&& (q.blocks q.tailBlock).sizeMask ∧
            HasRoom (q.blocks q.tailBlock) (g.view q.tailBlock)
      | .storeTail tailBlock_ nextBlockTail =>
          tailBlock_ = q.tailBlock ∧
            nextBlockTail =
              ((q.blocks q.tailBlock).tail + 1) &&& (q.blocks q.tailBlock).sizeMask ∧
            HasRoom (q.blocks q.tailBlock) (g.view q.tailBlock)
      | .compareNext tailBlock_ => tailBlock_ = q.tailBlock ∧ Full q g
      | .loadNextFront tailBlock_ => tailBlock_ = q.tailBlock ∧ Full q g ∧ g.free ≠ []
      | .constructNext tailBlockNext nextBlockTail =>
          Full q g ∧ NextFree q g tailBlockNext ∧ nextBlockTail = (q.blocks tailBlockNext).tail
      | .storeNextTail tailBlockNext nextBlockTail =>
          Full q g ∧ NextFree q g tailBlockNext ∧ nextBlockTail = (q.blocks tailBlockNext).tail
      | .makeBlock tailBlock_ => mode = .CanAlloc ∧ tailBlock_ = q.tailBlock ∧ Full q g
      | .link tailBlock_ newBlock =>
          mode = .CanAlloc ∧ tailBlock_ = q.tailBlock ∧ Full q g ∧
            Unlinked least q g newBlock element
      | .storeTailBlock block => Full q g ∧ ∃ rest, g.free = block :: rest

/-- The front block is empty, and `nextBlock` comes behind it. -/
structure AtNext (q : ReaderWriterQueue α) (g : Layout α) (nextBlock nextBlockFront : Nat) :
    Prop where
  second : ∃ rest, g.busy = q.frontBlock :: nextBlock :: rest
  empty : (g.view q.frontBlock).contents = []
  front : nextBlockFront = (q.blocks nextBlock).front

/-- What the consumer knows. -/
def ConsumerAt (q : ReaderWriterQueue α) (g : Layout α) : Consumer α → Prop
  | .idle => True
  | .returning _ _ => True
  | .failed => False
  | .inside op pc =>
      match pc with
      | .start => True
      | .loadTail frontBlock_ blockFront =>
          frontBlock_ = q.frontBlock ∧ blockFront = (q.blocks q.frontBlock).front
      | .loadTailBlock frontBlock_ => frontBlock_ = q.frontBlock
      | .reloadTail => 2 ≤ g.busy.length
      | .loadNext frontBlock_ =>
          frontBlock_ = q.frontBlock ∧ 2 ≤ g.busy.length ∧ (g.view q.frontBlock).contents = []
      | .loadNextTail nextBlock nextBlockFront => AtNext q g nextBlock nextBlockFront
      | .storeFrontBlock nextBlock nextBlockFront =>
          op ≠ .peek ∧ AtNext q g nextBlock nextBlockFront ∧
            (g.view nextBlock).front < (g.view nextBlock).localTail
      | .take block blockFront =>
          (op = .peek ∧ AtNext q g block blockFront) ∨
            (block = q.frontBlock ∧ blockFront = (q.blocks q.frontBlock).front ∧
              (g.view q.frontBlock).front < (g.view q.frontBlock).localTail)
      | .storeFront element block blockFront =>
          op ≠ .peek ∧ block = q.frontBlock ∧
            blockFront =
              ((q.blocks q.frontBlock).front + 1) &&& (q.blocks q.frontBlock).sizeMask ∧
            (g.view q.frontBlock).front < (g.view q.frontBlock).localTail ∧
            ∃ rest, (g.view q.frontBlock).contents = element :: rest

/-! ## What a thread leaves alone -/

/-- What the producer does not change. -/
structure ProducerMoves (q q' : ReaderWriterQueue α) (g g' : Layout α) : Prop where
  frontBlock : q'.frontBlock = q.frontBlock
  busy : g.busy <+: g'.busy
  front : ∀ b ∈ g.ring, (q'.blocks b).front = (q.blocks b).front
  sizeMask : ∀ b ∈ g.ring, (q'.blocks b).sizeMask = (q.blocks b).sizeMask
  view_front : ∀ b ∈ g.ring, (g'.view b).front = (g.view b).front
  view_localTail : ∀ b ∈ g.ring, (g'.view b).localTail = (g.view b).localTail
  grows : ∀ b ∈ g.busy, (g.view b).contents <+: (g'.view b).contents
  contents : ∀ b ∈ g.busy, b ≠ q.tailBlock → (g'.view b).contents = (g.view b).contents

/-- What the consumer does not change. -/
structure ConsumerMoves (q q' : ReaderWriterQueue α) (g g' : Layout α) : Prop where
  tailBlock : q'.tailBlock = q.tailBlock
  allocated : q'.allocated = q.allocated
  stays : q.tailBlock = q.frontBlock → q'.frontBlock = q.frontBlock
  ring : g'.ring.Perm g.ring
  free : g.free <+: g'.free
  tail : ∀ b, (q'.blocks b).tail = (q.blocks b).tail
  sizeMask : ∀ b, (q'.blocks b).sizeMask = (q.blocks b).sizeMask
  next : ∀ b, (q'.blocks b).next = (q.blocks b).next
  other : ∀ b, b ∉ g.ring → q'.blocks b = q.blocks b
  view_tail : ∀ b, (g'.view b).tail = (g.view b).tail
  view_localFront : ∀ b, (g'.view b).localFront = (g.view b).localFront
  contents : ∀ b, b ≠ q.frontBlock → (g'.view b).contents = (g.view b).contents

theorem HasRoom.congr {block block' : Block α} {v v' : View α} (h : HasRoom block v)
    (htail : v'.tail = v.tail) (hlocalFront : v'.localFront = v.localFront)
    (hmask : block'.sizeMask = block.sizeMask) : HasRoom block' v' := by
  rw [HasRoom, htail, hlocalFront, hmask]
  exact h

section Stable

variable {least : Nat} {q q' : ReaderWriterQueue α} {g g' : Layout α}

theorem ConsumerMoves.hasRoom (h : ConsumerMoves q q' g g') {b : Nat}
    (hroom : HasRoom (q.blocks b) (g.view b)) : HasRoom (q'.blocks b) (g'.view b) :=
  hroom.congr (h.view_tail b) (h.view_localFront b) (h.sizeMask b)

theorem ConsumerMoves.full (h : ConsumerMoves q q' g g') (hfull : Full q g) : Full q' g' := by
  intro hne
  rw [h.tailBlock] at hne ⊢
  have hne' : q.tailBlock ≠ q.frontBlock := by
    intro heq
    exact hne (heq.trans (h.stays heq).symm)
  rw [h.contents _ hne', h.sizeMask]
  exact hfull hne'

theorem ConsumerMoves.first_free (h : ConsumerMoves q q' g g') {b : Nat}
    (hfirst : ∃ rest, g.free = b :: rest) : ∃ rest, g'.free = b :: rest := by
  obtain ⟨rest, hrest⟩ := hfirst
  obtain ⟨more, hmore⟩ := h.free
  exact ⟨rest ++ more, by rw [← hmore, hrest, List.cons_append]⟩

theorem ConsumerMoves.nextFree (h : ConsumerMoves q q' g g') {b : Nat} (hfree : NextFree q g b) :
    NextFree q' g' b :=
  ⟨h.first_free hfree.first, h.hasRoom hfree.room⟩

theorem ConsumerMoves.unlinked (h : ConsumerMoves q q' g g') {b : Nat} {element : α}
    (hnew : Unlinked least q g b element) : Unlinked least q' g' b element := by
  have hsame := h.other b hnew.new
  refine ⟨?_, ?_, ?_, ?_, ?_⟩
  · rw [h.ring.mem_iff]
    exact hnew.new
  · rw [h.allocated]
    exact hnew.made
  · rw [h.next, h.tailBlock, h.next]
    exact hnew.next
  · rw [hsame]
    exact hnew.shows
  · rw [hsame]
    exact hnew.least_le

/-- The consumer does not invalidate what the producer knows. -/
theorem ProducerAt.stable (hmoves : ConsumerMoves q q' g g') {p : Producer α}
    (h : ProducerAt least q g p) : ProducerAt least q' g' p := by
  cases p with
  -- each place of the thread knows only what the other one leaves alone
  | idle => trivial
  | returning success => trivial
  | failed => exact h
  | inside mode element pc =>
    cases pc with
    | start => trivial
    | loadFront tailBlock_ blockTail nextBlockTail =>
      simp only [ProducerAt, hmoves.tailBlock, hmoves.tail, hmoves.sizeMask]
      exact h
    | construct tailBlock_ blockTail nextBlockTail =>
      simp only [ProducerAt, hmoves.tailBlock, hmoves.tail, hmoves.sizeMask]
      exact ⟨h.1, h.2.1, h.2.2.1, hmoves.hasRoom h.2.2.2⟩
    | storeTail tailBlock_ nextBlockTail =>
      simp only [ProducerAt, hmoves.tailBlock, hmoves.tail, hmoves.sizeMask]
      exact ⟨h.1, h.2.1, hmoves.hasRoom h.2.2⟩
    | compareNext tailBlock_ => exact ⟨h.1.trans hmoves.tailBlock.symm, hmoves.full h.2⟩
    | loadNextFront tailBlock_ =>
      refine ⟨h.1.trans hmoves.tailBlock.symm, hmoves.full h.2.1, ?_⟩
      intro hnil
      obtain ⟨more, hmore⟩ := hmoves.free
      rw [hnil] at hmore
      exact h.2.2 (List.append_eq_nil_iff.1 hmore).1
    | constructNext tailBlockNext nextBlockTail =>
      exact ⟨hmoves.full h.1, hmoves.nextFree h.2.1, h.2.2.trans (hmoves.tail _).symm⟩
    | storeNextTail tailBlockNext nextBlockTail =>
      exact ⟨hmoves.full h.1, hmoves.nextFree h.2.1, h.2.2.trans (hmoves.tail _).symm⟩
    | makeBlock tailBlock_ =>
      exact ⟨h.1, h.2.1.trans hmoves.tailBlock.symm, hmoves.full h.2.2⟩
    | link tailBlock_ newBlock =>
      exact ⟨h.1, h.2.1.trans hmoves.tailBlock.symm, hmoves.full h.2.2.1, hmoves.unlinked h.2.2.2⟩
    | storeTailBlock block => exact ⟨hmoves.full h.1, hmoves.first_free h.2⟩

theorem ProducerMoves.length_busy (h : ProducerMoves q q' g g') (hlen : 2 ≤ g.busy.length) :
    2 ≤ g'.busy.length :=
  Nat.le_trans hlen h.busy.length_le

theorem ProducerMoves.atNext (h : ProducerMoves q q' g g') {taken : Nat → Nat}
    {pending unpublished : Nat → List α} (hmem : Memory least q g taken pending unpublished)
    {b blockFront : Nat} (hnext : AtNext q g b blockFront) : AtNext q' g' b blockFront := by
  obtain ⟨rest, hbusy⟩ := hnext.second
  obtain ⟨more, hmore⟩ := h.busy
  have hb : b ∈ g.ring := Memory.mem_ring_of_busy (by rw [hbusy]; simp)
  have hne : q.frontBlock ≠ q.tailBlock := by
    have hlen : 2 ≤ g.busy.length := by
      rw [hbusy]
      simp
    exact (hmem.tail_ne_front hlen).symm
  refine ⟨⟨rest ++ more, ?_⟩, ?_, ?_⟩
  · rw [← hmore, hbusy, h.frontBlock, List.cons_append, List.cons_append]
  · rw [h.frontBlock, h.contents _ hmem.frontBlock_mem hne]
    exact hnext.empty
  · rw [h.front b hb]
    exact hnext.front

/-- The producer does not invalidate what the consumer knows. -/
theorem ConsumerAt.stable (hmoves : ProducerMoves q q' g g') {taken : Nat → Nat}
    {pending unpublished : Nat → List α} (hmem : Memory least q g taken pending unpublished)
    {c : Consumer α} (h : ConsumerAt q g c) : ConsumerAt q' g' c := by
  have hfront : q.frontBlock ∈ g.ring := Memory.mem_ring_of_busy hmem.frontBlock_mem
  cases c with
  | idle => trivial
  | returning op front => trivial
  | failed => exact h
  | inside op pc =>
    cases pc with
    | start => trivial
    | loadTail frontBlock_ blockFront =>
      simp only [ConsumerAt, hmoves.frontBlock, hmoves.front _ hfront]
      exact h
    | loadTailBlock frontBlock_ => exact h.trans hmoves.frontBlock.symm
    | reloadTail => exact hmoves.length_busy h
    | loadNext frontBlock_ =>
      obtain ⟨hsame, hlen, hempty⟩ := h
      have hne := (hmem.tail_ne_front hlen).symm
      refine ⟨hsame.trans hmoves.frontBlock.symm, hmoves.length_busy hlen, ?_⟩
      rw [hmoves.frontBlock, hmoves.contents _ hmem.frontBlock_mem hne]
      exact hempty
    | loadNextTail nextBlock nextBlockFront => exact hmoves.atNext hmem h
    | storeFrontBlock nextBlock nextBlockFront =>
      obtain ⟨hop, hnext, hlt⟩ := h
      obtain ⟨rest, hbusy⟩ := hnext.second
      have hb : nextBlock ∈ g.ring := Memory.mem_ring_of_busy (by rw [hbusy]; simp)
      refine ⟨hop, hmoves.atNext hmem hnext, ?_⟩
      rw [hmoves.view_front _ hb, hmoves.view_localTail _ hb]
      exact hlt
    | take block blockFront =>
      rcases h with ⟨hop, hnext⟩ | ⟨hblock, hblockFront, hlt⟩
      · exact .inl ⟨hop, hmoves.atNext hmem hnext⟩
      · refine .inr ⟨hblock.trans hmoves.frontBlock.symm, ?_, ?_⟩
        · rw [hmoves.frontBlock, hmoves.front _ hfront]
          exact hblockFront
        · rw [hmoves.frontBlock, hmoves.view_front _ hfront, hmoves.view_localTail _ hfront]
          exact hlt
    | storeFront element block blockFront =>
      obtain ⟨hop, hblock, hblockFront, hlt, rest, hcontents⟩ := h
      obtain ⟨more, hmore⟩ := hmoves.grows _ hmem.frontBlock_mem
      refine ⟨hop, hblock.trans hmoves.frontBlock.symm, ?_, ?_, rest ++ more, ?_⟩
      · rw [hmoves.frontBlock, hmoves.front _ hfront, hmoves.sizeMask _ hfront]
        exact hblockFront
      · rw [hmoves.frontBlock, hmoves.view_front _ hfront, hmoves.view_localTail _ hfront]
        exact hlt
      · rw [hmoves.frontBlock, ← hmore, hcontents, List.cons_append]

end Stable

end PipelineTools.Queues.Moodycamel
