import PipelineTools.Queues.RingInvariant

/-!
# The steps of the producer

`innerEnqueue_spec`: a step of `inner_enqueue` keeps the layout, does not fail, leaves the
consumer's part alone, and either goes on with the same elements in the queue, or returns `true`
with the element at the end of the queue, or returns `false` with the queue as it was. There is one
lemma for each program counter.
-/

set_option autoImplicit false

namespace PipelineTools.Queues.Moodycamel

open PipelineTools.Library

variable {α : Type}

/-- What the step at a program counter of `inner_enqueue<mode>(element)` comes to. -/
inductive EnqueueOutcome (malloc : Bool) (mode : AllocationMode) (element : α)
    (q : ReaderWriterQueue α) (g g' : Layout α) : EnqueuePc → Producer α → Prop
  | goes {pc pc' : EnqueuePc} (items : g'.items = g.items)
      (full : ∀ b, pc' = .compareNext b →
        (g.view q.tailBlock).contents.length = (q.blocks q.tailBlock).sizeMask) :
      EnqueueOutcome malloc mode element q g g' pc (.inside mode element pc')
  | accepts {pc : EnqueuePc} (items : g'.items = g.items ++ [element]) :
      EnqueueOutcome malloc mode element q g g' pc (.returning true)
  | refuses {b : Nat} (items : g'.items = g.items) (cannot : mode = .CannotAlloc)
      (free : g.free = []) (full : Full q g) :
      EnqueueOutcome malloc mode element q g g' (.compareNext b) (.returning false)
  | noMemory {b : Nat} (items : g'.items = g.items) (can : mode = .CanAlloc)
      (none : malloc = false) :
      EnqueueOutcome malloc mode element q g g' (.makeBlock b) (.returning false)

/-- A correct step of the producer. -/
structure EnqueueStep (least : Nat) (malloc : Bool) (mode : AllocationMode) (element : α)
    (q : ReaderWriterQueue α) (g : Layout α) (taken : Nat → Nat) (pc : EnqueuePc)
    (r : ReaderWriterQueue α × Producer α) (g' : Layout α) : Prop where
  memory : Memory least r.1 g' taken r.2.pending r.2.unpublished
  knows : ProducerAt least r.1 g' r.2
  moves : ProducerMoves q r.1 g g'
  ring : g'.ring = g.ring ∨ mode = .CanAlloc ∧ g'.ring.length = g.ring.length + 1
  blocks : r.1.allocated + g.ring.length + (Producer.inside mode element pc).unlinked =
    q.allocated + g'.ring.length + r.2.unlinked
  outcome : EnqueueOutcome malloc mode element q g g' pc r.2

theorem ProducerMoves.refl (q : ReaderWriterQueue α) (g : Layout α) : ProducerMoves q q g g where
  frontBlock := rfl
  busy := List.prefix_refl _
  front _ _ := rfl
  sizeMask _ _ := rfl
  view_front _ _ := rfl
  view_localTail _ _ := rfl
  grows _ _ := List.prefix_refl _
  contents _ _ _ := rfl

/-- A store of the producer to one block. -/
theorem ProducerMoves.of_setBlock {q : ReaderWriterQueue α} {g : Layout α} {b : Nat}
    {block : Block α} {v : View α} (hfront : block.front = (q.blocks b).front)
    (hmask : block.sizeMask = (q.blocks b).sizeMask) (hviewFront : v.front = (g.view b).front)
    (hlocalTail : v.localTail = (g.view b).localTail)
    (hgrows : b ∈ g.busy → (g.view b).contents <+: v.contents)
    (hcontents : b ∈ g.busy → b ≠ q.tailBlock → v.contents = (g.view b).contents) :
    ProducerMoves q (q.setBlock b block) g (g.setView b v) := by
  refine ⟨rfl, List.prefix_refl _, ?_, ?_, ?_, ?_, ?_, ?_⟩
  · intro c hc
    exact q.member_setBlock Block.front hfront c
  · intro c hc
    exact q.member_setBlock Block.sizeMask hmask c
  · intro c hc
    exact g.member_setView View.front hviewFront c
  · intro c hc
    exact g.member_setView View.localTail hlocalTail c
  · intro c hc
    by_cases hcb : c = b
    · subst hcb
      rw [Layout.view_setView_self]
      exact hgrows hc
    · have hsame := congrArg View.contents (Layout.view_setView_of_ne g hcb v)
      exact ⟨[], by rw [List.append_nil, hsame]⟩
  · intro c hc hne
    by_cases hcb : c = b
    · subst hcb
      rw [Layout.view_setView_self]
      exact hcontents hc hne
    · rw [Layout.view_setView_of_ne g hcb]

section Steps

variable {least : Nat} {q : ReaderWriterQueue α} {g : Layout α} {taken : Nat → Nat}
  {mode : AllocationMode} {element : α}

/-- One more element in the tail block. -/
theorem Memory.items_push {pending unpublished : Nat → List α}
    (h : Memory least q g taken pending unpublished) (x : α) :
    (g.setView q.tailBlock ((g.view q.tailBlock).push x)).items = g.items ++ [x] := by
  obtain ⟨init, hbusy⟩ := h.busy_eq_concat
  have hnodup := h.nodup_busy
  rw [hbusy] at hnodup
  have hnot : q.tailBlock ∉ init := fun hmem =>
    List.disjoint_of_nodup_append hnodup hmem List.mem_cons_self
  have hinit : init.flatMap (fun b =>
      ((g.setView q.tailBlock ((g.view q.tailBlock).push x)).view b).contents) =
      init.flatMap fun b => (g.view b).contents := by
    rw [List.flatMap_def, List.flatMap_def]
    congr 1
    apply List.map_congr_left
    intro b hb
    have hne : b ≠ q.tailBlock := fun heq => hnot (heq ▸ hb)
    rw [Layout.view_setView_of_ne g hne]
  rw [Layout.items, Layout.items, Layout.busy_setView, hbusy, List.flatMap_append,
    List.flatMap_append, hinit, List.append_assoc]
  simp [View.push]

/-- A store to another block than the tail block does not matter for the latter. -/
theorem Full.setBlock (h : Full q g) {b : Nat} (hne : q.tailBlock ≠ b) (block : Block α)
    (v : View α) : Full (q.setBlock b block) (g.setView b v) := by
  intro hfront
  rw [ReaderWriterQueue.tailBlock_setBlock, Layout.view_setView_of_ne g hne,
    ReaderWriterQueue.blocks_setBlock_of_ne q hne]
  exact h hfront

/-- A free block is not the tail block. -/
theorem Memory.tail_ne_free {pending unpublished : Nat → List α}
    (h : Memory least q g taken pending unpublished) {b : Nat} (hb : b ∈ g.free) :
    q.tailBlock ≠ b :=
  fun heq => h.not_busy_of_free hb (heq ▸ h.tailBlock_mem)

theorem start_spec (malloc : Bool) (maxBlockSize : Nat)
    (hmem : Memory least q g taken (Producer.inside mode element .start).pending
      (Producer.inside mode element .start).unpublished) :
    EnqueueStep least malloc mode element q g taken .start
      (q.innerEnqueue maxBlockSize malloc mode element .start) g := by
  have hshows := hmem.shows _ (Memory.mem_ring_of_busy hmem.tailBlock_mem)
  rw [ReaderWriterQueue.innerEnqueue]
  by_cases hroom : ((q.blocks q.tailBlock).tail + 1) &&& (q.blocks q.tailBlock).sizeMask
      ≠ (q.blocks q.tailBlock).localFront
  · rw [if_pos hroom]
    exact ⟨hmem, ⟨rfl, rfl, rfl, hshows.hasRoom_of_ne hroom⟩, .refl q g, .inl rfl, rfl,
      .goes rfl (by simp)⟩
  · rw [if_neg hroom]
    exact ⟨hmem, ⟨rfl, rfl, rfl⟩, .refl q g, .inl rfl, rfl, .goes rfl (by simp)⟩

theorem loadFront_spec (malloc : Bool) (maxBlockSize : Nat)
    {tailBlock_ blockTail nextBlockTail : Nat}
    (hmem : Memory least q g taken
      (Producer.inside mode element (.loadFront tailBlock_ blockTail nextBlockTail)).pending
      (Producer.inside mode element (.loadFront tailBlock_ blockTail nextBlockTail)).unpublished)
    (hat : ProducerAt least q g
      (.inside mode element (.loadFront tailBlock_ blockTail nextBlockTail))) :
    EnqueueStep least malloc mode element q g taken (.loadFront tailBlock_ blockTail nextBlockTail)
      (q.innerEnqueue maxBlockSize malloc mode element
        (.loadFront tailBlock_ blockTail nextBlockTail))
      (g.setView q.tailBlock (g.view q.tailBlock).seeFront) := by
  obtain ⟨rfl, rfl, rfl⟩ := hat
  have hring := Memory.mem_ring_of_busy hmem.tailBlock_mem
  have hshows := hmem.shows _ hring
  have hmem' : Memory least
      (q.setBlock q.tailBlock
        { q.blocks q.tailBlock with localFront := (q.blocks q.tailBlock).front })
      (g.setView q.tailBlock (g.view q.tailBlock).seeFront) taken (fun _ => []) (fun _ => []) :=
    hmem.setBlock_of_contents hring hshows.loadFront rfl rfl rfl fun c hc => ⟨rfl, rfl⟩
  have hmoves : ProducerMoves q
      (q.setBlock q.tailBlock
        { q.blocks q.tailBlock with localFront := (q.blocks q.tailBlock).front })
      g (g.setView q.tailBlock (g.view q.tailBlock).seeFront) :=
    .of_setBlock rfl rfl rfl rfl (fun hb => List.prefix_refl _) (fun hb hne => rfl)
  have hitems : (g.setView q.tailBlock (g.view q.tailBlock).seeFront).items = g.items :=
    g.items_setView_of_contents rfl
  rw [ReaderWriterQueue.innerEnqueue]
  by_cases hroom : ((q.blocks q.tailBlock).tail + 1) &&& (q.blocks q.tailBlock).sizeMask
      ≠ (q.blocks q.tailBlock).front
  · rw [if_pos hroom]
    refine ⟨hmem', ?_, hmoves, .inl rfl, rfl, .goes hitems (by simp)⟩
    simpa [ProducerAt] using hshows.hasRoom_seeFront hroom
  · rw [if_neg hroom]
    have hfull := hshows.full_of_eq (not_not.1 hroom)
    refine ⟨hmem', ⟨rfl, ?_⟩, hmoves, .inl rfl, rfl, .goes hitems fun b hb => hfull⟩
    intro hne
    simpa using hfull

theorem construct_spec (malloc : Bool) (maxBlockSize : Nat)
    {tailBlock_ blockTail nextBlockTail : Nat}
    (hmem : Memory least q g taken
      (Producer.inside mode element (.construct tailBlock_ blockTail nextBlockTail)).pending
      (Producer.inside mode element (.construct tailBlock_ blockTail nextBlockTail)).unpublished)
    (hat : ProducerAt least q g
      (.inside mode element (.construct tailBlock_ blockTail nextBlockTail))) :
    EnqueueStep least malloc mode element q g taken (.construct tailBlock_ blockTail nextBlockTail)
      (q.innerEnqueue maxBlockSize malloc mode element
        (.construct tailBlock_ blockTail nextBlockTail))
      (g.setView q.tailBlock (g.view q.tailBlock)) := by
  obtain ⟨rfl, rfl, rfl, hroom⟩ := hat
  have hring := Memory.mem_ring_of_busy hmem.tailBlock_mem
  obtain ⟨hslot, hconstruct⟩ := (hmem.shows _ hring).construct hroom element
  simp only [ReaderWriterQueue.innerEnqueue, hslot]
  refine ⟨?_, ?_, ?_, .inl rfl, rfl, .goes (g.items_setView_of_contents rfl) (by simp)⟩
  · refine hmem.setBlock_of_contents hring ?_ rfl rfl rfl ?_
    · simpa [Producer.pending] using hconstruct
    · intro c hc
      simp [Producer.pending, hc]
  · refine ⟨rfl, ?_, ?_⟩
    · rw [ReaderWriterQueue.tailBlock_setBlock, ReaderWriterQueue.blocks_setBlock_self]
    · rw [ReaderWriterQueue.tailBlock_setBlock, ReaderWriterQueue.blocks_setBlock_self,
        Layout.view_setView_self]
      exact hroom
  · exact .of_setBlock rfl rfl rfl rfl (fun hb => List.prefix_refl _) (fun hb hne => rfl)

theorem storeTail_spec (malloc : Bool) (maxBlockSize : Nat) {tailBlock_ nextBlockTail : Nat}
    (hmem : Memory least q g taken
      (Producer.inside mode element (.storeTail tailBlock_ nextBlockTail)).pending
      (Producer.inside mode element (.storeTail tailBlock_ nextBlockTail)).unpublished)
    (hat : ProducerAt least q g (.inside mode element (.storeTail tailBlock_ nextBlockTail))) :
    EnqueueStep least malloc mode element q g taken (.storeTail tailBlock_ nextBlockTail)
      (q.innerEnqueue maxBlockSize malloc mode element (.storeTail tailBlock_ nextBlockTail))
      (g.setView q.tailBlock ((g.view q.tailBlock).push element)) := by
  obtain ⟨rfl, rfl, hroom⟩ := hat
  have hring := Memory.mem_ring_of_busy hmem.tailBlock_mem
  have hshows := hmem.shows _ hring
  simp only [Producer.pending, if_true] at hshows
  have hmem' : Memory least
      (q.setBlock q.tailBlock
        { q.blocks q.tailBlock with
          tail := ((q.blocks q.tailBlock).tail + 1) &&& (q.blocks q.tailBlock).sizeMask })
      (g.setView q.tailBlock ((g.view q.tailBlock).push element)) taken (fun _ => [])
      (fun _ => []) := by
    refine hmem.setBlock hring (hshows.storeTail hroom) rfl rfl ?_ ?_ ?_ ?_
    · intro c hc
      simp [Producer.pending, Producer.unpublished, hc]
    · intro hbusy hfront htail
      exact absurd rfl htail
    · intro heq hne
      simp [View.push]
    · intro hfree
      exact absurd hmem.tailBlock_mem (hmem.not_busy_of_free hfree)
  refine ⟨hmem', trivial, ?_, .inl rfl, rfl, .accepts (hmem.items_push element)⟩
  exact .of_setBlock rfl rfl rfl rfl (fun hb => List.prefix_append _ _)
    (fun hb hne => absurd rfl hne)

theorem compareNext_spec (malloc : Bool) (maxBlockSize : Nat) {tailBlock_ : Nat}
    (hmem : Memory least q g taken (Producer.inside mode element (.compareNext tailBlock_)).pending
      (Producer.inside mode element (.compareNext tailBlock_)).unpublished)
    (hat : ProducerAt least q g (.inside mode element (.compareNext tailBlock_))) :
    EnqueueStep least malloc mode element q g taken (.compareNext tailBlock_)
      (q.innerEnqueue maxBlockSize malloc mode element (.compareNext tailBlock_)) g := by
  obtain ⟨rfl, hfull⟩ := hat
  have hnext := hmem.next_tailBlock
  by_cases hne : (q.blocks q.tailBlock).next ≠ q.frontBlock
  · simp only [ReaderWriterQueue.innerEnqueue, if_pos hne]
    refine ⟨hmem, ⟨rfl, hfull, ?_⟩, .refl q g, .inl rfl, rfl, .goes rfl (by simp)⟩
    intro hfree
    rw [hnext, hfree] at hne
    exact hne rfl
  · cases mode with
    | CanAlloc =>
      simp only [ReaderWriterQueue.innerEnqueue, if_neg hne]
      exact ⟨hmem, ⟨rfl, rfl, hfull⟩, .refl q g, .inl rfl, rfl, .goes rfl (by simp)⟩
    | CannotAlloc =>
      simp only [ReaderWriterQueue.innerEnqueue, if_neg hne]
      refine ⟨hmem, trivial, .refl q g, .inl rfl, rfl, .refuses rfl rfl ?_ hfull⟩
      -- the next block is the front block, so that no block is free
      cases hfree : g.free with
      | nil => rfl
      | cons b rest =>
        have hb : b ∈ g.free := by simp [hfree]
        rw [hnext, hfree, List.headD_cons, not_not] at hne
        rw [hne] at hb
        exact absurd hmem.frontBlock_mem (hmem.not_busy_of_free hb)

/-- The free block that comes next is empty. -/
theorem Memory.shows_free {pending : Nat → List α} {b : Nat}
    (hmem : Memory least q g taken pending (fun _ => [])) (hb : b ∈ g.free) :
    (g.view b).contents = [] ∧ (q.blocks b).front = (q.blocks b).tail := by
  have hempty := hmem.free b hb
  exact ⟨hempty, ((hmem.shows b (Memory.mem_ring_of_free hb)).front_eq_tail_iff).2 hempty⟩

theorem loadNextFront_spec (malloc : Bool) (maxBlockSize : Nat) {tailBlock_ : Nat}
    (hmem : Memory least q g taken
      (Producer.inside mode element (.loadNextFront tailBlock_)).pending
      (Producer.inside mode element (.loadNextFront tailBlock_)).unpublished)
    (hat : ProducerAt least q g (.inside mode element (.loadNextFront tailBlock_))) :
    ∃ g', EnqueueStep least malloc mode element q g taken (.loadNextFront tailBlock_)
      (q.innerEnqueue maxBlockSize malloc mode element (.loadNextFront tailBlock_)) g' := by
  obtain ⟨rfl, hfull, hne⟩ := hat
  obtain ⟨b, rest, hfree⟩ := List.exists_cons_of_ne_nil hne
  have hnext : (q.blocks q.tailBlock).next = b := by
    rw [hmem.next_tailBlock, hfree, List.headD_cons]
  have hb : b ∈ g.free := by simp [hfree]
  have hring := Memory.mem_ring_of_free hb
  have hshows := hmem.shows b hring
  obtain ⟨hempty, hfront⟩ := Memory.shows_free hmem hb
  have htail := hmem.tail_ne_free hb
  have hmem' : Memory least
      (q.setBlock b { q.blocks b with localFront := (q.blocks b).front })
      (g.setView b (g.view b).seeFront) taken (fun _ => []) (fun _ => []) :=
    hmem.setBlock_of_contents hring hshows.loadFront rfl rfl rfl fun c hc => ⟨rfl, rfl⟩
  simp only [ReaderWriterQueue.innerEnqueue, hnext, if_pos hfront]
  refine ⟨g.setView b (g.view b).seeFront, hmem',
    ⟨hfull.setBlock htail _ _, ⟨⟨rest, hfree⟩, ?_⟩, ?_⟩, ?_, .inl rfl,
    rfl, .goes (g.items_setView_of_contents rfl) (by simp)⟩
  · rw [ReaderWriterQueue.blocks_setBlock_self, Layout.view_setView_self]
    have hleast := hmem.least_le b hring
    have hpos := hmem.least_pos
    show (g.view b).front + (g.view b).contents.length + 1 ≤ (g.view b).front + _
    rw [hempty, List.length_nil]
    show (g.view b).front + 0 + 1 ≤ (g.view b).front + (q.blocks b).sizeMask
    omega
  · rw [ReaderWriterQueue.blocks_setBlock_self]
  · exact .of_setBlock rfl rfl rfl rfl (fun hb => List.prefix_refl _) (fun hb hne => rfl)

theorem constructNext_spec (malloc : Bool) (maxBlockSize : Nat) {b nextBlockTail : Nat}
    (hmem : Memory least q g taken
      (Producer.inside mode element (.constructNext b nextBlockTail)).pending
      (Producer.inside mode element (.constructNext b nextBlockTail)).unpublished)
    (hat : ProducerAt least q g (.inside mode element (.constructNext b nextBlockTail))) :
    EnqueueStep least malloc mode element q g taken (.constructNext b nextBlockTail)
      (q.innerEnqueue maxBlockSize malloc mode element (.constructNext b nextBlockTail))
      (g.setView b (g.view b)) := by
  obtain ⟨hfull, ⟨⟨rest, hfree⟩, hroom⟩, rfl⟩ := hat
  have hb : b ∈ g.free := by simp [hfree]
  have hring := Memory.mem_ring_of_free hb
  obtain ⟨hslot, hconstruct⟩ := (hmem.shows b hring).construct hroom element
  simp only [ReaderWriterQueue.innerEnqueue, hslot]
  refine ⟨?_, ⟨hfull.setBlock (hmem.tail_ne_free hb) _ _, ⟨⟨rest, hfree⟩, ?_⟩, ?_⟩, ?_, .inl rfl,
    rfl, .goes (g.items_setView_of_contents rfl) (by simp)⟩
  · refine hmem.setBlock_of_contents hring ?_ rfl rfl rfl ?_
    · simpa [Producer.pending] using hconstruct
    · intro c hc
      simp [Producer.pending, hc]
  · rw [ReaderWriterQueue.blocks_setBlock_self, Layout.view_setView_self]
    exact hroom
  · rw [ReaderWriterQueue.blocks_setBlock_self]
  · exact .of_setBlock rfl rfl rfl rfl (fun hb => List.prefix_refl _) (fun hb hne => rfl)

theorem storeNextTail_spec (malloc : Bool) (maxBlockSize : Nat) {b nextBlockTail : Nat}
    (hmem : Memory least q g taken
      (Producer.inside mode element (.storeNextTail b nextBlockTail)).pending
      (Producer.inside mode element (.storeNextTail b nextBlockTail)).unpublished)
    (hat : ProducerAt least q g (.inside mode element (.storeNextTail b nextBlockTail))) :
    EnqueueStep least malloc mode element q g taken (.storeNextTail b nextBlockTail)
      (q.innerEnqueue maxBlockSize malloc mode element (.storeNextTail b nextBlockTail))
      (g.setView b ((g.view b).push element)) := by
  obtain ⟨hfull, ⟨⟨rest, hfree⟩, hroom⟩, rfl⟩ := hat
  have hb : b ∈ g.free := by simp [hfree]
  have hring := Memory.mem_ring_of_free hb
  have hnot := hmem.not_busy_of_free hb
  have hempty : (g.view b).contents = [] := hmem.free b hb
  have hshows := hmem.shows b hring
  simp only [Producer.pending, if_true] at hshows
  have hmem' : Memory least
      (q.setBlock b { q.blocks b with
        tail := ((q.blocks b).tail + 1) &&& (q.blocks b).sizeMask })
      (g.setView b ((g.view b).push element)) taken (fun _ => [])
      (fun c => if c = b then [element] else []) := by
    refine hmem.setBlock hring (hshows.storeTail hroom) rfl rfl ?_ ?_ ?_ ?_
    · intro c hc
      simp [Producer.pending, Producer.unpublished, hc]
    · intro hbusy
      exact absurd hbusy hnot
    · intro heq
      exact absurd heq.symm (hmem.tail_ne_free hb)
    · intro hfree
      simp [View.push, hempty]
  refine ⟨hmem', ⟨hfull.setBlock (hmem.tail_ne_free hb) _ _, rest, hfree⟩, ?_, .inl rfl,
    rfl, .goes (g.items_setView_of_not_mem hnot) (by simp)⟩
  exact .of_setBlock rfl rfl rfl rfl (fun hb => absurd hb hnot) (fun hb => absurd hb hnot)

/-- The first free block becomes the tail block. -/
theorem storeTailBlock_spec (malloc : Bool) (maxBlockSize : Nat) {b : Nat}
    (hmem : Memory least q g taken (Producer.inside mode element (.storeTailBlock b)).pending
      (Producer.inside mode element (.storeTailBlock b)).unpublished)
    (hat : ProducerAt least q g (.inside mode element (.storeTailBlock b))) :
    ∃ g', EnqueueStep least malloc mode element q g taken (.storeTailBlock b)
      (q.innerEnqueue maxBlockSize malloc mode element (.storeTailBlock b)) g' := by
  obtain ⟨hfull, rest, hfree⟩ := hat
  have hb : b ∈ g.free := by simp [hfree]
  have hnot := hmem.not_busy_of_free hb
  have hcontents : (g.view b).contents = [element] := by
    rw [hmem.free b hb]
    simp [Producer.unpublished]
  -- the first free block joins the busy ones; the ring stays the same list
  have hring : (g.busy ++ [b]) ++ rest = g.ring := by
    rw [Layout.ring, hfree, List.append_assoc, List.singleton_append]
  obtain ⟨more, hbusy⟩ := hmem.busy_eq_cons
  have hmem' : Memory least { q with tailBlock := b } ⟨g.busy ++ [b], rest, g.view⟩ taken
      (fun _ => []) (fun _ => []) := by
    refine { hmem with
      front := ?_
      tail := List.getLast?_concat
      links := ?_
      nodup := ?_
      made := ?_
      shows := ?_
      passed := ?_
      last := ?_
      free := ?_
      least_le := ?_ }
    · rw [hbusy]
      rfl
    · rw [Layout.ring, hring]
      exact hmem.links
    · rw [Layout.ring, hring]
      exact hmem.nodup
    · rw [Layout.ring, hring]
      exact hmem.made
    · rw [Layout.ring, hring]
      exact hmem.shows
    · intro c hc hfront htail
      rcases List.mem_append.1 hc with hc | hc
      · -- the former tail block is full, unless the consumer is still in it
        by_cases hold : c = q.tailBlock
        · subst hold
          exact hfull hfront
        · exact hmem.passed c hc hfront hold
      · exact absurd (List.mem_singleton.1 hc) htail
    · intro hne
      show (g.view b).contents ≠ []
      rw [hcontents]
      simp
    · intro c hc
      -- only the block that has just left the free ones held the new element
      have hnodup := List.Nodup.of_append_right hmem.nodup
      rw [hfree] at hnodup
      have hcb : c ≠ b := fun heq => (List.nodup_cons.1 hnodup).1 (heq ▸ hc)
      have hold := hmem.free c (by rw [hfree]; exact List.mem_cons_of_mem _ hc)
      rw [hold]
      simp [Producer.unpublished, hcb]
    · rw [Layout.ring, hring]
      exact hmem.least_le
  have hblocks : q.allocated + g.ring.length + 0 =
      q.allocated + (g.busy ++ [b] ++ rest).length + 0 := by rw [hring]
  refine ⟨⟨g.busy ++ [b], rest, g.view⟩, hmem', trivial, ?_, .inl hring, hblocks, .accepts ?_⟩
  · exact ⟨rfl, List.prefix_append _ _, fun c hc => rfl, fun c hc => rfl, fun c hc => rfl,
      fun c hc => rfl, fun c hc => List.prefix_refl _, fun c hc hne => rfl⟩
  · rw [Layout.items, Layout.items, List.flatMap_append]
    simp [hcontents]

/-- A block that is not in the ring does not matter. -/
theorem Memory.newBlock {pending unpublished : Nat → List α}
    (h : Memory least q g taken pending unpublished) (block : Block α) {size : Nat}
    (hsize : least + 1 ≤ size ∧ ∃ k, size = 2 ^ k) :
    Memory least { q with
        blocks := Function.update q.blocks q.allocated block
        allocated := q.allocated + 1
        largestBlockSize := size } g taken pending unpublished := by
  have hsame : ∀ b ∈ g.ring, Function.update q.blocks q.allocated block b = q.blocks b := by
    intro b hb
    have hlt := h.made b hb
    exact Function.update_of_ne (by omega) _ _
  refine { h with
    links := ?_
    made := ?_
    shows := ?_
    passed := ?_
    least_le := ?_
    largest := hsize }
  · refine h.links.congr ?_
    intro b hb
    show (Function.update q.blocks q.allocated block b).next = _
    rw [hsame b hb]
  · intro b hb
    exact Nat.lt_succ_of_lt (h.made b hb)
  · intro b hb
    show Shows (Function.update q.blocks q.allocated block b) _ _ _
    rw [hsame b hb]
    exact h.shows b hb
  · intro b hb hfront htail
    show _ = (Function.update q.blocks q.allocated block b).sizeMask
    rw [hsame b (Memory.mem_ring_of_busy hb)]
    exact h.passed b hb hfront htail
  · intro b hb
    show _ ≤ (Function.update q.blocks q.allocated block b).sizeMask
    rw [hsame b hb]
    exact h.least_le b hb

/-- The size of a new block. -/
theorem newBlockSize_spec {pending unpublished : Nat → List α}
    (h : Memory least q g taken pending unpublished) (maxBlockSize : Nat) :
    least + 1 ≤ (if q.largestBlockSize ≥ maxBlockSize then q.largestBlockSize
        else q.largestBlockSize * 2) ∧
      ∃ k, (if q.largestBlockSize ≥ maxBlockSize then q.largestBlockSize
        else q.largestBlockSize * 2) = 2 ^ k := by
  obtain ⟨hle, k, hk⟩ := h.largest
  by_cases hmax : q.largestBlockSize ≥ maxBlockSize
  · rw [if_pos hmax]
    exact ⟨hle, k, hk⟩
  · rw [if_neg hmax]
    exact ⟨by omega, k + 1, by rw [hk, Nat.pow_succ]⟩

theorem makeBlock_spec (malloc : Bool) (maxBlockSize : Nat) {tailBlock_ : Nat}
    (hmem : Memory least q g taken (Producer.inside mode element (.makeBlock tailBlock_)).pending
      (Producer.inside mode element (.makeBlock tailBlock_)).unpublished)
    (hat : ProducerAt least q g (.inside mode element (.makeBlock tailBlock_))) :
    EnqueueStep least malloc mode element q g taken (.makeBlock tailBlock_)
      (q.innerEnqueue maxBlockSize malloc mode element (.makeBlock tailBlock_)) g := by
  obtain ⟨hmode, rfl, hfull⟩ := hat
  cases malloc with
  | false =>
    -- `malloc` has failed, and the call returns
    exact ⟨hmem, trivial, .refl q g, .inl rfl, rfl, .noMemory rfl hmode rfl⟩
  | true =>
    have hsize := newBlockSize_spec hmem maxBlockSize
    have hpos := hmem.least_pos
    have hnew : q.allocated ∉ g.ring := fun hb => Nat.lt_irrefl _ (hmem.made _ hb)
    -- the new block has a number of its own, so the others are untouched
    have hsame : ∀ b ∈ g.ring, ∀ block : Block α,
        Function.update q.blocks q.allocated block b = q.blocks b := by
      intro b hb block
      have hlt := hmem.made b hb
      exact Function.update_of_ne (by omega) _ _
    have htail := Memory.mem_ring_of_busy hmem.tailBlock_mem
    obtain ⟨k, hk⟩ := hsize.2
    have hblocks : q.allocated + 1 + g.ring.length + 0 = q.allocated + g.ring.length + 1 := by
      omega
    refine ⟨hmem.newBlock _ hsize, ⟨hmode, rfl, ?_, hnew, Nat.lt_succ_self _, ?_, ?_, ?_⟩, ?_,
      .inl rfl, hblocks, .goes rfl (by simp)⟩
    · intro hne
      show _ = (Function.update q.blocks q.allocated _ q.tailBlock).sizeMask
      rw [hsame _ htail]
      exact hfull hne
    · show (Function.update q.blocks q.allocated _ q.allocated).next
        = (Function.update q.blocks q.allocated _ q.tailBlock).next
      rw [hsame _ htail, Function.update_self]
    · show Shows (Function.update q.blocks q.allocated _ q.allocated) _ _ _
      rw [Function.update_self]
      exact shows_firstElement hk (by omega) element _
    · show _ ≤ (Function.update q.blocks q.allocated _ q.allocated).sizeMask
      rw [Function.update_self]
      show least ≤ _ - 1
      omega
    · refine ⟨rfl, List.prefix_refl _, ?_, ?_, fun b hb => rfl, fun b hb => rfl,
        fun b hb => List.prefix_refl _, fun b hb hne => rfl⟩
      · intro b hb
        show (Function.update q.blocks q.allocated _ b).front = _
        rw [hsame b hb]
      · intro b hb
        show (Function.update q.blocks q.allocated _ b).sizeMask = _
        rw [hsame b hb]

/-- The new block `b` stands behind the busy blocks, and shows its first element. -/
def Layout.link (g : Layout α) (b : Nat) (element : α) : Layout α :=
  ⟨g.busy, b :: g.free, Function.update g.view b (View.empty.push element).seeTail⟩

section Link

variable {b : Nat}

/-- The tail block points to the block `b`. -/
abbrev ReaderWriterQueue.linkTail (q : ReaderWriterQueue α) (b : Nat) : ReaderWriterQueue α :=
  q.setBlock q.tailBlock { q.blocks q.tailBlock with next := b }

theorem Layout.view_link (hnew : b ∉ g.ring) {c : Nat} (hc : c ∈ g.ring) :
    (g.link b element).view c = g.view c := by
  apply Function.update_of_ne
  rintro rfl
  exact hnew hc

theorem Layout.mem_ring_link {c : Nat} (hc : c ∈ (g.link b element).ring) :
    c = b ∨ c ∈ g.ring := by
  rcases List.mem_append.1 hc with hbusy | hfree
  · exact .inr (Memory.mem_ring_of_busy hbusy)
  · rcases List.mem_cons.1 hfree with hsame | hfree
    · exact .inl hsame
    · exact .inr (Memory.mem_ring_of_free hfree)

theorem Layout.length_ring_link : (g.link b element).ring.length = g.ring.length + 1 := by
  show (g.busy ++ b :: g.free).length = (g.busy ++ g.free).length + 1
  rw [List.length_append, List.length_append, List.length_cons]
  omega

/-- The link changes nothing that a block shows. -/
theorem shows_linkTail {c t : Nat} {v : View α} {p : List α} (h : Shows (q.blocks c) v t p) :
    Shows ((q.linkTail b).blocks c) v t p := by
  by_cases hc : c = q.tailBlock
  · subst hc
    rw [ReaderWriterQueue.blocks_setBlock_self]
    exact { h with }
  · rw [ReaderWriterQueue.blocks_setBlock_of_ne q hc]
    exact h

/-- The new block is put into the ring between the tail block and the block behind it. -/
theorem Memory.links_link {pending unpublished : Nat → List α}
    (h : Memory least q g taken pending unpublished) (hnew : Unlinked least q g b element) :
    Links (fun c => ((q.linkTail b).blocks c).next) (g.link b element).ring q.frontBlock := by
  obtain ⟨init, hbusy⟩ := h.busy_eq_concat
  have hlinks := h.links
  have hnodup := h.nodup
  have hnotin := hnew.new
  rw [Layout.ring, hbusy, List.append_assoc, List.singleton_append] at hlinks hnodup hnotin
  have hinsert := links_insert hlinks hnodup hnotin hnew.next
  show Links _ (g.busy ++ b :: g.free) _
  rw [hbusy, List.append_assoc, List.singleton_append]
  refine hinsert.congr ?_
  intro c hc
  by_cases hct : c = q.tailBlock
  · subst hct
    rw [ReaderWriterQueue.blocks_setBlock_self, Function.update_self]
  · rw [ReaderWriterQueue.blocks_setBlock_of_ne q hct, Function.update_of_ne hct]

/-- The memory with the new block in the ring. -/
theorem Memory.link
    (h : Memory least q g taken (fun _ => []) (fun _ => [])) (hnew : Unlinked least q g b element)
    (htaken : taken b = 0) :
    Memory least (q.linkTail b) (g.link b element) taken (fun _ => [])
      (fun c => if c = b then [element] else []) := by
  have hmask : ∀ c, ((q.linkTail b).blocks c).sizeMask = (q.blocks c).sizeMask :=
    q.member_setBlock Block.sizeMask rfl
  refine { h with
    links := h.links_link hnew
    nodup := ?_
    made := ?_
    shows := ?_
    passed := ?_
    last := ?_
    free := ?_
    least_le := ?_ }
  · show (g.busy ++ b :: g.free).Nodup
    rw [List.nodup_middle, List.nodup_cons]
    exact ⟨hnew.new, h.nodup⟩
  · intro c hc
    rcases Layout.mem_ring_link hc with rfl | hc
    · exact hnew.made
    · exact h.made c hc
  · intro c hc
    rcases Layout.mem_ring_link hc with rfl | hc
    · -- the new block shows its first element
      rw [htaken]
      show Shows _ (Function.update g.view c _ c) 0 []
      rw [Function.update_self]
      exact shows_linkTail hnew.shows
    · rw [Layout.view_link hnew.new hc]
      exact shows_linkTail (h.shows c hc)
  · intro c hc hfront htail
    rw [Layout.view_link hnew.new (Memory.mem_ring_of_busy hc), hmask]
    exact h.passed c hc hfront htail
  · intro hne
    show ((g.link b element).view q.tailBlock).contents ≠ []
    rw [Layout.view_link hnew.new (Memory.mem_ring_of_busy h.tailBlock_mem)]
    exact h.last hne
  · intro c hc
    rcases List.mem_cons.1 hc with rfl | hc
    · show (Function.update g.view c _ c).contents = _
      rw [Function.update_self, if_pos rfl]
      rfl
    · have hcb : c ≠ b := fun heq => hnew.new (heq ▸ Memory.mem_ring_of_free hc)
      rw [Layout.view_link hnew.new (Memory.mem_ring_of_free hc), if_neg hcb]
      exact h.free c hc
  · intro c hc
    rw [hmask]
    rcases Layout.mem_ring_link hc with rfl | hc
    · exact hnew.least_le
    · exact h.least_le c hc

end Link

/-- The new block is put behind the tail block. -/
theorem link_spec (malloc : Bool) (maxBlockSize : Nat) {tailBlock_ b : Nat}
    (hmem : Memory least q g taken (Producer.inside mode element (.link tailBlock_ b)).pending
      (Producer.inside mode element (.link tailBlock_ b)).unpublished)
    (hat : ProducerAt least q g (.inside mode element (.link tailBlock_ b)))
    (htaken : ∀ c, c ∉ g.ring → taken c = 0) :
    ∃ g', EnqueueStep least malloc mode element q g taken (.link tailBlock_ b)
      (q.innerEnqueue maxBlockSize malloc mode element (.link tailBlock_ b)) g' := by
  obtain ⟨hmode, rfl, hfull, hnew⟩ := hat
  have hmask : ∀ c, ((q.linkTail b).blocks c).sizeMask = (q.blocks c).sizeMask :=
    q.member_setBlock Block.sizeMask rfl
  have hfront : ∀ c, ((q.linkTail b).blocks c).front = (q.blocks c).front :=
    q.member_setBlock Block.front rfl
  -- the busy blocks show what they have shown
  have hview : ∀ c ∈ g.busy, (g.link b element).view c = g.view c :=
    fun c hc => Layout.view_link hnew.new (Memory.mem_ring_of_busy hc)
  have hblocks : q.allocated + g.ring.length + 1 =
      q.allocated + (g.link b element).ring.length + 0 := by
    rw [Layout.length_ring_link]
    omega
  have hstep : q.innerEnqueue maxBlockSize malloc mode element (.link q.tailBlock b) =
      (q.linkTail b, .inside mode element (.storeTailBlock b)) := rfl
  rw [hstep]
  refine ⟨g.link b element, hmem.link hnew (htaken b hnew.new), ⟨?_, g.free, rfl⟩, ?_,
    .inr ⟨hmode, Layout.length_ring_link⟩, hblocks, .goes ?_ (by simp)⟩
  · intro hfront
    show ((g.link b element).view q.tailBlock).contents.length = _
    rw [hview _ hmem.tailBlock_mem, hmask]
    exact hfull hfront
  · refine ⟨rfl, List.prefix_refl _, ?_, fun c hc => hmask c, ?_, ?_, ?_, ?_⟩
    · intro c hc
      exact hfront c
    · intro c hc
      exact congrArg View.front (Layout.view_link hnew.new hc)
    · intro c hc
      exact congrArg View.localTail (Layout.view_link hnew.new hc)
    · intro c hc
      exact (hview c hc).symm ▸ List.prefix_refl _
    · intro c hc hct
      rw [hview c hc]
  · exact g.items_setView_of_not_mem fun hb => hnew.new (Memory.mem_ring_of_busy hb)

/-- Every step of `inner_enqueue` is correct. -/
theorem innerEnqueue_spec (malloc : Bool) (maxBlockSize : Nat) {pc : EnqueuePc}
    (hmem : Memory least q g taken (Producer.inside mode element pc).pending
      (Producer.inside mode element pc).unpublished)
    (hat : ProducerAt least q g (.inside mode element pc))
    (htaken : ∀ c, c ∉ g.ring → taken c = 0) :
    ∃ g', EnqueueStep least malloc mode element q g taken pc
      (q.innerEnqueue maxBlockSize malloc mode element pc) g' := by
  cases pc with
  | start => exact ⟨g, start_spec malloc maxBlockSize hmem⟩
  | loadFront tailBlock_ blockTail nextBlockTail =>
    exact ⟨_, loadFront_spec malloc maxBlockSize hmem hat⟩
  | construct tailBlock_ blockTail nextBlockTail =>
    exact ⟨_, construct_spec malloc maxBlockSize hmem hat⟩
  | storeTail tailBlock_ nextBlockTail => exact ⟨_, storeTail_spec malloc maxBlockSize hmem hat⟩
  | compareNext tailBlock_ => exact ⟨g, compareNext_spec malloc maxBlockSize hmem hat⟩
  | loadNextFront tailBlock_ => exact loadNextFront_spec malloc maxBlockSize hmem hat
  | constructNext tailBlockNext nextBlockTail =>
    exact ⟨_, constructNext_spec malloc maxBlockSize hmem hat⟩
  | storeNextTail tailBlockNext nextBlockTail =>
    exact ⟨_, storeNextTail_spec malloc maxBlockSize hmem hat⟩
  | makeBlock tailBlock_ => exact ⟨g, makeBlock_spec malloc maxBlockSize hmem hat⟩
  | link tailBlock_ newBlock => exact link_spec malloc maxBlockSize hmem hat htaken
  | storeTailBlock block => exact storeTailBlock_spec malloc maxBlockSize hmem hat

end Steps

end PipelineTools.Queues.Moodycamel
