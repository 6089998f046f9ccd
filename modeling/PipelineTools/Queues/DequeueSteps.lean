import PipelineTools.Queues.RingInvariant

/-!
# The steps of the consumer

`dequeue_spec`: a step of `try_dequeue`, `pop` or `peek` keeps the layout, does not fail, leaves the
producer's part alone, and either goes on with the same elements in the queue, or returns the first
element, removed from the queue unless the function is `peek`, or returns without one. There is one
lemma for each program counter.

The last of these cases is decided in `loadTailBlock`, but it is in `loadTail` that the queue is
empty if the tail block is still the front block.
-/

set_option autoImplicit false

namespace PipelineTools.Queues.Moodycamel

open PipelineTools.Library

variable {α : Type}

/-- What the step at a program counter of the consumer comes to. -/
inductive DequeueOutcome (op : DequeueOp) (q q' : ReaderWriterQueue α) (g g' : Layout α) :
    DequeuePc α → Consumer α → Prop
  | goes {pc pc' : DequeuePc α} (items : g'.items = g.items)
      (empty : ∀ b, pc' = .loadTailBlock b → q'.tailBlock = q'.frontBlock → g.items = []) :
      DequeueOutcome op q q' g g' pc (.inside op pc')
  | removes {pc : DequeuePc α} {x : α} (items : g.items = x :: g'.items) (notPeek : op ≠ .peek) :
      DequeueOutcome op q q' g g' pc (.returning op (some x))
  | peeks {pc : DequeuePc α} {x : α} {rest : List α} (items : g.items = x :: rest)
      (same : g'.items = g.items) (isPeek : op = .peek) :
      DequeueOutcome op q q' g g' pc (.returning op (some x))
  | fails {b : Nat} (same : g'.items = g.items) (last : q.tailBlock = q.frontBlock) :
      DequeueOutcome op q q' g g' (.loadTailBlock b) (.returning op none)

/-- A correct step of the consumer. -/
structure DequeueStep (least : Nat) (op : DequeueOp) (q : ReaderWriterQueue α) (g : Layout α)
    (pending unpublished : Nat → List α) (pc : DequeuePc α) (r : ReaderWriterQueue α × Consumer α)
    (g' : Layout α) : Prop where
  memory : Memory least r.1 g' r.2.taken pending unpublished
  knows : ConsumerAt r.1 g' r.2
  moves : ConsumerMoves q r.1 g g'
  outcome : DequeueOutcome op q r.1 g g' pc r.2

theorem ConsumerMoves.refl (q : ReaderWriterQueue α) (g : Layout α) : ConsumerMoves q q g g where
  tailBlock := rfl
  allocated := rfl
  stays _ := rfl
  ring := List.Perm.refl _
  free := List.prefix_refl _
  tail _ := rfl
  sizeMask _ := rfl
  next _ := rfl
  other _ _ := rfl
  view_tail _ := rfl
  view_localFront _ := rfl
  contents _ _ := rfl

/-- A store of the consumer to one block. -/
theorem ConsumerMoves.of_setBlock {q : ReaderWriterQueue α} {g : Layout α} {b : Nat}
    (hb : b ∈ g.ring) {block : Block α} {v : View α} (htail : block.tail = (q.blocks b).tail)
    (hmask : block.sizeMask = (q.blocks b).sizeMask) (hnext : block.next = (q.blocks b).next)
    (hviewTail : v.tail = (g.view b).tail) (hlocalFront : v.localFront = (g.view b).localFront)
    (hcontents : b ≠ q.frontBlock → v.contents = (g.view b).contents) :
    ConsumerMoves q (q.setBlock b block) g (g.setView b v) := by
  refine ⟨rfl, rfl, fun h => rfl, List.Perm.refl _, List.prefix_refl _, ?_, ?_, ?_, ?_, ?_, ?_, ?_⟩
  · exact q.member_setBlock Block.tail htail
  · exact q.member_setBlock Block.sizeMask hmask
  · exact q.member_setBlock Block.next hnext
  · intro c hc
    have hcb : c ≠ b := fun heq => hc (heq ▸ hb)
    exact ReaderWriterQueue.blocks_setBlock_of_ne q hcb _
  · exact g.member_setView View.tail hviewTail
  · exact g.member_setView View.localFront hlocalFront
  · intro c hne
    by_cases hcb : c = b
    · subst hcb
      rw [Layout.view_setView_self]
      exact hcontents hne
    · rw [Layout.view_setView_of_ne g hcb]

section Steps

variable {least : Nat} {q : ReaderWriterQueue α} {g : Layout α} {op : DequeueOp}
  {pending unpublished : Nat → List α}

/-- A block in use behind the front block is not empty. -/
theorem Memory.contents_ne_nil {taken : Nat → Nat} (h : Memory least q g taken pending unpublished)
    {b : Nat} (hb : b ∈ g.busy) (hne : b ≠ q.frontBlock) : (g.view b).contents ≠ [] := by
  by_cases htail : b = q.tailBlock
  · subst htail
    exact h.last hne
  · have hfull := h.passed b hb hne htail
    have hleast := h.least_le b (Memory.mem_ring_of_busy hb)
    have hpos := h.least_pos
    intro hnil
    rw [hnil, List.length_nil] at hfull
    omega

/-- The elements of the queue begin with those of the front block. -/
theorem Memory.items_eq {taken : Nat → Nat} (h : Memory least q g taken pending unpublished) :
    ∃ rest, g.busy = q.frontBlock :: rest ∧
      g.items = (g.view q.frontBlock).contents ++ rest.flatMap fun b => (g.view b).contents := by
  obtain ⟨rest, hbusy⟩ := h.busy_eq_cons
  exact ⟨rest, hbusy, by rw [Layout.items, hbusy, List.flatMap_cons]⟩

/-- One element less in the front block. -/
theorem Memory.items_pop {taken : Nat → Nat} (h : Memory least q g taken pending unpublished)
    {x : α} {rest : List α} (hx : (g.view q.frontBlock).contents = x :: rest) :
    g.items = x :: (g.setView q.frontBlock (g.view q.frontBlock).pop).items := by
  obtain ⟨more, hbusy, hitems⟩ := h.items_eq
  have hnodup := h.nodup_busy
  rw [hbusy, List.nodup_cons] at hnodup
  have hsame : more.flatMap (fun b =>
      ((g.setView q.frontBlock (g.view q.frontBlock).pop).view b).contents) =
      more.flatMap fun b => (g.view b).contents := by
    rw [List.flatMap_def, List.flatMap_def]
    congr 1
    apply List.map_congr_left
    intro b hb
    have hne : b ≠ q.frontBlock := fun heq => hnodup.1 (heq ▸ hb)
    rw [Layout.view_setView_of_ne g hne]
  rw [hitems, Layout.items, Layout.busy_setView, hbusy, List.flatMap_cons, hsame,
    Layout.view_setView_self, hx, View.pop, hx]
  rfl

theorem startDequeue_spec
    (hmem : Memory least q g (Consumer.inside op (.start : DequeuePc α)).taken pending
      unpublished) :
    DequeueStep least op q g pending unpublished .start (q.dequeue op .start) g := by
  have hshows := hmem.shows _ (Memory.mem_ring_of_busy hmem.frontBlock_mem)
  rw [ReaderWriterQueue.dequeue]
  by_cases hne : (q.blocks q.frontBlock).front ≠ (q.blocks q.frontBlock).localTail
  · rw [if_pos hne]
    exact ⟨hmem, .inr ⟨rfl, rfl, hshows.front_lt_of_ne hne⟩, .refl q g, .goes rfl (by simp)⟩
  · rw [if_neg hne]
    exact ⟨hmem, ⟨rfl, rfl⟩, .refl q g, .goes rfl (by simp)⟩

theorem loadTail_spec {frontBlock_ blockFront : Nat}
    (hmem : Memory least q g
      (Consumer.inside op (.loadTail frontBlock_ blockFront : DequeuePc α)).taken pending
      unpublished)
    (hat : ConsumerAt q g (.inside op (.loadTail frontBlock_ blockFront))) :
    DequeueStep least op q g pending unpublished (.loadTail frontBlock_ blockFront)
      (q.dequeue op (.loadTail frontBlock_ blockFront))
      (g.setView q.frontBlock (g.view q.frontBlock).seeTail) := by
  obtain ⟨rfl, rfl⟩ := hat
  have hring := Memory.mem_ring_of_busy hmem.frontBlock_mem
  have hshows := hmem.shows _ hring
  have hmem' : Memory least
      (q.setBlock q.frontBlock
        { q.blocks q.frontBlock with localTail := (q.blocks q.frontBlock).tail })
      (g.setView q.frontBlock (g.view q.frontBlock).seeTail) (fun _ => 0) pending unpublished :=
    hmem.setBlock_of_contents hring hshows.loadTail rfl rfl rfl fun c hc => ⟨rfl, rfl⟩
  have hmoves : ConsumerMoves q
      (q.setBlock q.frontBlock
        { q.blocks q.frontBlock with localTail := (q.blocks q.frontBlock).tail })
      g (g.setView q.frontBlock (g.view q.frontBlock).seeTail) :=
    .of_setBlock hring rfl rfl rfl rfl rfl fun hne => rfl
  have hitems : (g.setView q.frontBlock (g.view q.frontBlock).seeTail).items = g.items :=
    g.items_setView_of_contents rfl
  rw [ReaderWriterQueue.dequeue]
  by_cases hne : (q.blocks q.frontBlock).front ≠ (q.blocks q.frontBlock).tail
  · rw [if_pos hne]
    refine ⟨hmem', .inr ⟨rfl, ?_, ?_⟩, hmoves, .goes hitems (by simp)⟩
    · rw [ReaderWriterQueue.frontBlock_setBlock, ReaderWriterQueue.blocks_setBlock_self]
    · rw [ReaderWriterQueue.frontBlock_setBlock, Layout.view_setView_self]
      exact hshows.front_lt_seeTail hne
  · rw [if_neg hne]
    refine ⟨hmem', rfl, hmoves, .goes hitems fun b hb hlast => ?_⟩
    rw [hmem.items_eq_of_tail_eq_front hlast]
    exact hshows.front_eq_tail_iff.1 (not_not.1 hne)

theorem loadTailBlock_spec {frontBlock_ : Nat}
    (hmem : Memory least q g (Consumer.inside op (.loadTailBlock frontBlock_ : DequeuePc α)).taken
      pending unpublished)
    (hat : ConsumerAt q g (.inside op (.loadTailBlock frontBlock_))) :
    DequeueStep least op q g pending unpublished (.loadTailBlock frontBlock_)
      (q.dequeue op (.loadTailBlock frontBlock_)) g := by
  have hsame : frontBlock_ = q.frontBlock := hat
  subst hsame
  rw [ReaderWriterQueue.dequeue]
  by_cases hne : q.frontBlock ≠ q.tailBlock
  · rw [if_pos hne]
    refine ⟨hmem, ?_, .refl q g, .goes rfl (by simp)⟩
    by_contra hlen
    exact hne (hmem.tail_eq_front (Nat.lt_of_not_le hlen)).symm
  · rw [if_neg hne]
    exact ⟨hmem, trivial, .refl q g, .fails rfl (not_not.1 hne).symm⟩

theorem reloadTail_spec
    (hmem : Memory least q g (Consumer.inside op (.reloadTail : DequeuePc α)).taken pending
      unpublished)
    (hat : ConsumerAt q g (.inside op .reloadTail)) :
    DequeueStep least op q g pending unpublished .reloadTail (q.dequeue op .reloadTail)
      (g.setView q.frontBlock (g.view q.frontBlock).seeTail) := by
  have hring := Memory.mem_ring_of_busy hmem.frontBlock_mem
  have hshows := hmem.shows _ hring
  have hmem' : Memory least
      (q.setBlock q.frontBlock
        { q.blocks q.frontBlock with localTail := (q.blocks q.frontBlock).tail })
      (g.setView q.frontBlock (g.view q.frontBlock).seeTail) (fun _ => 0) pending unpublished :=
    hmem.setBlock_of_contents hring hshows.loadTail rfl rfl rfl fun c hc => ⟨rfl, rfl⟩
  have hmoves : ConsumerMoves q
      (q.setBlock q.frontBlock
        { q.blocks q.frontBlock with localTail := (q.blocks q.frontBlock).tail })
      g (g.setView q.frontBlock (g.view q.frontBlock).seeTail) :=
    .of_setBlock hring rfl rfl rfl rfl rfl fun hne => rfl
  have hitems : (g.setView q.frontBlock (g.view q.frontBlock).seeTail).items = g.items :=
    g.items_setView_of_contents rfl
  rw [ReaderWriterQueue.dequeue]
  by_cases hne : (q.blocks q.frontBlock).front ≠ (q.blocks q.frontBlock).tail
  · rw [if_pos hne]
    refine ⟨hmem', .inr ⟨rfl, ?_, ?_⟩, hmoves, .goes hitems (by simp)⟩
    · rw [ReaderWriterQueue.frontBlock_setBlock, ReaderWriterQueue.blocks_setBlock_self]
    · rw [ReaderWriterQueue.frontBlock_setBlock, Layout.view_setView_self]
      exact hshows.front_lt_seeTail hne
  · rw [if_neg hne]
    refine ⟨hmem', ⟨rfl, hat, ?_⟩, hmoves, .goes hitems (by simp)⟩
    rw [ReaderWriterQueue.frontBlock_setBlock, Layout.view_setView_self]
    exact hshows.front_eq_tail_iff.1 (not_not.1 hne)

theorem loadNext_spec {frontBlock_ : Nat}
    (hmem : Memory least q g (Consumer.inside op (.loadNext frontBlock_ : DequeuePc α)).taken
      pending unpublished)
    (hat : ConsumerAt q g (.inside op (.loadNext frontBlock_))) :
    DequeueStep least op q g pending unpublished (.loadNext frontBlock_)
      (q.dequeue op (.loadNext frontBlock_)) g := by
  obtain ⟨rfl, hlen, hempty⟩ := hat
  obtain ⟨rest, hbusy⟩ := hmem.busy_eq_cons
  cases rest with
  | nil =>
    rw [hbusy, List.length_singleton] at hlen
    omega
  | cons b rest =>
    have hnext := hmem.next_frontBlock hbusy
    rw [ReaderWriterQueue.dequeue, hnext]
    exact ⟨hmem, ⟨⟨rest, hbusy⟩, hempty, rfl⟩, .refl q g, .goes rfl (by simp)⟩

/-- The next block is in use and not empty. -/
theorem AtNext.spec {taken : Nat → Nat} {b blockFront : Nat} (h : AtNext q g b blockFront)
    (hmem : Memory least q g taken pending unpublished) :
    b ∈ g.busy ∧ b ≠ q.frontBlock ∧ (g.view b).contents ≠ [] := by
  obtain ⟨rest, hbusy⟩ := h.second
  have hb : b ∈ g.busy := by
    rw [hbusy]
    simp
  have hnodup := hmem.nodup_busy
  rw [hbusy, List.nodup_cons] at hnodup
  have hne : b ≠ q.frontBlock := fun heq => hnodup.1 (by simp [heq])
  exact ⟨hb, hne, hmem.contents_ne_nil hb hne⟩

theorem loadNextTail_spec {b blockFront : Nat}
    (hmem : Memory least q g (Consumer.inside op (.loadNextTail b blockFront : DequeuePc α)).taken
      pending unpublished)
    (hat : ConsumerAt q g (.inside op (.loadNextTail b blockFront))) :
    ∃ g', DequeueStep least op q g pending unpublished (.loadNextTail b blockFront)
      (q.dequeue op (.loadNextTail b blockFront)) g' := by
  have hnext : AtNext q g b blockFront := hat
  obtain ⟨hb, hne, hcontents⟩ := hnext.spec hmem
  obtain rfl := hnext.front
  have hring := Memory.mem_ring_of_busy hb
  have hshows := hmem.shows b hring
  have htail : ¬ (q.blocks b).front = (q.blocks b).tail :=
    fun heq => hcontents (hshows.front_eq_tail_iff.1 heq)
  simp only [ReaderWriterQueue.dequeue, if_neg htail]
  by_cases hop : op = .peek
  · rw [if_pos hop]
    exact ⟨g, hmem, .inl ⟨hop, hnext⟩, .refl q g, .goes rfl (by simp)⟩
  · rw [if_neg hop]
    refine ⟨g.setView b (g.view b).seeTail, ?_, ⟨hop, ⟨hnext.second, ?_, ?_⟩, ?_⟩, ?_,
      .goes (g.items_setView_of_contents rfl) (by simp)⟩
    · exact hmem.setBlock_of_contents hring hshows.loadTail rfl rfl rfl fun c hc => ⟨rfl, rfl⟩
    · rw [ReaderWriterQueue.frontBlock_setBlock, Layout.view_setView_of_ne g hne.symm]
      exact hnext.empty
    · rw [ReaderWriterQueue.blocks_setBlock_self]
    · rw [Layout.view_setView_self]
      exact hshows.front_lt_seeTail htail
    · exact .of_setBlock hring rfl rfl rfl rfl rfl fun hne => rfl

/-- The consumer leaves the empty front block. -/
theorem storeFrontBlock_spec {b blockFront : Nat}
    (hmem : Memory least q g
      (Consumer.inside op (.storeFrontBlock b blockFront : DequeuePc α)).taken pending unpublished)
    (hat : ConsumerAt q g (.inside op (.storeFrontBlock b blockFront)))
    (hunpublished : ∀ c ∈ g.busy, unpublished c = []) :
    ∃ g', DequeueStep least op q g pending unpublished (.storeFrontBlock b blockFront)
      (q.dequeue op (.storeFrontBlock b blockFront)) g' := by
  obtain ⟨hop, hnext, hlt⟩ := hat
  obtain ⟨hb, hne, hcontents⟩ := hnext.spec hmem
  obtain ⟨⟨rest, hbusy⟩, hempty, rfl⟩ := hnext
  have hlen : 2 ≤ g.busy.length := by
    rw [hbusy]
    simp
  have htail := hmem.tail
  rw [hbusy, List.getLast?_cons_cons] at htail
  -- the front block goes to the end of the free ones: the ring turns by one
  have hring : g.ring = q.frontBlock :: b :: (rest ++ g.free) := by
    rw [Layout.ring, hbusy]
    rfl
  have hring' : (b :: rest) ++ (g.free ++ [q.frontBlock])
      = b :: (rest ++ g.free) ++ [q.frontBlock] := by simp
  have hperm : ((b :: rest) ++ (g.free ++ [q.frontBlock])).Perm g.ring := by
    rw [hring', hring]
    exact List.perm_append_singleton _ _
  have hmem' : Memory least { q with frontBlock := b }
      ⟨b :: rest, g.free ++ [q.frontBlock], g.view⟩ (fun _ => 0) pending unpublished := by
    refine { hmem with
      front := rfl
      tail := htail
      links := ?_
      nodup := hperm.nodup_iff.2 hmem.nodup
      made := fun c hc => hmem.made c (hperm.mem_iff.1 hc)
      shows := fun c hc => hmem.shows c (hperm.mem_iff.1 hc)
      passed := ?_
      last := fun _ => hmem.last (hmem.tail_ne_front hlen)
      free := ?_
      least_le := fun c hc => hmem.least_le c (hperm.mem_iff.1 hc) }
    · have hlinks := hmem.links
      rw [hring] at hlinks
      rw [Layout.ring, hring']
      exact links_rotate hlinks
    · intro c hc hfront hlast
      have hold : c ∈ g.busy := by
        rw [hbusy]
        exact List.mem_cons_of_mem _ hc
      have hnodup := hmem.nodup_busy
      rw [hbusy, List.nodup_cons] at hnodup
      have hneFront : c ≠ q.frontBlock := fun heq => hnodup.1 (heq ▸ hc)
      exact hmem.passed c hold hneFront hlast
    · intro c hc
      rcases List.mem_append.1 hc with hc | hc
      · exact hmem.free c hc
      · obtain rfl := List.mem_singleton.1 hc
        -- the block that has become free is empty
        rw [hunpublished _ hmem.frontBlock_mem]
        exact hempty
  refine ⟨⟨b :: rest, g.free ++ [q.frontBlock], g.view⟩, hmem', .inr ⟨rfl, rfl, hlt⟩, ?_,
    .goes ?_ (by simp)⟩
  · refine ⟨rfl, rfl, ?_, hperm, List.prefix_append _ _, fun c => rfl, fun c => rfl, fun c => rfl,
      fun c hc => rfl, fun c => rfl, fun c => rfl, fun c hc => rfl⟩
    intro heq
    exact absurd heq (hmem.tail_ne_front hlen)
  · simp [Layout.items, hbusy, hempty]

/-- The first element is read; `pop` and `try_dequeue` destroy it. -/
theorem take_spec {b blockFront : Nat}
    (hmem : Memory least q g (Consumer.inside op (.take b blockFront : DequeuePc α)).taken pending
      unpublished)
    (hat : ConsumerAt q g (.inside op (.take b blockFront))) :
    ∃ g', DequeueStep least op q g pending unpublished (.take b blockFront)
      (q.dequeue op (.take b blockFront)) g' := by
  rcases hat with ⟨hop, hnext⟩ | ⟨rfl, rfl, hlt⟩
  · -- `peek` looks into the next block
    obtain ⟨hb, hne, hcontents⟩ := hnext.spec hmem
    obtain ⟨⟨more, hbusy⟩, hempty, rfl⟩ := hnext
    obtain ⟨x, rest, hx⟩ := List.exists_cons_of_ne_nil hcontents
    obtain ⟨hslot, -⟩ := (hmem.shows b (Memory.mem_ring_of_busy hb)).take hx
    simp only [ReaderWriterQueue.dequeue, hslot, if_pos hop]
    have hitems : g.items = x :: (rest ++ more.flatMap fun c => (g.view c).contents) := by
      rw [Layout.items, hbusy, List.flatMap_cons, List.flatMap_cons, hempty, hx]
      rfl
    exact ⟨g, hmem, trivial, .refl q g, .peeks hitems rfl hop⟩
  · have hring := Memory.mem_ring_of_busy hmem.frontBlock_mem
    have hshows := hmem.shows _ hring
    obtain ⟨x, rest, hx⟩ := List.exists_cons_of_ne_nil (hshows.contents_ne_nil hlt)
    obtain ⟨hslot, htake⟩ := hshows.take hx
    simp only [ReaderWriterQueue.dequeue, hslot]
    by_cases hop : op = .peek
    · rw [if_pos hop]
      obtain ⟨more, hbusy, hitems⟩ := hmem.items_eq
      rw [hx, List.cons_append] at hitems
      exact ⟨g, hmem, trivial, .refl q g, .peeks hitems rfl hop⟩
    · rw [if_neg hop]
      refine ⟨g.setView q.frontBlock (g.view q.frontBlock), ?_, ⟨hop, rfl, ?_, ?_, rest, ?_⟩, ?_,
        .goes (g.items_setView_of_contents rfl) (by simp)⟩
      · refine hmem.setBlock_of_contents hring ?_ rfl rfl rfl ?_
        · simpa [Consumer.taken] using htake
        · intro c hc
          simp [Consumer.taken, hc]
      · rw [ReaderWriterQueue.frontBlock_setBlock, ReaderWriterQueue.blocks_setBlock_self]
      · rw [ReaderWriterQueue.frontBlock_setBlock, Layout.view_setView_self]
        exact hlt
      · rw [ReaderWriterQueue.frontBlock_setBlock, Layout.view_setView_self]
        exact hx
      · exact .of_setBlock hring rfl rfl rfl rfl rfl fun hne => rfl

theorem storeFront_spec {x : α} {b blockFront : Nat}
    (hmem : Memory least q g (Consumer.inside op (.storeFront x b blockFront)).taken pending
      unpublished)
    (hat : ConsumerAt q g (.inside op (.storeFront x b blockFront))) :
    DequeueStep least op q g pending unpublished (.storeFront x b blockFront)
      (q.dequeue op (.storeFront x b blockFront))
      (g.setView q.frontBlock (g.view q.frontBlock).pop) := by
  obtain ⟨hop, rfl, rfl, hlt, rest, hx⟩ := hat
  have hring := Memory.mem_ring_of_busy hmem.frontBlock_mem
  have hshows := hmem.shows _ hring
  simp only [Consumer.taken, if_true] at hshows
  have hne : (g.view q.frontBlock).contents ≠ [] := by simp [hx]
  have hmem' : Memory least
      (q.setBlock q.frontBlock { q.blocks q.frontBlock with
        front := ((q.blocks q.frontBlock).front + 1) &&& (q.blocks q.frontBlock).sizeMask })
      (g.setView q.frontBlock (g.view q.frontBlock).pop) (fun _ => 0) pending unpublished := by
    refine hmem.setBlock hring (hshows.storeFront hx hlt) rfl rfl ?_ ?_ ?_ ?_
    · intro c hc
      simp [Consumer.taken, hc]
    · intro hbusy hfront
      exact absurd rfl hfront
    · intro heq hfront
      exact absurd heq.symm hfront
    · intro hfree
      exact absurd hmem.frontBlock_mem (hmem.not_busy_of_free hfree)
  refine ⟨hmem', trivial, ?_, .removes (hmem.items_pop hx) hop⟩
  exact .of_setBlock hring rfl rfl rfl (View.tail_pop hne) rfl fun h => absurd rfl h

/-- Every step of the consumer is correct. -/
theorem dequeue_spec {pc : DequeuePc α}
    (hmem : Memory least q g (Consumer.inside op pc).taken pending unpublished)
    (hat : ConsumerAt q g (.inside op pc)) (hunpublished : ∀ c ∈ g.busy, unpublished c = []) :
    ∃ g', DequeueStep least op q g pending unpublished pc (q.dequeue op pc) g' := by
  cases pc with
  | start => exact ⟨g, startDequeue_spec hmem⟩
  | loadTail frontBlock_ blockFront => exact ⟨_, loadTail_spec hmem hat⟩
  | loadTailBlock frontBlock_ => exact ⟨g, loadTailBlock_spec hmem hat⟩
  | reloadTail => exact ⟨_, reloadTail_spec hmem hat⟩
  | loadNext frontBlock_ => exact ⟨g, loadNext_spec hmem hat⟩
  | loadNextTail nextBlock nextBlockFront => exact loadNextTail_spec hmem hat
  | storeFrontBlock nextBlock nextBlockFront => exact storeFrontBlock_spec hmem hat hunpublished
  | take block blockFront => exact take_spec hmem hat
  | storeFront x block blockFront => exact ⟨_, storeFront_spec hmem hat⟩

end Steps

end PipelineTools.Queues.Moodycamel
