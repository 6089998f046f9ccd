import PipelineTools.Queues.FifoOrder
import PipelineTools.Queues.QueueConstruction

/-!
# The destructor of the reader-writer queue

The destructor follows the circular list of blocks, destroys the elements of each block and frees
it. It ends with `none` if it meets a slot without an object, or if it does not come back to the
front block. `destroy_eq` says that it destroys the elements of the queue in their order, and
`destructor_balances` what follows for the whole life of a queue: every element that was accepted is
either handed out or destroyed, and every block is freed once.
-/

set_option autoImplicit false

namespace PipelineTools.Queues.Moodycamel

open PipelineTools.Library

variable {α : Type}

/-- The loop over the elements of a block, from the slot `i` on. -/
def Block.destroyElements (block : Block α) : Nat → Nat → (Nat → Option α) → Option (List α)
  | 0, _, _ => none
  | fuel + 1, i, data =>
      if i = block.tail then some []
      else match data i with
        | none => none
        | some element =>
            (block.destroyElements fuel ((i + 1) &&& block.sizeMask)
              (Function.update data i none)).map (element :: ·)

/-- `~ReaderWriterQueue`, from the block `b` on: the destroyed elements and the freed blocks. -/
def ReaderWriterQueue.destroy (q : ReaderWriterQueue α) : Nat → Nat → Option (List α × List Nat)
  | 0, _ => none
  | fuel + 1, b =>
      let block := q.blocks b
      match block.destroyElements (block.sizeMask + 1) block.front block.data with
      | none => none
      | some elements =>
          if block.next = q.frontBlock then some (elements, [b])
          else (q.destroy fuel block.next).map fun r => (elements ++ r.1, b :: r.2)

/-- The elements of a window are destroyed one by one. -/
theorem destroyElements_eq {block : Block α} {k : Nat} (hsize : block.sizeMask + 1 = 2 ^ k)
    {items : List α} {first fuel : Nat} {data : Nat → Option α}
    (htail : block.tail = (first + items.length) % (block.sizeMask + 1))
    (hlen : items.length ≤ block.sizeMask) (hfuel : items.length < fuel)
    (hwindow : Window (block.sizeMask + 1) data first items) :
    block.destroyElements fuel (first % (block.sizeMask + 1)) data = some items := by
  induction items generalizing first fuel data with
  | nil =>
    obtain ⟨fuel, rfl⟩ : ∃ n, fuel = n + 1 := ⟨fuel - 1, by simp at hfuel; omega⟩
    rw [List.length_nil, Nat.add_zero] at htail
    rw [Block.destroyElements, if_pos htail.symm]
  | cons x items ih =>
    rw [List.length_cons] at htail hlen hfuel
    obtain ⟨fuel, rfl⟩ : ∃ n, fuel = n + 1 := ⟨fuel - 1, by omega⟩
    have hne : ¬ first % (block.sizeMask + 1) = block.tail := by
      rw [htail, mod_eq_mod_iff (by omega) (by omega)]
      omega
    have hnext := succ_and_mask hsize first
    have hslot : block.tail = (first + 1 + items.length) % (block.sizeMask + 1) := by
      rw [htail]
      congr 1
      omega
    have hrest : block.destroyElements fuel ((first + 1) % (block.sizeMask + 1))
        (Function.update data (first % (block.sizeMask + 1)) none) = some items :=
      ih hslot (by omega) (by omega) hwindow.pop
    simp only [Block.destroyElements, if_neg hne, hwindow.head, hnext, hrest, Option.map_some]

theorem Shows.destroyElements_eq {block : Block α} {v : View α} (h : Shows block v 0 []) :
    block.destroyElements (block.sizeMask + 1) block.front block.data = some v.contents := by
  obtain ⟨k, hk⟩ := h.size
  have hwindow := h.window
  rw [List.drop_zero, List.append_nil, Nat.add_zero] at hwindow
  rw [h.front]
  exact Moodycamel.destroyElements_eq hk h.tail h.length_le (Nat.lt_succ_of_le h.length_le) hwindow

/-- The destructor goes through the rest of the ring. -/
theorem destroy_links {q : ReaderWriterQueue α} {view : Nat → View α} {b : Nat} {rest : List Nat}
    (hlinks : Links (fun b => (q.blocks b).next) (b :: rest) q.frontBlock)
    (hfront : q.frontBlock ∉ rest)
    (hshows : ∀ c ∈ b :: rest, Shows (q.blocks c) (view c) 0 []) {fuel : Nat}
    (hfuel : rest.length < fuel) :
    q.destroy fuel b = some ((b :: rest).flatMap (fun c => (view c).contents), b :: rest) := by
  induction rest generalizing b fuel with
  | nil =>
    obtain ⟨fuel, rfl⟩ : ∃ n, fuel = n + 1 := ⟨fuel - 1, by omega⟩
    have helements := (hshows b List.mem_cons_self).destroyElements_eq
    have hnext : (q.blocks b).next = q.frontBlock := hlinks.1
    simp only [ReaderWriterQueue.destroy, helements, if_pos hnext, List.flatMap_cons,
      List.flatMap_nil, List.append_nil]
  | cons c rest ih =>
    rw [List.length_cons] at hfuel
    obtain ⟨fuel, rfl⟩ : ∃ n, fuel = n + 1 := ⟨fuel - 1, by omega⟩
    rw [List.forall_mem_cons] at hshows
    rw [List.mem_cons, not_or] at hfront
    have helements := hshows.1.destroyElements_eq
    have hnext : (q.blocks b).next = c := hlinks.1
    have hne : ¬ c = q.frontBlock := fun heq => hfront.1 heq.symm
    have hrest := ih hlinks.2 hfront.2 hshows.2 (by omega : rest.length < fuel)
    simp only [ReaderWriterQueue.destroy, helements, hnext, if_neg hne, hrest, Option.map_some]
    rfl

/-- Between the calls the destructor finds all elements and all blocks. -/
theorem destroy_eq {least : Nat} {q : ReaderWriterQueue α} {g : Layout α}
    (h : Memory least q g (fun _ => 0) (fun _ => []) (fun _ => [])) {fuel : Nat}
    (hfuel : g.ring.length ≤ fuel) : q.destroy fuel q.frontBlock = some (g.items, g.ring) := by
  obtain ⟨rest, hbusy⟩ := h.busy_eq_cons
  have hring : g.ring = q.frontBlock :: (rest ++ g.free) := by
    rw [Layout.ring, hbusy]
    rfl
  have hnodup := h.nodup
  have hlinks := h.links
  have hshows := h.shows
  rw [hring] at hnodup hlinks hshows hfuel
  have hfree : g.free.flatMap (fun c => (g.view c).contents) = [] := by
    rw [List.flatMap_eq_nil_iff]
    intro c hc
    exact h.free c hc
  have hitems : (q.frontBlock :: (rest ++ g.free)).flatMap (fun c => (g.view c).contents) =
      g.items := by
    rw [Layout.items, hbusy, ← List.cons_append, List.flatMap_append, hfree, List.append_nil]
  rw [destroy_links hlinks (List.nodup_cons.1 hnodup).1 hshows hfuel, hitems, hring]

/-! ## The life of a queue -/

/-- A queue that is destroyed when no call is pending: the elements that were accepted are those
that were dequeued and those that are destroyed now, in this order, and every block that was made is
freed once. -/
theorem destructor_balances {maxBlockSize k size : Nat} (hmax : maxBlockSize = 2 ^ k) (hk : 1 ≤ k)
    (hle : k ≤ 62) (hone : 1 ≤ size) (hsmall : size < 2 ^ 63) {as : List (Action α)}
    (hpop : ∀ a ∈ as, ∀ op, a.op? = some op → op ≠ .dequeue .pop) {s : State α}
    {history : List (Event Role (Op α) (Result α))}
    (hrun : runFrom (withHistory (State.step maxBlockSize) State.events)
      (.start (.make maxBlockSize size), []) as = some (s, history))
    (hproducer : s.producer = .idle) (hconsumer : s.consumer = .idle) :
    ∃ destroyed freed,
      s.queue.destroy s.queue.allocated s.queue.frontBlock = some (destroyed, freed) ∧
        accepted history = dequeued history ++ destroyed ∧
        freed.Perm (List.range s.queue.allocated) := by
  obtain ⟨least, g, hready⟩ := ready_make (α := α) hmax hk hle hone hsmall True True
  obtain ⟨ms, a, o, g', hexplains, hhistory, hrelated⟩ :=
    hready.explains (fun a ha => allowed_of_mayGrow trivial trivial a) hrun
  have htold : ∀ t op, .call t op ∈ history → Told t op := fun t op h => calls_of_run hpop hrun h
  subst hhistory
  -- no call is pending, so all accepted elements are in the queue or have left it
  have hidle : ∀ t, a.status t = .idle := by
    intro t
    have hagrees := hexplains.agrees t
    cases t with
    | producer =>
      have hseen := hrelated.producer
      rw [hproducer] at hseen
      rw [hseen] at hagrees
      exact hagrees.eq_idle
    | consumer =>
      have hseen := hrelated.consumer
      rw [hconsumer] at hseen
      rw [hseen] at hagrees
      exact hagrees.eq_idle
  have hmade := hrelated.made
  have hmem := hrelated.inv.memory
  rw [hproducer] at hmade hmem
  rw [hconsumer] at hmem
  have hcount : s.queue.allocated = g'.ring.length := hmade
  refine ⟨g'.items, g'.ring, destroy_eq hmem (Nat.le_of_eq hcount.symm), ?_, ?_⟩
  · rw [accepted_eq hexplains.run htold hidle, hexplains.object, hrelated.object]
  · -- the ring has as many blocks as were ever allocated, without repetition
    have hsubset : g'.ring ⊆ List.range s.queue.allocated :=
      fun b hb => List.mem_range.2 (hmem.made b hb)
    apply (List.subperm_of_subset hmem.nodup hsubset).perm_of_length_le
    rw [List.length_range]
    exact Nat.le_of_eq hcount

/-- Of two elements one is handed out, and the other one is destroyed in a second block. -/
def oneLeft : List (Action Nat) :=
  [.callEnqueue .CanAlloc 7, .stepEnqueue true, .stepEnqueue true, .stepEnqueue true,
    .returnEnqueue, .callEnqueue .CanAlloc 8, .stepEnqueue true, .stepEnqueue true,
    .stepEnqueue true, .stepEnqueue true, .stepEnqueue true, .stepEnqueue true, .returnEnqueue,
    .callDequeue .tryDequeue, .stepDequeue, .stepDequeue, .stepDequeue, .stepDequeue,
    .returnDequeue]

theorem destructor_balances_oneLeft : ∃ s history,
    runFrom (withHistory (State.step 2) State.events) (.start (.make 2 1), []) oneLeft =
        some (s, history) ∧
      accepted history = [7, 8] ∧ dequeued history = [7] ∧
      ∃ destroyed freed,
        s.queue.destroy s.queue.allocated s.queue.frontBlock = some (destroyed, freed) ∧
          accepted history = dequeued history ++ destroyed ∧
          freed.Perm (List.range s.queue.allocated) := by
  have hpop : ∀ a ∈ oneLeft, ∀ op, a.op? = some op → op ≠ .dequeue .pop := by
    simp [oneLeft, Action.op?]
  exact ⟨_, _, rfl, rfl, rfl, destructor_balances (by decide : 2 = 2 ^ 1) (by decide)
    (by decide) (by decide : 1 ≤ 1) (by decide) hpop rfl rfl rfl⟩

end PipelineTools.Queues.Moodycamel
