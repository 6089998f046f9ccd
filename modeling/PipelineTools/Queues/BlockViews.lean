import PipelineTools.Library.CircularBuffer
import PipelineTools.Queues.Moodycamel

/-!
# What a block holds

A `View` of a block counts the elements that went through it, without the wrap-around of the
indices, and lists those that it holds. `Shows` connects the members of a block to a view. The
consumer may have taken the first element out and not yet stored the new `front`, and the producer
may have constructed an element and not yet stored the new `tail`: `taken` and `pending` say so.

Every access of the two threads to a block has its lemma: what it reads and what it makes of the
view.
-/

set_option autoImplicit false

namespace PipelineTools.Queues.Moodycamel

open PipelineTools.Library

variable {α : Type}

/-- The indices of a block without the wrap-around, and its elements from `front` to `tail`. -/
structure View (α : Type) where
  localFront : Nat
  front : Nat
  localTail : Nat
  contents : List α

namespace View

/-- Number of elements that were enqueued in the block. -/
def tail (v : View α) : Nat := v.front + v.contents.length

/-- A block as `make_block` makes it. -/
def empty : View α := ⟨0, 0, 0, []⟩

/-- The producer knows `front`. -/
def seeFront (v : View α) : View α := { v with localFront := v.front }

/-- The consumer knows `tail`. -/
def seeTail (v : View α) : View α := { v with localTail := v.tail }

/-- One more element. -/
def push (v : View α) (x : α) : View α := { v with contents := v.contents ++ [x] }

/-- One element less. -/
def pop (v : View α) : View α := { v with front := v.front + 1, contents := v.contents.tail }

@[simp] theorem tail_seeFront (v : View α) : v.seeFront.tail = v.tail := rfl

@[simp] theorem tail_seeTail (v : View α) : v.seeTail.tail = v.tail := rfl

@[simp] theorem contents_seeFront (v : View α) : v.seeFront.contents = v.contents := rfl

@[simp] theorem contents_seeTail (v : View α) : v.seeTail.contents = v.contents := rfl

@[simp] theorem tail_push (v : View α) (x : α) : (v.push x).tail = v.tail + 1 := by
  simp [tail, push, Nat.add_assoc]

theorem tail_pop {v : View α} (h : v.contents ≠ []) : v.pop.tail = v.tail := by
  have hlen := List.length_pos_iff.2 h
  simp only [tail, pop, List.length_tail]
  omega

end View

/-- `block` is in the state `v`; its first `taken` elements are gone already, and `pending` are
constructed behind the last. -/
structure Shows (block : Block α) (v : View α) (taken : Nat) (pending : List α) : Prop where
  size : ∃ k, block.sizeMask + 1 = 2 ^ k
  front : block.front = v.front % (block.sizeMask + 1)
  tail : block.tail = v.tail % (block.sizeMask + 1)
  localFront : block.localFront = v.localFront % (block.sizeMask + 1)
  localTail : block.localTail = v.localTail % (block.sizeMask + 1)
  localFront_le : v.localFront ≤ v.front
  front_le : v.front ≤ v.localTail
  localTail_le : v.localTail ≤ v.tail
  fits : v.tail ≤ v.localFront + block.sizeMask
  taken_le : taken ≤ v.contents.length
  window : Window (block.sizeMask + 1) block.data (v.front + taken)
    (v.contents.drop taken ++ pending)

/-- Room for one more element, as far as the producer knows. -/
def HasRoom (block : Block α) (v : View α) : Prop := v.tail + 1 ≤ v.localFront + block.sizeMask

namespace Shows

variable {block : Block α} {v : View α} {taken : Nat} {pending : List α}

theorem length_le (h : Shows block v taken pending) : v.contents.length ≤ block.sizeMask := by
  have hfits := h.fits
  have hle := h.localFront_le
  rw [View.tail] at hfits
  omega

/-! ### What the comparisons of the code tell -/

theorem nextTail (h : Shows block v taken pending) :
    (block.tail + 1) &&& block.sizeMask = (v.tail + 1) % (block.sizeMask + 1) := by
  obtain ⟨k, hk⟩ := h.size
  rw [h.tail]
  exact succ_and_mask hk v.tail

theorem nextFront (h : Shows block v taken pending) :
    (block.front + 1) &&& block.sizeMask = (v.front + 1) % (block.sizeMask + 1) := by
  obtain ⟨k, hk⟩ := h.size
  rw [h.front]
  exact succ_and_mask hk v.front

/-- The tail does not meet the front that the producer knows: there is room. -/
theorem hasRoom_of_ne (h : Shows block v taken pending)
    (hne : (block.tail + 1) &&& block.sizeMask ≠ block.localFront) : HasRoom block v := by
  rw [h.nextTail, h.localFront] at hne
  have hle := h.localFront_le
  have hfits := h.fits
  rw [HasRoom]
  by_contra hfull
  apply hne
  rw [succ_mod_eq_iff (by rw [View.tail]; omega) (by omega)]
  omega

/-- The tail meets the front: the block is full. -/
theorem full_of_eq (h : Shows block v taken pending)
    (heq : (block.tail + 1) &&& block.sizeMask = block.front) :
    v.contents.length = block.sizeMask := by
  rw [h.nextTail, h.front] at heq
  have hlen := h.length_le
  rw [succ_mod_eq_iff (by rw [View.tail]; omega) (by rw [View.tail]; omega)] at heq
  rw [View.tail] at heq
  omega

theorem front_eq_tail_iff (h : Shows block v taken pending) :
    block.front = block.tail ↔ v.contents = [] := by
  have hlen := h.length_le
  rw [h.front, h.tail, mod_eq_mod_iff (by rw [View.tail]; omega) (by rw [View.tail]; omega),
    ← List.length_eq_zero_iff, View.tail]
  omega

/-- The consumer knows of an element. -/
theorem front_lt_of_ne (h : Shows block v taken pending) (hne : block.front ≠ block.localTail) :
    v.front < v.localTail := by
  rcases Nat.lt_or_eq_of_le h.front_le with hlt | heq
  · exact hlt
  · rw [h.front, h.localTail, heq] at hne
    exact absurd rfl hne

theorem contents_ne_nil (h : Shows block v taken pending) (hlt : v.front < v.localTail) :
    v.contents ≠ [] := by
  intro hnil
  have hle := h.localTail_le
  rw [View.tail, hnil, List.length_nil] at hle
  omega

/-! ### The accesses of the producer -/

theorem loadFront (h : Shows block v taken pending) :
    Shows { block with localFront := block.front } v.seeFront taken pending :=
  { h with
    localFront := h.front
    localFront_le := Nat.le_refl _
    fits := by
      have hlen := h.length_le
      show v.front + v.contents.length ≤ v.front + block.sizeMask
      omega }

/-- After the comparison with the front itself there is room, too. -/
theorem hasRoom_seeFront (h : Shows block v taken pending)
    (hne : (block.tail + 1) &&& block.sizeMask ≠ block.front) :
    HasRoom { block with localFront := block.front } v.seeFront :=
  h.loadFront.hasRoom_of_ne hne

theorem construct (h : Shows block v taken []) (hroom : HasRoom block v) (x : α) :
    block.data block.tail = none ∧
      Shows { block with data := Function.update block.data block.tail (some x) } v taken [x] := by
  have hwindow := h.window
  rw [List.append_nil] at hwindow
  have hlen : (v.contents.drop taken).length = v.contents.length - taken := List.length_drop
  have htaken := h.taken_le
  have hle := h.localFront_le
  have hslot : block.tail
      = (v.front + taken + (v.contents.drop taken).length) % (block.sizeMask + 1) := by
    rw [h.tail, hlen, View.tail]
    congr 1
    omega
  have hfree : (v.contents.drop taken).length < block.sizeMask + 1 := by
    rw [HasRoom, View.tail] at hroom
    omega
  refine ⟨?_, { h with window := ?_ }⟩
  · rw [hslot]
    exact hwindow.next_free hfree
  · rw [hslot]
    exact hwindow.push hfree x

theorem storeTail {x : α} (h : Shows block v taken [x]) (hroom : HasRoom block v) :
    Shows { block with tail := (block.tail + 1) &&& block.sizeMask } (v.push x) taken [] :=
  { h with
    tail := by
      show _ = (v.push x).tail % _
      rw [View.tail_push]
      exact h.nextTail
    localTail_le := by
      rw [View.tail_push]
      exact Nat.le_succ_of_le h.localTail_le
    fits := by
      rw [View.tail_push]
      exact hroom
    taken_le := by
      have htaken := h.taken_le
      simp only [View.push, List.length_append]
      omega
    window := by
      have hwindow := h.window
      rw [List.append_nil]
      show Window _ _ _ ((v.contents ++ [x]).drop taken)
      rw [List.drop_append_of_le_length h.taken_le]
      exact hwindow }

/-! ### The accesses of the consumer -/

theorem loadTail (h : Shows block v taken pending) :
    Shows { block with localTail := block.tail } v.seeTail taken pending :=
  { h with
    localTail := h.tail
    front_le := Nat.le_add_right _ _
    localTail_le := Nat.le_refl _ }

theorem front_lt_seeTail (h : Shows block v taken pending) (hne : block.front ≠ block.tail) :
    v.seeTail.front < v.seeTail.localTail :=
  h.loadTail.front_lt_of_ne hne

theorem take {x : α} {rest : List α} (h : Shows block v 0 pending) (hx : v.contents = x :: rest) :
    block.data block.front = some x ∧
      Shows { block with data := Function.update block.data block.front none } v 1 pending := by
  have hwindow := h.window
  rw [List.drop_zero, hx, List.cons_append, Nat.add_zero] at hwindow
  refine ⟨?_, { h with taken_le := ?_, window := ?_ }⟩
  · rw [h.front]
    exact hwindow.head
  · rw [hx]
    simp
  · rw [h.front, hx]
    exact hwindow.pop

theorem storeFront {x : α} {rest : List α} (h : Shows block v 1 pending)
    (hx : v.contents = x :: rest) (hlt : v.front < v.localTail) :
    Shows { block with front := (block.front + 1) &&& block.sizeMask } v.pop 0 pending := by
  have hne : v.contents ≠ [] := by simp [hx]
  have htail := View.tail_pop hne
  refine { h with
    front := h.nextFront
    tail := ?_
    localFront_le := Nat.le_succ_of_le h.localFront_le
    front_le := hlt
    localTail_le := ?_
    fits := ?_
    taken_le := Nat.zero_le _
    window := ?_ }
  · rw [htail]
    exact h.tail
  · rw [htail]
    exact h.localTail_le
  · rw [htail]
    exact h.fits
  · have hwindow := h.window
    rw [hx] at hwindow
    simpa [View.pop, hx] using hwindow

end Shows

/-- A new block. -/
theorem shows_makeBlock {capacity k : Nat} (hcapacity : capacity = 2 ^ k) :
    Shows (makeBlock capacity : Block α) .empty 0 [] := by
  have hmask : capacity - 1 + 1 = capacity := by
    have hpos := Nat.two_pow_pos k
    omega
  refine ⟨⟨k, ?_⟩, ?_, ?_, ?_, ?_, ?_, ?_, ?_, ?_, ?_, ?_⟩
  · rw [← hcapacity]
    exact hmask
  · exact (Nat.zero_mod _).symm
  · exact (Nat.zero_mod _).symm
  · exact (Nat.zero_mod _).symm
  · exact (Nat.zero_mod _).symm
  · exact Nat.le_refl _
  · exact Nat.le_refl _
  · exact Nat.le_refl _
  · exact Nat.zero_le _
  · exact Nat.le_refl _
  · exact Window.empty (fun i => rfl) _

/-- A new block with its first element. -/
theorem shows_firstElement {capacity k : Nat} (hcapacity : capacity = 2 ^ k) (htwo : 2 ≤ capacity)
    (x : α) (next : Nat) :
    Shows { (makeBlock capacity : Block α) with
        data := Function.update (fun _ => none) 0 (some x)
        tail := 1
        localTail := 1
        next := next }
      (View.empty.push x).seeTail 0 [] := by
  have hmask : capacity - 1 + 1 = capacity := by omega
  have hone : 1 = 1 % (capacity - 1 + 1) := (Nat.mod_eq_of_lt (by omega)).symm
  have hempty : Window (capacity - 1 + 1) (fun _ => (none : Option α)) 0 [] :=
    Window.empty (fun i => rfl) 0
  have hpush := hempty.push (by simp) x
  rw [Nat.zero_add, List.length_nil, Nat.zero_mod] at hpush
  refine ⟨⟨k, hmask.trans hcapacity⟩, (Nat.zero_mod _).symm, hone, (Nat.zero_mod _).symm, hone,
    Nat.le_refl _, Nat.zero_le _, Nat.le_refl _, ?_, Nat.zero_le _, hpush⟩
  show 1 ≤ 0 + (capacity - 1)
  omega

end PipelineTools.Queues.Moodycamel
