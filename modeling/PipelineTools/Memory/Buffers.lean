/-!
# Data of the buffer classes

The three buffer classes pass memory to each other as a `ReleasedBuffer`. A pointer is an index into
memory and `none` is the null pointer. A deleter is a value of an arbitrary type `D`, and `none` is
an empty `std::function`. The functions here return the deleter calls they make, as a list of
deleters and pointers; what a call does is the business of the machine that runs it.
-/

set_option autoImplicit false

namespace PipelineTools.Memory

/-- The location the memory is stored. -/
inductive MemoryLocation where
  | Host
  | HostPinned
  | Device
  | Unified
deriving DecidableEq, Repr

/-- What `release()` of a buffer hands to its caller. -/
structure ReleasedBuffer (D : Type) where
  ptr : Option Nat := none
  count : Nat := 0
  deleter : Option D := none
  location : MemoryLocation := .Host

/-- Calls of deleters, in order. -/
abbrev Calls (D : Type) : Type := List (D × Nat)

namespace ReleasedBuffer

variable {D : Type}

/-- The pointer that a deleter is responsible for. -/
def secured (rb : ReleasedBuffer D) : Option Nat :=
  if rb.deleter.isSome then rb.ptr else none

/-- The deleter call that is due when the memory is given up. -/
def settle (rb : ReleasedBuffer D) : Calls D :=
  match rb.ptr with
  | some ptr => rb.deleter.toList.map fun d => (d, ptr)
  | none => []

/-- The deleter calls that are due and never made when a `shared_buffer` is constructed: its
constructor takes a size of zero for empty. -/
def lost (rb : ReleasedBuffer D) : Calls D :=
  if rb.count = 0 then rb.settle else []

theorem secured_of_ptr_eq_none {rb : ReleasedBuffer D} (h : rb.ptr = none) : rb.secured = none := by
  rw [secured]
  rw [h, ite_self]

theorem secured_eq_some_iff {rb : ReleasedBuffer D} {p : Nat} :
    rb.secured = some p ↔ rb.ptr = some p ∧ rb.deleter.isSome = true := by
  rw [secured]
  cases rb.deleter.isSome <;> simp

/-- The call that is due is on the pointer that is secured. -/
theorem settle_map_snd (rb : ReleasedBuffer D) : rb.settle.map Prod.snd = rb.secured.toList := by
  unfold settle secured
  cases hptr : rb.ptr with
  | none => rw [ite_self]; rfl
  | some p => cases hdel : rb.deleter <;> rfl

theorem settle_eq_nil_of_ptr {rb : ReleasedBuffer D} (h : rb.ptr = none) : rb.settle = [] := by
  rw [settle, h]

/-- What `shared_buffer` takes for empty is lost as a whole. -/
theorem lost_eq_settle {rb : ReleasedBuffer D} (h : ¬ (rb.ptr.isSome ∧ rb.count ≠ 0)) :
    rb.lost = rb.settle := by
  rw [lost]
  cases hptr : rb.ptr with
  | none => rw [settle_eq_nil_of_ptr hptr, ite_self]
  | some p =>
    have hcount : rb.count = 0 := by
      apply Decidable.not_not.1
      intro hne
      exact h ⟨by rw [hptr]; rfl, hne⟩
    exact if_pos hcount

theorem lost_eq_nil_iff {rb : ReleasedBuffer D} :
    rb.lost = [] ↔ (rb.ptr.isSome = true → rb.deleter.isSome = true → rb.count ≠ 0) := by
  unfold lost settle
  cases rb.ptr <;> cases rb.deleter <;> simp

theorem mem_settle {rb : ReleasedBuffer D} {d : D} {p : Nat} (h : (d, p) ∈ rb.settle) :
    rb.ptr = some p ∧ rb.deleter = some d := by
  rw [settle] at h
  cases hptr : rb.ptr with
  | none =>
    rw [hptr] at h
    cases h
  | some q =>
    cases hdel : rb.deleter with
    | none =>
      rw [hptr, hdel] at h
      cases h
    | some e =>
      rw [hptr, hdel] at h
      obtain ⟨rfl, rfl⟩ := Prod.mk.inj (List.mem_singleton.1 h)
      exact ⟨rfl, rfl⟩

end ReleasedBuffer

/-- The members of a control block of `shared_buffer`. -/
structure ControlBlock (D : Type) where
  ref : Nat
  ptr : Nat
  size : Nat
  deleter : Option D
  location : MemoryLocation

/-- The members of a `unique_buffer`; the defaults are those of its default constructor. -/
structure UniqueBuffer (D : Type) where
  data : Option Nat := none
  count : Nat := 0
  location : MemoryLocation := .Host
  deleter : Option D := none

namespace UniqueBuffer

variable {D : Type}

/-- The constructor from a released buffer. -/
def ofReleased (rb : ReleasedBuffer D) : UniqueBuffer D :=
  ⟨rb.ptr, rb.count, rb.location, rb.deleter⟩

/-- What `release()` returns; the buffer itself becomes empty. -/
def released (b : UniqueBuffer D) : ReleasedBuffer D :=
  ⟨b.data, b.count, b.deleter, b.location⟩

/-- What `reset()` leaves of the buffer, and the deleter calls it makes. -/
def reset (b : UniqueBuffer D) : UniqueBuffer D × Calls D :=
  match b.data with
  | some ptr => ({}, b.deleter.toList.map fun d => (d, ptr))
  | none => ({ b with deleter := none }, [])

theorem reset_calls (b : UniqueBuffer D) : b.reset.2 = b.released.settle := by
  unfold reset ReleasedBuffer.settle released
  cases hdata : b.data with
  | none => rfl
  | some ptr => rfl

theorem reset_data (b : UniqueBuffer D) : b.reset.1.data = none := by
  rw [reset]
  cases hdata : b.data with
  | none => rfl
  | some ptr => rfl

end UniqueBuffer

end PipelineTools.Memory
