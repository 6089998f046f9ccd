import PipelineTools.Memory.Buffers
import PipelineTools.Library.References
import PipelineTools.Library.Runs
import Mathlib.Data.Finset.Sum
import Mathlib.Data.Fintype.Basic
import Mathlib.Logic.Function.Basic

/-!
# Threads and their `shared_buffer` handles

Threads of type `T` work on `shared_buffer` objects of type `H`, the handles, over control blocks
numbered in the order of their allocation. Each step of the machine is one atomic operation on a
reference count (`fetch_add`, `fetch_sub`, `compare_exchange`) together with the plain code that
follows it up to the next one, or a piece of plain code that ends where another thread's step can
make a difference. Between two steps of one operation the thread's `Pc` says where it is, and any
other thread may move.

A handle is used by one thread at a time: an operation starts only on handles that no unfinished
operation is using. A block is never forgotten: its record stays after `delete`, with the history of
who dropped the last reference, who ran the deleter and whose `release()` succeeded. The reference
count is a natural number. It is at most the number of live handles and threads (`ref_le`), and
each of these takes up memory, so the `size_t` of the source does not wrap.
-/

set_option autoImplicit false

namespace PipelineTools.Memory

open PipelineTools.Library

/-- A control block and what has happened to it. -/
structure Block (T D : Type) extends ControlBlock D where
  deleted : Bool := false
  /-- The threads whose `fetch_sub` found the count `1`. -/
  lastOwners : List T := []
  /-- The threads that called the deleter. -/
  deleterRuns : List T := []
  /-- The threads whose `release()` took the block. -/
  releasedBy : List T := []

/-- An address at which no control block has been allocated yet. -/
def Block.unused {T D : Type} : Block T D :=
  { ref := 0, ptr := 0, size := 0, deleter := none, location := .Host }

/-- What the caller of `release_ctrl` does next. -/
inductive Next (H : Type) where
  | reset
  | destroy
  /-- Copy assignment: store the pointer read before, for which a reference was taken. -/
  | assign (new_ctrl : Option Nat)
  /-- Move assignment: take the pointer of `other`. -/
  | moveFrom (other : H)
deriving DecidableEq

/-- Where a thread is. -/
inductive Pc (H : Type) where
  | idle
  /-- About to call `release_ctrl` on `h`. -/
  | dropping (h : H) (next : Next H)
  /-- In `release_ctrl` on `h`, after `fetch_sub` returned `1`. -/
  | lastOwner (h : H) (next : Next H)
  /-- In a move, after the pointer of `other` was stored in `h` and before it is cleared there. -/
  | moved (h other : H)
  /-- In `release()` of `h`, after `compare_exchange` succeeded. -/
  | releasing (h : H)
deriving DecidableEq

/-- The calls a thread can make, and `proceed`, the next step of the call it is in. -/
inductive Op (H D : Type) where
  | defaultConstruct (this : H)
  | construct (this : H) (rb : ReleasedBuffer D)
  | copyConstruct (this other : H)
  | copyAssign (this other : H)
  | moveConstruct (this other : H)
  | moveAssign (this other : H)
  | swap (this other : H)
  | reset (this : H)
  | release (this : H)
  | destroy (this : H)
  | proceed

/-- The handles a call in progress still uses after `release_ctrl`. -/
def Next.handles {H : Type} : Next H → List H
  | .moveFrom other => [other]
  | _ => []

/-- The reference a call in progress has taken and not yet stored. -/
def Next.taken {H : Type} : Next H → Option Nat
  | .assign new_ctrl => new_ctrl
  | _ => none

/-- The handles the thread is working on. -/
def Pc.handles {H : Type} : Pc H → List H
  | .idle => []
  | .dropping h next => h :: next.handles
  | .lastOwner h next => h :: next.handles
  | .moved h other => [h, other]
  | .releasing h => [h]

/-- The reference the thread has taken and not yet stored in a handle. -/
def Pc.taken {H : Type} : Pc H → Option Nat
  | .dropping _ next => next.taken
  | .lastOwner _ next => next.taken
  | _ => none

/-- The handle whose pointer is still set although its reference has been given up or moved. -/
def Pc.givenUp {H : Type} : Pc H → Option H
  | .lastOwner h _ => some h
  | .moved _ other => some other
  | .releasing h => some h
  | _ => none

/-- The handle whose control block the thread is about to delete. -/
def Pc.deleting {H : Type} : Pc H → Option H
  | .lastOwner h _ => some h
  | .releasing h => some h
  | _ => none

/-- The control blocks, the handles and the threads. `results` lists what `release()` returned. -/
structure SharedState (H T D : Type) where
  blocks : Nat → Block T D
  /-- Number of control blocks allocated so far. -/
  next : Nat
  live : Finset H
  ctrl : H → Option Nat
  pc : T → Pc H
  results : List (T × Option (ReleasedBuffer D))

namespace SharedState

variable {H T D : Type}

/-- No handle and no call in progress. -/
def init : SharedState H T D :=
  { blocks := fun _ => Block.unused
    next := 0
    live := ∅
    ctrl := fun _ => none
    pc := fun _ => .idle
    results := [] }

section Blocks

variable (s : SharedState H T D)

def setBlock (c : Nat) (b : Block T D) : SharedState H T D :=
  { s with blocks := Function.update s.blocks c b }

@[simp] theorem setBlock_next (c : Nat) (b : Block T D) : (s.setBlock c b).next = s.next := rfl
@[simp] theorem setBlock_live (c : Nat) (b : Block T D) : (s.setBlock c b).live = s.live := rfl
@[simp] theorem setBlock_ctrl (c : Nat) (b : Block T D) : (s.setBlock c b).ctrl = s.ctrl := rfl
@[simp] theorem setBlock_pc (c : Nat) (b : Block T D) : (s.setBlock c b).pc = s.pc := rfl

@[simp] theorem setBlock_blocks_self (c : Nat) (b : Block T D) : (s.setBlock c b).blocks c = b :=
  Function.update_self ..

theorem setBlock_blocks_of_ne {c d : Nat} (hd : d ≠ c) (b : Block T D) :
    (s.setBlock c b).blocks d = s.blocks d :=
  Function.update_of_ne hd ..

/-- `fetch_add` on the control block, if there is one. -/
def fetchAdd : Option Nat → SharedState H T D
  | none => s
  | some c => s.setBlock c { s.blocks c with ref := (s.blocks c).ref + 1 }

@[simp] theorem fetchAdd_next (v : Option Nat) : (s.fetchAdd v).next = s.next := by
  cases v <;> rfl

@[simp] theorem fetchAdd_live (v : Option Nat) : (s.fetchAdd v).live = s.live := by
  cases v <;> rfl

@[simp] theorem fetchAdd_ctrl (v : Option Nat) : (s.fetchAdd v).ctrl = s.ctrl := by
  cases v <;> rfl

@[simp] theorem fetchAdd_pc (v : Option Nat) : (s.fetchAdd v).pc = s.pc := by
  cases v <;> rfl

theorem fetchAdd_blocks (v : Option Nat) (c : Nat) :
    (s.fetchAdd v).blocks c =
      if v = some c then { s.blocks c with ref := (s.blocks c).ref + 1 } else s.blocks c := by
  cases v with
  | none => rfl
  | some d =>
    by_cases hd : c = d
    · subst hd
      simp [fetchAdd]
    · have hne : ¬ some d = some c := fun h => hd (Option.some.inj h).symm
      rw [if_neg hne]
      exact s.setBlock_blocks_of_ne hd _

end Blocks

section Handles

variable [DecidableEq H] (s : SharedState H T D)

def setCtrl (h : H) (ctrl : Option Nat) : SharedState H T D :=
  { s with ctrl := Function.update s.ctrl h ctrl }

@[simp] theorem setCtrl_blocks (h : H) (v : Option Nat) : (s.setCtrl h v).blocks = s.blocks := rfl
@[simp] theorem setCtrl_next (h : H) (v : Option Nat) : (s.setCtrl h v).next = s.next := rfl
@[simp] theorem setCtrl_live (h : H) (v : Option Nat) : (s.setCtrl h v).live = s.live := rfl
@[simp] theorem setCtrl_pc (h : H) (v : Option Nat) : (s.setCtrl h v).pc = s.pc := rfl

@[simp] theorem setCtrl_ctrl_self (h : H) (v : Option Nat) : (s.setCtrl h v).ctrl h = v :=
  Function.update_self ..

theorem setCtrl_ctrl_of_ne {h k : H} (hk : k ≠ h) (v : Option Nat) :
    (s.setCtrl h v).ctrl k = s.ctrl k :=
  Function.update_of_ne hk ..

/-- A new handle with the given pointer. -/
def addHandle (h : H) (ctrl : Option Nat) : SharedState H T D :=
  { s with live := insert h s.live, ctrl := Function.update s.ctrl h ctrl }

@[simp] theorem addHandle_blocks (h : H) (v : Option Nat) :
    (s.addHandle h v).blocks = s.blocks := rfl
@[simp] theorem addHandle_next (h : H) (v : Option Nat) : (s.addHandle h v).next = s.next := rfl
@[simp] theorem addHandle_pc (h : H) (v : Option Nat) : (s.addHandle h v).pc = s.pc := rfl

@[simp] theorem mem_addHandle_live (h k : H) (v : Option Nat) :
    k ∈ (s.addHandle h v).live ↔ k = h ∨ k ∈ s.live :=
  Finset.mem_insert

@[simp] theorem addHandle_ctrl_self (h : H) (v : Option Nat) : (s.addHandle h v).ctrl h = v :=
  Function.update_self ..

theorem addHandle_ctrl_of_ne {h k : H} (hk : k ≠ h) (v : Option Nat) :
    (s.addHandle h v).ctrl k = s.ctrl k :=
  Function.update_of_ne hk ..

end Handles

section Threads

variable [DecidableEq T] (s : SharedState H T D)

def setPc (t : T) (p : Pc H) : SharedState H T D :=
  { s with pc := Function.update s.pc t p }

@[simp] theorem setPc_blocks (t : T) (p : Pc H) : (s.setPc t p).blocks = s.blocks := rfl
@[simp] theorem setPc_next (t : T) (p : Pc H) : (s.setPc t p).next = s.next := rfl
@[simp] theorem setPc_live (t : T) (p : Pc H) : (s.setPc t p).live = s.live := rfl
@[simp] theorem setPc_ctrl (t : T) (p : Pc H) : (s.setPc t p).ctrl = s.ctrl := rfl

@[simp] theorem setPc_pc_self (t : T) (p : Pc H) : (s.setPc t p).pc t = p :=
  Function.update_self ..

theorem setPc_pc_of_ne {t u : T} (hu : u ≠ t) (p : Pc H) : (s.setPc t p).pc u = s.pc u :=
  Function.update_of_ne hu ..

end Threads

def returnResult (s : SharedState H T D) (t : T) (r : Option (ReleasedBuffer D)) :
    SharedState H T D :=
  { s with results := s.results ++ [(t, r)] }

/-- A live handle that no call in progress is using. -/
def Usable (s : SharedState H T D) (h : H) : Prop :=
  h ∈ s.live ∧ ∀ t, h ∉ (s.pc t).handles

variable [DecidableEq H] [DecidableEq T]

instance [Fintype T] (s : SharedState H T D) (h : H) : Decidable (s.Usable h) :=
  inferInstanceAs (Decidable (_ ∧ _))

/-- The constructor from pointer, size, deleter and location, and from a released buffer. -/
def construct (s : SharedState H T D) (this : H) (rb : ReleasedBuffer D) : SharedState H T D :=
  match rb.ptr with
  | none => s.addHandle this none
  | some ptr =>
      if rb.count = 0 then s.addHandle this none
      else
        let b : Block T D :=
          { ref := 1, ptr := ptr, size := rb.count, deleter := rb.deleter, location := rb.location }
        { (s.setBlock s.next b).addHandle this (some s.next) with next := s.next + 1 }

/-- What follows `release_ctrl`, which has left `ctrl_` of `h` null. -/
def finish (s : SharedState H T D) (t : T) (h : H) : Next H → SharedState H T D
  | .reset => (s.setCtrl h none).setPc t .idle
  | .destroy => { s with live := s.live.erase h }.setPc t .idle
  | .assign new_ctrl => (s.setCtrl h new_ctrl).setPc t .idle
  | .moveFrom other => (s.setCtrl h (s.ctrl other)).setPc t (.moved h other)

/-- `release_ctrl` up to the deleter, or to its end when this was not the last reference. -/
def releaseCtrl (s : SharedState H T D) (t : T) (h : H) (next : Next H) : SharedState H T D :=
  match s.ctrl h with
  | none => s.finish t h next
  | some c =>
      let b := s.blocks c
      if b.ref = 1 then
        let b : Block T D := { b with ref := b.ref - 1, lastOwners := b.lastOwners ++ [t] }
        (s.setBlock c b).setPc t (.lastOwner h next)
      else
        ((s.setBlock c { b with ref := b.ref - 1 }).setCtrl h none).finish t h next

/-- The rest of `release_ctrl` for the last owner: call the deleter if it is set, delete the control
block and clear the pointer. -/
def deleteCtrl (s : SharedState H T D) (t : T) (h : H) (next : Next H) : SharedState H T D :=
  match s.ctrl h with
  | none => s.finish t h next
  | some c =>
      let b := s.blocks c
      let runs := if b.deleter.isSome then b.deleterRuns ++ [t] else b.deleterRuns
      let b : Block T D := { b with deleterRuns := runs, deleted := true }
      ((s.setBlock c b).setCtrl h none).finish t h next

/-- `release()` up to the `compare_exchange`, or to its end when that fails. -/
def release (s : SharedState H T D) (t : T) (this : H) : SharedState H T D :=
  match s.ctrl this with
  | none => s.returnResult t none
  | some c =>
      let b := s.blocks c
      if b.ref = 1 then
        let b : Block T D := { b with ref := 0, releasedBy := b.releasedBy ++ [t] }
        (s.setBlock c b).setPc t (.releasing this)
      else s.returnResult t none

/-- The rest of a successful `release()`: move the deleter out and delete the control block. -/
def takeOut (s : SharedState H T D) (t : T) (this : H) : SharedState H T D :=
  match s.ctrl this with
  | none => s.setPc t .idle
  | some c =>
      let b := s.blocks c
      let out : ReleasedBuffer D := ⟨some b.ptr, b.size, b.deleter, b.location⟩
      (((s.setBlock c { b with deleted := true }).setCtrl this none).setPc t .idle).returnResult t
        (some out)

/-- The next step of the call thread `t` is in. -/
def proceed (s : SharedState H T D) (t : T) : Option (SharedState H T D) :=
  match s.pc t with
  | .idle => none
  | .dropping h next => some (s.releaseCtrl t h next)
  | .lastOwner h next => some (s.deleteCtrl t h next)
  | .moved _ other => some ((s.setCtrl other none).setPc t .idle)
  | .releasing h => some (s.takeOut t h)

/-- The first step of a call by an idle thread. -/
def call [Fintype T] (s : SharedState H T D) (t : T) : Op H D → Option (SharedState H T D)
  | .defaultConstruct this => if this ∉ s.live then some (s.addHandle this none) else none
  | .construct this rb => if this ∉ s.live then some (s.construct this rb) else none
  | .copyConstruct this other =>
      if this ∉ s.live ∧ s.Usable other then
        some ((s.fetchAdd (s.ctrl other)).addHandle this (s.ctrl other))
      else none
  | .copyAssign this other =>
      if s.Usable this ∧ s.Usable other then
        if this = other then some s
        else some ((s.fetchAdd (s.ctrl other)).setPc t (.dropping this (.assign (s.ctrl other))))
      else none
  | .moveConstruct this other =>
      if this ∉ s.live ∧ s.Usable other then
        some ((s.addHandle this (s.ctrl other)).setPc t (.moved this other))
      else none
  | .moveAssign this other =>
      if s.Usable this ∧ s.Usable other then
        if this = other then some s
        else some (s.setPc t (.dropping this (.moveFrom other)))
      else none
  | .swap this other =>
      if s.Usable this ∧ s.Usable other then
        some ((s.setCtrl this (s.ctrl other)).setCtrl other (s.ctrl this))
      else none
  | .reset this => if s.Usable this then some (s.setPc t (.dropping this .reset)) else none
  | .release this => if s.Usable this then some (s.release t this) else none
  | .destroy this => if s.Usable this then some (s.setPc t (.dropping this .destroy)) else none
  | .proceed => none

/-- One step of thread `t`: it goes on with the call it is in, or starts one. -/
def step [Fintype T] (s : SharedState H T D) : T × Op H D → Option (SharedState H T D)
  | (t, .proceed) => s.proceed t
  | (t, op) => if s.pc t = .idle then s.call t op else none

/-- The pointer of `h` is still set, but its reference has been given up or moved. -/
def GivenUp (s : SharedState H T D) (h : H) : Prop :=
  ∃ t, (s.pc t).givenUp = some h

instance [Fintype T] (s : SharedState H T D) (h : H) : Decidable (s.GivenUp h) :=
  inferInstanceAs (Decidable (∃ _, _))

/-- The block to which a handle, or a call in progress, holds a reference. -/
def holds [Fintype T] (s : SharedState H T D) : H ⊕ T → Option Nat
  | .inl h => if h ∈ s.live ∧ ¬ s.GivenUp h then s.ctrl h else none
  | .inr t => (s.pc t).taken

/-- The number of references held to the block `c` by live handles and calls in progress. -/
def references [Fintype T] (s : SharedState H T D) (c : Nat) : Nat :=
  refCount (s.live.disjSum Finset.univ) s.holds c

end SharedState

end PipelineTools.Memory
