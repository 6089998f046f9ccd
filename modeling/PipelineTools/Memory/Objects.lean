import PipelineTools.Memory.Buffers
import PipelineTools.Library.References
import Mathlib.Data.Finset.Range
import Mathlib.Logic.Function.Basic

/-!
# Buffer objects

The state of a program as its buffers see it: `unique_buffer` objects named by `U`, `shared_buffer`
handles named by `S` over numbered control blocks, and variables of type `R` that hold released
buffers. `step` is one operation of the buffer classes, taken as a whole, with the deleter calls it
makes. It is refused when it names an object that does not exist, constructs one that does, or uses
a released buffer a second time.

What an object owns is its `contents`. A control block owns its memory while its count is positive,
a released buffer while it is unclaimed.
-/

set_option autoImplicit false

namespace PipelineTools.Memory

open PipelineTools.Library

structure Objects (U S R D : Type) where
  unique : U → UniqueBuffer D
  uniqueLive : Finset U
  ctrl : S → Option Nat
  sharedLive : Finset S
  blocks : Nat → ControlBlock D
  /-- Number of control blocks allocated so far. -/
  next : Nat
  released : R → ReleasedBuffer D
  /-- The released buffers that no buffer has been constructed from yet. -/
  unclaimed : Finset R

/-- The operations of the buffer classes. -/
inductive BufferOp (U S R : Type) where
  | uniqueDefault (this : U)
  | uniqueFromReleased (this : U) (rb : R)
  | uniqueMove (this other : U)
  | uniqueMoveAssign (this other : U)
  | uniqueSwap (this other : U)
  | uniqueReset (this : U)
  | uniqueRelease (this : U) (out : R)
  | uniqueDestroy (this : U)
  | sharedDefault (this : S)
  | sharedFromReleased (this : S) (rb : R)
  | sharedFromUnique (this : S) (u_b : U)
  | sharedCopy (this other : S)
  | sharedCopyAssign (this other : S)
  | sharedMove (this other : S)
  | sharedMoveAssign (this other : S)
  | sharedSwap (this other : S)
  | sharedReset (this : S)
  | sharedRelease (this : S) (out : R)
  | sharedDestroy (this : S)

/-- What can own memory. -/
inductive Owner (U R : Type) where
  | unique (u : U)
  | block (c : Nat)
  | released (r : R)
deriving DecidableEq

namespace Objects

variable {U S R D : Type}

/-- No object exists. -/
def init : Objects U S R D :=
  { unique := fun _ => {}
    uniqueLive := ∅
    ctrl := fun _ => none
    sharedLive := ∅
    blocks := fun _ => ⟨0, 0, 0, none, .Host⟩
    next := 0
    released := fun _ => {}
    unclaimed := ∅ }

def setBlock (s : Objects U S R D) (c : Nat) (b : ControlBlock D) : Objects U S R D :=
  { s with blocks := Function.update s.blocks c b }

/-- Count one more reference to the control block, if there is one. -/
def addRef (s : Objects U S R D) : Option Nat → Objects U S R D
  | none => s
  | some c => s.setBlock c { s.blocks c with ref := (s.blocks c).ref + 1 }

variable [DecidableEq U] [DecidableEq S] [DecidableEq R]

def setUnique (s : Objects U S R D) (u : U) (b : UniqueBuffer D) : Objects U S R D :=
  { s with unique := Function.update s.unique u b }

def addUnique (s : Objects U S R D) (u : U) (b : UniqueBuffer D) : Objects U S R D :=
  { s with unique := Function.update s.unique u b, uniqueLive := insert u s.uniqueLive }

def setCtrl (s : Objects U S R D) (h : S) (ctrl : Option Nat) : Objects U S R D :=
  { s with ctrl := Function.update s.ctrl h ctrl }

def addShared (s : Objects U S R D) (h : S) (ctrl : Option Nat) : Objects U S R D :=
  { s with ctrl := Function.update s.ctrl h ctrl, sharedLive := insert h s.sharedLive }

/-- Keep a released buffer in the variable `r`. -/
def keep (s : Objects U S R D) (r : R) (rb : ReleasedBuffer D) : Objects U S R D :=
  { s with released := Function.update s.released r rb, unclaimed := insert r s.unclaimed }

def claim (s : Objects U S R D) (r : R) : Objects U S R D :=
  { s with unclaimed := s.unclaimed.erase r }

/-- `steal_from`: take all members of `other`, which becomes empty. -/
def stealFrom (s : Objects U S R D) (this other : U) : Objects U S R D :=
  (s.setUnique this (s.unique other)).setUnique other {}

/-- `reset()` of a `unique_buffer`. -/
def resetUnique (s : Objects U S R D) (this : U) : Objects U S R D × Calls D :=
  (s.setUnique this (s.unique this).reset.1, (s.unique this).reset.2)

/-- The constructor of `shared_buffer` from pointer, size, deleter and location. A null pointer or a
size of zero makes it empty, and then the deleter is destroyed without being called. -/
def constructShared (s : Objects U S R D) (this : S) (rb : ReleasedBuffer D) : Objects U S R D :=
  match rb.ptr with
  | none => s.addShared this none
  | some ptr =>
      if rb.count = 0 then s.addShared this none
      else
        { (s.setBlock s.next ⟨1, ptr, rb.count, rb.deleter, rb.location⟩).addShared this
            (some s.next) with next := s.next + 1 }

/-- `release_ctrl`: give up the reference of `h`, and call the deleter if it was the last one. -/
def releaseCtrl (s : Objects U S R D) (h : S) : Objects U S R D × Calls D :=
  match s.ctrl h with
  | none => (s, [])
  | some c =>
      let b := s.blocks c
      ((s.setBlock c { b with ref := b.ref - 1 }).setCtrl h none,
        if b.ref = 1 then b.deleter.toList.map fun d => (d, b.ptr) else [])

/-- `release()` of a `shared_buffer`: it succeeds for the only reference. -/
def releaseShared (s : Objects U S R D) (this : S) (out : R) : Objects U S R D :=
  match s.ctrl this with
  | none => s
  | some c =>
      let b := s.blocks c
      if b.ref = 1 then
        ((s.setBlock c { b with ref := 0 }).setCtrl this none).keep out
          ⟨some b.ptr, b.size, b.deleter, b.location⟩
      else s

/-- One operation, with the deleter calls it makes. -/
def step (s : Objects U S R D) : BufferOp U S R → Option (Objects U S R D × Calls D)
  | .uniqueDefault this => if this ∉ s.uniqueLive then some (s.addUnique this {}, []) else none
  | .uniqueFromReleased this rb =>
      if this ∉ s.uniqueLive ∧ rb ∈ s.unclaimed then
        some ((s.claim rb).addUnique this (.ofReleased (s.released rb)), [])
      else none
  | .uniqueMove this other =>
      if this ∉ s.uniqueLive ∧ other ∈ s.uniqueLive then
        some ((s.addUnique this {}).stealFrom this other, [])
      else none
  | .uniqueMoveAssign this other =>
      if this ∈ s.uniqueLive ∧ other ∈ s.uniqueLive then
        if this = other then some (s, [])
        else some ((s.resetUnique this).1.stealFrom this other, (s.resetUnique this).2)
      else none
  | .uniqueSwap this other =>
      if this ∈ s.uniqueLive ∧ other ∈ s.uniqueLive then
        some ((s.setUnique this (s.unique other)).setUnique other (s.unique this), [])
      else none
  | .uniqueReset this => if this ∈ s.uniqueLive then some (s.resetUnique this) else none
  | .uniqueRelease this out =>
      if this ∈ s.uniqueLive ∧ out ∉ s.unclaimed then
        some ((s.setUnique this {}).keep out (s.unique this).released, [])
      else none
  | .uniqueDestroy this =>
      if this ∈ s.uniqueLive then
        let r := s.resetUnique this
        some ({ r.1 with uniqueLive := r.1.uniqueLive.erase this }, r.2)
      else none
  | .sharedDefault this => if this ∉ s.sharedLive then some (s.addShared this none, []) else none
  | .sharedFromReleased this rb =>
      if this ∉ s.sharedLive ∧ rb ∈ s.unclaimed then
        some ((s.claim rb).constructShared this (s.released rb), [])
      else none
  | .sharedFromUnique this u_b =>
      if this ∉ s.sharedLive ∧ u_b ∈ s.uniqueLive then
        some ((s.setUnique u_b {}).constructShared this (s.unique u_b).released, [])
      else none
  | .sharedCopy this other =>
      if this ∉ s.sharedLive ∧ other ∈ s.sharedLive then
        some ((s.addRef (s.ctrl other)).addShared this (s.ctrl other), [])
      else none
  | .sharedCopyAssign this other =>
      if this ∈ s.sharedLive ∧ other ∈ s.sharedLive then
        if this = other then some (s, [])
        else
          let r := (s.addRef (s.ctrl other)).releaseCtrl this
          some (r.1.setCtrl this (s.ctrl other), r.2)
      else none
  | .sharedMove this other =>
      if this ∉ s.sharedLive ∧ other ∈ s.sharedLive then
        some ((s.addShared this (s.ctrl other)).setCtrl other none, [])
      else none
  | .sharedMoveAssign this other =>
      if this ∈ s.sharedLive ∧ other ∈ s.sharedLive then
        if this = other then some (s, [])
        else
          let r := s.releaseCtrl this
          some ((r.1.setCtrl this (r.1.ctrl other)).setCtrl other none, r.2)
      else none
  | .sharedSwap this other =>
      if this ∈ s.sharedLive ∧ other ∈ s.sharedLive then
        some ((s.setCtrl this (s.ctrl other)).setCtrl other (s.ctrl this), [])
      else none
  | .sharedReset this => if this ∈ s.sharedLive then some (s.releaseCtrl this) else none
  | .sharedRelease this out =>
      if this ∈ s.sharedLive ∧ out ∉ s.unclaimed then some (s.releaseShared this out, []) else none
  | .sharedDestroy this =>
      if this ∈ s.sharedLive then
        let r := s.releaseCtrl this
        some ({ r.1 with sharedLive := r.1.sharedLive.erase this }, r.2)
      else none

/-- What an operation constructs a `shared_buffer` from. -/
def sharedSource (s : Objects U S R D) : BufferOp U S R → Option (ReleasedBuffer D)
  | .sharedFromReleased _ rb => some (s.released rb)
  | .sharedFromUnique _ u_b => some (s.unique u_b).released
  | _ => none

/-- The deleter calls that an operation leaves out. -/
def lost (s : Objects U S R D) (op : BufferOp U S R) : Calls D :=
  ((s.sharedSource op).map ReleasedBuffer.lost).getD []

/-- What the owner `o` owns; an object that does not exist owns nothing. -/
def contents (s : Objects U S R D) : Owner U R → ReleasedBuffer D
  | .unique u => if u ∈ s.uniqueLive then (s.unique u).released else {}
  | .block c =>
      let b := s.blocks c
      if c < s.next ∧ 0 < b.ref then ⟨some b.ptr, b.size, b.deleter, b.location⟩ else {}
  | .released r => if r ∈ s.unclaimed then s.released r else {}

/-- The objects that exist. -/
def owners (s : Objects U S R D) : Finset (Owner U R) :=
  s.uniqueLive.image .unique ∪ (Finset.range s.next).image .block ∪ s.unclaimed.image .released

/-- The number of owners of the pointer `p`. -/
def owned (s : Objects U S R D) (p : Nat) : Nat :=
  refCount s.owners (fun o => (s.contents o).ptr) p

end Objects

end PipelineTools.Memory
