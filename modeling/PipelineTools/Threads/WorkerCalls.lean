import PipelineTools.Threads.UnsetMask
import PipelineTools.Threads.CoreAccounting

/-!
# Cores that workers take and give back

A worker records the cores of its last `start` in `allocated_cores`, and `stop` gives back what is
recorded. A second `start` without a `stop` in between overwrites the record, and the cores of the
first one are lost. `returned_iff` says for which sequences of calls the workers return every core
they take: those in which no worker is given cores while it still records some.

`Crew` follows whole calls; the threads return on their own, so that no call waits for one of them.
`start_workers` and `stop_workers` say that these calls are the ones of `Workers`. The ghost fields
`taken` and `putBack` list the cores that have left the pools and the ones that have come back.
-/

set_option autoImplicit false

namespace PipelineTools.Threads

open PipelineTools.Library

/-- The workers that exist, and what they record. -/
structure Crew where
  manager : CPUManager
  alive : List Nat
  allocatedCores : Nat → List Core := fun _ => []
  taken : List Core := []
  putBack : List Core := []

/-- The calls on workers. -/
inductive CrewOp where
  | start (worker : Nat)
  | stop (worker : Nat)
  | destroy (worker : Nat)

namespace Crew

/-- No call has been made. -/
def init (manager : CPUManager) (workers : List Nat) : Crew := { manager, alive := workers }

variable (policy : Nat → ThreadPolicy)

/-- `Worker::start`. It throws when no cores have been asked for, and swallows the exception of
`allocate`. -/
def start (s : Crew) (worker : Nat) : Option Crew :=
  match allocate false (policy worker) s.manager with
  | .ok cores m =>
    if cores = [] then some { s with manager := m }
    else some { s with
      manager := m
      allocatedCores := Function.update s.allocatedCores worker cores
      taken := s.taken ++ fromPools cores }
  | .error (.runtimeError _) m => some { s with manager := m }
  | .error _ _ => none

/-- `Worker::stop`. -/
def stop (s : Crew) (worker : Nat) : Crew :=
  { s with
    manager := deallocateAll (s.allocatedCores worker) s.manager
    allocatedCores := Function.update s.allocatedCores worker []
    putBack := s.putBack ++ fromPools (s.allocatedCores worker) }

/-- `Worker::~Worker`. -/
def destroy (s : Crew) (worker : Nat) : Crew :=
  { s.stop worker with alive := s.alive.erase worker }

/-- One call on a worker that exists. -/
def step (s : Crew) : CrewOp → Option Crew
  | .start worker => if worker ∈ s.alive then s.start policy worker else none
  | .stop worker => if worker ∈ s.alive then some (s.stop worker) else none
  | .destroy worker => if worker ∈ s.alive then some (s.destroy worker) else none

/-- Stop some workers, one after the other. -/
def stopAll (s : Crew) (workers : List Nat) : Crew := workers.foldl stop s

/-- What the workers record of the pools. -/
def recorded (s : Crew) : List Core :=
  s.alive.flatMap fun worker => fromPools (s.allocatedCores worker)

/-- Every core taken is recorded by one worker or has been put back once, no core is recorded twice
or while it is in a pool, and after all workers are stopped the pools are the initial ones. -/
structure Returned (initial : CPUManager) (s : Crew) : Prop where
  once : s.taken.Perm (s.recorded ++ s.putBack)
  distinct : initial.poolIds.Nodup → (s.manager.poolIds ++ s.recorded.map Core.cpuId).Nodup
  pinned : (s.stopAll s.alive).manager.pinnedCorePool.Perm initial.pinnedCorePool
  isol : (s.stopAll s.alive).manager.isolCorePool.Perm initial.isolCorePool

/-- A worker that is started records no core of the pools, or is not given any cores: it asks for
none, or the manager cannot give them. -/
def Releases (s : Crew) : CrewOp → Prop
  | .start worker => fromPools (s.allocatedCores worker) = [] ∨ (policy worker).cores = 0 ∨
      Shortage (policy worker) s.manager
  | _ => True

instance (s : Crew) : (op : CrewOp) → Decidable (s.Releases policy op)
  | .start worker => inferInstanceAs (Decidable (fromPools (s.allocatedCores worker) = [] ∨
      (policy worker).cores = 0 ∨ Shortage (policy worker) s.manager))
  | .stop _ => isTrue trivial
  | .destroy _ => isTrue trivial

/-! ## The calls are those of `Workers` -/

variable {policy}

/-- No pool has enough cores for a vector that is too long. -/
theorem shortage_of_maxCores {p : ThreadPolicy} {m : CPUManager}
    (hpools : m.pinnedCorePool.length + m.isolCorePool.length ≤ maxCores)
    (hlt : maxCores < p.cores) : Shortage p m := by
  cases haff : p.affinityType with
  | NORMAL =>
    rw [Shortage, haff]
    show m.pinnedCorePool.length < p.cores
    omega
  | PINNED =>
    rw [Shortage, haff]
    show m.pinnedCorePool.length < p.cores
    omega
  | ISOLATED =>
    rw [Shortage, haff]
    exact .inl (by omega)

/-- `start` up to the creation of the thread is the step of the crew, when the vectors of cores get
their memory. -/
theorem start_workers {s s' : Crew} {w : Workers} {worker slot : Nat} {strict : Bool}
    (hcall : w.call = none) (hrun : w.terminated = false) (hmanager : w.manager = s.manager)
    (hcores : w.allocatedCores = s.allocatedCores)
    (hpools : s.manager.pinnedCorePool.length + s.manager.isolCorePool.length ≤ maxCores)
    (h : s.start policy worker = some s') :
    ∃ w', runFrom (Workers.step policy) w (Workers.upToAllocation worker strict slot) = some w' ∧
      w'.manager = s'.manager ∧ w'.allocatedCores = s'.allocatedCores := by
  rw [← hmanager] at hpools
  rw [start, ← hmanager] at h
  cases hallocate : allocate false (policy worker) w.manager with
  | ok cores m =>
    have hle : (policy worker).cores ≤ maxCores := by
      by_contra hlt
      exact (allocation_of_ok hallocate).not_shortage
        (shortage_of_maxCores hpools (Nat.lt_of_not_le hlt))
    rw [hallocate] at h
    by_cases hempty : cores = []
    · subst hempty
      simp only [if_true, Option.some.injEq] at h
      subst h
      exact ⟨_, Workers.run_of_no_cores true hcall hrun hallocate, rfl, hcores⟩
    · simp only [if_neg hempty, Option.some.injEq] at h
      subst h
      refine ⟨_, Workers.run_of_granted true hcall hrun hle hempty hallocate, rfl, ?_⟩
      show Function.update w.allocatedCores worker cores = _
      rw [hcores]
  | error e m =>
    rw [hallocate] at h
    cases e with
    | runtimeError what =>
      obtain rfl := Option.some.inj h
      by_cases hle : (policy worker).cores ≤ maxCores
      · exact ⟨_, Workers.run_of_refused true hcall hrun hle hallocate, rfl, hcores⟩
      -- the exception of `reserve` takes no cores either
      · obtain ⟨-, rfl⟩ := shortage_of_refused hallocate
        exact ⟨_, Workers.run_of_notReserved true hcall hrun (.inr (Nat.lt_of_not_le hle)), rfl,
          hcores⟩
    | outOfRange => cases h
    | backOfEmpty => cases h
    | selfLock => cases h
    | nestedTwice => cases h

theorem stop_workers {s : Crew} {w : Workers} (worker : Nat) (hcall : w.call = none)
    (hrun : w.terminated = false) (hmanager : w.manager = s.manager)
    (hcores : w.allocatedCores = s.allocatedCores) :
    ∃ w', w.step policy (.stop worker) = some w' ∧ w'.manager = (s.stop worker).manager ∧
      w'.allocatedCores = (s.stop worker).allocatedCores := by
  unfold Workers.step
  rw [if_neg (by simp [hrun])]
  simp only [hcall]
  refine ⟨_, rfl, ?_, ?_⟩
  · rw [stop, ← hmanager, ← hcores]
  · rw [stop, ← hcores]

/-! ## Balance -/

/-- Pools and ghost fields agree whatever the workers record. -/
structure CrewInv (initial : CPUManager) (s : Crew) : Prop where
  nodup : s.alive.Nodup
  pinned : (s.manager.pinnedCorePool ++ idsOf .PINNED s.taken).Perm
    (initial.pinnedCorePool ++ idsOf .PINNED s.putBack)
  isol : (s.manager.isolCorePool ++ idsOf .ISOLATED s.taken).Perm
    (initial.isolCorePool ++ idsOf .ISOLATED s.putBack)

/-- Every core taken is recorded by one worker or has been put back once. -/
def Balanced (s : Crew) : Prop := s.taken.Perm (s.recorded ++ s.putBack)

variable {initial : CPUManager} {s s' : Crew} {worker : Nat}

theorem tags_recorded (s : Crew) : ∀ core ∈ s.recorded, core.affinityType ≠ .NORMAL := by
  intro core hcore
  obtain ⟨worker, -, hmem⟩ := List.mem_flatMap.1 hcore
  exact tags_fromPools _ core hmem

/-- The pools after a vector of cores has been given back. -/
theorem deallocateAll_pools (cores : List Core) (m : CPUManager) :
    (deallocateAll cores m).pinnedCorePool = m.pinnedCorePool ++ idsOf .PINNED cores ∧
      (deallocateAll cores m).isolCorePool = m.isolCorePool ++ idsOf .ISOLATED cores := by
  -- induction on the cores: one call of `deallocate` for each
  induction cores generalizing m with
  | nil => simp [deallocateAll, idsOf]
  | cons core cores ih =>
    obtain ⟨hpinned, hisol⟩ := ih (deallocate core m)
    rw [deallocateAll, List.foldl_cons]
    rw [deallocateAll] at hpinned hisol
    rw [hpinned, hisol]
    cases haff : core.affinityType with
    | NORMAL => simp [deallocate, idsOf, haff]
    | PINNED => simp [deallocate, idsOf, haff]
    | ISOLATED => simp [deallocate, idsOf, haff]

theorem crewInv_init (initial : CPUManager) {workers : List Nat} (h : workers.Nodup) :
    (init initial workers).CrewInv initial where
  nodup := h
  pinned := .refl _
  isol := .refl _

theorem balanced_init (initial : CPUManager) (workers : List Nat) :
    (init initial workers).Balanced := by
  have hnone : (init initial workers).recorded = [] := by
    rw [recorded, List.flatMap_eq_nil_iff]
    intro worker hworker
    rfl
  rw [Balanced, hnone]
  exact .refl _

theorem CrewInv.stop (h : s.CrewInv initial) (worker : Nat) :
    (s.stop worker).CrewInv initial := by
  obtain ⟨hpinned, hisol⟩ := deallocateAll_pools (s.allocatedCores worker) s.manager
  -- what joins the pool is added to what has been put back
  have hjoin : ∀ {pool joined taken whole back : List Int}, (pool ++ taken).Perm (whole ++ back) →
      (pool ++ joined ++ taken).Perm (whole ++ (back ++ joined)) := by
    intro pool joined taken whole back hperm
    rw [List.append_assoc, ← List.append_assoc whole]
    refine (List.perm_append_comm.append_left pool).trans ?_
    rw [← List.append_assoc]
    exact hperm.append_right _
  refine ⟨h.nodup, ?_, ?_⟩
  · rw [Crew.stop, hpinned, idsOf_append, idsOf_fromPools (by decide)]
    exact hjoin h.pinned
  · rw [Crew.stop, hisol, idsOf_append, idsOf_fromPools (by decide)]
    exact hjoin h.isol

theorem CrewInv.granted (h : s.CrewInv initial) {cores : List Core} {m : CPUManager}
    (hallocate : allocate false (policy worker) s.manager = .ok cores m) (next : Nat → List Core) :
    CrewInv initial { s with
      manager := m, allocatedCores := next, taken := s.taken ++ fromPools cores } := by
  have hcall := allocation_of_ok hallocate
  refine ⟨h.nodup, ?_, ?_⟩
  · rw [idsOf_append, idsOf_fromPools (by decide)]
    exact (hcall.pinned_perm _).trans h.pinned
  · rw [idsOf_append, idsOf_fromPools (by decide)]
    exact (hcall.isol_perm _).trans h.isol

/-- What the workers record after the record of one of them has been replaced. -/
theorem recorded_perm (hnodup : s.alive.Nodup) (hworker : worker ∈ s.alive) {cores : List Core}
    (halive : s'.alive = s.alive)
    (hcores : s'.allocatedCores = Function.update s.allocatedCores worker cores) :
    s'.recorded.Perm (fromPools cores ++
      (s.alive.erase worker).flatMap fun other => fromPools (s.allocatedCores other)) := by
  have hperm := (List.perm_cons_erase hworker).flatMap_right fun other =>
    fromPools (s'.allocatedCores other)
  rw [recorded, halive]
  refine hperm.trans ?_
  rw [List.flatMap_cons, hcores, Function.update_self]
  refine List.Perm.append_left _ (List.Perm.of_eq ?_)
  apply List.flatMap_congr
  intro other hother
  rw [Function.update_of_ne (hnodup.mem_erase_iff.1 hother).1]

/-- What the workers record, one of them first. -/
theorem recorded_split (hnodup : s.alive.Nodup) (hworker : worker ∈ s.alive) :
    s.recorded.Perm (fromPools (s.allocatedCores worker) ++
      (s.alive.erase worker).flatMap fun other => fromPools (s.allocatedCores other)) :=
  recorded_perm hnodup hworker rfl (Function.update_eq_self worker s.allocatedCores).symm

theorem Balanced.stop (h : s.Balanced) (hnodup : s.alive.Nodup) (hworker : worker ∈ s.alive) :
    (s.stop worker).Balanced := by
  have hafter : (s.stop worker).recorded.Perm (fromPools [] ++ _) :=
    recorded_perm hnodup hworker rfl rfl
  refine List.Perm.trans h (((recorded_split hnodup hworker).append_right _).trans ?_)
  refine List.Perm.trans ?_ (hafter.symm.append_right _)
  -- the worker's cores move to the end of those put back
  show (_ ++ _ ++ s.putBack).Perm (_ ++ (s.putBack ++ fromPools (s.allocatedCores worker)))
  rw [List.append_assoc]
  refine List.perm_append_comm.trans ?_
  rw [List.append_assoc]
  exact .refl _

/-- A stopped worker records nothing that could be lost with it. -/
theorem recorded_destroy (hnodup : s.alive.Nodup) (hworker : worker ∈ s.alive) :
    (s.stop worker).recorded.Perm (s.destroy worker).recorded := by
  have hstopped : (s.stop worker).recorded.Perm (fromPools [] ++ _) :=
    recorded_perm hnodup hworker rfl rfl
  refine hstopped.trans ?_
  refine List.Perm.of_eq (List.flatMap_congr ?_)
  intro other hother
  show _ = fromPools (Function.update s.allocatedCores worker [] other)
  rw [Function.update_of_ne (hnodup.mem_erase_iff.1 hother).1]

theorem CrewInv.destroy (h : s.CrewInv initial) (worker : Nat) :
    (s.destroy worker).CrewInv initial where
  nodup := h.nodup.erase worker
  pinned := (h.stop worker).pinned
  isol := (h.stop worker).isol

theorem Balanced.destroy (h : s.Balanced) (hnodup : s.alive.Nodup) (hworker : worker ∈ s.alive) :
    (s.destroy worker).Balanced :=
  (h.stop hnodup hworker).trans ((recorded_destroy hnodup hworker).append_right _)

/-- Stopping workers keeps the balance and leaves them with nothing. -/
theorem stopAll_spec {workers : List Nat} (hinv : s.CrewInv initial) (h : s.Balanced)
    (hworkers : ∀ worker ∈ workers, worker ∈ s.alive) :
    (s.stopAll workers).CrewInv initial ∧ (s.stopAll workers).Balanced ∧
      (s.stopAll workers).alive = s.alive ∧
      ∀ worker, worker ∈ workers ∨ s.allocatedCores worker = [] →
        (s.stopAll workers).allocatedCores worker = [] := by
  induction workers generalizing s with
  | nil =>
    refine ⟨hinv, h, rfl, ?_⟩
    rintro worker (hmem | hnone)
    · cases hmem
    · exact hnone
  | cons first workers ih =>
    obtain ⟨hfirst, hrest⟩ := List.forall_mem_cons.1 hworkers
    obtain ⟨hinv', h', halive, hnone⟩ :=
      ih (hinv.stop first) (h.stop hinv.nodup hfirst) hrest
    refine ⟨hinv', h', halive, ?_⟩
    intro worker hworker
    apply hnone
    by_cases heq : worker = first
    · subst heq
      exact .inr (Function.update_self ..)
    · rcases hworker with hmem | hempty
      · exact .inl (List.mem_of_ne_of_mem heq hmem)
      · refine .inr ?_
        show Function.update s.allocatedCores first [] worker = []
        rw [Function.update_of_ne heq, hempty]

/-- In a balanced crew the initial pools are in the pools and in what the workers record. -/
theorem pools_of_balanced (hinv : s.CrewInv initial) (h : s.Balanced) :
    (s.manager.pinnedCorePool ++ idsOf .PINNED s.recorded).Perm initial.pinnedCorePool ∧
      (s.manager.isolCorePool ++ idsOf .ISOLATED s.recorded).Perm initial.isolCorePool := by
  -- what has been put back stands on both sides
  have hcancel : ∀ {affinity : AffinityType} {pool whole : List Int},
      (pool ++ idsOf affinity s.taken).Perm (whole ++ idsOf affinity s.putBack) →
      (pool ++ idsOf affinity s.recorded).Perm whole := by
    intro affinity pool whole hperm
    have htaken : (idsOf affinity s.taken).Perm
        (idsOf affinity s.recorded ++ idsOf affinity s.putBack) := by
      rw [← idsOf_append]
      exact idsOf_perm h
    rw [← List.perm_append_right_iff (idsOf affinity s.putBack), List.append_assoc]
    exact (htaken.symm.append_left _).trans hperm
  exact ⟨hcancel hinv.pinned, hcancel hinv.isol⟩

theorem returned_of_balanced (hinv : s.CrewInv initial) (h : s.Balanced) :
    s.Returned initial := by
  obtain ⟨hpinned, hisol⟩ := pools_of_balanced hinv h
  obtain ⟨hinv', h', halive, hnone⟩ := stopAll_spec hinv h fun worker hworker => hworker
  have hrecorded : (s.stopAll s.alive).recorded = [] := by
    rw [recorded, halive, List.flatMap_eq_nil_iff]
    intro worker hworker
    rw [hnone worker (.inl hworker)]
    rfl
  obtain ⟨hpinned', hisol'⟩ := pools_of_balanced hinv' h'
  rw [hrecorded] at hpinned' hisol'
  refine ⟨h, ?_, ?_, ?_⟩
  · intro hdistinct
    have hids := perm_idsOf (tags_recorded s)
    -- pinned and isolated ids are sorted apart
    have hperm : (s.manager.poolIds ++ s.recorded.map Core.cpuId).Perm initial.poolIds := by
      refine (hids.append_left _).trans ?_
      rw [CPUManager.poolIds, List.append_assoc]
      refine ((List.perm_append_comm_assoc _ _ _).append_left _).trans ?_
      rw [← List.append_assoc]
      exact hpinned.append hisol
    exact hperm.nodup_iff.2 hdistinct
  · exact (List.Perm.of_eq (List.append_nil _).symm).trans hpinned'
  · exact (List.Perm.of_eq (List.append_nil _).symm).trans hisol'

/-- A worker that is given cores replaces what it records, and nothing may be lost by that. -/
theorem balanced_granted_iff (hnodup : s.alive.Nodup) (h : s.Balanced) (hworker : worker ∈ s.alive)
    {cores : List Core} (halive : s'.alive = s.alive)
    (hcores : s'.allocatedCores = Function.update s.allocatedCores worker cores)
    (htaken : s'.taken = s.taken ++ fromPools cores) (hputBack : s'.putBack = s.putBack) :
    s'.Balanced ↔ fromPools (s.allocatedCores worker) = [] := by
  have hbefore := recorded_split hnodup hworker
  have hafter := recorded_perm hnodup hworker halive hcores
  generalize ((s.alive.erase worker).flatMap fun other => fromPools (s.allocatedCores other)) =
    others at hbefore hafter
  rw [Balanced, htaken, hputBack]
  constructor
  -- the lengths differ by what is lost
  · intro hbalanced
    have hlength := hbalanced.length_eq
    have hlength' := List.Perm.length_eq h
    have hrecorded := hbefore.length_eq
    have hrecorded' := hafter.length_eq
    rw [List.length_append] at hlength' hrecorded hrecorded'
    rw [List.length_append, List.length_append] at hlength
    refine List.eq_nil_of_length_eq_zero ?_
    omega
  · intro hnone
    rw [hnone, List.nil_append] at hbefore
    refine (List.Perm.append_right _ h).trans ?_
    refine List.perm_append_comm.trans ?_
    rw [← List.append_assoc]
    refine List.Perm.append_right _ ?_
    exact (hbefore.append_left _).trans hafter.symm

/-- After a start the workers still hold what they have taken exactly when the start was lawful. -/
theorem balanced_start_iff (hinv : s.CrewInv initial) (h : s.Balanced) (hworker : worker ∈ s.alive)
    (hstep : s.start policy worker = some s') :
    s'.CrewInv initial ∧ (s'.Balanced ↔ s.Releases policy (.start worker)) := by
  rw [start] at hstep
  cases hallocate : allocate false (policy worker) s.manager with
  | ok cores m =>
    rw [hallocate] at hstep
    have hcall := allocation_of_ok hallocate
    by_cases hempty : cores = []
    -- no cores were asked for
    · subst hempty
      simp only [if_true, Option.some.injEq] at hstep
      obtain rfl := hcall.manager_eq hcall.length_eq.symm
      subst hstep
      exact ⟨hinv, fun _ => .inr (.inl hcall.length_eq.symm), fun _ => h⟩
    · simp only [if_neg hempty, Option.some.injEq] at hstep
      subst hstep
      refine ⟨hinv.granted hallocate _, ?_⟩
      let after : Crew := { s with
        manager := m
        allocatedCores := Function.update s.allocatedCores worker cores
        taken := s.taken ++ fromPools cores }
      have hiff : after.Balanced ↔ fromPools (s.allocatedCores worker) = [] :=
        balanced_granted_iff hinv.nodup h hworker rfl rfl rfl rfl
      refine hiff.trans ?_
      constructor
      · exact .inl
      · rintro (hnone | hzero | hshort)
        · exact hnone
        · rw [← hcall.length_eq, List.length_eq_zero_iff] at hzero
          exact absurd hzero hempty
        · exact absurd hshort hcall.not_shortage
  | error e m =>
    rw [hallocate] at hstep
    cases e with
    | runtimeError what =>
      obtain ⟨hshort, rfl⟩ := shortage_of_refused hallocate
      obtain rfl := Option.some.inj hstep
      exact ⟨hinv, fun _ => .inr (.inr hshort), fun _ => h⟩
    | outOfRange => cases hstep
    | backOfEmpty => cases hstep
    | selfLock => cases hstep
    | nestedTwice => cases hstep

/-- One call keeps the balance exactly when it is lawful. -/
theorem balanced_step_iff {op : CrewOp} (hinv : s.CrewInv initial) (h : s.Balanced)
    (hstep : s.step policy op = some s') :
    s'.CrewInv initial ∧ (s'.Balanced ↔ s.Releases policy op) := by
  cases op with
  | start worker =>
    rw [step] at hstep
    split at hstep
    · exact balanced_start_iff hinv h ‹_› hstep
    · cases hstep
  | stop worker =>
    rw [step] at hstep
    split at hstep
    · obtain rfl := Option.some.inj hstep
      exact ⟨hinv.stop worker, fun _ => trivial, fun _ => h.stop hinv.nodup ‹_›⟩
    · cases hstep
  | destroy worker =>
    rw [step] at hstep
    split at hstep
    · obtain rfl := Option.some.inj hstep
      exact ⟨hinv.destroy worker, fun _ => trivial, fun _ => h.destroy hinv.nodup ‹_›⟩
    · cases hstep

/-- The workers return every core they take exactly when no worker that still records cores is given
new ones. -/
theorem returned_iff (policy : Nat → ThreadPolicy) (initial : CPUManager) (workers : List Nat)
    (hworkers : workers.Nodup) (ops : List CrewOp) (s : Crew)
    (hrun : runFrom (step policy) (init initial workers) ops = some s) :
    EveryState (step policy) (Returned initial) (init initial workers) ops ↔
      EveryStep (step policy) (Releases policy) (init initial workers) ops := by
  have hstart := crewInv_init initial hworkers
  refine everyState_iff_everyStep (CrewInv initial) ?_ hstart
    (returned_of_balanced hstart (balanced_init initial workers)) hrun
  intro m op m' hinv hreturned hstep
  obtain ⟨hinv', hiff⟩ := balanced_step_iff hinv hreturned.once hstep
  exact ⟨hinv', (⟨Returned.once, returned_of_balanced hinv'⟩ : _ ↔ _).trans hiff⟩

/-- Two workers of a mission, one of them started again after it has been stopped. -/
def restartedOps : List CrewOp := [.start 0, .start 1, .stop 0, .start 0, .destroy 1, .stop 0]

theorem restartedOps_returned :
    EveryState (step fun _ => missionPolicy) (Returned smallMachine)
      (init smallMachine [0, 1]) restartedOps :=
  (returned_iff (fun _ => missionPolicy) smallMachine [0, 1] (by decide) restartedOps _ rfl).2
    (everyStep_of_obeys (by decide))

/-- Both cores of the pinned pool are taken, one is recorded, and one comes back. -/
theorem startedTwice_loses_core :
    (runFrom (step fun _ => missionPolicy) (init smallMachine [0])
        [.start 0, .start 0, .stop 0]).map
      (fun s => (s.taken.map Core.cpuId, s.manager.pinnedCorePool, s.allocatedCores 0)) =
        some ([1, 0], [0], []) ∧
      ¬ EveryState (step fun _ => missionPolicy) (Returned smallMachine) (init smallMachine [0])
        [.start 0, .start 0, .stop 0] := by
  refine ⟨by decide, fun h => ?_⟩
  have hlast := (h [.start 0, .start 0, .stop 0] [] _ rfl rfl).once.length_eq
  exact absurd hlast (by decide)

end Crew

end PipelineTools.Threads
