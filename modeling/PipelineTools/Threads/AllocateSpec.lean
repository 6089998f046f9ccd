import PipelineTools.Threads.CPUManager
import Mathlib.Data.List.Nodup

/-!
# The specification of `allocate`

`allocate_spec` says what one call of `CPUManager::allocate` does, with the nested call taken as an
ordinary one: when it throws, which cores it returns otherwise, and what is left in the pools. The
loops of the source take cores with unchecked `back` and `pop_back`; that the checks in front of
them suffice is part of the specification, for no other stop than the exception is left.
-/

set_option autoImplicit false

namespace PipelineTools.Threads

/-- Which cores a request that is met hands out, and the manager afterwards: normal cores are the
first ones of the pinned pool and stay in it, the others are taken from the ends of the pools. -/
def HandedOut (policy : ThreadPolicy) (m : CPUManager) (cores : List Core) (m' : CPUManager) :
    Prop :=
  match policy.affinityType with
  | .NORMAL => cores = tagged .NORMAL (m.pinnedCorePool.take policy.cores) ∧ m' = m
  | .PINNED => cores = tagged .PINNED (lastFew policy.cores m.pinnedCorePool) ∧
      m' = { m with pinnedCorePool := allBut policy.cores m.pinnedCorePool }
  | .ISOLATED =>
      let isol := min policy.cores m.isolCorePool.length
      let pinned := policy.cores - isol
      cores = tagged .PINNED (lastFew pinned m.pinnedCorePool) ++
          tagged .ISOLATED (lastFew isol m.isolCorePool) ∧
        m' = { m with
          pinnedCorePool := allBut pinned m.pinnedCorePool
          isolCorePool := allBut isol m.isolCorePool }

/-- A request that is met: as many cores as asked for, all different, from the right places. -/
structure Granted (policy : ThreadPolicy) (m : CPUManager) (cores : List Core) (m' : CPUManager) :
    Prop where
  count : cores.length = policy.cores
  distinct : (cores.map Core.cpuId).Nodup
  handedOut : HandedOut policy m cores m'

/-- The call throws when the request cannot or must not be met, and changes nothing then; otherwise
it returns the cores granted. -/
def AllocateSpec (policy : ThreadPolicy) (m : CPUManager) :
    EStateM.Result AllocateStop CPUManager (List Core) → Prop
  | .ok cores m' => ¬ Shortage policy m ∧ Granted policy m cores m'
  | .error e m' => Shortage policy m ∧ (∃ what, e = .runtimeError what) ∧ m' = m

theorem nodup_lastFew {pool : List Int} (h : pool.Nodup) (n : Nat) : (lastFew n pool).Nodup :=
  List.nodup_reverse.2 (h.drop)

theorem mem_of_mem_lastFew {n : Nat} {pool : List Int} {cpu : Int} (h : cpu ∈ lastFew n pool) :
    cpu ∈ pool :=
  List.mem_of_mem_drop (List.mem_reverse.1 h)

/-- What a call that returns has handed out, when no core is in the pools twice. -/
theorem granted_of_allocation {reentrant : Bool} {policy : ThreadPolicy} {m m' : CPUManager}
    {cores : List Core} (hpinned : m.pinnedCorePool.Nodup) (hisol : m.isolCorePool.Nodup)
    (hdisjoint : m.pinnedCorePool.Disjoint m.isolCorePool)
    (h : Allocation reentrant policy m (.ok cores m')) : Granted policy m cores m' := by
  refine ⟨h.length_eq, ?_, ?_⟩
  · cases h with
    | normal haff hle =>
      rw [cpuIds_tagged]
      exact hpinned.take
    | pinned haff hle =>
      rw [cpuIds_tagged]
      exact nodup_lastFew hpinned _
    | isolated haff hle =>
      rw [cpuIds_tagged]
      exact nodup_lastFew hisol _
    -- the isolated pool is emptied and the rest is pinned
    | filledUp missing hneeds hr hmissing =>
      rw [List.map_append, cpuIds_tagged, cpuIds_tagged]
      refine (nodup_lastFew hpinned _).append (nodup_lastFew hisol _) ?_
      intro cpu hcpu hcpu'
      exact hdisjoint (mem_of_mem_lastFew hcpu) (mem_of_mem_lastFew hcpu')
  · cases h with
    | normal haff hle =>
      rw [HandedOut, haff]
      exact ⟨rfl, rfl⟩
    | pinned haff hle =>
      rw [HandedOut, haff]
      exact ⟨rfl, rfl⟩
    -- nothing has to be filled up
    | isolated haff hle =>
      rw [HandedOut, haff]
      simp [Nat.min_eq_left hle, tagged]
    | filledUp missing hneeds hr hmissing =>
      subst hmissing
      rw [HandedOut, hneeds.1]
      simp [Nat.min_eq_right (Nat.le_of_lt hneeds.2.2.1)]

/-- The specification holds for all policies and all duplicate-free, disjoint pools. -/
theorem allocate_spec (policy : ThreadPolicy) (m : CPUManager) (hpinned : m.pinnedCorePool.Nodup)
    (hisol : m.isolCorePool.Nodup) (hdisjoint : m.pinnedCorePool.Disjoint m.isolCorePool) :
    AllocateSpec policy m (allocate true policy m) := by
  have hcall : Allocation true policy m (allocate true policy m) :=
    allocation_allocate (free_of_reentrant m)
  generalize allocate true policy m = r at hcall
  cases r with
  | ok cores m' =>
    exact ⟨hcall.not_shortage, granted_of_allocation hpinned hisol hdisjoint hcall⟩
  | error e m' =>
    cases hcall with
    | shortage what hshort => exact ⟨hshort, ⟨what, rfl⟩, rfl⟩
    | selfLock m' hneeds hr => cases hr

/-- Two isolated cores on the small machine: the isolated one, and the last pinned one. -/
theorem twoIsolated_spec : AllocateSpec twoIsolated smallMachine
    (.ok [⟨1, .PINNED⟩, ⟨2, .ISOLATED⟩] { smallMachine with
      pinnedCorePool := [0], isolCorePool := [] }) :=
  allocate_spec twoIsolated smallMachine (by decide) (by decide) (by simp [smallMachine])

end PipelineTools.Threads
