import PipelineTools.Threads.CPUManager
import PipelineTools.Library.Runs
import Mathlib.Data.List.Nodup
import Mathlib.Data.List.Perm.Basic

/-!
# Accounting for cores

`Ledger` follows a manager through any sequence of calls of `allocate` and `deallocate`, with the
pinned and isolated cores that have been handed out and not been given back. The nested call of
`allocate` counts as an ordinary call here.

`accounted_run` says that no core is lost or handed out twice: after every call each initial pool is
a permutation of the present pool and the outstanding cores with its tag. Normal cores stay in the
pool, and neither handing them out nor giving them back changes a pool.
-/

set_option autoImplicit false

namespace PipelineTools.Threads

open PipelineTools.Library

/-- A manager and the pinned and isolated cores that are out. -/
structure Ledger where
  manager : CPUManager
  outstanding : List Core

/-- The calls of the manager's clients. -/
inductive CoreOp where
  | allocate (policy : ThreadPolicy)
  | deallocate (core : Core)

namespace Ledger

/-- Perform one call. The caller catches the exceptions. -/
def step (s : Ledger) : CoreOp → Ledger
  | .allocate policy =>
    match Threads.allocate true policy s.manager with
    | .ok cores m =>
      ⟨m, s.outstanding ++ cores.filter fun core => core.affinityType ≠ .NORMAL⟩
    | .error _ m => ⟨m, s.outstanding⟩
  | .deallocate core => ⟨Threads.deallocate core s.manager, s.outstanding.erase core⟩

/-- A pinned or isolated core is given back only while it is out, with the tag it went out with. -/
def Allowed (s : Ledger) : CoreOp → Prop
  | .allocate _ => True
  | .deallocate core => core.affinityType = .NORMAL ∨ core ∈ s.outstanding

/-- Calls about normal cores leave both pools as they are. -/
def NormalKeepsPools (s : Ledger) (op : CoreOp) : Prop :=
  (match op with
    | .allocate policy => policy.affinityType = .NORMAL
    | .deallocate core => core.affinityType = .NORMAL) →
  (s.step op).manager.pinnedCorePool = s.manager.pinnedCorePool ∧
    (s.step op).manager.isolCorePool = s.manager.isolCorePool

end Ledger

/-- The ids of the cores with one tag. -/
def idsOf (affinity : AffinityType) (cores : List Core) : List Int :=
  (cores.filter fun core => core.affinityType = affinity).map Core.cpuId

/-- The cores that an allocation takes out of a pool. -/
def fromPools (cores : List Core) : List Core :=
  cores.filter fun core => core.affinityType ≠ .NORMAL

/-- Every core of the initial pools is in its pool or out, and none is out twice. -/
structure Accounted (initial : CPUManager) (s : Ledger) : Prop where
  pinned : (s.manager.pinnedCorePool ++ idsOf .PINNED s.outstanding).Perm initial.pinnedCorePool
  isol : (s.manager.isolCorePool ++ idsOf .ISOLATED s.outstanding).Perm initial.isolCorePool
  once : (s.outstanding.map Core.cpuId).Nodup

/-! ## Ids by tag -/

@[simp] theorem idsOf_append (affinity : AffinityType) (xs ys : List Core) :
    idsOf affinity (xs ++ ys) = idsOf affinity xs ++ idsOf affinity ys := by
  simp [idsOf]

@[simp] theorem idsOf_tagged_self (affinity : AffinityType) (cpus : List Int) :
    idsOf affinity (tagged affinity cpus) = cpus := by
  simp [idsOf, tagged, List.filter_map, Function.comp_def]

theorem idsOf_tagged_of_ne {affinity other : AffinityType} (h : other ≠ affinity)
    (cpus : List Int) : idsOf affinity (tagged other cpus) = [] := by
  simp [idsOf, tagged, List.filter_map, Function.comp_def, h]

theorem filter_tagged {affinity : AffinityType} (h : affinity ≠ .NORMAL) (cpus : List Int) :
    (tagged affinity cpus).filter (fun core => core.affinityType ≠ .NORMAL) =
      tagged affinity cpus := by
  simp [tagged, List.filter_map, Function.comp_def, h]

theorem tagged_ne_normal {affinity : AffinityType} (h : affinity ≠ .NORMAL) {cpus : List Int} :
    ∀ core ∈ tagged affinity cpus, core.affinityType ≠ .NORMAL := by
  intro core hcore
  obtain ⟨cpu, -, rfl⟩ := List.mem_map.1 hcore
  exact h

theorem idsOf_perm {affinity : AffinityType} {xs ys : List Core} (h : xs.Perm ys) :
    (idsOf affinity xs).Perm (idsOf affinity ys) :=
  (h.filter _).map _

/-- Giving a core back takes its id from the ids with its tag. -/
theorem idsOf_erase_self {cores : List Core} {core : Core} (h : core ∈ cores) :
    (idsOf core.affinityType cores).Perm
      (core.cpuId :: idsOf core.affinityType (cores.erase core)) := by
  refine (idsOf_perm (List.perm_cons_erase h)).trans ?_
  simp [idsOf]

theorem idsOf_erase_of_ne {affinity : AffinityType} {core : Core}
    (hne : core.affinityType ≠ affinity) {cores : List Core} (h : core ∈ cores) :
    (idsOf affinity cores).Perm (idsOf affinity (cores.erase core)) := by
  refine (idsOf_perm (List.perm_cons_erase h)).trans ?_
  simp [idsOf, hne]

/-- Cores that are pinned or isolated are split by their tag. -/
theorem perm_idsOf {cores : List Core} (h : ∀ core ∈ cores, core.affinityType ≠ .NORMAL) :
    (cores.map Core.cpuId).Perm (idsOf .PINNED cores ++ idsOf .ISOLATED cores) := by
  induction cores with
  | nil => exact List.Perm.refl _
  | cons core cores ih =>
    obtain ⟨hcore, hcores⟩ := List.forall_mem_cons.1 h
    have hrest := ih hcores
    cases haff : core.affinityType with
    | NORMAL => exact absurd haff hcore
    | PINNED =>
      have hids : idsOf .PINNED (core :: cores) = core.cpuId :: idsOf .PINNED cores := by
        simp [idsOf, haff]
      have hids' : idsOf .ISOLATED (core :: cores) = idsOf .ISOLATED cores := by
        simp [idsOf, haff]
      rw [hids, hids', List.map_cons, List.cons_append]
      exact hrest.cons _
    | ISOLATED =>
      have hids : idsOf .PINNED (core :: cores) = idsOf .PINNED cores := by
        simp [idsOf, haff]
      have hids' : idsOf .ISOLATED (core :: cores) = core.cpuId :: idsOf .ISOLATED cores := by
        simp [idsOf, haff]
      rw [hids, hids', List.map_cons]
      exact (hrest.cons _).trans List.perm_middle.symm

theorem idsOf_fromPools {affinity : AffinityType} (h : affinity ≠ .NORMAL) (cores : List Core) :
    idsOf affinity (fromPools cores) = idsOf affinity cores := by
  rw [idsOf, idsOf, fromPools, List.filter_filter]
  congr 2
  funext core
  by_cases haff : core.affinityType = affinity
  · simp [haff, h]
  · simp [haff]

theorem tags_fromPools (cores : List Core) :
    ∀ core ∈ fromPools cores, core.affinityType ≠ .NORMAL := by
  intro core hcore
  exact of_decide_eq_true (List.mem_filter.1 hcore).2

theorem mem_idsOf {affinity : AffinityType} {cores : List Core} {cpu : Int} :
    cpu ∈ idsOf affinity cores ↔ ⟨cpu, affinity⟩ ∈ cores := by
  rw [idsOf, List.mem_map]
  constructor
  · rintro ⟨⟨cpu', affinity'⟩, hmem, rfl⟩
    obtain ⟨hcore, haff⟩ := List.mem_filter.1 hmem
    obtain rfl : affinity' = affinity := of_decide_eq_true haff
    exact hcore
  · intro hmem
    exact ⟨⟨cpu, affinity⟩, List.mem_filter.2 ⟨hmem, decide_eq_true rfl⟩, rfl⟩

/-- The cores taken from the end of a pool move to the outstanding ones. -/
theorem allBut_append_lastFew_perm (n : Nat) (pool out : List Int) :
    (allBut n pool ++ (out ++ lastFew n pool)).Perm (pool ++ out) := by
  have hpool : (allBut n pool ++ lastFew n pool).Perm pool := by
    have hdrop : (allBut n pool ++ pool.drop (pool.length - n)).Perm pool := by
      rw [allBut, List.take_append_drop]
    exact ((List.reverse_perm _).append_left _).trans hdrop
  have hswap : (out ++ lastFew n pool).Perm (lastFew n pool ++ out) := List.perm_append_comm
  refine (hswap.append_left _).trans ?_
  rw [← List.append_assoc]
  exact hpool.append_right _

section Moves

variable {reentrant : Bool} {policy : ThreadPolicy} {m m' : CPUManager} {cores : List Core}

/-- What leaves the pinned pool is handed out as pinned. -/
theorem Allocation.pinned_perm (h : Allocation reentrant policy m (.ok cores m'))
    (out : List Int) : (m'.pinnedCorePool ++ (out ++ idsOf .PINNED cores)).Perm
      (m.pinnedCorePool ++ out) := by
  cases h with
  | normal haff hle =>
    rw [idsOf_tagged_of_ne (by decide), List.append_nil]
  | pinned haff hle =>
    rw [idsOf_tagged_self]
    exact allBut_append_lastFew_perm _ _ _
  | isolated haff hle =>
    rw [idsOf_tagged_of_ne (by decide), List.append_nil]
  | filledUp missing hneeds hr hmissing =>
    rw [idsOf_append, idsOf_tagged_self, idsOf_tagged_of_ne (by decide), List.append_nil]
    exact allBut_append_lastFew_perm _ _ _

/-- What leaves the isolated pool is handed out as isolated. -/
theorem Allocation.isol_perm (h : Allocation reentrant policy m (.ok cores m'))
    (out : List Int) : (m'.isolCorePool ++ (out ++ idsOf .ISOLATED cores)).Perm
      (m.isolCorePool ++ out) := by
  cases h with
  | normal haff hle =>
    rw [idsOf_tagged_of_ne (by decide), List.append_nil]
  | pinned haff hle =>
    rw [idsOf_tagged_of_ne (by decide), List.append_nil]
  | isolated haff hle =>
    rw [idsOf_tagged_self]
    exact allBut_append_lastFew_perm _ _ _
  | filledUp missing hneeds hr hmissing =>
    rw [idsOf_append, idsOf_tagged_self, idsOf_tagged_of_ne (by decide), List.nil_append]
    exact allBut_append_lastFew_perm _ _ _

end Moves

/-- The cores of both pools. -/
def CPUManager.poolIds (m : CPUManager) : List Int := m.pinnedCorePool ++ m.isolCorePool

/-- Pinned and isolated cores that are handed out leave the pools. -/
theorem Allocation.poolIds_perm {reentrant : Bool} {policy : ThreadPolicy} {m m' : CPUManager}
    {cores : List Core} (h : Allocation reentrant policy m (.ok cores m'))
    (haff : policy.affinityType ≠ .NORMAL) :
    (m'.poolIds ++ cores.map Core.cpuId).Perm m.poolIds ∧
      ∀ core ∈ cores, core.affinityType ≠ .NORMAL := by
  have hids : ∀ (affinity : AffinityType) (cpus : List Int),
      (tagged affinity cpus).map Core.cpuId = cpus := by
    intro affinity cpus
    simp [tagged, Function.comp_def]
  cases h with
  | normal haff' hle => exact absurd haff' haff
  | pinned haff' hle =>
    refine ⟨?_, tagged_ne_normal (by decide)⟩
    rw [hids, CPUManager.poolIds, List.append_assoc]
    exact allBut_append_lastFew_perm _ _ _
  | isolated haff' hle =>
    refine ⟨?_, tagged_ne_normal (by decide)⟩
    rw [hids, CPUManager.poolIds, List.append_assoc]
    have hisol := allBut_append_lastFew_perm policy.cores m.isolCorePool []
    rw [List.nil_append, List.append_nil] at hisol
    exact hisol.append_left _
  | filledUp missing hneeds hr hmissing =>
    refine ⟨?_, ?_⟩
    -- the isolated pool is emptied, and the rest comes from the end of the other
    · have hpinned := allBut_append_lastFew_perm missing m.pinnedCorePool m.isolCorePool
      have hisol := allBut_append_lastFew_perm m.isolCorePool.length m.isolCorePool
        (lastFew missing m.pinnedCorePool)
      rw [List.map_append, hids, hids, CPUManager.poolIds, List.append_assoc]
      refine (hisol.append_left _).trans ?_
      exact hpinned
    · intro core hcore
      rcases List.mem_append.1 hcore with hcore | hcore
      · exact tagged_ne_normal (by decide) core hcore
      · exact tagged_ne_normal (by decide) core hcore

/-- A pinned or isolated core that is given back joins the pools. -/
theorem poolIds_deallocate {core : Core} (h : core.affinityType ≠ .NORMAL) (m : CPUManager) :
    (deallocate core m).poolIds.Perm (core.cpuId :: m.poolIds) := by
  cases haff : core.affinityType with
  | NORMAL => exact absurd haff h
  | PINNED =>
    simp only [deallocate, haff, CPUManager.poolIds, List.append_assoc]
    exact List.perm_middle
  | ISOLATED =>
    simp only [deallocate, haff, CPUManager.poolIds, ← List.append_assoc]
    exact List.perm_append_comm

/-! ## The invariant -/

/-- The cores of the initial pools, by pool, and nothing but pinned and isolated cores out. -/
structure LedgerInv (initial : CPUManager) (s : Ledger) : Prop where
  pinned : (s.manager.pinnedCorePool ++ idsOf .PINNED s.outstanding).Perm initial.pinnedCorePool
  isol : (s.manager.isolCorePool ++ idsOf .ISOLATED s.outstanding).Perm initial.isolCorePool
  tags : ∀ core ∈ s.outstanding, core.affinityType ≠ .NORMAL

variable {initial : CPUManager}

/-- With disjoint initial pools without duplicates, no core is out twice. -/
theorem LedgerInv.accounted {s : Ledger} (h : LedgerInv initial s)
    (hpinned : initial.pinnedCorePool.Nodup) (hisol : initial.isolCorePool.Nodup)
    (hdisjoint : initial.pinnedCorePool.Disjoint initial.isolCorePool) : Accounted initial s := by
  refine ⟨h.pinned, h.isol, ?_⟩
  rw [(perm_idsOf h.tags).nodup_iff]
  have hp : (idsOf .PINNED s.outstanding).Nodup :=
    (h.pinned.nodup_iff.2 hpinned).of_append_right
  have hi : (idsOf .ISOLATED s.outstanding).Nodup :=
    (h.isol.nodup_iff.2 hisol).of_append_right
  -- cores of different tags come from different initial pools
  refine hp.append hi ?_
  intro cpu hcpu hcpu'
  have hmem : cpu ∈ initial.pinnedCorePool :=
    h.pinned.mem_iff.1 (List.mem_append_right _ hcpu)
  have hmem' : cpu ∈ initial.isolCorePool :=
    h.isol.mem_iff.1 (List.mem_append_right _ hcpu')
  exact hdisjoint hmem hmem'

/-- A call of `allocate` moves cores from the pools to the outstanding ones. -/
theorem ledgerInv_allocate {s : Ledger} (h : LedgerInv initial s) (policy : ThreadPolicy) :
    LedgerInv initial (s.step (.allocate policy)) := by
  have hcall : Allocation true policy s.manager (allocate true policy s.manager) :=
    allocation_allocate (free_of_reentrant _)
  simp only [Ledger.step]
  generalize allocate true policy s.manager = r at hcall
  cases r with
  | ok cores m =>
    refine ⟨?_, ?_, ?_⟩
    · show (_ ++ idsOf .PINNED (s.outstanding ++ fromPools cores)).Perm _
      rw [idsOf_append, idsOf_fromPools (by decide)]
      exact (hcall.pinned_perm _).trans h.pinned
    · show (_ ++ idsOf .ISOLATED (s.outstanding ++ fromPools cores)).Perm _
      rw [idsOf_append, idsOf_fromPools (by decide)]
      exact (hcall.isol_perm _).trans h.isol
    -- normal cores stay in the pool and are not recorded as out
    · intro core hcore
      rcases List.mem_append.1 hcore with hold | hnew
      · exact h.tags core hold
      · exact tags_fromPools cores core hnew
  | error e m =>
    cases hcall with
    | shortage what hshort => exact h
    | selfLock m' hneeds hr => cases hr

/-- A pinned or isolated core that may be given back is out. -/
theorem Ledger.Allowed.mem_outstanding {s : Ledger} {core : Core}
    (h : s.Allowed (.deallocate core)) (haff : core.affinityType ≠ .NORMAL) :
    core ∈ s.outstanding := by
  rcases h with hnormal | hmem
  · exact absurd hnormal haff
  · exact hmem

/-- A call of `deallocate` moves one core back to its pool. -/
theorem ledgerInv_deallocate {s : Ledger} (h : LedgerInv initial s) {core : Core}
    (hallowed : s.Allowed (.deallocate core)) :
    LedgerInv initial (s.step (.deallocate core)) := by
  have htags : ∀ c ∈ s.outstanding.erase core, c.affinityType ≠ .NORMAL := fun c hc =>
    h.tags c (List.mem_of_mem_erase hc)
  cases haff : core.affinityType with
  -- a normal core is in no pool and is not put back into one
  | NORMAL =>
    have hnot : core ∉ s.outstanding := fun hmem => h.tags core hmem haff
    simp only [Ledger.step, deallocate, haff, List.erase_of_not_mem hnot]
    exact h
  | PINNED =>
    have hmem := hallowed.mem_outstanding (by rw [haff]; decide)
    have hself := idsOf_erase_self hmem
    have hne : core.affinityType ≠ .ISOLATED := by
      rw [haff]
      decide
    have hother := idsOf_erase_of_ne hne hmem
    rw [haff] at hself
    simp only [Ledger.step, deallocate, haff]
    refine ⟨?_, ?_, htags⟩
    · rw [List.append_assoc, List.singleton_append]
      exact (hself.symm.append_left _).trans h.pinned
    · exact (hother.symm.append_left _).trans h.isol
  | ISOLATED =>
    have hmem := hallowed.mem_outstanding (by rw [haff]; decide)
    have hself := idsOf_erase_self hmem
    have hne : core.affinityType ≠ .PINNED := by
      rw [haff]
      decide
    have hother := idsOf_erase_of_ne hne hmem
    rw [haff] at hself
    simp only [Ledger.step, deallocate, haff]
    refine ⟨?_, ?_, htags⟩
    · exact (hother.symm.append_left _).trans h.pinned
    · rw [List.append_assoc, List.singleton_append]
      exact (hself.symm.append_left _).trans h.isol

/-- Calls about normal cores change no pool. -/
theorem normalKeepsPools_step (s : Ledger) (op : CoreOp) : s.NormalKeepsPools op := by
  cases op with
  | deallocate core =>
    intro haff
    have hsame : deallocate core s.manager = s.manager := by
      simp only at haff
      rw [deallocate, haff]
    rw [Ledger.step, hsame]
    exact ⟨rfl, rfl⟩
  | allocate policy =>
    intro haff
    simp only at haff
    have hcall : Allocation true policy s.manager (allocate true policy s.manager) :=
      allocation_allocate (free_of_reentrant _)
    simp only [Ledger.step]
    generalize allocate true policy s.manager = r at hcall
    cases hcall with
    | shortage what hshort => exact ⟨rfl, rfl⟩
    | normal haff' hle => exact ⟨rfl, rfl⟩
    | pinned haff' hle =>
      rw [haff] at haff'
      cases haff'
    | isolated haff' hle =>
      rw [haff] at haff'
      cases haff'
    | filledUp missing hneeds hr hmissing =>
      have haff' := hneeds.1
      rw [haff] at haff'
      cases haff'
    | selfLock m' hneeds hr => cases hr

/-- In every run in which cores are given back at most once and with their tag, every initial pool
is accounted for after every call, and calls about normal cores change no pool. -/
theorem accounted_run (initial : CPUManager) (hpinned : initial.pinnedCorePool.Nodup)
    (hisol : initial.isolCorePool.Nodup)
    (hdisjoint : initial.pinnedCorePool.Disjoint initial.isolCorePool) (ops : List CoreOp)
    (hops : AtEach Ledger.step Ledger.Allowed ⟨initial, []⟩ ops) :
    InEveryState Ledger.step (Accounted initial) ⟨initial, []⟩ ops ∧
      AtEach Ledger.step Ledger.NormalKeepsPools ⟨initial, []⟩ ops := by
  have hstart : LedgerInv initial ⟨initial, []⟩ := by
    refine ⟨?_, ?_, ?_⟩
    · simp [idsOf]
    · simp [idsOf]
    · intro core hcore
      cases hcore
  constructor
  · have hinv : InEveryState Ledger.step (LedgerInv initial) ⟨initial, []⟩ ops := by
      apply inEveryState_of_atEach hstart hops
      intro s op hs hallowed
      cases op with
      | allocate policy => exact ledgerInv_allocate hs policy
      | deallocate core => exact ledgerInv_deallocate hs hallowed
    intro pre post hpre
    exact (hinv pre post hpre).accounted hpinned hisol hdisjoint
  · intro pre op post _
    exact normalKeepsPools_step _ op

/-- Two requests on the small machine, the second one filled up from the pinned pool, and one core
given back in between. -/
def sampleOps : List CoreOp :=
  [.allocate { cores := 1, affinityType := .PINNED }, .deallocate ⟨1, .PINNED⟩,
    .allocate twoIsolated]

theorem sampleOps_accounted :
    InEveryState Ledger.step (Accounted smallMachine) ⟨smallMachine, []⟩ sampleOps ∧
      AtEach Ledger.step Ledger.NormalKeepsPools ⟨smallMachine, []⟩ sampleOps := by
  have hdisjoint : smallMachine.pinnedCorePool.Disjoint smallMachine.isolCorePool := by
    simp [smallMachine]
  refine accounted_run smallMachine (by decide) (by decide) hdisjoint sampleOps ?_
  refine atEach_cons.2 ⟨trivial, atEach_cons.2 ⟨Or.inr ?_, atEach_cons.2 ⟨trivial, atEach_nil⟩⟩⟩
  decide

end PipelineTools.Threads
