import PipelineTools.Threads.CoreAccounting

/-!
# Deallocations that should not have been made

`deallocate` notices a core that is not online and a core that is in its pool already; it logs the
mistake and puts the core into the pool all the same. Nothing in it notices a core that was never
handed out, or one that is given back under another tag.

`Ledger.Intact` says that pools and allocations are in order. A core that is in a pool and out at
the same time does not show before it is handed out again, so `Ledger.Survives` asks for order
whatever is allocated next. `survives_iff_harmless` says which sequences of calls leave the ledger
in such states: those in which each core given back is a normal one, one that is out with this tag,
or an online core that is neither in a pool nor out.
-/

set_option autoImplicit false

namespace PipelineTools.Threads

open PipelineTools.Library

namespace Ledger

/-- The pools are duplicate-free, disjoint and online, and no core is out twice. -/
structure Intact (s : Ledger) : Prop where
  pinned : s.manager.pinnedCorePool.Nodup
  isol : s.manager.isolCorePool.Nodup
  disjoint : s.manager.pinnedCorePool.Disjoint s.manager.isolCorePool
  online : ∀ cpu ∈ s.manager.pinnedCorePool ++ s.manager.isolCorePool,
    cpu ∈ s.manager.onlineCores
  once : (s.outstanding.map Core.cpuId).Nodup

/-- The ledger is in order, and stays so whatever is allocated next. -/
def Survives (s : Ledger) : Prop :=
  ∀ policies : List ThreadPolicy, InEveryState step Intact s (policies.map .allocate)

/-- All cores that are in a pool or out. -/
def ids (s : Ledger) : List Int :=
  s.manager.pinnedCorePool ++ s.manager.isolCorePool ++ s.outstanding.map Core.cpuId

/-- The calls that do no harm. -/
def Harmless (s : Ledger) : CoreOp → Prop
  | .allocate _ => True
  | .deallocate core =>
    core.affinityType = .NORMAL ∨ core ∈ s.outstanding ∨
      core.cpuId ∈ s.manager.onlineCores ∧ core.cpuId ∉ s.ids

/-- No core is in two places, all are online, and only pinned and isolated ones are out. -/
structure Clean (s : Ledger) : Prop where
  nodup : s.ids.Nodup
  online : ∀ cpu ∈ s.ids, cpu ∈ s.manager.onlineCores
  tags : ∀ core ∈ s.outstanding, core.affinityType ≠ .NORMAL

theorem Clean.intact {s : Ledger} (h : s.Clean) : s.Intact := by
  have hpools := h.nodup.of_append_left
  refine ⟨hpools.of_append_left, hpools.of_append_right, List.disjoint_of_nodup_append hpools, ?_,
    h.nodup.of_append_right⟩
  intro cpu hcpu
  exact h.online cpu (List.mem_append_left _ hcpu)

/-! ## What a call does to the cores -/

theorem onlineCores_step (s : Ledger) (op : CoreOp) :
    (s.step op).manager.onlineCores = s.manager.onlineCores := by
  cases op with
  | deallocate core => cases haff : core.affinityType <;> simp [step, deallocate, haff]
  | allocate policy =>
    have hcall : Allocation true policy s.manager (allocate true policy s.manager) :=
      allocation_allocate (free_of_reentrant _)
    simp only [step]
    generalize allocate true policy s.manager = r at hcall
    cases hcall with
    | shortage what hshort => rfl
    | normal haff hle => rfl
    | pinned haff hle => rfl
    | isolated haff hle => rfl
    | filledUp missing hneeds hr hmissing => rfl
    | selfLock m' hneeds hr => cases hr

/-- The cores, sorted by pool. -/
theorem ids_perm {s : Ledger} (h : ∀ core ∈ s.outstanding, core.affinityType ≠ .NORMAL) :
    s.ids.Perm ((s.manager.pinnedCorePool ++ idsOf .PINNED s.outstanding) ++
      (s.manager.isolCorePool ++ idsOf .ISOLATED s.outstanding)) := by
  refine ((perm_idsOf h).append_left _).trans ?_
  rw [List.append_assoc, List.append_assoc]
  refine List.Perm.append_left _ ?_
  rw [← List.append_assoc, ← List.append_assoc]
  exact List.perm_append_comm.append_right _

/-- An allowed call moves cores between the pools and their users. -/
theorem ids_step_perm {s : Ledger} (h : ∀ core ∈ s.outstanding, core.affinityType ≠ .NORMAL)
    {op : CoreOp} (hallowed : s.Allowed op) :
    (s.step op).ids.Perm s.ids ∧
      ∀ core ∈ (s.step op).outstanding, core.affinityType ≠ .NORMAL := by
  let now : CPUManager :=
    { s.manager with
      pinnedCorePool := s.manager.pinnedCorePool ++ idsOf .PINNED s.outstanding
      isolCorePool := s.manager.isolCorePool ++ idsOf .ISOLATED s.outstanding }
  have hnow : LedgerInv now s := ⟨List.Perm.refl _, List.Perm.refl _, h⟩
  have hnext : LedgerInv now (s.step op) := by
    cases op with
    | allocate policy => exact ledgerInv_allocate hnow policy
    | deallocate core => exact ledgerInv_deallocate hnow hallowed
  refine ⟨?_, hnext.tags⟩
  exact (ids_perm hnext.tags).trans ((hnext.pinned.append hnext.isol).trans (ids_perm h).symm)

/-- Any other call adds a core to a pool. -/
theorem ids_step_unasked {s : Ledger} {core : Core} (hnot : ¬ s.Allowed (.deallocate core)) :
    (s.step (.deallocate core)).ids.Perm (core.cpuId :: s.ids) ∧
      (s.step (.deallocate core)).outstanding = s.outstanding := by
  have haff : core.affinityType ≠ .NORMAL := fun h => hnot (.inl h)
  have hout : core ∉ s.outstanding := fun h => hnot (.inr h)
  refine ⟨?_, List.erase_of_not_mem hout⟩
  cases hcore : core.affinityType with
  | NORMAL => exact absurd hcore haff
  | PINNED =>
    simp only [step, ids, deallocate, hcore, List.erase_of_not_mem hout, List.append_assoc]
    exact List.perm_middle
  | ISOLATED =>
    simp only [step, ids, deallocate, hcore, List.erase_of_not_mem hout, List.append_assoc]
    exact (List.perm_middle.append_left _).trans List.perm_middle

theorem harmless_iff_of_unasked {s : Ledger} {core : Core}
    (hnot : ¬ s.Allowed (.deallocate core)) :
    s.Harmless (.deallocate core) ↔ core.cpuId ∈ s.manager.onlineCores ∧ core.cpuId ∉ s.ids := by
  constructor
  · rintro (h | h | h)
    · exact absurd (.inl h) hnot
    · exact absurd (.inr h) hnot
    · exact h
  · exact fun h => .inr (.inr h)

theorem harmless_of_allowed {s : Ledger} {op : CoreOp} (h : s.Allowed op) : s.Harmless op := by
  cases op with
  | allocate policy => trivial
  | deallocate core =>
    rcases h with h | h
    · exact .inl h
    · exact .inr (.inl h)

theorem Clean.step {s : Ledger} (hs : s.Clean) {op : CoreOp} (h : s.Harmless op) :
    (s.step op).Clean := by
  by_cases hallowed : s.Allowed op
  · obtain ⟨hperm, htags⟩ := ids_step_perm hs.tags hallowed
    refine ⟨hperm.nodup_iff.2 hs.nodup, ?_, htags⟩
    intro cpu hcpu
    rw [onlineCores_step]
    exact hs.online cpu (hperm.mem_iff.1 hcpu)
  · cases op with
    | allocate policy => exact absurd trivial hallowed
    | deallocate core =>
      -- a core that was neither in a pool nor out joins a pool
      obtain ⟨hperm, hout⟩ := ids_step_unasked hallowed
      obtain ⟨honline, hnew⟩ := (harmless_iff_of_unasked hallowed).1 h
      refine ⟨hperm.nodup_iff.2 (List.nodup_cons.2 ⟨hnew, hs.nodup⟩), ?_, ?_⟩
      · intro cpu hcpu
        rw [onlineCores_step]
        rcases List.mem_cons.1 (hperm.mem_iff.1 hcpu) with rfl | hcpu
        · exact honline
        · exact hs.online cpu hcpu
      · rw [hout]
        exact hs.tags

theorem Clean.survives {s : Ledger} (h : s.Clean) : s.Survives := by
  intro policies
  -- induction on the requests: an allocation is harmless
  induction policies generalizing s with
  | nil => exact inEveryState_nil.2 h.intact
  | cons policy policies ih => exact inEveryState_cons.2 ⟨h.intact, ih (h.step trivial)⟩

/-! ## What shows the damage -/

/-- A request for all cores of a pool. -/
def allOf (affinity : AffinityType) (pool : List Int) : ThreadPolicy :=
  { cores := pool.length, affinityType := affinity }

theorem cores_allOf (affinity : AffinityType) (pool : List Int) :
    (allOf affinity pool).cores = pool.length := rfl

theorem lastFew_length (pool : List Int) : lastFew pool.length pool = pool.reverse := by
  rw [lastFew, Nat.sub_self, List.drop_zero]

theorem allocate_all_pinned (s : Ledger) :
    (s.step (.allocate (allOf .PINNED s.manager.pinnedCorePool))).outstanding =
      s.outstanding ++ tagged .PINNED s.manager.pinnedCorePool.reverse := by
  have hcall : allocate true (allOf .PINNED s.manager.pinnedCorePool) s.manager = _ :=
    allocate_pinned (free_of_reentrant s.manager) rfl (Nat.le_refl _)
  have hpinned : AffinityType.PINNED ≠ .NORMAL := by decide
  simp only [step, hcall, filter_tagged hpinned, cores_allOf, lastFew_length]

theorem allocate_all_isolated (s : Ledger) :
    (s.step (.allocate (allOf .ISOLATED s.manager.isolCorePool))).outstanding =
      s.outstanding ++ tagged .ISOLATED s.manager.isolCorePool.reverse := by
  have hcall : allocate true (allOf .ISOLATED s.manager.isolCorePool) s.manager = _ :=
    allocate_isolated (free_of_reentrant s.manager) rfl (Nat.le_refl _)
  have hisol : AffinityType.ISOLATED ≠ .NORMAL := by decide
  simp only [step, hcall, filter_tagged hisol, cores_allOf, lastFew_length]

/-- Where the ledger survives, no core is in a pool and out: the next request for the whole pool
would hand it out a second time. -/
theorem Survives.notMem_outstanding {s : Ledger} (h : s.Survives) {cpu : Int}
    (hcpu : cpu ∈ s.manager.pinnedCorePool ++ s.manager.isolCorePool) :
    cpu ∉ s.outstanding.map Core.cpuId := by
  -- the whole pool would be handed out next to the core that is out
  have honce : ∀ {affinity : AffinityType} {pool : List Int}, cpu ∈ pool →
      (s.step (.allocate (allOf affinity pool))).outstanding =
        s.outstanding ++ tagged affinity pool.reverse →
      cpu ∉ s.outstanding.map Core.cpuId := by
    intro affinity pool hmem hstep hout
    have hintact : (s.step (.allocate (allOf affinity pool))).Intact :=
      h [allOf affinity pool] [.allocate (allOf affinity pool)] [] rfl
    have hnodup := hintact.once
    rw [hstep, List.map_append] at hnodup
    refine List.disjoint_of_nodup_append hnodup hout ?_
    exact List.mem_map.2 ⟨⟨cpu, affinity⟩,
      List.mem_map.2 ⟨cpu, List.mem_reverse.2 hmem, rfl⟩, rfl⟩
  rcases List.mem_append.1 hcpu with hpinned | hisol
  · exact honce hpinned s.allocate_all_pinned
  · exact honce hisol s.allocate_all_isolated

/-- A call from a clean state leads to one that survives exactly when it is harmless. -/
theorem survives_step_iff {s : Ledger} (hs : s.Clean) (op : CoreOp) :
    (s.step op).Survives ↔ s.Harmless op := by
  constructor
  · intro h
    by_cases hallowed : s.Allowed op
    · exact harmless_of_allowed hallowed
    · cases op with
      | allocate policy => trivial
      | deallocate core =>
        obtain ⟨hperm, hout⟩ := ids_step_unasked hallowed
        have hintact : (s.step (.deallocate core)).Intact := h [] [] [] rfl
        have hpool : core.cpuId ∈ (s.step (.deallocate core)).manager.pinnedCorePool ++
            (s.step (.deallocate core)).manager.isolCorePool := by
          cases hcore : core.affinityType with
          | NORMAL => exact absurd (.inl hcore) hallowed
          | PINNED => simp [step, deallocate, hcore]
          | ISOLATED => simp [step, deallocate, hcore]
        refine (harmless_iff_of_unasked hallowed).2 ⟨?_, ?_⟩
        · rw [← onlineCores_step s (.deallocate core)]
          exact hintact.online _ hpool
        · have hids : (step s (.deallocate core)).ids.Nodup := by
            have hpools := hintact.pinned.append hintact.isol hintact.disjoint
            exact hpools.append hintact.once fun cpu hcpu => h.notMem_outstanding hcpu
          exact (List.nodup_cons.1 (hperm.nodup_iff.1 hids)).1
  · exact fun h => (hs.step h).survives

end Ledger

/-- Pools and allocations stay in order, whatever is allocated afterwards, exactly when each core
given back is a normal one, one that is out with this tag, or an online core that is neither in a
pool nor out. -/
theorem survives_iff_harmless (initial : CPUManager) (hpinned : initial.pinnedCorePool.Nodup)
    (hisol : initial.isolCorePool.Nodup)
    (hdisjoint : initial.pinnedCorePool.Disjoint initial.isolCorePool)
    (honline : ∀ cpu ∈ initial.pinnedCorePool ++ initial.isolCorePool, cpu ∈ initial.onlineCores)
    (ops : List CoreOp) :
    InEveryState Ledger.step Ledger.Survives ⟨initial, []⟩ ops ↔
      AtEach Ledger.step Ledger.Harmless ⟨initial, []⟩ ops := by
  have hids : Ledger.ids ⟨initial, []⟩ = initial.pinnedCorePool ++ initial.isolCorePool :=
    List.append_nil _
  have hclean : Ledger.Clean ⟨initial, []⟩ := by
    refine ⟨?_, ?_, nofun⟩
    · rw [hids]
      exact hpinned.append hisol hdisjoint
    · rw [hids]
      exact honline
  exact inEveryState_iff_atEach_of_inv Ledger.Clean (fun _ h => h.survives)
    (fun _ _ hs h => hs.step h) (fun _ op hs => Ledger.survives_step_iff hs op) hclean ops

theorem sampleOps_survives_iff :
    InEveryState Ledger.step Ledger.Survives ⟨smallMachine, []⟩ sampleOps ↔
      AtEach Ledger.step Ledger.Harmless ⟨smallMachine, []⟩ sampleOps :=
  survives_iff_harmless smallMachine (by decide) (by decide) (by simp [smallMachine]) (by decide)
    sampleOps

/-- A pinned core is given back twice and then handed out to two users. -/
def returnedTwice : List CoreOp :=
  [.allocate { cores := 1, affinityType := .PINNED }, .deallocate ⟨1, .PINNED⟩,
    .deallocate ⟨1, .PINNED⟩, .allocate { cores := 1, affinityType := .PINNED },
    .allocate { cores := 1, affinityType := .PINNED }]

theorem returnedTwice_shares_core :
    (returnedTwice.foldl Ledger.step ⟨smallMachine, []⟩).outstanding =
        [⟨1, .PINNED⟩, ⟨1, .PINNED⟩] ∧
      ¬ InEveryState Ledger.step Ledger.Intact ⟨smallMachine, []⟩ returnedTwice := by
  refine ⟨rfl, ?_⟩
  intro h
  have honce := (h returnedTwice [] rfl).once
  have hout : (returnedTwice.foldl Ledger.step ⟨smallMachine, []⟩).outstanding =
      [⟨1, .PINNED⟩, ⟨1, .PINNED⟩] := rfl
  rw [hout] at honce
  exact absurd honce (by decide)

end PipelineTools.Threads
