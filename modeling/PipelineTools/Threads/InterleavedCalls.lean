import PipelineTools.Threads.CoreAccounting

/-!
# Calls of the manager that interleave

Any number of threads call `allocate` and `deallocate`. `allocate` takes the lock, works on copies
of both pools, writes the copies back and gives the lock up. `deallocate` appends to the shared pool
and takes no lock, so that it may run in between, and then the write overwrites what it has
appended.

`interleaved_iff` says for which interleavings no core is lost and the calls that have been carried
out have the same results in some sequential order: those in which `allocate` writes to the pools
that it has copied.
-/

set_option autoImplicit false

namespace PipelineTools.Threads

open PipelineTools.Library

/-- How far a thread's call has come. -/
inductive CallPhase where
  | idle
  | locked (policy : ThreadPolicy)
  | copied (policy : ThreadPolicy) (copies : CPUManager)
  | finished

/-- A call that has had its effect, and its result. -/
inductive DoneCall where
  | allocated (policy : ThreadPolicy) (cores : List Core)
  | refused (policy : ThreadPolicy)
  | deallocated (core : Core)

/-- The manager, what each thread does, the pinned and isolated cores that are out, and the calls in
the order in which they have had their effect. -/
structure Shared where
  manager : CPUManager
  phase : Nat → CallPhase := fun _ => .idle
  outstanding : List Core := []
  done : List DoneCall := []

/-- The steps of a thread. -/
inductive CallOp where
  | lock (thread : Nat) (policy : ThreadPolicy)
  | copy (thread : Nat)
  | writeBack (thread : Nat)
  | unlock (thread : Nat)
  | deallocate (thread : Nat) (core : Core)

/-- The manager seen by a call that may take the lock. -/
def CPUManager.free (m : CPUManager) : CPUManager := { m with mutexHeld := false }

/-- The pool that a tag belongs to. -/
def CPUManager.poolOf (m : CPUManager) : AffinityType → List Int
  | .ISOLATED => m.isolCorePool
  | _ => m.pinnedCorePool

namespace Shared

/-- No call is under way. -/
def init (manager : CPUManager) : Shared := { manager := manager.free }

/-- Thread `t` goes on to `phase`. -/
def goto (s : Shared) (t : Nat) (phase : CallPhase) : Shared :=
  { s with phase := Function.update s.phase t phase }

/-- One step of one thread. The checks of `allocate` are made when the pools are copied. -/
def step (s : Shared) : CallOp → Option Shared
  | .lock t policy =>
    match s.phase t with
    | .idle =>
      if s.manager.mutexHeld = true then none
      else some { s.goto t (.locked policy) with manager := { s.manager with mutexHeld := true } }
    | _ => none
  | .copy t =>
    match s.phase t with
    | .locked policy =>
      match allocate false policy s.manager.free with
      | .ok _ _ => some (s.goto t (.copied policy s.manager.free))
      | .error (.runtimeError _) _ =>
        some { s.goto t .finished with done := s.done ++ [.refused policy] }
      -- the nested call waits for its own thread
      | .error _ _ => none
    | _ => none
  | .writeBack t =>
    match s.phase t with
    | .copied policy copies =>
      match allocate false policy copies with
      | .ok cores m => some { s.goto t .finished with
          manager := { s.manager with
            pinnedCorePool := m.pinnedCorePool, isolCorePool := m.isolCorePool }
          outstanding := s.outstanding ++ fromPools cores
          done := s.done ++ [.allocated policy cores] }
      | .error _ _ => none
    | _ => none
  | .unlock t =>
    match s.phase t with
    | .finished => some { s.goto t .idle with manager := s.manager.free }
    | _ => none
  | .deallocate t core =>
    match s.phase t with
    | .idle => some { s with
        manager := Threads.deallocate core s.manager
        outstanding := s.outstanding.erase core
        done := s.done ++ [.deallocated core] }
    | _ => none

end Shared

/-- A call that is made while no other one is under way, if it has this result. -/
def carryOut (m : CPUManager) : DoneCall → Option CPUManager
  | .allocated policy cores =>
    match allocate false policy m with
    | .ok cores' m' => if cores' = cores then some m' else none
    | .error _ _ => none
  | .refused policy =>
    match allocate false policy m with
    | .error (.runtimeError _) m' => some m'
    | _ => none
  | .deallocated core => some (deallocate core m)

namespace Shared

/-- No core is lost, and some sequential order of the calls has led to these pools. -/
structure Conserved (initial : CPUManager) (s : Shared) : Prop where
  kept : ∀ core, .deallocated core ∈ s.done → core.affinityType ≠ .NORMAL →
    core.cpuId ∈ s.manager.poolOf core.affinityType ∨ core ∈ s.outstanding
  ordered : ∃ order, order.Perm s.done ∧
    runFrom carryOut initial.free order = some s.manager.free

/-- `allocate` writes to the pools that it has copied. -/
def WritesCopies (s : Shared) : CallOp → Prop
  | .writeBack t =>
    match s.phase t with
    | .copied _ copies => s.manager.pinnedCorePool = copies.pinnedCorePool ∧
        s.manager.isolCorePool = copies.isolCorePool
    | _ => True
  | _ => True

/-- What a step does. -/
inductive Move (s : Shared) : CallOp → Shared → Prop
  | locked (t : Nat) (policy : ThreadPolicy) : s.phase t = .idle → s.manager.mutexHeld = false →
      Move s (.lock t policy)
        { s.goto t (.locked policy) with manager := { s.manager with mutexHeld := true } }
  | copied (t : Nat) (policy : ThreadPolicy) : s.phase t = .locked policy →
      Move s (.copy t) (s.goto t (.copied policy s.manager.free))
  | refused (t : Nat) (policy : ThreadPolicy) (what : String) (m : CPUManager) :
      s.phase t = .locked policy →
      allocate false policy s.manager.free = .error (.runtimeError what) m →
      Move s (.copy t) { s.goto t .finished with done := s.done ++ [.refused policy] }
  | written (t : Nat) (policy : ThreadPolicy) (copies : CPUManager) (cores : List Core)
      (m : CPUManager) : s.phase t = .copied policy copies →
      allocate false policy copies = .ok cores m →
      Move s (.writeBack t) { s.goto t .finished with
        manager := { s.manager with
          pinnedCorePool := m.pinnedCorePool, isolCorePool := m.isolCorePool }
        outstanding := s.outstanding ++ fromPools cores
        done := s.done ++ [.allocated policy cores] }
  | unlocked (t : Nat) : s.phase t = .finished →
      Move s (.unlock t) { s.goto t .idle with manager := s.manager.free }
  | deallocated (t : Nat) (core : Core) : s.phase t = .idle →
      Move s (.deallocate t core) { s with
        manager := Threads.deallocate core s.manager
        outstanding := s.outstanding.erase core
        done := s.done ++ [.deallocated core] }

variable {s s' : Shared}

/-- Every step is one of the moves. -/
theorem move_of_step {op : CallOp} (h : s.step op = some s') : s.Move op s' := by
  cases op with
  | lock t policy =>
    cases hphase : s.phase t with
    | idle =>
      cases hheld : s.manager.mutexHeld with
      -- a thread that finds the mutex held does not move
      | true => simp [step, hphase, hheld] at h
      | false =>
        simp only [step, hphase, hheld, Bool.false_eq_true, if_false, Option.some.injEq] at h
        rw [← h]
        exact .locked t policy hphase hheld
    | _ => simp [step, hphase] at h
  | copy t =>
    cases hphase : s.phase t with
    | locked policy =>
      simp only [step, hphase] at h
      -- the copies are enough, or the call throws with the pools as they are
      cases hallocate : allocate false policy s.manager.free with
      | ok cores m =>
        simp only [hallocate, Option.some.injEq] at h
        rw [← h]
        exact .copied t policy hphase
      | error e m =>
        rw [hallocate] at h
        cases e with
        | runtimeError what =>
          simp only [Option.some.injEq] at h
          rw [← h]
          exact .refused t policy what m hphase hallocate
        | _ => cases h
    | _ => simp [step, hphase] at h
  | writeBack t =>
    cases hphase : s.phase t with
    | copied policy copies =>
      simp only [step, hphase] at h
      cases hallocate : allocate false policy copies with
      | ok cores m =>
        simp only [hallocate, Option.some.injEq] at h
        rw [← h]
        exact .written t policy copies cores m hphase hallocate
      | error e m =>
        rw [hallocate] at h
        cases h
    | _ => simp [step, hphase] at h
  | unlock t =>
    cases hphase : s.phase t with
    | finished =>
      simp only [step, hphase, Option.some.injEq] at h
      rw [← h]
      exact .unlocked t hphase
    | _ => simp [step, hphase] at h
  | deallocate t core =>
    cases hphase : s.phase t with
    | idle =>
      simp only [step, hphase, Option.some.injEq] at h
      rw [← h]
      exact .deallocated t core hphase
    | _ => simp [step, hphase] at h

/-- The lock excludes other calls of `allocate`, and cores are only added to pools that a thread has
copied. -/
structure CopyInv (s : Shared) : Prop where
  held : ∀ t, s.phase t ≠ .idle → s.manager.mutexHeld = true
  single : ∀ t u, s.phase t ≠ .idle → s.phase u ≠ .idle → t = u
  copies : ∀ t policy copies, s.phase t = .copied policy copies →
    copies.onlineCores = s.manager.onlineCores ∧ copies.mutexHeld = false ∧
      copies.pinnedCorePool <+: s.manager.pinnedCorePool ∧
      copies.isolCorePool <+: s.manager.isolCorePool

theorem copyInv_init (manager : CPUManager) : (init manager).CopyInv where
  held t h := absurd rfl h
  single t u h _ := absurd rfl h
  copies t policy copies h := by cases h

/-- While a thread has a call of `allocate` under way, the others have none. -/
theorem CopyInv.idle_of_ne (h : s.CopyInv) {t : Nat} (ht : s.phase t ≠ .idle) :
    ∀ u, u ≠ t → s.phase u = .idle := by
  intro u hne
  by_contra hu
  exact hne (h.single u t hu ht)

/-- A step of the one thread that has a call of `allocate` under way. -/
theorem copyInv_of_others {t : Nat} {phase : CallPhase}
    (hothers : ∀ u, u ≠ t → s.phase u = .idle)
    (hphase : s'.phase = Function.update s.phase t phase)
    (hheld : phase ≠ .idle → s'.manager.mutexHeld = true)
    (hcopies : ∀ policy copies, phase = .copied policy copies → copies = s'.manager.free) :
    s'.CopyInv := by
  have hidle : ∀ u, u ≠ t → s'.phase u = .idle := by
    intro u hne
    rw [hphase, Function.update_of_ne hne]
    exact hothers u hne
  have hself : s'.phase t = phase := by
    rw [hphase, Function.update_self]
  refine ⟨?_, ?_, ?_⟩
  · intro u hu
    rcases eq_or_ne u t with rfl | hne
    · exact hheld (hself ▸ hu)
    · exact absurd (hidle u hne) hu
  · intro u v hu hv
    rcases eq_or_ne u t with rfl | hne
    · rcases eq_or_ne v u with rfl | hne'
      · rfl
      · exact absurd (hidle v hne') hv
    · exact absurd (hidle u hne) hu
  · intro u policy copies hu
    rcases eq_or_ne u t with rfl | hne
    · obtain rfl := hcopies policy copies (hself.symm.trans hu)
      exact ⟨rfl, rfl, List.prefix_rfl, List.prefix_rfl⟩
    · rw [hidle u hne] at hu
      cases hu

/-- `deallocate` appends to the pools and leaves the rest of the manager as it is. -/
theorem deallocate_frame (core : Core) (m : CPUManager) :
    (deallocate core m).onlineCores = m.onlineCores ∧
      (deallocate core m).mutexHeld = m.mutexHeld ∧
      m.pinnedCorePool <+: (deallocate core m).pinnedCorePool ∧
      m.isolCorePool <+: (deallocate core m).isolCorePool := by
  rw [deallocate]
  cases core.affinityType with
  | NORMAL => exact ⟨rfl, rfl, List.prefix_rfl, List.prefix_rfl⟩
  | PINNED => exact ⟨rfl, rfl, List.prefix_append _ _, List.prefix_rfl⟩
  | ISOLATED => exact ⟨rfl, rfl, List.prefix_rfl, List.prefix_append _ _⟩

theorem copyInv_step {op : CallOp} (h : s.CopyInv) (hstep : s.step op = some s') :
    s'.CopyInv := by
  have hmove := move_of_step hstep
  -- a thread that is not idle
  have hbusy : ∀ {t : Nat} {phase : CallPhase}, s.phase t = phase → phase ≠ .idle →
      s.phase t ≠ .idle := by
    intro t phase hphase hne
    rw [hphase]
    exact hne
  cases hmove with
  | locked t policy hphase hfree =>
    refine copyInv_of_others (t := t) (fun u _ => ?_) rfl (fun _ => rfl) nofun
    -- nobody holds the lock, so nobody has a call under way
    by_contra hu
    rw [h.held u hu] at hfree
    cases hfree
  | copied t policy hphase =>
    have ht := hbusy hphase nofun
    refine copyInv_of_others (h.idle_of_ne ht) rfl (fun _ => h.held t ht) ?_
    intro policy' copies heq
    exact (CallPhase.copied.inj heq).2.symm
  | refused t policy what m hphase hallocate =>
    have ht := hbusy hphase nofun
    exact copyInv_of_others (h.idle_of_ne ht) rfl (fun _ => h.held t ht) nofun
  | written t policy copies cores m hphase hallocate =>
    have ht := hbusy hphase nofun
    exact copyInv_of_others (h.idle_of_ne ht) rfl (fun _ => h.held t ht) nofun
  | unlocked t hphase =>
    exact copyInv_of_others (h.idle_of_ne (hbusy hphase nofun)) rfl (fun hne => absurd rfl hne)
      nofun
  | deallocated t core hphase =>
    obtain ⟨honline, hheld, hpinned, hisol⟩ := deallocate_frame core s.manager
    refine ⟨?_, h.single, ?_⟩
    · intro u hu
      exact hheld.trans (h.held u hu)
    · intro u policy copies hu
      obtain ⟨honline', hfree, hpinned', hisol'⟩ := h.copies u policy copies hu
      exact ⟨honline'.trans honline.symm, hfree, hpinned'.trans hpinned, hisol'.trans hisol⟩

/-! ## What is lost -/

/-- The cores that a call has taken out of the pools. -/
def takenBy : DoneCall → List Core
  | .allocated _ cores => fromPools cores
  | _ => []

/-- The cores that a call has put into the pools. -/
def putBackBy : DoneCall → List Core
  | .deallocated core => fromPools [core]
  | _ => []

/-- Pinned and isolated cores that are handed out leave the pools, others stay. -/
theorem length_of_allocation {reentrant : Bool} {policy : ThreadPolicy} {m m' : CPUManager}
    {cores : List Core} (h : Allocation reentrant policy m (.ok cores m')) :
    m'.poolIds.length + (fromPools cores).length = m.poolIds.length := by
  have hpinned := (h.pinned_perm []).length_eq
  have hisol := (h.isol_perm []).length_eq
  have hsplit := (perm_idsOf (tags_fromPools cores)).length_eq
  rw [idsOf_fromPools (by decide), idsOf_fromPools (by decide), List.length_map,
    List.length_append] at hsplit
  rw [List.nil_append, List.append_nil, List.length_append] at hpinned hisol
  rw [CPUManager.poolIds, CPUManager.poolIds, List.length_append, List.length_append]
  omega

theorem length_deallocate (core : Core) (m : CPUManager) :
    (deallocate core m).poolIds.length = m.poolIds.length + (fromPools [core]).length := by
  cases haff : core.affinityType with
  | NORMAL => simp [deallocate, fromPools, haff]
  | PINNED =>
    rw [(poolIds_deallocate (by rw [haff]; decide) m).length_eq]
    simp [fromPools, haff]
  | ISOLATED =>
    rw [(poolIds_deallocate (by rw [haff]; decide) m).length_eq]
    simp [fromPools, haff]

/-- Calls that are made one after the other lose nothing. -/
theorem length_of_run {m m' : CPUManager} {calls : List DoneCall}
    (h : runFrom carryOut m calls = some m') :
    m'.poolIds.length + (calls.flatMap takenBy).length =
      m.poolIds.length + (calls.flatMap putBackBy).length := by
  induction calls generalizing m with
  | nil =>
    obtain rfl := Option.some.inj h
    rfl
  | cons call calls ih =>
    obtain ⟨next, hnext, hrest⟩ := runFrom_cons.1 h
    have hlength := ih hrest
    rw [List.flatMap_cons, List.flatMap_cons, List.length_append, List.length_append]
    cases call with
    | allocated policy cores =>
      rw [carryOut] at hnext
      cases hallocate : allocate false policy m with
      | ok cores' m'' =>
        rw [hallocate] at hnext
        simp only [Option.ite_none_right_eq_some, Option.some.injEq] at hnext
        obtain ⟨rfl, rfl⟩ := hnext
        have hcall := length_of_allocation (allocation_of_ok hallocate)
        simp only [takenBy, putBackBy, List.length_nil]
        omega
      | error e m'' =>
        rw [hallocate] at hnext
        cases hnext
    | refused policy =>
      rw [carryOut] at hnext
      split at hnext
      · obtain rfl := Option.some.inj hnext
        obtain ⟨-, rfl⟩ := shortage_of_refused ‹_›
        simp only [takenBy, putBackBy, List.length_nil]
        omega
      · cases hnext
    | deallocated core =>
      obtain rfl := Option.some.inj hnext
      have hcall := length_deallocate core m
      simp only [takenBy, putBackBy, List.length_nil]
      omega

/-! ## What a step keeps -/

variable {initial : CPUManager}

theorem conserved_init (initial : CPUManager) : (init initial).Conserved initial where
  kept core h := by cases h
  ordered := ⟨[], .refl _, rfl⟩

/-- A step that has no effect on the pools. -/
theorem Conserved.of_same (h : s.Conserved initial) (hmanager : s'.manager.free = s.manager.free)
    (houtstanding : s'.outstanding = s.outstanding) (hdone : s'.done = s.done) :
    s'.Conserved initial := by
  refine ⟨?_, ?_⟩
  · intro core hcore haff
    rw [hdone] at hcore
    rw [houtstanding]
    show core.cpuId ∈ s'.manager.free.poolOf core.affinityType ∨ _
    rw [hmanager]
    exact h.kept core hcore haff
  · rw [hdone, hmanager]
    exact h.ordered

/-- The call that has its effect comes last in the sequential order. -/
theorem ordered_concat (h : s.Conserved initial) {call : DoneCall} {m : CPUManager}
    (hcall : carryOut s.manager.free call = some m) :
    ∃ order, order.Perm (s.done ++ [call]) ∧ runFrom carryOut initial.free order = some m := by
  obtain ⟨order, hperm, hrun⟩ := h.ordered
  exact ⟨order ++ [call], hperm.append_right _, runFrom_concat hrun hcall⟩

theorem Conserved.refused (h : s.Conserved initial) {t : Nat} {policy : ThreadPolicy}
    {what : String} {m : CPUManager}
    (hallocate : allocate false policy s.manager.free = .error (.runtimeError what) m) :
    Conserved initial { s.goto t .finished with done := s.done ++ [.refused policy] } := by
  refine ⟨?_, ?_⟩
  · intro core hcore haff
    rcases List.mem_append.1 hcore with hold | hnew
    · exact h.kept core hold haff
    · cases List.mem_singleton.1 hnew
  · obtain ⟨-, rfl⟩ := shortage_of_refused hallocate
    have hcall : carryOut s.manager.free (.refused policy) = some s.manager.free := by
      rw [carryOut, hallocate]
    exact ordered_concat h hcall

theorem free_deallocate (core : Core) (m : CPUManager) :
    (deallocate core m).free = deallocate core m.free := by
  rw [deallocate, deallocate]
  cases core.affinityType with
  | NORMAL => rfl
  | PINNED => rfl
  | ISOLATED => rfl

theorem poolOf_deallocate_subset (core : Core) (m : CPUManager) (affinity : AffinityType) :
    m.poolOf affinity ⊆ (deallocate core m).poolOf affinity := by
  obtain ⟨-, -, hpinned, hisol⟩ := deallocate_frame core m
  cases affinity with
  | NORMAL => exact hpinned.subset
  | PINNED => exact hpinned.subset
  | ISOLATED => exact hisol.subset

theorem mem_poolOf_deallocate {core : Core} (h : core.affinityType ≠ .NORMAL) (m : CPUManager) :
    core.cpuId ∈ (deallocate core m).poolOf core.affinityType := by
  rw [deallocate]
  cases haff : core.affinityType with
  | NORMAL => exact absurd haff h
  | PINNED => exact List.mem_append_right _ (List.mem_singleton.2 rfl)
  | ISOLATED => exact List.mem_append_right _ (List.mem_singleton.2 rfl)

theorem Conserved.deallocated (h : s.Conserved initial) (core : Core) :
    Conserved initial { s with
      manager := Threads.deallocate core s.manager
      outstanding := s.outstanding.erase core
      done := s.done ++ [.deallocated core] } := by
  refine ⟨?_, ?_⟩
  · intro other hother haff
    rcases eq_or_ne other core with rfl | hne
    · exact .inl (mem_poolOf_deallocate haff s.manager)
    · rcases List.mem_append.1 hother with hold | hnew
      · rcases h.kept other hold haff with hpool | hout
        · exact .inl (poolOf_deallocate_subset core s.manager _ hpool)
        · exact .inr ((List.mem_erase_of_ne hne).2 hout)
      · exact absurd (DoneCall.deallocated.inj (List.mem_singleton.1 hnew)) hne
  · rw [free_deallocate]
    exact ordered_concat h rfl

/-- An allocation changes nothing but the pools. -/
theorem frame_of_allocation {reentrant : Bool} {policy : ThreadPolicy} {m m' : CPUManager}
    {cores : List Core} (h : Allocation reentrant policy m (.ok cores m')) :
    m' = { m with pinnedCorePool := m'.pinnedCorePool, isolCorePool := m'.isolCorePool } := by
  cases h with
  | normal haff hle => rfl
  | pinned haff hle => rfl
  | isolated haff hle => rfl
  | filledUp missing hneeds hr hmissing => rfl

/-- A core that leaves its pool is handed out. -/
theorem mem_of_allocation {reentrant : Bool} {policy : ThreadPolicy} {m m' : CPUManager}
    {cores : List Core} (h : Allocation reentrant policy m (.ok cores m')) {core : Core}
    (haff : core.affinityType ≠ .NORMAL) (hmem : core.cpuId ∈ m.poolOf core.affinityType) :
    core.cpuId ∈ m'.poolOf core.affinityType ∨ core ∈ fromPools cores := by
  have hout : ∀ {affinity : AffinityType} {pool pool' : List Int}, affinity ≠ .NORMAL →
      (pool' ++ ([] ++ idsOf affinity cores)).Perm (pool ++ []) → core.affinityType = affinity →
      core.cpuId ∈ pool → core.cpuId ∈ pool' ∨ core ∈ fromPools cores := by
    intro affinity pool pool' hne hperm heq hpool
    rw [List.nil_append, List.append_nil] at hperm
    rcases List.mem_append.1 (hperm.mem_iff.2 hpool) with hstays | hleaves
    · exact .inl hstays
    · rw [← idsOf_fromPools hne, mem_idsOf] at hleaves
      subst heq
      exact .inr hleaves
  cases hcase : core.affinityType with
  | NORMAL => exact absurd hcase haff
  | PINNED =>
    rw [hcase] at hmem
    exact hout (by decide) (h.pinned_perm []) hcase hmem
  | ISOLATED =>
    rw [hcase] at hmem
    exact hout (by decide) (h.isol_perm []) hcase hmem

/-- The write of thread `t`, which has been handed `cores`. -/
def written (s : Shared) (t : Nat) (policy : ThreadPolicy) (cores : List Core) (m : CPUManager) :
    Shared :=
  { s.goto t .finished with
    manager := { s.manager with
      pinnedCorePool := m.pinnedCorePool, isolCorePool := m.isolCorePool }
    outstanding := s.outstanding ++ fromPools cores
    done := s.done ++ [.allocated policy cores] }

variable {t : Nat} {policy : ThreadPolicy} {copies m : CPUManager} {cores : List Core}

/-- Nothing has happened to the pools since they were copied. -/
theorem copies_eq_of_writesCopies (hinv : s.CopyInv) (hphase : s.phase t = .copied policy copies)
    (h : s.WritesCopies (.writeBack t)) : copies = s.manager.free := by
  obtain ⟨honline, hfree, -, -⟩ := hinv.copies t policy copies hphase
  simp only [WritesCopies, hphase] at h
  obtain ⟨pinned, isol, online, held⟩ := copies
  obtain ⟨rfl, rfl⟩ := h
  simp only at honline hfree
  rw [honline, hfree, CPUManager.free]

/-- A write to the pools that were copied is an ordinary call of `allocate`. -/
theorem Conserved.written (h : s.Conserved initial)
    (hallocate : allocate false policy s.manager.free = .ok cores m) :
    (s.written t policy cores m).Conserved initial := by
  have hcall := allocation_of_ok hallocate
  have hmanager : (s.written t policy cores m).manager.free = m :=
    (frame_of_allocation hcall).symm
  refine ⟨?_, ?_⟩
  · intro core hcore haff
    have hpool : (s.written t policy cores m).manager.poolOf core.affinityType =
        m.poolOf core.affinityType := by
      rw [← hmanager]
      rfl
    have hold : .deallocated core ∈ s.done := by
      rcases List.mem_append.1 hcore with hold | hnew
      · exact hold
      · cases List.mem_singleton.1 hnew
    rw [hpool]
    rcases h.kept core hold haff with hin | hout
    · rcases mem_of_allocation hcall haff hin with hstays | hleaves
      · exact .inl hstays
      · exact .inr (List.mem_append_right _ hleaves)
    · exact .inr (List.mem_append_left _ hout)
  · have hdone : carryOut s.manager.free (.allocated policy cores) = some m := by
      rw [carryOut, hallocate]
      exact if_pos rfl
    rw [hmanager]
    exact ordered_concat h hdone

/-- A write to pools that have grown since they were copied loses what they have gained, and no
sequential order loses anything. -/
theorem writesCopies_of_conserved (hinv : s.CopyInv) (h : s.Conserved initial)
    (hphase : s.phase t = .copied policy copies)
    (hallocate : allocate false policy copies = .ok cores m)
    (h' : (s.written t policy cores m).Conserved initial) : s.WritesCopies (.writeBack t) := by
  obtain ⟨order, hperm, hrun⟩ := h.ordered
  obtain ⟨order', hperm', hrun'⟩ := h'.ordered
  have hlength := length_of_run hrun
  have hlength' := length_of_run hrun'
  rw [(hperm.flatMap_right takenBy).length_eq, (hperm.flatMap_right putBackBy).length_eq] at hlength
  rw [(hperm'.flatMap_right takenBy).length_eq, (hperm'.flatMap_right putBackBy).length_eq]
    at hlength'
  have hdone : (s.written t policy cores m).done = s.done ++ [.allocated policy cores] := rfl
  have hpools : (s.written t policy cores m).manager.free.poolIds = m.poolIds := rfl
  have hfree : s.manager.free.poolIds = s.manager.poolIds := rfl
  rw [hdone, hpools] at hlength'
  rw [hfree] at hlength
  simp only [List.flatMap_append, List.flatMap_cons, List.flatMap_nil, List.append_nil, takenBy,
    putBackBy, List.length_append] at hlength'
  -- so the copies are as long as the pools
  have hcall := length_of_allocation (allocation_of_ok hallocate)
  have hsame : s.manager.poolIds.length = copies.poolIds.length := by omega
  rw [CPUManager.poolIds, CPUManager.poolIds, List.length_append, List.length_append] at hsame
  obtain ⟨-, -, hpinned, hisol⟩ := hinv.copies t policy copies hphase
  have hle := hpinned.length_le
  have hle' := hisol.length_le
  simp only [WritesCopies, hphase]
  exact ⟨(hpinned.eq_of_length_le (by omega)).symm, (hisol.eq_of_length_le (by omega)).symm⟩

theorem conserved_step_iff {op : CallOp} (hinv : s.CopyInv) (h : s.Conserved initial)
    (hstep : s.step op = some s') : s'.Conserved initial ↔ s.WritesCopies op := by
  have hmove := move_of_step hstep
  cases hmove with
  | locked t policy hphase hfree =>
    exact ⟨fun _ => trivial, fun _ => h.of_same rfl rfl rfl⟩
  | copied t policy hphase => exact ⟨fun _ => trivial, fun _ => h.of_same rfl rfl rfl⟩
  | refused t policy what m hphase hallocate =>
    exact ⟨fun _ => trivial, fun _ => h.refused hallocate⟩
  | written t policy copies cores m hphase hallocate =>
    constructor
    · intro h'
      exact writesCopies_of_conserved hinv h hphase hallocate h'
    · intro hlaw
      obtain rfl := copies_eq_of_writesCopies hinv hphase hlaw
      exact h.written hallocate
  | unlocked t hphase => exact ⟨fun _ => trivial, fun _ => h.of_same rfl rfl rfl⟩
  | deallocated t core hphase => exact ⟨fun _ => trivial, fun _ => h.deallocated core⟩

/-- No core is lost, and the calls have a sequential order, exactly when `allocate` always writes to
the pools that it has copied. -/
theorem interleaved_iff (initial : CPUManager) (ops : List CallOp) (s : Shared)
    (hrun : runFrom step (init initial) ops = some s) :
    EveryState step (Conserved initial) (init initial) ops ↔
      EveryStep step WritesCopies (init initial) ops := by
  refine everyState_iff_everyStep CopyInv ?_ (copyInv_init initial) (conserved_init initial) hrun
  intro m op m' hinv h hstep
  exact ⟨copyInv_step hinv hstep, conserved_step_iff hinv h hstep⟩

instance (s : Shared) : (op : CallOp) → Decidable (s.WritesCopies op)
  | .writeBack t =>
    match h : s.phase t with
    | .copied _ copies => decidable_of_iff (s.manager.pinnedCorePool = copies.pinnedCorePool ∧
        s.manager.isolCorePool = copies.isolCorePool) (by simp [WritesCopies, h])
    | .idle => isTrue (by simp [WritesCopies, h])
    | .locked _ => isTrue (by simp [WritesCopies, h])
    | .finished => isTrue (by simp [WritesCopies, h])
  | .lock .. => isTrue trivial
  | .copy _ => isTrue trivial
  | .unlock _ => isTrue trivial
  | .deallocate .. => isTrue trivial

/-- A worker that wants one core. -/
def onePinned : ThreadPolicy := { cores := 1, affinityType := .PINNED }

/-- A whole call of `allocate`. -/
def allocateOps (t : Nat) : List CallOp := [.lock t onePinned, .copy t, .writeBack t, .unlock t]

/-- A core is given back between the lock and the copy. -/
def separateOps : List CallOp :=
  allocateOps 0 ++ [.lock 1 onePinned, .deallocate 0 ⟨1, .PINNED⟩, .copy 1, .writeBack 1]

theorem separateOps_conserved :
    EveryState step (Conserved smallMachine) (init smallMachine) separateOps :=
  (interleaved_iff smallMachine separateOps _ rfl).2 (everyStep_of_obeys (by decide))

/-- A worker is stopped while another one's allocation is between its copy and its write. -/
def overwrittenOps : List CallOp :=
  allocateOps 0 ++
    [.lock 1 onePinned, .copy 1, .deallocate 0 ⟨1, .PINNED⟩, .writeBack 1, .unlock 1]

/-- Core `1` is in no pool and nobody has it. -/
theorem overwrittenOps_lose_core :
    (runFrom step (init smallMachine) overwrittenOps).map
      (fun s => (s.manager.pinnedCorePool, s.outstanding)) = some ([], [⟨0, .PINNED⟩]) ∧
      ¬ EveryState step (Conserved smallMachine) (init smallMachine) overwrittenOps := by
  refine ⟨by decide, fun h => ?_⟩
  -- the call in the middle is the one that gave core `1` back
  have hlast := (h overwrittenOps [] _ rfl rfl).kept ⟨1, .PINNED⟩ (.tail _ (.head _)) (by decide)
  exact absurd hlast (by decide)

end Shared

end PipelineTools.Threads
