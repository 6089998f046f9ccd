import PipelineTools.Threads.Worker
import PipelineTools.Threads.CoreAccounting

/-!
# Whose core a running thread has

`stop` gives a worker's cores back while its thread may still be in its function, and the next call
of `start` may hand them to another worker. `exclusive_run` says what protects the running threads:
cores are allocated only when the threads of all stopped workers have ended. In
`restartWhileRunning` the second worker gets the core that the first one still runs on.
-/

set_option autoImplicit false

namespace PipelineTools.Threads

open PipelineTools.Library

namespace Workers

/-- The ids of the cores that are allocated to a worker. -/
def held (s : Workers) (worker : Nat) : List Int := (s.allocatedCores worker).map Core.cpuId

/-- No core of a thread that is in its function is allocated to another worker. -/
def Exclusive (s : Workers) : Prop :=
  ∀ t ∈ s.threads, t.phase = .func → ∀ worker, worker ≠ t.call.worker →
    t.cpus.Disjoint (s.held worker)

/-- A worker is started at most once. -/
def StartedOnce (s : Workers) : WorkerOp → Prop
  | .start worker .. => ∀ t ∈ s.threads, t.call.worker ≠ worker
  | _ => True

/-- Cores are allocated only when the threads of the stopped workers have ended. -/
def Drained (s : Workers) : WorkerOp → Prop
  | .allocateCores .. => ∀ t ∈ s.threads, s.stopFlag t.call.worker = true → t.phase = .ended
  | _ => True

instance (s : Workers) : (op : WorkerOp) → Decidable (s.StartedOnce op)
  | .start worker _ _ => inferInstanceAs (Decidable (∀ t ∈ s.threads, t.call.worker ≠ worker))
  | .allocateCores .. => isTrue trivial
  | .createThread _ => isTrue trivial
  | .returnFromStart => isTrue trivial
  | .stop _ => isTrue trivial
  | .thread .. => isTrue trivial

instance (s : Workers) : (op : WorkerOp) → Decidable (s.Drained op)
  | .allocateCores .. => inferInstanceAs
      (Decidable (∀ t ∈ s.threads, s.stopFlag t.call.worker = true → t.phase = .ended))
  | .start .. => isTrue trivial
  | .createThread _ => isTrue trivial
  | .returnFromStart => isTrue trivial
  | .stop _ => isTrue trivial
  | .thread .. => isTrue trivial

/-- Pools and workers share no core, the cores of a thread are its worker's until the worker is
stopped, and no other worker has them before the thread has ended. -/
structure PinInv (s : Workers) : Prop where
  free : ∀ worker, (s.manager.poolIds ++ s.held worker).Nodup
  apart : ∀ worker worker', worker ≠ worker' → (s.held worker).Disjoint (s.held worker')
  tags : ∀ worker, ∀ core ∈ s.allocatedCores worker, core.affinityType ≠ .NORMAL
  starting : ∀ c, s.call = some c → c.stage ≠ .created → ∀ t ∈ s.threads, t.call.worker ≠ c.worker
  cores : ∀ c, s.call = some c → ∀ cores, c.cores = some cores → s.allocatedCores c.worker = cores
  own : ∀ t ∈ s.threads, s.stopFlag t.call.worker = false → t.cpus ⊆ s.held t.call.worker
  exclusive : ∀ t ∈ s.threads, t.phase ≠ .ended → ∀ worker, worker ≠ t.call.worker →
    t.cpus.Disjoint (s.held worker)

theorem pinInv_init {manager : CPUManager} (hpools : manager.poolIds.Nodup)
    (frames : Nat → Frame) : (init manager frames).PinInv where
  free _ := by
    rw [held, init, List.map_nil, List.append_nil]
    exact hpools
  apart _ _ _ := List.disjoint_nil_left _
  tags _ _ hcore := absurd hcore List.not_mem_nil
  starting c hc := by
    cases hc
  cores c hc := by
    cases hc
  own _ ht := absurd ht List.not_mem_nil
  exclusive _ ht := absurd ht List.not_mem_nil

theorem PinInv.pools {s : Workers} (h : s.PinInv) : s.manager.poolIds.Nodup :=
  (h.free 0).of_append_left

theorem held_self {s s' : Workers} {worker : Nat} {cores : List Core}
    (h : s'.allocatedCores = Function.update s.allocatedCores worker cores) :
    s'.held worker = cores.map Core.cpuId := by
  rw [held, h, Function.update_self]

theorem held_of_ne {s s' : Workers} {worker : Nat} {cores : List Core}
    (h : s'.allocatedCores = Function.update s.allocatedCores worker cores) {worker' : Nat}
    (hne : worker' ≠ worker) : s'.held worker' = s.held worker' := by
  rw [held, h, Function.update_of_ne hne, held]

/-- Giving cores back puts them into the pools. -/
theorem poolIds_deallocateAll {cores : List Core}
    (h : ∀ core ∈ cores, core.affinityType ≠ .NORMAL) (m : CPUManager) :
    (deallocateAll cores m).poolIds.Perm (m.poolIds ++ cores.map Core.cpuId) := by
  -- induction on the cores: one call of `deallocate` for each
  induction cores generalizing m with
  | nil =>
    rw [List.map_nil, List.append_nil]
    exact .refl _
  | cons core cores ih =>
    obtain ⟨hcore, hcores⟩ := List.forall_mem_cons.1 h
    rw [deallocateAll, List.foldl_cons, List.map_cons]
    refine (ih hcores _).trans ?_
    refine ((poolIds_deallocate hcore m).append_right _).trans ?_
    exact List.perm_middle.symm

/-- The pools after a request are part of the pools before it. -/
theorem poolIds_subperm {p : ThreadPolicy} (hp : p.affinityType ≠ .NORMAL) {m m' : CPUManager}
    {cores : List Core} (h : allocate false p m = .ok cores m') : m'.poolIds.Subperm m.poolIds := by
  obtain ⟨hperm, -⟩ := (allocation_of_ok h).poolIds_perm hp
  exact (List.sublist_append_left _ _).subperm.trans hperm.subperm

/-- `start` is left, with the pools as they are or smaller. -/
theorem PinInv.of_thrown {s : Workers} (h : s.PinInv) {m : CPUManager}
    (hpools : m.poolIds.Subperm s.manager.poolIds) :
    PinInv { s with manager := m, call := none } := by
  refine ⟨?_, h.apart, h.tags, nofun, nofun, h.own, h.exclusive⟩
  intro worker
  obtain ⟨ids, hperm, hsub⟩ := (List.subperm_append_right (s.held worker)).2 hpools
  exact hperm.nodup_iff.1 ((h.free worker).sublist hsub)

/-- Cores are handed to a worker that has no thread yet. -/
theorem PinInv.of_allocated {s s' : Workers} (h : s.PinInv) {c : StartCall} {cores : List Core}
    (halloc : s'.allocatedCores = Function.update s.allocatedCores c.worker cores)
    (hpools : (s'.manager.poolIds ++ cores.map Core.cpuId).Perm s.manager.poolIds)
    (htags : ∀ core ∈ cores, core.affinityType ≠ .NORMAL)
    (hflags : s'.stopFlag = s.stopFlag) (hthreads : s'.threads = s.threads)
    (hcall : ∀ c', s'.call = some c' → c'.worker = c.worker ∧ c'.cores = some cores)
    (hnew : ∀ t ∈ s.threads, t.call.worker ≠ c.worker)
    (hdrained : ∀ t ∈ s.threads, s.stopFlag t.call.worker = true → t.phase = .ended) :
    s'.PinInv := by
  have hself := held_self halloc
  have hpool : ∀ cpu, cpu ∈ cores.map Core.cpuId → cpu ∈ s.manager.poolIds := fun cpu hcpu =>
    hpools.mem_iff.1 (List.mem_append_right _ hcpu)
  -- what was disjoint from the pools is disjoint from the new cores
  have hapart : ∀ worker, (cores.map Core.cpuId).Disjoint (s.held worker) := by
    intro worker cpu hcpu hheld
    exact List.disjoint_of_nodup_append (h.free worker) (hpool cpu hcpu) hheld
  refine ⟨?_, ?_, ?_, ?_, ?_, ?_, ?_⟩
  -- the pools give away what the worker gets, and nothing else
  · intro worker
    by_cases hworker : worker = c.worker
    · subst hworker
      rw [hself]
      exact hpools.nodup_iff.2 h.pools
    · rw [held_of_ne halloc hworker]
      have hsub : s'.manager.poolIds.Subperm s.manager.poolIds :=
        (List.sublist_append_left _ _).subperm.trans hpools.subperm
      have hnodup := (h.free worker)
      refine List.Nodup.append ?_ hnodup.of_append_right ?_
      · exact (hpools.nodup_iff.2 h.pools).of_append_left
      · intro cpu hcpu hheld
        exact List.disjoint_of_nodup_append hnodup (hsub.subset hcpu) hheld
  -- the new cores come from the pools, which are disjoint from all other workers
  · intro worker worker' hne
    by_cases hworker : worker = c.worker
    · subst hworker
      rw [hself, held_of_ne halloc (Ne.symm hne)]
      exact hapart worker'
    · rw [held_of_ne halloc hworker]
      by_cases hworker' : worker' = c.worker
      · subst hworker'
        rw [hself]
        exact fun cpu hheld hcpu => hapart worker hcpu hheld
      · rw [held_of_ne halloc hworker']
        exact h.apart worker worker' hne
  · intro worker
    rw [halloc]
    by_cases hworker : worker = c.worker
    · subst hworker
      rw [Function.update_self]
      exact htags
    · rw [Function.update_of_ne hworker]
      exact h.tags worker
  · intro c' hc' _ t ht
    rw [(hcall c' hc').1]
    rw [hthreads] at ht
    exact hnew t ht
  · intro c' hc' cores' hcores'
    obtain ⟨hworker, hcores⟩ := hcall c' hc'
    rw [hworker, halloc, Function.update_self]
    exact Option.some.inj (hcores.symm.trans hcores')
  · intro t ht hflag
    rw [hthreads] at ht
    rw [hflags] at hflag
    rw [held_of_ne halloc (hnew t ht)]
    exact h.own t ht hflag
  · intro t ht hphase worker hne
    rw [hthreads] at ht
    by_cases hworker : worker = c.worker
    · subst hworker
      rw [hself]
      -- the thread's worker has not been stopped, so its cores are not in a pool
      have hflag : s.stopFlag t.call.worker = false := by
        cases hstop : s.stopFlag t.call.worker with
        | false => rfl
        | true => exact absurd (hdrained t ht hstop) hphase
      intro cpu hcpu hcpu'
      exact hapart t.call.worker hcpu' (h.own t ht hflag hcpu)
    · rw [held_of_ne halloc hworker]
      exact h.exclusive t ht hphase worker hne

/-- A stopped worker gives its cores back, whatever its thread does. -/
theorem PinInv.of_stopped {s s' : Workers} (h : s.PinInv) {worker : Nat}
    (halloc : s'.allocatedCores = Function.update s.allocatedCores worker [])
    (hmanager : s'.manager = deallocateAll (s.allocatedCores worker) s.manager)
    (hflags : s'.stopFlag = Function.update s.stopFlag worker true)
    (hthreads : s'.threads = s.threads) (hcall : s'.call = none) : s'.PinInv := by
  have hpools : s'.manager.poolIds.Perm (s.manager.poolIds ++ s.held worker) := by
    rw [hmanager]
    exact poolIds_deallocateAll (h.tags worker) s.manager
  have hself : s'.held worker = [] := held_self halloc
  have hsub : ∀ worker', s'.held worker' ⊆ s.held worker' := by
    intro worker'
    by_cases hworker : worker' = worker
    · subst hworker
      rw [hself]
      exact List.nil_subset _
    · rw [held_of_ne halloc hworker]
      exact List.Subset.refl _
  refine ⟨?_, ?_, ?_, ?_, ?_, ?_, ?_⟩
  -- what goes back to the pools was held by the stopped worker only
  · intro worker'
    by_cases hworker : worker' = worker
    · subst hworker
      rw [hself, List.append_nil]
      exact hpools.nodup_iff.2 (h.free worker')
    · rw [held_of_ne halloc hworker]
      have hnodup := h.free worker'
      refine List.Nodup.append (hpools.nodup_iff.2 (h.free worker)) hnodup.of_append_right ?_
      intro cpu hcpu hheld
      rcases List.mem_append.1 (hpools.mem_iff.1 hcpu) with hcpu | hcpu
      · exact List.disjoint_of_nodup_append hnodup hcpu hheld
      · exact h.apart worker' worker hworker hheld hcpu
  · intro w w' hne cpu hcpu hcpu'
    exact h.apart w w' hne (hsub w hcpu) (hsub w' hcpu')
  · intro worker'
    rw [halloc]
    by_cases hworker : worker' = worker
    · subst hworker
      rw [Function.update_self]
      exact nofun
    · rw [Function.update_of_ne hworker]
      exact h.tags worker'
  · intro c hc
    rw [hcall] at hc
    cases hc
  · intro c hc
    rw [hcall] at hc
    cases hc
  · intro t ht hflag
    rw [hthreads] at ht
    rw [hflags] at hflag
    by_cases hworker : t.call.worker = worker
    · rw [hworker, Function.update_self] at hflag
      cases hflag
    · rw [Function.update_of_ne hworker] at hflag
      rw [held_of_ne halloc hworker]
      exact h.own t ht hflag
  -- no worker holds more than before
  · intro t ht hphase worker' hne cpu hcpu hheld
    rw [hthreads] at ht
    exact h.exclusive t ht hphase worker' hne hcpu (hsub worker' hheld)

/-- A step of a thread changes no core. -/
theorem PinInv.of_turned {s s' : Workers} (h : s.PinInv) {k : Nat} {t t' : WorkerThread}
    {fault : Bool} (hk : s.threads[k]? = some t) (hturn : s.Turn t t' fault)
    (halloc : s'.allocatedCores = s.allocatedCores) (hmanager : s'.manager = s.manager)
    (hflags : s'.stopFlag = s.stopFlag) (hthreads : s'.threads = s.threads.set k t')
    (hcall : s'.call = s.call) : s'.PinInv := by
  have hheld : s'.held = s.held := by
    funext worker
    rw [held, held, halloc]
  have ht := List.mem_of_getElem? hk
  have hcpus : t'.cpus = t.cpus := by rw [WorkerThread.cpus, WorkerThread.cpus, hturn.call_eq]
  -- every thread is one there was before, or the one that took the step
  have hbefore : ∀ u ∈ s'.threads, ∃ u₀ ∈ s.threads, u.call = u₀.call ∧ u.cpus = u₀.cpus ∧
      (u.phase ≠ .ended → u₀.phase ≠ .ended) := by
    intro u hu
    rw [hthreads] at hu
    rcases List.mem_or_eq_of_mem_set hu with hu | rfl
    · exact ⟨u, hu, rfl, rfl, id⟩
    · exact ⟨t, ht, hturn.call_eq, hcpus, fun _ => hturn.not_ended⟩
  refine ⟨?_, ?_, ?_, ?_, ?_, ?_, ?_⟩
  · rw [hheld, hmanager]
    exact h.free
  · rw [hheld]
    exact h.apart
  · rw [halloc]
    exact h.tags
  · intro c hc hstage u hu
    rw [hcall] at hc
    obtain ⟨u₀, hu₀, hcall₀, -, -⟩ := hbefore u hu
    rw [hcall₀]
    exact h.starting c hc hstage u₀ hu₀
  · rw [hcall, halloc]
    exact h.cores
  · intro u hu hflag
    obtain ⟨u₀, hu₀, hcall₀, hcpus₀, -⟩ := hbefore u hu
    rw [hflags, hcall₀] at hflag
    rw [hcpus₀, hheld, hcall₀]
    exact h.own u₀ hu₀ hflag
  · intro u hu hphase worker hne
    obtain ⟨u₀, hu₀, hcall₀, hcpus₀, hphase₀⟩ := hbefore u hu
    rw [hcall₀] at hne
    rw [hcpus₀, hheld]
    exact h.exclusive u₀ hu₀ (hphase₀ hphase) worker hne

/-- The thread that `start` creates gets the cores that the call has allocated. -/
theorem PinInv.of_created {s s' : Workers} (h : s.PinInv) {c : StartCall}
    (hc : s.call = some c) (halloc : s'.allocatedCores = s.allocatedCores)
    (hmanager : s'.manager = s.manager) (hflags : s'.stopFlag = s.stopFlag)
    (hthreads : s'.threads = s.threads ++ [{ call := { c with stage := .created } }])
    (hcall : s'.call = some { c with stage := .created }) : s'.PinInv := by
  have hheld : s'.held = s.held := by
    funext worker
    rw [held, held, halloc]
  have hnew : (WorkerThread.cpus { call := { c with stage := .created } }) ⊆ s.held c.worker := by
    intro cpu hcpu
    rw [WorkerThread.cpus] at hcpu
    cases hcores : c.cores with
    | none =>
      rw [hcores] at hcpu
      cases hcpu
    | some cores =>
      rw [hcores] at hcpu
      rw [held, h.cores c hc cores hcores]
      exact hcpu
  -- the thread is one there was before, or the new one
  have hcases : ∀ t ∈ s'.threads, t ∈ s.threads ∨ t = { call := { c with stage := .created } } := by
    intro t ht
    rw [hthreads] at ht
    rcases List.mem_append.1 ht with ht | ht
    · exact .inl ht
    · exact .inr (List.mem_singleton.1 ht)
  refine ⟨?_, ?_, ?_, ?_, ?_, ?_, ?_⟩
  · rw [hheld, hmanager]
    exact h.free
  · rw [hheld]
    exact h.apart
  · rw [halloc]
    exact h.tags
  · intro c' hc' hstage
    rw [hcall] at hc'
    obtain rfl := Option.some.inj hc'
    exact absurd rfl hstage
  · intro c' hc' cores hcores
    rw [hcall] at hc'
    obtain rfl := Option.some.inj hc'
    rw [halloc]
    exact h.cores c hc cores hcores
  · intro t ht hflag
    rw [hflags] at hflag
    rw [hheld]
    rcases hcases t ht with ht | rfl
    · exact h.own t ht hflag
    · exact hnew
  · intro t ht hphase worker hne
    rw [hheld]
    rcases hcases t ht with ht | rfl
    · exact h.exclusive t ht hphase worker hne
    · intro cpu hcpu hheld'
      exact h.apart worker c.worker hne hheld' (hnew hcpu)

/-- Every step keeps the invariant, if no worker is started twice and the stopped threads have ended
when cores are allocated. -/
theorem pinInv_step {policy : Nat → ThreadPolicy}
    (hpolicy : ∀ worker, (policy worker).affinityType ≠ .NORMAL) {s s' : Workers} {op : WorkerOp}
    (h : s.PinInv) (hstarted : s.StartedOnce op) (hdrained : s.Drained op)
    (hstep : s.step policy op = some s') : s'.PinInv := by
  have hmove := move_of_step hstep
  cases hmove with
  -- the flag of the started worker is cleared, and it has no thread yet
  | entered worker strict slot hcall =>
    refine ⟨h.free, h.apart, h.tags, ?_, ?_, ?_, h.exclusive⟩
    · rintro c ⟨⟩ _
      exact hstarted
    · rintro c ⟨⟩ cores hcores
      cases hcores
    · intro t ht hflag
      simp only [Function.update_of_ne (hstarted t ht)] at hflag
      exact h.own t ht hflag
  | notReserved c reserves copies hcall hstage hreserve =>
    exact h.of_thrown (List.Subperm.refl _)
  | threw c m copies hcall hstage hallocate =>
    exact h.of_thrown (poolIds_subperm (hpolicy c.worker) hallocate)
  -- nobody has the cores that have left the pools
  | notCopied c cores m hcall hstage hallocate =>
    exact h.of_thrown (poolIds_subperm (hpolicy c.worker) hallocate)
  | allocated c cores m hcall hstage hle hallocate =>
    obtain ⟨hperm, htags⟩ := (allocation_of_ok hallocate).poolIds_perm (hpolicy c.worker)
    refine h.of_allocated rfl hperm htags rfl rfl ?_ ?_ hdrained
    · rintro c' ⟨⟩
      exact ⟨rfl, rfl⟩
    · exact h.starting c hcall (by rw [hstage]; decide)
  -- a refused request leaves the pools as they are
  | refused c what m copies hcall hstage hle hallocate =>
    obtain ⟨-, rfl⟩ := shortage_of_refused hallocate
    refine ⟨h.free, h.apart, h.tags, ?_, ?_, h.own, h.exclusive⟩
    · rintro c' ⟨⟩ _
      exact h.starting c hcall (by rw [hstage]; decide)
    · rintro c' ⟨⟩
      exact h.cores c hcall
  | created c hcall hstage => exact h.of_created hcall rfl rfl rfl rfl rfl
  | notCreated c hcall hstage => exact h.of_thrown (List.Subperm.refl _)
  | returned c hcall hstage => exact h.of_thrown (List.Subperm.refl _)
  | stopped worker hcall => exact h.of_stopped rfl rfl rfl rfl hcall
  | turned k ok t t' fault terminated hk hturn => exact h.of_turned hk hturn rfl rfl rfl rfl rfl

/-- In every run in which cores are allocated only when the threads of the stopped workers have
ended, no core of a thread that is in its function is allocated to another worker. -/
theorem exclusive_run (policy : Nat → ThreadPolicy)
    (hpolicy : ∀ worker, (policy worker).affinityType ≠ .NORMAL) (manager : CPUManager)
    (hpinned : manager.pinnedCorePool.Nodup) (hisol : manager.isolCorePool.Nodup)
    (hdisjoint : manager.pinnedCorePool.Disjoint manager.isolCorePool) (frames : Nat → Frame)
    (ops : List WorkerOp)
    (hstarted : EveryStep (step policy) StartedOnce (init manager frames) ops)
    (hdrained : EveryStep (step policy) Drained (init manager frames) ops) :
    EveryState (step policy) Exclusive (init manager frames) ops := by
  have hlaws : EveryStep (step policy) (fun s op => s.StartedOnce op ∧ s.Drained op)
      (init manager frames) ops := by
    intro pre op post s hls hrun
    exact ⟨hstarted pre op post s hls hrun, hdrained pre op post s hls hrun⟩
  have hinv : EveryState (step policy) PinInv (init manager frames) ops :=
    everyState_of_everyStep
      (fun _ _ _ h hlaw hstep => pinInv_step hpolicy h hlaw.1 hlaw.2 hstep)
      (pinInv_init (hpinned.append hisol hdisjoint) frames) hlaws
  intro pre post s hpre hrun t ht hfunc
  exact (hinv pre post s hpre hrun).exclusive t ht (by rw [hfunc]; decide)

/-- A worker is stopped and its thread ends before the next worker is started. -/
def orderlyRestart : List WorkerOp :=
  startUpToThread 0 ++ upToAffinity 0 ++
    [.returnFromStart, .thread 0 true, .stop 0, .thread 0 true] ++ startUpToThread 1

theorem orderlyRestart_exclusive :
    EveryState (step fun _ => missionPolicy) Exclusive (init smallMachine fun _ => ⟨false, []⟩)
      orderlyRestart :=
  exclusive_run (fun _ => missionPolicy) (fun _ => by decide) smallMachine (by decide) (by decide)
    (by simp [smallMachine]) (fun _ => ⟨false, []⟩) orderlyRestart
    (everyStep_of_obeys (by decide +kernel)) (everyStep_of_obeys (by decide +kernel))

/-- A worker is stopped, and the next worker is started before the first one's thread looks at its
stop flag. -/
def restartWhileRunning : List WorkerOp :=
  startUpToThread 0 ++ upToAffinity 0 ++ [.returnFromStart, .thread 0 true, .stop 0] ++
    startUpToThread 1

/-- The thread of the first worker is in its function on core `1`, which is now allocated to the
second worker. -/
theorem restartWhileRunning_shares_core :
    (runFrom (step fun _ => missionPolicy) (init smallMachine fun _ => ⟨false, []⟩)
        restartWhileRunning).map
          (fun s => (s.threads.map fun t => (t.call.worker, t.phase, t.cpus), s.held 1)) =
        some ([(0, .func, [1]), (1, .callTarget, [1])], [1]) ∧
      ¬ EveryState (step fun _ => missionPolicy) Exclusive
        (init smallMachine fun _ => ⟨false, []⟩) restartWhileRunning := by
  have hrun : (runFrom (step fun _ => missionPolicy) (init smallMachine fun _ => ⟨false, []⟩)
      restartWhileRunning).map
        (fun s => (s.threads.map fun t => (t.call.worker, t.phase, t.cpus), s.held 1)) =
      some ([(0, .func, [1]), (1, .callTarget, [1])], [1]) := by
    decide +kernel
  refine ⟨hrun, ?_⟩
  intro h
  obtain ⟨s, hs, hview⟩ := Option.map_eq_some_iff.1 hrun
  rw [Prod.mk.injEq] at hview
  obtain ⟨hthreads, hheld⟩ := hview
  have hmem : (0, Phase.func, [1]) ∈ s.threads.map fun t => (t.call.worker, t.phase, t.cpus) := by
    rw [hthreads]
    exact List.mem_cons_self
  obtain ⟨t, ht, hview⟩ := List.mem_map.1 hmem
  obtain ⟨hworker, hphase, hcpus⟩ : t.call.worker = 0 ∧ t.phase = .func ∧ t.cpus = [1] := by
    simpa using hview
  have hdisjoint := h restartWhileRunning [] s (List.append_nil _).symm hs t ht hphase 1
    (by rw [hworker]; decide)
  rw [hcpus, hheld] at hdisjoint
  exact hdisjoint List.mem_cons_self List.mem_cons_self

end Workers

end PipelineTools.Threads
