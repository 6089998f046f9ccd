import PipelineTools.Library.TraceLogic
import Mathlib.Data.List.Basic

/-!
# Allocation of cores

`CPUManager` keeps a pool of cores that threads may be pinned to and a pool of cores that the system
isolates. `allocate` takes cores from the ends of copies of the pools and writes the copies back. A
request for isolated cores that the isolated pool cannot meet may be filled up with pinned ones; for
these, `allocate` calls itself and then reads both pools again.

`allocate` holds the manager's mutex from its first line to its end. The parameter `reentrant` says
whether a thread that holds the mutex may lock it again. The mutex of the source is a `std::mutex`,
so `reentrant` is `false` there; `true` describes the nested call as an ordinary call. `Allocation`
lists what one call can do, and `allocation_allocate` says that it is complete.
`allocate_returns_or_throws_iff` follows: a call runs into its own lock exactly when it gets to the
nested call.
-/

set_option autoImplicit false

namespace PipelineTools.Threads

open PipelineTools.Library

/-- The type of allocation requested. -/
inductive AffinityType where
  | NORMAL
  | PINNED
  | ISOLATED
  deriving DecidableEq

/-- `struct Core`. -/
structure Core where
  cpuId : Int
  affinityType : AffinityType
  deriving DecidableEq

/-- `struct ThreadPolicy`; the default priority is the middle of the range of `SCHED_FIFO`. -/
structure ThreadPolicy where
  threadName : String := ""
  cores : Nat := 0
  affinityType : AffinityType := .NORMAL
  strict : Bool := false
  priority : Int := 49

/-- The members of `CPUManager`, and whether `mutex_` is held by the running call. -/
structure CPUManager where
  pinnedCorePool : List Int
  isolCorePool : List Int
  onlineCores : List Int
  mutexHeld : Bool := false

/-- Why `allocate` did not return: it threw, or ran into undefined behaviour. -/
inductive AllocateStop where
  | runtimeError (what : String)
  | outOfRange
  /-- `back()` of an empty vector. -/
  | backOfEmpty
  /-- A lock of `mutex_` by the thread that holds it. -/
  | selfLock
  /-- A nested call inside a nested call; `allocate_eq` shows that there is none. -/
  | nestedTwice
  deriving DecidableEq

/-- Computations on the manager. -/
abbrev Manager := EStateM AllocateStop CPUManager

/-- Run `body` under `std::lock_guard lock(mutex_)`. The lock is given back when `body` returns or
throws; a thread that waits for itself gives nothing back. -/
def lockGuard {α : Type} (reentrant : Bool) (body : Manager α) : Manager α := fun m =>
  if m.mutexHeld && !reentrant then .error .selfLock m
  else
    match body { m with mutexHeld := true } with
    | .ok a m' => .ok a { m' with mutexHeld := m.mutexHeld }
    | .error .selfLock m' => .error .selfLock m'
    | .error e m' => .error e { m' with mutexHeld := m.mutexHeld }

/-- The loop `allocated.emplace_back(pool.at(i), NORMAL)`, from `i` on with `left` turns to go. -/
def atLoop (pool : List Int) : Nat → Nat → List Core → Manager (List Core)
  | 0, _, allocated => pure allocated
  | left + 1, i, allocated =>
    match pool[i]? with
    | none => throw .outOfRange
    | some cpu => atLoop pool left (i + 1) (allocated ++ [⟨cpu, .NORMAL⟩])

/-- The loop `allocated.emplace_back(pool.back(), affinity); pool.pop_back()`. -/
def popLoop (affinity : AffinityType) :
    Nat → List Core → List Int → Manager (List Core × List Int)
  | 0, allocated, pool => pure (allocated, pool)
  | left + 1, allocated, pool =>
    match pool.getLast? with
    | none => throw .backOfEmpty
    | some cpu => popLoop affinity left (allocated ++ [⟨cpu, affinity⟩]) pool.dropLast

/-- The pools are moved back from the copies. -/
def writeBack (pinned isol : List Int) : Manager Unit :=
  modify fun m => { m with pinnedCorePool := pinned, isolCorePool := isol }

/-- The text of the exception for too many cores. -/
def notEnough (cores : Nat) : String :=
  "Not enough resources to allocate " ++ toString cores ++ " cpus."

/-- The text of the exception for too many isolated cores. -/
def notEnoughIsolated (cores : Nat) : String :=
  "Not enough resources to allocate " ++ toString cores ++ " isolated cpus."

/-- `CPUManager::allocate` after the lock has been taken; `nested` stands for the call of `allocate`
in it. -/
def allocateBody (nested : ThreadPolicy → Manager (List Core)) (policy : ThreadPolicy) :
    Manager (List Core) := do
  let manager ← get
  let totalCpus := manager.pinnedCorePool.length +
    if policy.affinityType = .ISOLATED then manager.isolCorePool.length else 0
  if totalCpus < policy.cores then
    throw (.runtimeError (notEnough policy.cores))
  else
    match policy.affinityType with
    | .NORMAL => do
      let allocated ← atLoop manager.pinnedCorePool policy.cores 0 []
      writeBack manager.pinnedCorePool manager.isolCorePool
      pure allocated
    | .PINNED => do
      let (allocated, pinned) ← popLoop .PINNED policy.cores [] manager.pinnedCorePool
      writeBack pinned manager.isolCorePool
      pure allocated
    | .ISOLATED => do
      let isolCpus := min policy.cores manager.isolCorePool.length
      let pinnedCpus := policy.cores - isolCpus
      if isolCpus < policy.cores then
        if policy.strict then throw (.runtimeError (notEnoughIsolated policy.cores))
        else do
          let allocated ← nested { policy with cores := pinnedCpus, affinityType := .PINNED }
          let manager ← get
          let (allocated, isol) ← popLoop .ISOLATED isolCpus allocated manager.isolCorePool
          writeBack manager.pinnedCorePool isol
          pure allocated
      else do
        let (allocated, isol) ← popLoop .ISOLATED isolCpus [] manager.isolCorePool
        writeBack manager.pinnedCorePool isol
        pure allocated

/-- `CPUManager::allocate`, unrolled as deep as it calls itself. -/
def allocate (reentrant : Bool) (policy : ThreadPolicy) : Manager (List Core) :=
  lockGuard reentrant <| allocateBody
    (fun policy => lockGuard reentrant (allocateBody (fun _ => throw .nestedTwice) policy)) policy

/-- `CPUManager::deallocate` of one core; its log messages are left out. -/
def deallocate (core : Core) (m : CPUManager) : CPUManager :=
  match core.affinityType with
  | .NORMAL => m
  | .ISOLATED => { m with isolCorePool := m.isolCorePool ++ [core.cpuId] }
  | .PINNED => { m with pinnedCorePool := m.pinnedCorePool ++ [core.cpuId] }

/-- `allocate` calls itself. The nested call is for pinned cores, so unrolling once more makes no
difference. -/
theorem allocate_eq (reentrant : Bool) (policy : ThreadPolicy) :
    allocate reentrant policy = lockGuard reentrant (allocateBody (allocate reentrant) policy) :=
  rfl

/-! ## What the loops do -/

/-- The last `n` elements, the last one first. -/
def lastFew (n : Nat) (pool : List Int) : List Int := (pool.drop (pool.length - n)).reverse

/-- All but the last `n` elements. -/
def allBut (n : Nat) (pool : List Int) : List Int := pool.take (pool.length - n)

/-- Cores with one tag. -/
def tagged (affinity : AffinityType) (cpus : List Int) : List Core :=
  cpus.map fun cpu => ⟨cpu, affinity⟩

theorem lastFew_succ {n : Nat} {pool : List Int} {cpu : Int} :
    lastFew (n + 1) (pool ++ [cpu]) = cpu :: lastFew n pool := by
  have hsub : pool.length + 1 - (n + 1) = pool.length - n := by omega
  have hle : pool.length - n ≤ pool.length := by omega
  simp [lastFew, hsub, List.drop_append_of_le_length hle]

theorem allBut_succ {n : Nat} {pool : List Int} {cpu : Int} :
    allBut (n + 1) (pool ++ [cpu]) = allBut n pool := by
  have hsub : pool.length + 1 - (n + 1) = pool.length - n := by omega
  have hle : pool.length - n ≤ pool.length := by omega
  simp [allBut, hsub, List.take_append_of_le_length hle]

theorem length_lastFew {n : Nat} {pool : List Int} (h : n ≤ pool.length) :
    (lastFew n pool).length = n := by
  rw [lastFew, List.length_reverse, List.length_drop]
  omega

theorem length_tagged (affinity : AffinityType) (cpus : List Int) :
    (tagged affinity cpus).length = cpus.length :=
  List.length_map _

theorem cpuIds_tagged (affinity : AffinityType) (cpus : List Int) :
    (tagged affinity cpus).map Core.cpuId = cpus := by
  simp [tagged, Function.comp_def]

@[simp] theorem lastFew_zero (pool : List Int) : lastFew 0 pool = [] := by
  simp [lastFew]

@[simp] theorem allBut_zero (pool : List Int) : allBut 0 pool = pool := by
  simp [allBut]

/-- `at` stays within the pool as long as there are enough cores. -/
theorem atLoop_eq (pool : List Int) (m : CPUManager) : ∀ (left i : Nat) (allocated : List Core),
    i + left ≤ pool.length →
    atLoop pool left i allocated m =
      .ok (allocated ++ tagged .NORMAL ((pool.drop i).take left)) m
  | 0, i, allocated, _ => by
    simp only [atLoop, List.take_zero, tagged, List.map_nil, List.append_nil]
    rfl
  | left + 1, i, allocated, h => by
    have hi : i < pool.length := by omega
    have hrest := atLoop_eq pool m left (i + 1) (allocated ++ [⟨pool[i], .NORMAL⟩]) (by omega)
    rw [atLoop, List.getElem?_eq_getElem hi, List.drop_eq_getElem_cons hi]
    simp only [hrest, List.append_assoc, tagged, List.take_succ_cons, List.map_cons,
      List.singleton_append]

/-- `back` is defined as long as there are enough cores. -/
theorem popLoop_eq (affinity : AffinityType) (m : CPUManager) :
    ∀ (left : Nat) (allocated : List Core) (pool : List Int), left ≤ pool.length →
    popLoop affinity left allocated pool m =
      .ok (allocated ++ tagged affinity (lastFew left pool), allBut left pool) m
  | 0, allocated, pool, _ => by
    simp only [popLoop, lastFew_zero, allBut_zero, tagged, List.map_nil, List.append_nil]
    rfl
  | left + 1, allocated, pool, h => by
    obtain ⟨front, cpu, rfl⟩ : ∃ front cpu, pool = front ++ [cpu] := by
      have hne : pool ≠ [] := List.ne_nil_of_length_pos (by omega)
      exact ⟨pool.dropLast, pool.getLast hne, (List.dropLast_append_getLast hne).symm⟩
    have hfront : left ≤ front.length := by
      rw [List.length_append, List.length_singleton] at h
      omega
    have hrest := popLoop_eq affinity m left (allocated ++ [⟨cpu, affinity⟩]) front hfront
    rw [popLoop, List.getLast?_concat, lastFew_succ, allBut_succ]
    simp only [List.dropLast_concat, hrest, List.append_assoc, tagged, List.map_cons,
      List.singleton_append]

/-! ## What one call does -/

/-- The manager cannot or must not meet the request. -/
def Shortage (policy : ThreadPolicy) (m : CPUManager) : Prop :=
  match policy.affinityType with
  | .NORMAL => m.pinnedCorePool.length < policy.cores
  | .PINNED => m.pinnedCorePool.length < policy.cores
  | .ISOLATED => m.pinnedCorePool.length + m.isolCorePool.length < policy.cores ∨
      policy.strict = true ∧ m.isolCorePool.length < policy.cores

instance (policy : ThreadPolicy) (m : CPUManager) : Decidable (Shortage policy m) :=
  match h : policy.affinityType with
  | .NORMAL => decidable_of_iff (m.pinnedCorePool.length < policy.cores) (by simp [Shortage, h])
  | .PINNED => decidable_of_iff (m.pinnedCorePool.length < policy.cores) (by simp [Shortage, h])
  | .ISOLATED =>
    decidable_of_iff (m.pinnedCorePool.length + m.isolCorePool.length < policy.cores ∨
      policy.strict = true ∧ m.isolCorePool.length < policy.cores) (by simp [Shortage, h])

/-- The request gets to the nested call: the isolated pool alone is too small, both pools together
are large enough, and pinned cores will do. -/
def NeedsNested (policy : ThreadPolicy) (m : CPUManager) : Prop :=
  policy.affinityType = .ISOLATED ∧ policy.strict = false ∧
    m.isolCorePool.length < policy.cores ∧
    policy.cores ≤ m.pinnedCorePool.length + m.isolCorePool.length

/-- The results of one call of `allocate`. -/
inductive Allocation (reentrant : Bool) (policy : ThreadPolicy) (m : CPUManager) :
    EStateM.Result AllocateStop CPUManager (List Core) → Prop
  | shortage (what : String) : Shortage policy m →
      Allocation reentrant policy m (.error (.runtimeError what) m)
  | normal : policy.affinityType = .NORMAL → policy.cores ≤ m.pinnedCorePool.length →
      Allocation reentrant policy m
        (.ok (tagged .NORMAL (m.pinnedCorePool.take policy.cores)) m)
  | pinned : policy.affinityType = .PINNED → policy.cores ≤ m.pinnedCorePool.length →
      Allocation reentrant policy m
        (.ok (tagged .PINNED (lastFew policy.cores m.pinnedCorePool))
          { m with pinnedCorePool := allBut policy.cores m.pinnedCorePool })
  | isolated : policy.affinityType = .ISOLATED → policy.cores ≤ m.isolCorePool.length →
      Allocation reentrant policy m
        (.ok (tagged .ISOLATED (lastFew policy.cores m.isolCorePool))
          { m with isolCorePool := allBut policy.cores m.isolCorePool })
  | filledUp (missing : Nat) : NeedsNested policy m → reentrant = true →
      missing = policy.cores - m.isolCorePool.length →
      Allocation reentrant policy m
        (.ok (tagged .PINNED (lastFew missing m.pinnedCorePool) ++
            tagged .ISOLATED (lastFew m.isolCorePool.length m.isolCorePool))
          { m with
            pinnedCorePool := allBut missing m.pinnedCorePool
            isolCorePool := allBut m.isolCorePool.length m.isolCorePool })
  | selfLock (m' : CPUManager) : NeedsNested policy m → reentrant = false →
      Allocation reentrant policy m (.error .selfLock m')

section Lock

variable {α : Type} {reentrant : Bool} {body : Manager α} {m m' : CPUManager}

/-- A program under the lock that returns. -/
theorem lockGuard_ok {a : α} (hfree : (m.mutexHeld && !reentrant) = false)
    (h : body { m with mutexHeld := true } = .ok a m') :
    lockGuard reentrant body m = .ok a { m' with mutexHeld := m.mutexHeld } := by
  simp only [lockGuard, hfree, h, Bool.false_eq_true, if_false]

/-- A program under the lock that throws. -/
theorem lockGuard_error {what : String} (hfree : (m.mutexHeld && !reentrant) = false)
    (h : body { m with mutexHeld := true } = .error (.runtimeError what) m') :
    lockGuard reentrant body m =
      .error (.runtimeError what) { m' with mutexHeld := m.mutexHeld } := by
  simp only [lockGuard, hfree, h, Bool.false_eq_true, if_false]

/-- A program under the lock that waits for itself. -/
theorem lockGuard_selfLock (hfree : (m.mutexHeld && !reentrant) = false)
    (h : body { m with mutexHeld := true } = .error .selfLock m') :
    lockGuard reentrant body m = .error .selfLock m' := by
  simp only [lockGuard, hfree, h, Bool.false_eq_true, if_false]

end Lock

theorem get_ok (m : CPUManager) : (get : Manager CPUManager) m = .ok m m := rfl

section Body

variable (nested : ThreadPolicy → Manager (List Core)) {policy : ThreadPolicy} {m : CPUManager}

/-- A request for more cores than there are throws and changes nothing. -/
theorem allocateBody_total (h : m.pinnedCorePool.length +
    (if policy.affinityType = .ISOLATED then m.isolCorePool.length else 0) < policy.cores) :
    allocateBody nested policy m = .error (.runtimeError (notEnough policy.cores)) m := by
  rw [allocateBody]
  rw [bind_ok (get_ok m), if_pos h]
  rfl

theorem allocateBody_normal (haff : policy.affinityType = .NORMAL)
    (h : policy.cores ≤ m.pinnedCorePool.length) :
    allocateBody nested policy m =
      .ok (tagged .NORMAL (m.pinnedCorePool.take policy.cores)) m := by
  have hloop := atLoop_eq m.pinnedCorePool m policy.cores 0 [] (by omega)
  rw [allocateBody]
  rw [bind_ok (get_ok m), if_neg (by omega)]
  simp only [haff]
  rw [bind_ok hloop]
  rfl

theorem allocateBody_pinned (haff : policy.affinityType = .PINNED)
    (h : policy.cores ≤ m.pinnedCorePool.length) :
    allocateBody nested policy m =
      .ok (tagged .PINNED (lastFew policy.cores m.pinnedCorePool))
        { m with pinnedCorePool := allBut policy.cores m.pinnedCorePool } := by
  have hloop := popLoop_eq .PINNED m policy.cores [] m.pinnedCorePool h
  rw [allocateBody]
  rw [bind_ok (get_ok m), if_neg (by omega)]
  simp only [haff]
  rw [bind_ok hloop]
  rfl

/-- The isolated pool alone meets the request. -/
theorem allocateBody_isolated (haff : policy.affinityType = .ISOLATED)
    (h : policy.cores ≤ m.isolCorePool.length) :
    allocateBody nested policy m =
      .ok (tagged .ISOLATED (lastFew policy.cores m.isolCorePool))
        { m with isolCorePool := allBut policy.cores m.isolCorePool } := by
  have hloop := popLoop_eq .ISOLATED m policy.cores [] m.isolCorePool h
  have hmin : min policy.cores m.isolCorePool.length = policy.cores := by omega
  rw [allocateBody]
  rw [bind_ok (get_ok m), if_neg (by rw [if_pos haff]; omega)]
  simp only [haff, hmin]
  rw [if_neg (Nat.lt_irrefl _), bind_ok hloop]
  rfl

/-- A strict request that the isolated pool alone cannot meet throws and changes nothing. -/
theorem allocateBody_strict (haff : policy.affinityType = .ISOLATED)
    (hstrict : policy.strict = true) (h : m.isolCorePool.length < policy.cores)
    (htotal : policy.cores ≤ m.pinnedCorePool.length + m.isolCorePool.length) :
    allocateBody nested policy m =
      .error (.runtimeError (notEnoughIsolated policy.cores)) m := by
  have hmin : min policy.cores m.isolCorePool.length = m.isolCorePool.length := by omega
  rw [allocateBody]
  rw [bind_ok (get_ok m), if_neg (by rw [if_pos haff]; omega)]
  simp only [haff, hmin]
  rw [if_pos h, if_pos hstrict]
  rfl

/-- The rest of the request is made by the nested call. -/
theorem allocateBody_nested (h : NeedsNested policy m) :
    allocateBody nested policy m =
      (nested { policy with
          cores := policy.cores - m.isolCorePool.length, affinityType := .PINNED } >>=
        fun allocated => get >>= fun manager =>
          popLoop .ISOLATED m.isolCorePool.length allocated manager.isolCorePool >>= fun p =>
            writeBack manager.pinnedCorePool p.2 >>= fun _ => pure p.1) m := by
  obtain ⟨haff, hstrict, hless, htotal⟩ := h
  have hmin : min policy.cores m.isolCorePool.length = m.isolCorePool.length := by omega
  rw [allocateBody]
  rw [bind_ok (get_ok m), if_neg (by rw [if_pos haff]; omega)]
  simp only [haff, hmin]
  rw [if_pos hless, if_neg (by rw [hstrict]; exact Bool.false_ne_true)]

end Body

section Call

variable {reentrant : Bool} {policy : ThreadPolicy} {m : CPUManager}

/-- A lock that can be taken again is always free. -/
theorem free_of_reentrant (m : CPUManager) : (m.mutexHeld && !true) = false := by
  rw [Bool.not_true, Bool.and_false]

/-- A request for pinned cores that can be met, at any point where the lock can be taken. -/
theorem allocate_pinned (hfree : (m.mutexHeld && !reentrant) = false)
    (haff : policy.affinityType = .PINNED) (h : policy.cores ≤ m.pinnedCorePool.length) :
    allocate reentrant policy m =
      .ok (tagged .PINNED (lastFew policy.cores m.pinnedCorePool))
        { m with pinnedCorePool := allBut policy.cores m.pinnedCorePool } := by
  have hbody := allocateBody_pinned (allocate reentrant)
    (m := { m with mutexHeld := true }) haff h
  rw [allocate_eq, lockGuard_ok hfree hbody]

/-- A request that the isolated pool can meet, at any point where the lock can be taken. -/
theorem allocate_isolated (hfree : (m.mutexHeld && !reentrant) = false)
    (haff : policy.affinityType = .ISOLATED) (h : policy.cores ≤ m.isolCorePool.length) :
    allocate reentrant policy m =
      .ok (tagged .ISOLATED (lastFew policy.cores m.isolCorePool))
        { m with isolCorePool := allBut policy.cores m.isolCorePool } := by
  have hbody := allocateBody_isolated (allocate reentrant)
    (m := { m with mutexHeld := true }) haff h
  rw [allocate_eq, lockGuard_ok hfree hbody]

/-- With a lock that can be taken again, the missing cores come from the pinned pool. -/
theorem allocate_filledUp (hfree : (m.mutexHeld && !reentrant) = false)
    (h : NeedsNested policy m) (hr : reentrant = true) :
    allocate reentrant policy m =
      .ok (tagged .PINNED (lastFew (policy.cores - m.isolCorePool.length) m.pinnedCorePool) ++
          tagged .ISOLATED (lastFew m.isolCorePool.length m.isolCorePool))
        { m with
          pinnedCorePool := allBut (policy.cores - m.isolCorePool.length) m.pinnedCorePool
          isolCorePool := allBut m.isolCorePool.length m.isolCorePool } := by
  have htotal := h.2.2.2
  let held : CPUManager := { m with mutexHeld := true }
  let missing := policy.cores - m.isolCorePool.length
  let after : CPUManager := { held with pinnedCorePool := allBut missing m.pinnedCorePool }
  -- the nested call asks for pinned cores while the lock is held
  have hnested : allocate reentrant { policy with cores := missing, affinityType := .PINNED } held =
      .ok (tagged .PINNED (lastFew missing m.pinnedCorePool)) after := by
    apply allocate_pinned
    · rw [hr]
      exact free_of_reentrant _
    · rfl
    · show policy.cores - m.isolCorePool.length ≤ m.pinnedCorePool.length
      omega
  have hloop := popLoop_eq .ISOLATED after m.isolCorePool.length
    (tagged .PINNED (lastFew missing m.pinnedCorePool)) after.isolCorePool (Nat.le_refl _)
  have hbody := allocateBody_nested (allocate reentrant) (m := held) h
  rw [bind_ok hnested, bind_ok (get_ok after), bind_ok hloop] at hbody
  rw [allocate_eq, lockGuard_ok hfree hbody]

/-- With a lock that can be taken once, the nested call waits for its own thread. -/
theorem allocate_selfLock (hfree : (m.mutexHeld && !reentrant) = false)
    (h : NeedsNested policy m) (hr : reentrant = false) :
    allocate reentrant policy m = .error .selfLock { m with mutexHeld := true } := by
  have hnested : allocate reentrant
      { policy with cores := policy.cores - m.isolCorePool.length, affinityType := .PINNED }
      { m with mutexHeld := true } = .error .selfLock { m with mutexHeld := true } := by
    subst hr
    rfl
  have hbody := allocateBody_nested (allocate reentrant)
    (m := { m with mutexHeld := true }) h
  rw [bind_error hnested] at hbody
  rw [allocate_eq, lockGuard_selfLock hfree hbody]

/-- Every call of `allocate` has one of the results listed. -/
theorem allocation_allocate (hfree : (m.mutexHeld && !reentrant) = false) :
    Allocation reentrant policy m (allocate reentrant policy m) := by
  let held : CPUManager := { m with mutexHeld := true }
  -- an exception leaves the body before any pool is written back
  have hthrow : ∀ what, Shortage policy m →
      allocateBody (allocate reentrant) policy held = .error (.runtimeError what) held →
      Allocation reentrant policy m (allocate reentrant policy m) := by
    intro what hshort hbody
    rw [allocate_eq, lockGuard_error hfree hbody]
    exact .shortage what hshort
  cases haff : policy.affinityType with
  | NORMAL =>
    by_cases hlt : m.pinnedCorePool.length < policy.cores
    · refine hthrow _ (by rw [Shortage, haff]; exact hlt) (allocateBody_total _ ?_)
      rw [haff]
      exact hlt
    · have hbody := allocateBody_normal (allocate reentrant) (m := held) haff
        (Nat.le_of_not_lt hlt)
      rw [allocate_eq, lockGuard_ok hfree hbody]
      exact .normal haff (Nat.le_of_not_lt hlt)
  | PINNED =>
    by_cases hlt : m.pinnedCorePool.length < policy.cores
    · refine hthrow _ (by rw [Shortage, haff]; exact hlt) (allocateBody_total _ ?_)
      rw [haff]
      exact hlt
    · rw [allocate_pinned hfree haff (Nat.le_of_not_lt hlt)]
      exact .pinned haff (Nat.le_of_not_lt hlt)
  | ISOLATED =>
    by_cases hlt : m.pinnedCorePool.length + m.isolCorePool.length < policy.cores
    · refine hthrow _ (by rw [Shortage, haff]; exact Or.inl hlt) (allocateBody_total _ ?_)
      rw [if_pos haff]
      exact hlt
    -- the isolated pool is enough, or strictness decides, or the nested call does
    · by_cases hisol : policy.cores ≤ m.isolCorePool.length
      · rw [allocate_isolated hfree haff hisol]
        exact .isolated haff hisol
      · have hless := Nat.lt_of_not_le hisol
        have htotal := Nat.le_of_not_lt hlt
        cases hstrict : policy.strict with
        | true =>
          refine hthrow (notEnoughIsolated policy.cores) ?_ ?_
          · rw [Shortage, haff]
            exact Or.inr ⟨hstrict, hless⟩
          · exact allocateBody_strict _ haff hstrict hless htotal
        | false =>
          have hneeds : NeedsNested policy m := ⟨haff, hstrict, hless, htotal⟩
          cases hr : reentrant with
          | true =>
            rw [← hr, allocate_filledUp hfree hneeds hr]
            exact .filledUp _ hneeds hr rfl
          | false =>
            rw [← hr, allocate_selfLock hfree hneeds hr]
            exact .selfLock _ hneeds hr

/-- A call of `allocate` waits for its own lock or has one of the results listed. -/
theorem selfLock_or_allocation (policy : ThreadPolicy) (m : CPUManager) :
    allocate false policy m = .error .selfLock m ∨
      Allocation false policy m (allocate false policy m) := by
  cases hheld : m.mutexHeld with
  | true =>
    refine .inl ?_
    simp only [allocate, lockGuard, hheld, Bool.not_false, Bool.and_self, if_true]
  | false => exact .inr (allocation_allocate (by rw [hheld, Bool.false_and]))

theorem allocation_of_ok {cores : List Core} {m' : CPUManager}
    (h : allocate false policy m = .ok cores m') : Allocation false policy m (.ok cores m') := by
  rcases selfLock_or_allocation policy m with hlock | hcall
  · rw [h] at hlock
    cases hlock
  · rw [h] at hcall
    exact hcall

/-- The manager refuses only what it cannot or must not give, and nothing changes then. -/
theorem shortage_of_refused {what : String} {m' : CPUManager}
    (h : allocate false policy m = .error (.runtimeError what) m') :
    Shortage policy m ∧ m' = m := by
  rcases selfLock_or_allocation policy m with hlock | hcall
  · rw [h] at hlock
    cases hlock
  · rw [h] at hcall
    cases hcall with
    | shortage what hshort => exact ⟨hshort, rfl⟩

end Call

/-- A request that gets to the nested call is not one the manager has to refuse. -/
theorem not_needsNested_of_shortage {policy : ThreadPolicy} {m : CPUManager}
    (h : Shortage policy m) : ¬ NeedsNested policy m := by
  rintro ⟨haff, hstrict, hless, htotal⟩
  rw [Shortage, haff] at h
  rcases h with hlt | ⟨hs, -⟩
  · omega
  · rw [hstrict] at hs
    cases hs

/-- A request that is met is not one the manager has to refuse. -/
theorem Allocation.not_shortage {reentrant : Bool} {policy : ThreadPolicy} {m m' : CPUManager}
    {cores : List Core} (h : Allocation reentrant policy m (.ok cores m')) :
    ¬ Shortage policy m := by
  cases h with
  | normal haff hle =>
    rw [Shortage, haff]
    exact Nat.not_lt.2 hle
  | pinned haff hle =>
    rw [Shortage, haff]
    exact Nat.not_lt.2 hle
  | isolated haff hle =>
    rw [Shortage, haff]
    omega
  | filledUp missing hneeds hr hmissing =>
    intro hshort
    exact not_needsNested_of_shortage hshort hneeds

/-- A call that returns hands out as many cores as it was asked for. -/
theorem Allocation.length_eq {reentrant : Bool} {policy : ThreadPolicy} {m m' : CPUManager}
    {cores : List Core} (h : Allocation reentrant policy m (.ok cores m')) :
    cores.length = policy.cores := by
  cases h with
  | normal haff hle => rw [length_tagged, List.length_take, Nat.min_eq_left hle]
  | pinned haff hle => rw [length_tagged, length_lastFew hle]
  | isolated haff hle => rw [length_tagged, length_lastFew hle]
  | filledUp missing hneeds hr hmissing =>
    obtain ⟨-, -, hless, htotal⟩ := hneeds
    rw [List.length_append, length_tagged, length_tagged, length_lastFew (by omega),
      length_lastFew (Nat.le_refl _)]
    omega

/-- The ids of the cores that a request gets when it is met. -/
def grantedIds (policy : ThreadPolicy) (m : CPUManager) : List Int :=
  match policy.affinityType with
  | .NORMAL => m.pinnedCorePool.take policy.cores
  | .PINNED => lastFew policy.cores m.pinnedCorePool
  | .ISOLATED =>
    lastFew (policy.cores - m.isolCorePool.length) m.pinnedCorePool ++
      lastFew (min policy.cores m.isolCorePool.length) m.isolCorePool

theorem Allocation.cpuIds_eq {reentrant : Bool} {policy : ThreadPolicy} {m m' : CPUManager}
    {cores : List Core} (h : Allocation reentrant policy m (.ok cores m')) :
    cores.map Core.cpuId = grantedIds policy m := by
  cases h with
  | normal haff hle => rw [cpuIds_tagged, grantedIds, haff]
  | pinned haff hle => rw [cpuIds_tagged, grantedIds, haff]
  -- nothing has to be filled up
  | isolated haff hle =>
    rw [cpuIds_tagged, grantedIds, haff]
    simp only [Nat.sub_eq_zero_of_le hle, lastFew_zero, List.nil_append, Nat.min_eq_left hle]
  | filledUp missing hneeds hr hmissing =>
    subst hmissing
    rw [List.map_append, cpuIds_tagged, cpuIds_tagged, grantedIds, hneeds.1]
    simp only [Nat.min_eq_right (Nat.le_of_lt hneeds.2.2.1)]

/-- Normal cores stay in the pool, others leave it. -/
theorem Allocation.manager_eq_iff {reentrant : Bool} {policy : ThreadPolicy} {m m' : CPUManager}
    {cores : List Core} (h : Allocation reentrant policy m (.ok cores m'))
    (hcores : 0 < policy.cores) : m' = m ↔ policy.affinityType = .NORMAL := by
  -- a pool that some cores have left is shorter
  have hshorter : ∀ {n : Nat} {pool : List Int}, 0 < n → n ≤ pool.length →
      allBut n pool ≠ pool := by
    intro n pool hn hle heq
    have hlength := congrArg List.length heq
    rw [allBut, List.length_take] at hlength
    omega
  cases h with
  | normal haff hle => exact iff_of_true rfl haff
  | pinned haff hle =>
    refine iff_of_false ?_ (by rw [haff]; decide)
    intro heq
    exact hshorter hcores hle (congrArg CPUManager.pinnedCorePool heq)
  | isolated haff hle =>
    refine iff_of_false ?_ (by rw [haff]; decide)
    intro heq
    exact hshorter hcores hle (congrArg CPUManager.isolCorePool heq)
  | filledUp missing hneeds hr hmissing =>
    obtain ⟨haff, -, hless, htotal⟩ := hneeds
    refine iff_of_false ?_ (by rw [haff]; decide)
    intro heq
    exact hshorter (by omega) (by omega) (congrArg CPUManager.pinnedCorePool heq)

/-- A call for no cores that returns changes nothing. -/
theorem Allocation.manager_eq {reentrant : Bool} {policy : ThreadPolicy} {m m' : CPUManager}
    {cores : List Core} (h : Allocation reentrant policy m (.ok cores m'))
    (hcores : policy.cores = 0) : m' = m := by
  cases h with
  | normal haff hle => rfl
  | pinned haff hle => rw [hcores, allBut_zero]
  | isolated haff hle => rw [hcores, allBut_zero]
  | filledUp missing hneeds hr hmissing =>
    obtain ⟨-, -, hless, -⟩ := hneeds
    omega

/-- A call that does not get to the nested call returns or throws. -/
theorem allocate_of_not_needsNested {policy : ThreadPolicy} {m : CPUManager}
    (hfree : m.mutexHeld = false) (hnot : ¬ NeedsNested policy m) :
    (∃ cores m', allocate false policy m = .ok cores m') ∨
      ∃ what m', allocate false policy m = .error (.runtimeError what) m' := by
  have hcall : Allocation false policy m (allocate false policy m) :=
    allocation_allocate (by rw [hfree, Bool.false_and])
  generalize allocate false policy m = r at hcall
  cases hcall with
  | shortage what hshort => exact .inr ⟨what, m, rfl⟩
  | normal haff hle => exact .inl ⟨_, _, rfl⟩
  | pinned haff hle => exact .inl ⟨_, _, rfl⟩
  | isolated haff hle => exact .inl ⟨_, _, rfl⟩
  | filledUp missing hneeds hr => exact absurd hneeds hnot
  | selfLock m' hneeds => exact absurd hneeds hnot

/-- With the mutex of the source, a call of `allocate` returns or throws exactly when it does not
get to the nested call. -/
theorem allocate_returns_or_throws_iff (policy : ThreadPolicy) (m : CPUManager)
    (hfree : m.mutexHeld = false) :
    ((∃ cores m', allocate false policy m = .ok cores m') ∨
        ∃ what m', allocate false policy m = .error (.runtimeError what) m') ↔
      ¬ NeedsNested policy m := by
  refine ⟨?_, allocate_of_not_needsNested hfree⟩
  intro hreturns hneeds
  have hcall : Allocation false policy m (allocate false policy m) :=
    allocation_allocate (by rw [hfree, Bool.false_and])
  generalize allocate false policy m = r at hcall hreturns
  cases hcall with
  | shortage what hshort => exact not_needsNested_of_shortage hshort hneeds
  | normal haff hle =>
    rw [hneeds.1] at haff
    cases haff
  | pinned haff hle =>
    rw [hneeds.1] at haff
    cases haff
  | isolated haff hle =>
    have hless := hneeds.2.2.1
    omega
  -- the mutex of the source cannot be taken twice
  | filledUp missing _ hr => cases hr
  | selfLock m' _ =>
    rcases hreturns with ⟨cores, m', h⟩ | ⟨what, m', h⟩
    · cases h
    · cases h

/-- A machine with two pinned cores and one isolated core. -/
def smallMachine : CPUManager where
  pinnedCorePool := [0, 1]
  isolCorePool := [2]
  onlineCores := [0, 1, 2]

/-- A request for two isolated cores, pinned ones accepted. -/
def twoIsolated : ThreadPolicy := { cores := 2, affinityType := .ISOLATED }

/-- A request for two isolated cores waits for itself on the small machine. -/
theorem twoIsolated_selfLock :
    ∃ m', allocate false twoIsolated smallMachine = .error .selfLock m' :=
  ⟨_, rfl⟩

theorem twoIsolated_returns_or_throws_iff :
    ((∃ cores m', allocate false twoIsolated smallMachine = .ok cores m') ∨
        ∃ what m', allocate false twoIsolated smallMachine = .error (.runtimeError what) m') ↔
      ¬ NeedsNested twoIsolated smallMachine :=
  allocate_returns_or_throws_iff twoIsolated smallMachine rfl

end PipelineTools.Threads
