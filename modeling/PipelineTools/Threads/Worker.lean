import PipelineTools.Threads.CPUManager
import PipelineTools.Library.Runs
import Mathlib.Algebra.Order.Ring.Nat
import Mathlib.Logic.Function.Basic

/-!
# Workers and their threads

`Worker::start` clears the stop flag, lets `allocate_cores` fill its local `mask`, creates the
thread, and returns. The thread's function refers to the parameter `strict` and to `mask` in the
frame of this call: `worker_target` gets `strict` as a copy and `mask` as a reference, tries to set
the thread's priority, affinity and name, and calls the worker's function. `Worker::stop` sets the
stop flag and gives the allocated cores back; it does not wait for the thread.

One client calls `start` and `stop` on any number of workers. Its steps inside `start` and the steps
of the threads interleave in any order. A frame is the content of a stack slot. It stays in the slot
after the call has returned, until a later call of `start` whose frame takes the same slot
overwrites it. A thread that reads a frame after its call has returned is recorded in `fault`.

A step that needs the system carries what the system answers: whether `cores.reserve` and the copy
`allocated_cores = cores` get their memory, whether the thread is created, and what the system calls
of a thread return. An exception that none of the handlers catches leaves `start`.
-/

set_option autoImplicit false

namespace PipelineTools.Threads

open PipelineTools.Library

/-- What `start` keeps in its stack frame: the parameter `strict` and the local `mask`. -/
structure Frame where
  strict : Bool
  mask : List Int

/-- The bits of a `cpu_set_t` are those of the ids below `CPU_SETSIZE`. -/
def InMask (cpu : Int) : Prop := 0 ≤ cpu ∧ cpu < 1024

instance (cpu : Int) : Decidable (InMask cpu) := inferInstanceAs (Decidable (_ ∧ _))

/-- `CPU_SET`; an id without a bit is ignored. -/
def cpuSet (mask : List Int) (cpu : Int) : List Int := if InMask cpu then mask ++ [cpu] else mask

/-- `CPU_ZERO`, and `CPU_SET` for each core. -/
def cpuMask (cores : List Core) : List Int :=
  cores.foldl (fun mask core => cpuSet mask core.cpuId) []

/-- The mask is that of all cores exactly when each of them has a bit. -/
theorem cpuMask_eq_iff (cores : List Core) :
    cpuMask cores = cores.map Core.cpuId ↔ ∀ cpu ∈ cores.map Core.cpuId, InMask cpu := by
  have hfilter : ∀ (cores : List Core) (mask : List Int),
      cores.foldl (fun mask core => cpuSet mask core.cpuId) mask =
        mask ++ (cores.map Core.cpuId).filter fun cpu => InMask cpu := by
    intro cores
    induction cores with
    | nil => simp
    | cons core cores ih =>
      intro mask
      rw [List.foldl_cons, ih, cpuSet]
      by_cases hcpu : InMask core.cpuId
      · simp [hcpu]
      · simp [hcpu]
  rw [cpuMask, hfilter, List.nil_append, List.filter_eq_self]
  simp only [decide_eq_true_eq]

/-- `std::vector<Core>::max_size()`; a `Core` has eight bytes. -/
def maxCores : Nat := 2 ^ 60 - 1

/-- How far a call of `start` has come. -/
inductive Stage where
  | entered
  | allocated
  | created
  deriving DecidableEq

/-- A call of `start`, with the cores it has allocated. -/
structure StartCall where
  number : Nat
  worker : Nat
  strict : Bool
  slot : Nat
  stage : Stage := .entered
  cores : Option (List Core) := none

/-- What a thread does next. -/
inductive Phase where
  | callTarget
  | setPriority
  | setAffinity
  | setName
  | func
  | ended
  deriving DecidableEq

/-- The thread has left `set_affinity` behind. -/
def Phase.pastMask : Phase → Bool
  | .setName => true
  | .func => true
  | .ended => true
  | _ => false

/-- A worker's thread: the call that created it, and what it has read from the frame of that
call. -/
structure WorkerThread where
  call : StartCall
  phase : Phase := .callTarget
  strict : Option Bool := none
  mask : Option (List Int) := none

/-- The cores that the thread's call has allocated. -/
def WorkerThread.cpus (t : WorkerThread) : List Int := (t.call.cores.getD []).map Core.cpuId

/-- The workers, by number, the stack of their client, and all threads. -/
structure Workers where
  manager : CPUManager
  frames : Nat → Frame
  allocatedCores : Nat → List Core := fun _ => []
  stopFlag : Nat → Bool := fun _ => false
  threads : List WorkerThread := []
  /-- The call of `start` that is under way. -/
  call : Option StartCall := none
  calls : Nat := 0
  fault : Bool := false
  /-- An exception has left a thread. -/
  terminated : Bool := false

/-- The steps of the client inside `start`, its calls of `stop`, and the steps of a thread, each
with the results of the system calls it makes. -/
inductive WorkerOp where
  | start (worker : Nat) (strict : Bool) (slot : Nat)
  | allocateCores (reserves : Bool := true) (copies : Bool := true)
  | createThread (created : Bool := true)
  | returnFromStart
  | stop (worker : Nat)
  | thread (k : Nat) (ok : Bool)

/-- `CPUManager::deallocate` of a vector. -/
def deallocateAll (cores : List Core) (m : CPUManager) : CPUManager :=
  cores.foldl (fun m core => deallocate core m) m

namespace Workers

/-- No call has been made. -/
def init (manager : CPUManager) (frames : Nat → Frame) : Workers := { manager, frames }

variable (policy : Nat → ThreadPolicy)

/-- The frame of the call is still on the stack. -/
def Active (s : Workers) (c : StartCall) : Prop :=
  ∃ c', s.call = some c' ∧ c'.number = c.number

instance (s : Workers) (c : StartCall) : Decidable (s.Active c) :=
  match h : s.call with
  | none => isFalse fun ⟨c', hc, _⟩ => by rw [h] at hc; cases hc
  | some c' => decidable_of_iff (c'.number = c.number)
      ⟨fun hn => ⟨c', h, hn⟩, fun ⟨c'', hc, hn⟩ => by rw [h] at hc; cases hc; exact hn⟩

/-- `Worker::allocate_cores`; `start` ignores what it returns. -/
def allocateCores (reserves copies : Bool) (s : Workers) (c : StartCall) : Option Workers :=
  -- `cores.reserve` stands before the `try`
  if reserves = false ∨ maxCores < (policy c.worker).cores then some { s with call := none }
  else
    match allocate false (policy c.worker) s.manager with
    | .ok cores m =>
      -- an empty vector makes `allocate_cores` throw, and the exception leaves `start`
      if cores = [] then some { s with manager := m, call := none }
      -- without the copy nothing records the cores
      else if copies = false then some { s with manager := m, call := none }
      else some { s with
        manager := m
        allocatedCores := Function.update s.allocatedCores c.worker cores
        frames := Function.update s.frames c.slot
          { s.frames c.slot with mask := cpuMask cores }
        call := some { c with stage := .allocated, cores := some cores } }
    -- the exception is caught before anything is written to the mask
    | .error (.runtimeError _) m => some { s with
        manager := m
        call := some { c with stage := .allocated } }
    | .error _ _ => none

/-- A read of the frame of a thread's call. -/
def faultOf (s : Workers) (t : WorkerThread) : Bool := s.fault || !decide (s.Active t.call)

/-- The next step of thread `k` in `worker_target`. -/
def turn (s : Workers) (k : Nat) (ok : Bool) : Option Workers :=
  match s.threads[k]? with
  | none => none
  | some t =>
    match t.phase with
    | .callTarget => some { s with
        threads := s.threads.set k
          { t with phase := .setPriority, strict := some (s.frames t.call.slot).strict }
        fault := s.faultOf t }
    | .setPriority =>
      if ok = false ∧ t.strict = some true then some { s with terminated := true }
      else some { s with threads := s.threads.set k { t with phase := .setAffinity } }
    | .setAffinity =>
      if (policy t.call.worker).cores = 0 then
        some { s with threads := s.threads.set k { t with phase := .setName } }
      else if ok = false ∧ t.strict = some true then some { s with
        threads := s.threads.set k { t with mask := some (s.frames t.call.slot).mask }
        fault := s.faultOf t
        terminated := true }
      else some { s with
        threads := s.threads.set k
          { t with phase := .setName, mask := some (s.frames t.call.slot).mask }
        fault := s.faultOf t }
    | .setName => some { s with threads := s.threads.set k { t with phase := .func } }
    | .func => some { s with threads := s.threads.set k { t with phase := .ended } }
    | .ended => none

/-- One step. The assignment to `work_thread` at the end of `start` waits for the thread that an
earlier call created for the worker. -/
def step (s : Workers) (op : WorkerOp) : Option Workers :=
  if s.terminated then none
  else
    match op, s.call with
    | .start worker strict slot, none => some { s with
        stopFlag := Function.update s.stopFlag worker false
        frames := Function.update s.frames slot { s.frames slot with strict := strict }
        call := some { number := s.calls, worker := worker, strict := strict, slot := slot }
        calls := s.calls + 1 }
    | .allocateCores reserves copies, some c =>
      if c.stage = .entered then s.allocateCores policy reserves copies c else none
    | .createThread created, some c =>
      if c.stage = .allocated then
        if created then some { s with
          threads := s.threads ++ [{ call := { c with stage := .created } }]
          call := some { c with stage := .created } }
        -- the constructor of `std::jthread` has thrown
        else some { s with call := none }
      else none
    | .returnFromStart, some c =>
      if c.stage = .created ∧ (∀ t ∈ s.threads, t.call.worker = c.worker →
          t.call.number ≠ c.number → t.phase = .ended) then
        some { s with call := none }
      else none
    | .stop worker, none => some { s with
        stopFlag := Function.update s.stopFlag worker true
        manager := deallocateAll (s.allocatedCores worker) s.manager
        allocatedCores := Function.update s.allocatedCores worker [] }
    | .thread k ok, _ => s.turn policy k ok
    | _, _ => none

/-- What a step of a thread does to it, and what `fault` is afterwards. -/
inductive Turn (s : Workers) (t : WorkerThread) : WorkerThread → Bool → Prop
  | readStrict : t.phase = .callTarget →
      Turn s t { t with phase := .setPriority, strict := some (s.frames t.call.slot).strict }
        (s.faultOf t)
  | readMask (next : Phase) : t.phase = .setAffinity →
      Turn s t { t with phase := next, mask := some (s.frames t.call.slot).mask } (s.faultOf t)
  | noRead (next : Phase) : t.phase ≠ .ended → (t.phase.pastMask = true → next.pastMask = true) →
      Turn s t { t with phase := next } s.fault

/-- What a step does. -/
inductive Move (s : Workers) : WorkerOp → Workers → Prop
  | entered (worker : Nat) (strict : Bool) (slot : Nat) : s.call = none →
      Move s (.start worker strict slot) { s with
        stopFlag := Function.update s.stopFlag worker false
        frames := Function.update s.frames slot { s.frames slot with strict := strict }
        call := some { number := s.calls, worker := worker, strict := strict, slot := slot }
        calls := s.calls + 1 }
  | notReserved (c : StartCall) (reserves copies : Bool) : s.call = some c → c.stage = .entered →
      reserves = false ∨ maxCores < (policy c.worker).cores →
      Move s (.allocateCores reserves copies) { s with call := none }
  | threw (c : StartCall) (m : CPUManager) (copies : Bool) : s.call = some c →
      c.stage = .entered → allocate false (policy c.worker) s.manager = .ok [] m →
      Move s (.allocateCores true copies) { s with manager := m, call := none }
  | notCopied (c : StartCall) (cores : List Core) (m : CPUManager) : s.call = some c →
      c.stage = .entered → allocate false (policy c.worker) s.manager = .ok cores m →
      Move s (.allocateCores true false) { s with manager := m, call := none }
  | allocated (c : StartCall) (cores : List Core) (m : CPUManager) : s.call = some c →
      c.stage = .entered → (policy c.worker).cores ≤ maxCores →
      allocate false (policy c.worker) s.manager = .ok cores m →
      Move s (.allocateCores true true) { s with
        manager := m
        allocatedCores := Function.update s.allocatedCores c.worker cores
        frames := Function.update s.frames c.slot
          { s.frames c.slot with mask := cpuMask cores }
        call := some { c with stage := .allocated, cores := some cores } }
  | refused (c : StartCall) (what : String) (m : CPUManager) (copies : Bool) : s.call = some c →
      c.stage = .entered → (policy c.worker).cores ≤ maxCores →
      allocate false (policy c.worker) s.manager = .error (.runtimeError what) m →
      Move s (.allocateCores true copies)
        { s with manager := m, call := some { c with stage := .allocated } }
  | created (c : StartCall) : s.call = some c → c.stage = .allocated →
      Move s (.createThread true) { s with
        threads := s.threads ++ [{ call := { c with stage := .created } }]
        call := some { c with stage := .created } }
  | notCreated (c : StartCall) : s.call = some c → c.stage = .allocated →
      Move s (.createThread false) { s with call := none }
  | returned (c : StartCall) : s.call = some c → c.stage = .created →
      Move s .returnFromStart { s with call := none }
  | stopped (worker : Nat) : s.call = none →
      Move s (.stop worker) { s with
        stopFlag := Function.update s.stopFlag worker true
        manager := deallocateAll (s.allocatedCores worker) s.manager
        allocatedCores := Function.update s.allocatedCores worker [] }
  | turned (k : Nat) (ok : Bool) (t t' : WorkerThread) (fault terminated : Bool) :
      s.threads[k]? = some t → Turn s t t' fault →
      Move s (.thread k ok) { s with
        threads := s.threads.set k t', fault := fault, terminated := terminated }

variable {policy}

theorem Turn.not_ended {s : Workers} {t t' : WorkerThread} {fault : Bool} (h : s.Turn t t' fault) :
    t.phase ≠ .ended := by
  cases h with
  | readStrict hphase => simp [hphase]
  | readMask next hphase => simp [hphase]
  | noRead next hphase _ => exact hphase

theorem Turn.call_eq {s : Workers} {t t' : WorkerThread} {fault : Bool} (h : s.Turn t t' fault) :
    t'.call = t.call := by
  cases h <;> rfl

theorem move_of_turn {s s' : Workers} {k : Nat} {ok : Bool} (h : s.turn policy k ok = some s') :
    s.Move policy (.thread k ok) s' := by
  cases hk : s.threads[k]? with
  | none =>
    rw [turn, hk] at h
    cases h
  | some t =>
    -- a step that leaves the thread where it is
    have hsame : s.threads.set k { t with phase := t.phase } = s.threads := by
      obtain ⟨hlt, ht⟩ := List.getElem?_eq_some_iff.1 hk
      rw [← ht, List.set_getElem_self]
    rw [turn, hk] at h
    cases hphase : t.phase with
    | callTarget =>
      simp only [hphase, Option.some.injEq] at h
      rw [← h]
      exact .turned k ok t _ _ _ hk (.readStrict hphase)
    -- a strict thread that cannot set its priority throws, and takes no further step
    | setPriority =>
      simp only [hphase] at h
      split at h
      · obtain rfl := Option.some.inj h
        have hturn : s.Move policy (.thread k ok) _ :=
          .turned k ok t _ s.fault true hk (.noRead t.phase (by simp [hphase]) id)
        rw [hsame] at hturn
        exact hturn
      · obtain rfl := Option.some.inj h
        exact .turned k ok t _ _ _ hk (.noRead .setAffinity (by simp [hphase])
          (by simp [hphase, Phase.pastMask]))
    | setAffinity =>
      simp only [hphase] at h
      split at h
      · obtain rfl := Option.some.inj h
        exact .turned k ok t _ _ _ hk (.noRead .setName (by simp [hphase]) fun _ => rfl)
      · split at h
        · obtain rfl := Option.some.inj h
          have hturn : s.Move policy (.thread k ok) _ :=
            .turned k ok t _ (s.faultOf t) true hk (.readMask t.phase hphase)
          rw [hphase] at hturn
          exact hturn
        · obtain rfl := Option.some.inj h
          exact .turned k ok t _ _ _ hk (.readMask .setName hphase)
    | setName =>
      simp only [hphase, Option.some.injEq] at h
      rw [← h]
      exact .turned k ok t _ _ _ hk (.noRead .func (by simp [hphase]) fun _ => rfl)
    | func =>
      simp only [hphase, Option.some.injEq] at h
      rw [← h]
      exact .turned k ok t _ _ _ hk (.noRead .ended (by simp [hphase]) fun _ => rfl)
    | ended =>
      simp only [hphase] at h
      cases h

theorem move_of_allocateCores {s s' : Workers} {c : StartCall} {reserves copies : Bool}
    (hcall : s.call = some c) (hstage : c.stage = .entered)
    (h : s.allocateCores policy reserves copies c = some s') :
    s.Move policy (.allocateCores reserves copies) s' := by
  rw [allocateCores] at h
  by_cases hreserve : reserves = false ∨ maxCores < (policy c.worker).cores
  · rw [if_pos hreserve, Option.some.injEq] at h
    rw [← h]
    exact .notReserved c reserves copies hcall hstage hreserve
  rw [if_neg hreserve] at h
  obtain ⟨hreserves, hle⟩ := not_or.1 hreserve
  obtain rfl := eq_true_of_ne_false hreserves
  have hle := Nat.not_lt.1 hle
  cases hallocate : allocate false (policy c.worker) s.manager with
  | ok cores m =>
    rw [hallocate] at h
    -- an allocation of no cores makes `start` throw
    by_cases hempty : cores = []
    · subst hempty
      simp only [if_true, Option.some.injEq] at h
      rw [← h]
      exact .threw c m copies hcall hstage hallocate
    · simp only [if_neg hempty] at h
      cases copies with
      | false =>
        obtain rfl := Option.some.inj h
        exact .notCopied c cores m hcall hstage hallocate
      | true =>
        obtain rfl := Option.some.inj h
        exact .allocated c cores m hcall hstage hle hallocate
  | error e m =>
    rw [hallocate] at h
    cases e with
    | runtimeError what =>
      simp only [Option.some.injEq] at h
      rw [← h]
      exact .refused c what m copies hcall hstage hle hallocate
    | outOfRange => cases h
    | backOfEmpty => cases h
    | selfLock => cases h
    | nestedTwice => cases h

/-- Every step is one of the moves. -/
theorem move_of_step {s s' : Workers} {op : WorkerOp} (h : s.step policy op = some s') :
    s.Move policy op s' := by
  cases hterminated : s.terminated with
  | true => simp [step, hterminated] at h
  | false =>
    have hrun : ¬ s.terminated = true := by simp [hterminated]
    unfold step at h
    rw [if_neg hrun] at h
    cases op with
    | thread k ok =>
      exact move_of_turn h
    | start worker strict slot =>
      cases hcall : s.call with
      | some c => simp [hcall] at h
      | none =>
        simp only [hcall, Option.some.injEq] at h
        rw [← h]
        exact .entered worker strict slot hcall
    | stop worker =>
      cases hcall : s.call with
      | some c => simp [hcall] at h
      | none =>
        have hstop : s.Move policy (.stop worker) _ := .stopped worker hcall
        simp only [hcall, Option.some.injEq] at h
        rw [hcall] at hstop
        rw [← h]
        exact hstop
    | allocateCores reserves copies =>
      cases hcall : s.call with
      | none => simp [hcall] at h
      | some c =>
        simp only [hcall] at h
        by_cases hstage : c.stage = .entered
        · rw [if_pos hstage] at h
          exact move_of_allocateCores hcall hstage h
        · rw [if_neg hstage] at h
          cases h
    | createThread created =>
      cases hcall : s.call with
      | none => simp [hcall] at h
      | some c =>
        simp only [hcall] at h
        by_cases hstage : c.stage = .allocated
        · rw [if_pos hstage] at h
          cases created with
          | true =>
            obtain rfl := Option.some.inj h
            exact .created c hcall hstage
          | false =>
            obtain rfl := Option.some.inj h
            exact .notCreated c hcall hstage
        · rw [if_neg hstage] at h
          cases h
    -- the call returns when the earlier threads of its worker have ended
    | returnFromStart =>
      cases hcall : s.call with
      | none => simp [hcall] at h
      | some c =>
        simp only [hcall] at h
        split at h
        · rename_i hguard
          rw [← Option.some.inj h]
          exact .returned c hcall hguard.1
        · cases h

end Workers

/-! ## Calls of `Mission::start` -/

/-- The policy that `Mission::start` gives its workers; the lowest priority of `SCHED_FIFO` is
`1`. -/
def missionPolicy : ThreadPolicy := { cores := 1, affinityType := .PINNED, priority := 1 }

/-- `start` up to the creation of the thread. Every call has the same place on the stack. -/
def startUpToThread (worker : Nat) : List WorkerOp :=
  [.start worker true 0, .allocateCores, .createThread]

/-- Thread `k` up to the end of `set_affinity`. -/
def upToAffinity (k : Nat) : List WorkerOp := List.replicate 3 (.thread k true)

end PipelineTools.Threads
