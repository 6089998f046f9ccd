import PipelineTools.Threads.Worker

/-!
# Masks that are never set

`start` ignores what `allocate_cores` returns. When `allocate` throws, `allocate_cores` catches the
exception and reports `false` without having written the mask, and `start` creates the thread all
the same; `set_affinity` then reads a local variable that nobody has initialised. A request for no
cores makes `start` throw, so that the special case for it in `set_affinity` is never reached.

`startSafe_iff` says when a call of `start` is safe, for every answer of the system. The exception
of `cores.reserve` leaves `start` before anything has happened; without memory for the copy, or
without a thread, the cores have already left the pools. `CPU_SET` ignores the cores that have no
bit, and a request that needs the nested call of `allocate` waits for its own thread for ever. The
runs considered are those in which `start` returns after its thread has left `set_affinity`.
-/

set_option autoImplicit false

namespace PipelineTools.Threads

open PipelineTools.Library

namespace Workers

/-- What the system grants a call of `start`: the memory for `cores.reserve` and for the copy of the
cores, and a thread. -/
structure Grants where
  reserves : Bool := true
  copies : Bool := true
  creates : Bool := true

/-- A call of `start` up to the point where the cores have been allocated. -/
def upToAllocation (worker : Nat) (strict : Bool) (slot : Nat) (reserves copies : Bool := true) :
    List WorkerOp :=
  [.start worker strict slot, .allocateCores reserves copies]

/-- The call has thrown: no thread has been created and no core taken. -/
structure Threw (s s' : Workers) : Prop where
  call : s'.call = none
  threads : s'.threads = s.threads
  manager : s'.manager = s.manager

/-- `start` does not return before thread `k` has left `set_affinity`. -/
def WaitsFor (k : Nat) (s : Workers) : WorkerOp → Prop
  | .returnFromStart => ∀ t ∈ s.threads[k]?, t.phase.pastMask = true
  | _ => True

/-- The call has been granted cores and has created a thread. Whatever happens next, if the call
waits for the new thread, then this thread reads the mask of these cores or has not read it yet. -/
structure SetsMask (policy : Nat → ThreadPolicy) (s s' : Workers) (worker : Nat)
    (cores : List Core) : Prop where
  granted : allocate false (policy worker) s.manager = .ok cores s'.manager
  nonempty : cores ≠ []
  recorded : s'.allocatedCores worker = cores
  created : s'.threads.length = s.threads.length + 1
  reads : ∀ ops after, EveryStep (step policy) (WaitsFor s.threads.length) s' ops →
    runFrom (step policy) s' ops = some after →
    ∀ t, after.threads[s.threads.length]? = some t →
      ∀ mask, t.mask = some mask → mask = cores.map Core.cpuId

/-- The call has created a thread whose `set_affinity` returns at once. -/
structure SkipsAffinity (policy : Nat → ThreadPolicy) (s s' : Workers) (worker : Nat) : Prop where
  noCores : (policy worker).cores = 0
  created : s'.threads.length = s.threads.length + 1

/-- A call of `start` that never runs a thread with an unset mask: it throws in `allocate_cores` or
at the creation of its thread, or the thread is safe. -/
def StartSafe (policy : Nat → ThreadPolicy) (s : Workers) (worker : Nat) (strict : Bool)
    (slot : Nat) (grants : Grants) : Prop :=
  ∃ s', runFrom (step policy) s
      (upToAllocation worker strict slot grants.reserves grants.copies) = some s' ∧
    (Threw s s' ∨ ∃ s'', s'.step policy (.createThread grants.creates) = some s'' ∧
      (Threw s s'' ∨ SkipsAffinity policy s s'' worker ∨
        ∃ cores, SetsMask policy s s'' worker cores))

/-- When a call of `start` is safe. Three of the cases throw with nothing taken; a request that is
met needs the copy, the thread and a bit for each core, unless the cores stay in the pool. -/
inductive SafeRequest (p : ThreadPolicy) (m : CPUManager) (grants : Grants) : Prop
  | notReserved : grants.reserves = false ∨ maxCores < p.cores → SafeRequest p m grants
  | noCores : p.cores = 0 → SafeRequest p m grants
  | refused : Shortage p m → grants.creates = false → SafeRequest p m grants
  | granted : ¬ Shortage p m → ¬ NeedsNested p m → grants.copies = true → grants.creates = true →
      (∀ cpu ∈ grantedIds p m, InMask cpu) → SafeRequest p m grants
  | normal : ¬ Shortage p m → p.affinityType = .NORMAL →
      grants.copies = false ∨ grants.creates = false → SafeRequest p m grants

/-- A call of `start` that has just been made. -/
def newCall (s : Workers) (worker : Nat) (strict : Bool) (slot : Nat) : StartCall :=
  { number := s.calls, worker := worker, strict := strict, slot := slot }

/-- The state in which a call of `start` has entered its body. -/
def entered (s : Workers) (worker : Nat) (strict : Bool) (slot : Nat) : Workers :=
  { s with
    stopFlag := Function.update s.stopFlag worker false
    frames := Function.update s.frames slot { s.frames slot with strict := strict }
    call := some (s.newCall worker strict slot)
    calls := s.calls + 1 }

/-- The state after an allocation of `cores` that is not empty. -/
def granted (s : Workers) (worker : Nat) (strict : Bool) (slot : Nat) (cores : List Core)
    (m : CPUManager) : Workers :=
  let s' := s.entered worker strict slot
  { s' with
    manager := m
    allocatedCores := Function.update s'.allocatedCores worker cores
    frames := Function.update s'.frames slot { s'.frames slot with mask := cpuMask cores }
    call := some { s.newCall worker strict slot with stage := .allocated, cores := some cores } }

variable {policy : Nat → ThreadPolicy} {s s' : Workers}

/-! ## What the new thread reads -/

/-- Thread `k` has read no mask but `mask`. While it has still to read one, its call is running and
`mask` is in the frame of this call. -/
def KeepsMask (k : Nat) (mask : List Int) (s : Workers) : Prop :=
  ∃ t, s.threads[k]? = some t ∧ (∀ read, t.mask = some read → read = mask) ∧
    (t.phase.pastMask = false → s.call = some t.call ∧ t.call.stage = .created ∧
      (s.frames t.call.slot).mask = mask)

/-- Outside the last stage of a call the thread has nothing to read. -/
theorem KeepsMask.of_not_created {k : Nat} {mask : List Int} (h : s.KeepsMask k mask)
    (hcall : ∀ c, s.call = some c → c.stage ≠ .created)
    (hthreads : ∀ t, s.threads[k]? = some t → s'.threads[k]? = some t) : s'.KeepsMask k mask := by
  obtain ⟨t, ht, hread, hpending⟩ := h
  refine ⟨t, hthreads t ht, hread, ?_⟩
  intro hpast
  obtain ⟨hc, hstage, -⟩ := hpending hpast
  exact absurd hstage (hcall _ hc)

theorem KeepsMask.of_stage {k : Nat} {mask : List Int} (h : s.KeepsMask k mask) {c : StartCall}
    (hcall : s.call = some c) (hstage : c.stage ≠ .created)
    (hthreads : ∀ t, s.threads[k]? = some t → s'.threads[k]? = some t) : s'.KeepsMask k mask := by
  refine h.of_not_created ?_ hthreads
  intro c' hc'
  obtain rfl := Option.some.inj (hcall.symm.trans hc')
  exact hstage

/-- A step of a thread: if it is thread `k` that reads, it reads the frame of its own call. -/
theorem KeepsMask.turned {k j : Nat} {mask : List Int} (h : s.KeepsMask k mask)
    {t t' : WorkerThread} {fault terminated : Bool} (hj : s.threads[j]? = some t)
    (hturn : s.Turn t t' fault) :
    KeepsMask k mask { s with
      threads := s.threads.set j t', fault := fault, terminated := terminated } := by
  obtain ⟨u, hu, hread, hpending⟩ := h
  by_cases hjk : j = k
  · subst hjk
    obtain rfl := Option.some.inj (hj.symm.trans hu)
    have hlt := (List.getElem?_eq_some_iff.1 hj).1
    refine ⟨t', List.getElem?_set_self hlt, ?_, ?_⟩
    · cases hturn with
      | readStrict hphase => exact hread
      | readMask next hphase =>
        intro read hmask
        rw [← Option.some.inj hmask]
        exact (hpending (by rw [hphase]; rfl)).2.2
      | noRead next _ _ => exact hread
    · intro hpast
      rw [hturn.call_eq]
      apply hpending
      cases hturn with
      | readStrict hphase => rw [hphase]; rfl
      | readMask next hphase => rw [hphase]; rfl
      | noRead next _ hnext =>
        cases hbefore : t.phase.pastMask with
        | false => rfl
        | true =>
          rw [hnext hbefore] at hpast
          cases hpast
  · exact ⟨u, (List.getElem?_set_ne hjk).trans hu, hread, hpending⟩

/-- A step in which the call waits for the thread. -/
theorem keepsMask_step {k : Nat} {mask : List Int} {op : WorkerOp} (h : s.KeepsMask k mask)
    (hwaits : s.WaitsFor k op) (hstep : s.step policy op = some s') : s'.KeepsMask k mask := by
  have hmove := move_of_step hstep
  cases hmove with
  | entered worker strict slot hcall =>
    exact h.of_not_created (by rw [hcall]; nofun) fun _ ht => ht
  | notReserved c reserves copies hcall hstage hreserve =>
    exact h.of_stage hcall (by rw [hstage]; decide) fun _ ht => ht
  | threw c m copies hcall hstage hallocate =>
    exact h.of_stage hcall (by rw [hstage]; decide) fun _ ht => ht
  | notCopied c cores m hcall hstage hallocate =>
    exact h.of_stage hcall (by rw [hstage]; decide) fun _ ht => ht
  | allocated c cores m hcall hstage hle hallocate =>
    exact h.of_stage hcall (by rw [hstage]; decide) fun _ ht => ht
  | refused c what m copies hcall hstage hle hallocate =>
    exact h.of_stage hcall (by rw [hstage]; decide) fun _ ht => ht
  | created c hcall hstage =>
    refine h.of_stage hcall (by rw [hstage]; decide) ?_
    intro t ht
    exact (List.getElem?_append_left (List.getElem?_eq_some_iff.1 ht).1).trans ht
  | notCreated c hcall hstage =>
    exact h.of_stage hcall (by rw [hstage]; decide) fun _ ht => ht
  -- the call has waited until the thread has read its mask
  | returned c hcall hstage =>
    obtain ⟨t, ht, hread, -⟩ := h
    refine ⟨t, ht, hread, ?_⟩
    intro hpast
    rw [hwaits t ht] at hpast
    cases hpast
  | stopped worker hcall => exact h
  | turned j ok t t' fault terminated hj hturn => exact h.turned hj hturn

theorem keepsMask_run {k : Nat} {mask : List Int} {ops : List WorkerOp} {after : Workers}
    (h : s.KeepsMask k mask) (hwaits : EveryStep (step policy) (WaitsFor k) s ops)
    (hrun : runFrom (step policy) s ops = some after) : after.KeepsMask k mask := by
  have hstates : EveryState (step policy) (KeepsMask k mask) s ops :=
    everyState_of_everyStep (fun _ _ _ h hwaits hstep => keepsMask_step h hwaits hstep) h hwaits
  exact hstates ops [] after (List.append_nil _).symm hrun

theorem step_thread (hrun : s.terminated = false) (k : Nat) (ok : Bool) :
    s.step policy (.thread k ok) = s.turn policy k ok := by
  unfold step
  rw [if_neg (by simp [hrun])]

/-- A new thread whose system calls succeed reads the mask that is in the frame of its call. -/
theorem mask_of_upToAffinity {k : Nat} {t : WorkerThread} (hrun : s.terminated = false)
    (ht : s.threads[k]? = some t) (hphase : t.phase = .callTarget)
    (hcores : (policy t.call.worker).cores ≠ 0) :
    ∃ after t', runFrom (step policy) s (upToAffinity k) = some after ∧
      after.threads[k]? = some t' ∧ t'.mask = some (s.frames t.call.slot).mask := by
  have hlt := (List.getElem?_eq_some_iff.1 ht).1
  let t₁ : WorkerThread :=
    { t with phase := .setPriority, strict := some (s.frames t.call.slot).strict }
  let s₁ : Workers := { s with threads := s.threads.set k t₁, fault := s.faultOf t }
  let t₂ : WorkerThread := { t₁ with phase := .setAffinity }
  let s₂ : Workers := { s₁ with threads := s₁.threads.set k t₂ }
  let t₃ : WorkerThread := { t₂ with phase := .setName, mask := some (s.frames t.call.slot).mask }
  let s₃ : Workers := { s₂ with threads := s₂.threads.set k t₃, fault := s₂.faultOf t₂ }
  have hk₁ : s₁.threads[k]? = some t₁ := List.getElem?_set_self hlt
  have hk₂ : s₂.threads[k]? = some t₂ := List.getElem?_set_self (by simpa [s₁] using hlt)
  have hk₃ : s₃.threads[k]? = some t₃ := List.getElem?_set_self (by simpa [s₂, s₁] using hlt)
  have h₁ : s.step policy (.thread k true) = some s₁ := by
    rw [step_thread hrun, turn, ht]
    simp only [hphase]
    rfl
  have h₂ : s₁.step policy (.thread k true) = some s₂ := by
    rw [step_thread (s := s₁) hrun, turn, hk₁]
    rfl
  have h₃ : s₂.step policy (.thread k true) = some s₃ := by
    rw [step_thread (s := s₂) hrun, turn, hk₂]
    show (if (policy t.call.worker).cores = 0 then _ else _) = some s₃
    rw [if_neg hcores]
    rfl
  refine ⟨s₃, t₃, ?_, hk₃, rfl⟩
  exact runFrom_cons.2 ⟨s₁, h₁, runFrom_cons.2 ⟨s₂, h₂, runFrom_cons.2 ⟨s₃, h₃, rfl⟩⟩⟩

theorem waitsFor_upToAffinity (k : Nat) :
    EveryStep (step policy) (WaitsFor k) s (upToAffinity k) := by
  intro pre op post m hls _
  have hop : op ∈ upToAffinity k := by
    rw [hls]
    exact List.mem_append_right _ List.mem_cons_self
  obtain rfl := List.eq_of_mem_replicate hop
  trivial

/-! ## The steps of a call -/

/-- A call of `start` runs `allocate_cores` on the pools as they are. -/
theorem run_upToAllocation {worker slot : Nat} {strict : Bool} (reserves copies : Bool)
    (hcall : s.call = none) (hrun : s.terminated = false) :
    runFrom (step policy) s (upToAllocation worker strict slot reserves copies) =
      (s.entered worker strict slot).allocateCores policy reserves copies
        (s.newCall worker strict slot) := by
  have hstart : s.step policy (.start worker strict slot) =
      some (s.entered worker strict slot) := by
    unfold step
    rw [if_neg (by simp [hrun])]
    simp only [hcall]
    rfl
  have hallocate : (s.entered worker strict slot).step policy (.allocateCores reserves copies) =
      (s.entered worker strict slot).allocateCores policy reserves copies
        (s.newCall worker strict slot) := by
    unfold step
    rw [if_neg (by simp [entered, hrun])]
    rfl
  simp only [runFrom, upToAllocation, List.foldlM_cons, List.foldlM_nil, hstart, hallocate,
    Option.bind_eq_bind, Option.bind_some]
  exact Option.bind_fun_some _

section Allocation

variable {worker slot : Nat} {strict : Bool}

/-- The exception of `reserve` leaves `start` before `allocate` is called. -/
theorem run_of_notReserved {reserves : Bool} (copies : Bool) (hcall : s.call = none)
    (hrun : s.terminated = false)
    (hreserve : reserves = false ∨ maxCores < (policy worker).cores) :
    runFrom (step policy) s (upToAllocation worker strict slot reserves copies) =
      some { s.entered worker strict slot with call := none } := by
  rw [run_upToAllocation reserves copies hcall hrun, allocateCores]
  exact if_pos hreserve

/-- With the memory of `reserve` the call comes to `allocate`. -/
theorem run_of_reserved (copies : Bool) (hcall : s.call = none) (hrun : s.terminated = false)
    (hle : (policy worker).cores ≤ maxCores) :
    runFrom (step policy) s (upToAllocation worker strict slot true copies) =
      match allocate false (policy worker) s.manager with
      | .ok cores m =>
        if cores = [] then some { s.entered worker strict slot with manager := m, call := none }
        else if copies = false then
          some { s.entered worker strict slot with manager := m, call := none }
        else some (s.granted worker strict slot cores m)
      | .error (.runtimeError _) m => some { s.entered worker strict slot with
          manager := m, call := some { s.newCall worker strict slot with stage := .allocated } }
      | .error _ _ => none := by
  have hreserve : ¬ (true = false ∨ maxCores < (policy worker).cores) := by
    simpa using hle
  rw [run_upToAllocation true copies hcall hrun, allocateCores]
  exact if_neg hreserve

/-- A request for no cores makes the call throw. -/
theorem run_of_no_cores {m : CPUManager} (copies : Bool) (hcall : s.call = none)
    (hrun : s.terminated = false) (h : allocate false (policy worker) s.manager = .ok [] m) :
    runFrom (step policy) s (upToAllocation worker strict slot true copies) =
      some { s.entered worker strict slot with manager := m, call := none } := by
  have hle : (policy worker).cores ≤ maxCores := by
    rw [← (allocation_of_ok h).length_eq]
    exact Nat.zero_le _
  rw [run_of_reserved copies hcall hrun hle]
  simp only [h, if_true]

theorem run_of_granted {cores : List Core} {m : CPUManager} (copies : Bool)
    (hcall : s.call = none) (hrun : s.terminated = false)
    (hle : (policy worker).cores ≤ maxCores) (hcores : cores ≠ [])
    (h : allocate false (policy worker) s.manager = .ok cores m) :
    runFrom (step policy) s (upToAllocation worker strict slot true copies) =
      if copies = false then
        some { s.entered worker strict slot with manager := m, call := none }
      else some (s.granted worker strict slot cores m) := by
  rw [run_of_reserved copies hcall hrun hle]
  simp only [h, if_neg hcores]

/-- The exception of `allocate` is swallowed: the call goes on, and the mask is what it was. -/
theorem run_of_refused {what : String} {m : CPUManager} (copies : Bool) (hcall : s.call = none)
    (hrun : s.terminated = false) (hle : (policy worker).cores ≤ maxCores)
    (h : allocate false (policy worker) s.manager = .error (.runtimeError what) m) :
    runFrom (step policy) s (upToAllocation worker strict slot true copies) =
      some { s.entered worker strict slot with
        manager := m, call := some { s.newCall worker strict slot with stage := .allocated } } := by
  rw [run_of_reserved copies hcall hrun hle]
  simp only [h]

/-- A call that waits for its own thread gets nowhere. -/
theorem run_of_selfLock {m : CPUManager} (copies : Bool) (hcall : s.call = none)
    (hrun : s.terminated = false) (hle : (policy worker).cores ≤ maxCores)
    (h : allocate false (policy worker) s.manager = .error .selfLock m) :
    runFrom (step policy) s (upToAllocation worker strict slot true copies) = none := by
  rw [run_of_reserved copies hcall hrun hle]
  simp only [h]

/-- The creation of the thread, and the exception of its constructor. -/
theorem step_createThread (created : Bool) {c : StartCall} (hrun : s.terminated = false)
    (hcall : s.call = some c) (hstage : c.stage = .allocated) :
    s.step policy (.createThread created) =
      if created then some { s with
        threads := s.threads ++ [{ call := { c with stage := .created } }]
        call := some { c with stage := .created } }
      else some { s with call := none } := by
  unfold step
  rw [if_neg (by simp [hrun])]
  simp only [hcall, hstage, if_true]

theorem step_createThread_of_none (created : Bool) (hcall : s.call = none) :
    s.step policy (.createThread created) = none := by
  unfold step
  split
  · rfl
  · simp only [hcall]

end Allocation

/-! ## When a call is safe -/

section Safe

variable {worker slot : Nat} {strict reserves copies creates : Bool}

/-- A manager that cannot give the cores has been asked for some. -/
theorem cores_pos_of_shortage {p : ThreadPolicy} {m : CPUManager} (h : Shortage p m) :
    0 < p.cores := by
  cases haff : p.affinityType with
  | NORMAL =>
    rw [Shortage, haff] at h
    exact Nat.zero_lt_of_lt h
  | PINNED =>
    rw [Shortage, haff] at h
    exact Nat.zero_lt_of_lt h
  | ISOLATED =>
    rw [Shortage, haff] at h
    rcases h with hlt | ⟨-, hlt⟩
    · exact Nat.zero_lt_of_lt hlt
    · exact Nat.zero_lt_of_lt hlt

/-- A call that has thrown in `allocate_cores` creates no thread. -/
theorem startSafe_iff_threw {t : Workers} (hcall : t.call = none)
    (hrun : runFrom (step policy) s (upToAllocation worker strict slot reserves copies) = some t) :
    StartSafe policy s worker strict slot ⟨reserves, copies, creates⟩ ↔ Threw s t := by
  constructor
  · rintro ⟨s', hs', hsafe⟩
    rw [hrun] at hs'
    obtain rfl := Option.some.inj hs'
    rcases hsafe with hthrew | ⟨s'', hs'', -⟩
    · exact hthrew
    · rw [step_createThread_of_none creates hcall] at hs''
      cases hs''
  · intro hthrew
    exact ⟨t, hrun, .inl hthrew⟩

/-- A call that comes to the creation of its thread. -/
theorem startSafe_iff_created {t t' : Workers} (hcall : t.call ≠ none)
    (hrun : runFrom (step policy) s (upToAllocation worker strict slot reserves copies) = some t)
    (hcreate : t.step policy (.createThread creates) = some t') :
    StartSafe policy s worker strict slot ⟨reserves, copies, creates⟩ ↔
      Threw s t' ∨ SkipsAffinity policy s t' worker ∨
        ∃ cores, SetsMask policy s t' worker cores := by
  constructor
  · rintro ⟨s', hs', hsafe⟩
    rw [hrun] at hs'
    obtain rfl := Option.some.inj hs'
    rcases hsafe with hthrew | ⟨s'', hs'', hsafe⟩
    · exact absurd hthrew.call hcall
    · rw [hcreate] at hs''
      obtain rfl := Option.some.inj hs''
      exact hsafe
  · intro hsafe
    exact ⟨t, hrun, .inr ⟨t', hcreate, hsafe⟩⟩

/-- A call whose `reserve` fails takes nothing. -/
theorem startSafe_of_notReserved (hcall : s.call = none) (hrun : s.terminated = false)
    (hreserve : reserves = false ∨ maxCores < (policy worker).cores) :
    StartSafe policy s worker strict slot ⟨reserves, copies, creates⟩ :=
  (startSafe_iff_threw rfl (run_of_notReserved copies hcall hrun hreserve)).2 ⟨rfl, rfl, rfl⟩

/-- The thread of a call that has not been given its cores reads an unset mask, if there is one. -/
theorem startSafe_of_shortage_iff (hcall : s.call = none) (hrun : s.terminated = false)
    (hfree : s.manager.mutexHeld = false) (hle : (policy worker).cores ≤ maxCores)
    (hshort : Shortage (policy worker) s.manager) :
    StartSafe policy s worker strict slot ⟨true, copies, creates⟩ ↔ creates = false := by
  have hreturns := allocate_of_not_needsNested hfree (not_needsNested_of_shortage hshort)
  rcases hreturns with ⟨cores, m, hok⟩ | ⟨what, m, herror⟩
  · exact absurd hshort (allocation_of_ok hok).not_shortage
  obtain ⟨-, rfl⟩ := shortage_of_refused herror
  let refused : Workers := { s.entered worker strict slot with
    call := some { s.newCall worker strict slot with stage := .allocated } }
  have hrefused : runFrom (step policy) s (upToAllocation worker strict slot true copies) =
      some refused :=
    run_of_refused copies hcall hrun hle herror
  cases creates with
  | false =>
    have hcreate : refused.step policy (.createThread false) =
        some { refused with call := none } :=
      step_createThread (s := refused) false hrun rfl rfl
    rw [startSafe_iff_created (Option.some_ne_none _) hrefused hcreate]
    exact iff_of_true (.inl ⟨rfl, rfl, rfl⟩) rfl
  | true =>
    let call : StartCall := { s.newCall worker strict slot with stage := .allocated }
    have hcreate : refused.step policy (.createThread true) = some { refused with
        threads := s.threads ++ [{ call := { call with stage := .created } }]
        call := some { call with stage := .created } } :=
      step_createThread (s := refused) true hrun rfl rfl
    rw [startSafe_iff_created (Option.some_ne_none _) hrefused hcreate]
    refine iff_of_false ?_ (by decide)
    rintro (hthrew | hskips | ⟨cores, hsets⟩)
    · cases hthrew.call
    · exact absurd hskips.noCores (Nat.ne_of_gt (cores_pos_of_shortage hshort))
    · have hgranted := hsets.granted
      rw [herror] at hgranted
      cases hgranted

variable {cores : List Core} {m : CPUManager}

/-- A thread with cores is safe exactly when each of them has a bit in the mask. -/
theorem startSafe_of_created_iff (hcall : s.call = none) (hrun : s.terminated = false)
    (hle : (policy worker).cores ≤ maxCores) (hpos : 0 < (policy worker).cores)
    (h : allocate false (policy worker) s.manager = .ok cores m) :
    StartSafe policy s worker strict slot ⟨true, true, true⟩ ↔
      ∀ cpu ∈ grantedIds (policy worker) s.manager, InMask cpu := by
  have hgranted := allocation_of_ok h
  have hne : cores ≠ [] := by
    rw [← List.length_pos_iff, hgranted.length_eq]
    exact hpos
  let call : StartCall :=
    { s.newCall worker strict slot with stage := .created, cores := some cores }
  let created : Workers :=
    { s.granted worker strict slot cores m with
      threads := s.threads ++ [{ call := call }]
      call := some call }
  have hallocated : runFrom (step policy) s (upToAllocation worker strict slot true true) =
      some (s.granted worker strict slot cores m) :=
    run_of_granted true hcall hrun hle hne h
  have hcreate : (s.granted worker strict slot cores m).step policy (.createThread true) =
      some created :=
    step_createThread (s := s.granted worker strict slot cores m) true hrun rfl rfl
  have hlast : created.threads[s.threads.length]? = some { call := call } := by
    simp [created]
  have hframe : (created.frames slot).mask = cpuMask cores := by
    simp [created, granted]
  rw [startSafe_iff_created (Option.some_ne_none _) hallocated hcreate, ← hgranted.cpuIds_eq,
    ← cpuMask_eq_iff]
  constructor
  · rintro (hthrew | hskips | ⟨cores', hsets⟩)
    · cases hthrew.call
    · exact absurd hskips.noCores (Nat.ne_of_gt hpos)
    -- three steps of the new thread read the mask
    · have hcores := hsets.granted
      rw [h] at hcores
      obtain ⟨rfl, -⟩ := EStateM.Result.ok.inj hcores
      have hreads : ∃ after t',
          runFrom (step policy) created (upToAffinity s.threads.length) = some after ∧
            after.threads[s.threads.length]? = some t' ∧
            t'.mask = some (created.frames slot).mask :=
        mask_of_upToAffinity (s := created) hrun hlast rfl (Nat.ne_of_gt hpos)
      obtain ⟨after, t', hafter, ht', hmask⟩ := hreads
      have hread := hsets.reads _ after (waitsFor_upToAffinity _) hafter t' ht' _ hmask
      rw [← hread]
      exact hframe.symm
  · intro hmask
    have hkeeps : created.KeepsMask s.threads.length (cores.map Core.cpuId) := by
      refine ⟨_, hlast, nofun, ?_⟩
      intro _
      exact ⟨rfl, rfl, hframe.trans hmask⟩
    refine .inr (.inr ⟨cores, h, hne, Function.update_self .., by simp [created], ?_⟩)
    intro ops after hwaits hafter t ht
    obtain ⟨u, hu, hread, -⟩ := keepsMask_run hkeeps hwaits hafter
    obtain rfl := Option.some.inj (ht.symm.trans hu)
    exact hread

/-- Cores that have been granted are lost with the copy or the thread, if they have left a pool. -/
theorem startSafe_of_lost_iff (hcall : s.call = none) (hrun : s.terminated = false)
    (hle : (policy worker).cores ≤ maxCores) (hpos : 0 < (policy worker).cores)
    (h : allocate false (policy worker) s.manager = .ok cores m)
    (hlost : copies = false ∨ creates = false) :
    StartSafe policy s worker strict slot ⟨true, copies, creates⟩ ↔
      (policy worker).affinityType = .NORMAL := by
  have hgranted := allocation_of_ok h
  have hne : cores ≠ [] := by
    rw [← List.length_pos_iff, hgranted.length_eq]
    exact hpos
  have hallocated : runFrom (step policy) s (upToAllocation worker strict slot true copies) = _ :=
    run_of_granted copies hcall hrun hle hne h
  have hthrew : ∀ {s' : Workers}, s'.call = none → s'.threads = s.threads → s'.manager = m →
      (Threw s s' ↔ (policy worker).affinityType = .NORMAL) := by
    intro s' hnone hthreads hmanager
    rw [← hgranted.manager_eq_iff hpos, ← hmanager]
    exact ⟨fun hs' => hs'.manager, fun hs' => ⟨hnone, hthreads, hs'⟩⟩
  cases copies with
  | false =>
    rw [startSafe_iff_threw rfl hallocated]
    exact hthrew rfl rfl rfl
  | true =>
    obtain rfl : creates = false := hlost.resolve_left (by decide)
    let thrown : Workers := { s.granted worker strict slot cores m with call := none }
    have hcreate : (s.granted worker strict slot cores m).step policy (.createThread false) =
        some thrown :=
      step_createThread (s := s.granted worker strict slot cores m) false hrun rfl rfl
    rw [startSafe_iff_created (Option.some_ne_none _) hallocated hcreate, or_iff_left]
    · exact hthrew rfl rfl rfl
    -- there is no thread
    · rintro (hskips | ⟨cores', hsets⟩)
      · exact absurd hskips.noCores (Nat.ne_of_gt hpos)
      · exact absurd hsets.created (Nat.ne_of_lt (Nat.lt_succ_self _))

theorem startSafe_of_no_cores (hcall : s.call = none) (hrun : s.terminated = false)
    (hzero : (policy worker).cores = 0)
    (h : allocate false (policy worker) s.manager = .ok cores m) :
    StartSafe policy s worker strict slot ⟨true, copies, creates⟩ := by
  have hgranted := allocation_of_ok h
  obtain rfl := hgranted.manager_eq hzero
  obtain rfl : cores = [] := by
    rw [← List.length_eq_zero_iff, hgranted.length_eq]
    exact hzero
  exact (startSafe_iff_threw rfl (run_of_no_cores copies hcall hrun h)).2 ⟨rfl, rfl, rfl⟩

/-- A request that needs the nested call waits for itself. -/
theorem not_startSafe_of_needsNested (hcall : s.call = none) (hrun : s.terminated = false)
    (hfree : s.manager.mutexHeld = false) (hle : (policy worker).cores ≤ maxCores)
    (hnested : NeedsNested (policy worker) s.manager) :
    ¬ StartSafe policy s worker strict slot ⟨true, copies, creates⟩ := by
  rintro ⟨s', hs', -⟩
  have hlock := allocate_selfLock (by rw [hfree, Bool.false_and]) hnested rfl
  rw [run_of_selfLock copies hcall hrun hle hlock] at hs'
  cases hs'

theorem not_safeRequest_of_needsNested
    (hreserve : ¬ (reserves = false ∨ maxCores < (policy worker).cores))
    (hnested : NeedsNested (policy worker) s.manager) :
    ¬ SafeRequest (policy worker) s.manager ⟨reserves, copies, creates⟩ := by
  intro hsafe
  cases hsafe with
  | notReserved h => exact hreserve h
  | noCores h =>
    have hless := hnested.2.2.1
    omega
  | refused hshort _ => exact not_needsNested_of_shortage hshort hnested
  | granted _ h _ _ _ => exact h hnested
  | normal _ hnormal _ =>
    rw [hnested.1] at hnormal
    cases hnormal

end Safe

/-- A call of `start` is safe exactly when its request is, for all policies, all pools and all
answers of the system. -/
theorem startSafe_iff (policy : Nat → ThreadPolicy) (s : Workers) (worker : Nat) (strict : Bool)
    (slot : Nat) (grants : Grants) (hcall : s.call = none) (hrun : s.terminated = false)
    (hfree : s.manager.mutexHeld = false) :
    StartSafe policy s worker strict slot grants ↔
      SafeRequest (policy worker) s.manager grants := by
  obtain ⟨reserves, copies, creates⟩ := grants
  by_cases hreserve : reserves = false ∨ maxCores < (policy worker).cores
  · -- `start` throws at `cores.reserve`, before it has taken anything
    exact iff_of_true (startSafe_of_notReserved hcall hrun hreserve) (.notReserved hreserve)
  obtain ⟨hreserves, hle⟩ := not_or.1 hreserve
  obtain rfl := eq_true_of_ne_false hreserves
  have hle := Nat.le_of_not_lt hle
  by_cases hnested : NeedsNested (policy worker) s.manager
  · -- the nested call of `allocate` waits for its own lock
    exact iff_of_false (not_startSafe_of_needsNested hcall hrun hfree hle hnested)
      (not_safeRequest_of_needsNested hreserve hnested)
  have hreturns := allocate_of_not_needsNested hfree hnested
  rcases hreturns with ⟨cores, m, hok⟩ | ⟨what, m, herror⟩
  · have hshort := (allocation_of_ok hok).not_shortage
    rcases Nat.eq_zero_or_pos (policy worker).cores with hzero | hpos
    · -- no cores are asked for, and `set_affinity` is skipped
      exact iff_of_true (startSafe_of_no_cores hcall hrun hzero hok) (.noCores hzero)
    by_cases hlost : copies = false ∨ creates = false
    · -- the cores were taken, and then an exception leaves `start`
      rw [startSafe_of_lost_iff hcall hrun hle hpos hok hlost]
      constructor
      · intro hnormal
        exact .normal hshort hnormal hlost
      · intro hsafe
        cases hsafe with
        | notReserved h => exact absurd h hreserve
        | noCores h => exact absurd h (Nat.ne_of_gt hpos)
        | refused h _ => exact absurd h hshort
        | granted _ _ hcopies hcreates _ =>
          rcases hlost with rfl | rfl
          · cases hcopies
          · cases hcreates
        | normal _ hnormal _ => exact hnormal
    · -- the thread runs with the mask of its cores
      obtain ⟨hcopies, hcreates⟩ := not_or.1 hlost
      obtain rfl := eq_true_of_ne_false hcopies
      obtain rfl := eq_true_of_ne_false hcreates
      rw [startSafe_of_created_iff hcall hrun hle hpos hok]
      constructor
      · intro hids
        exact .granted hshort hnested rfl rfl hids
      · intro hsafe
        cases hsafe with
        | notReserved h => exact absurd h hreserve
        | noCores h => exact absurd h (Nat.ne_of_gt hpos)
        | refused h _ => exact absurd h hshort
        | granted _ _ _ _ hids => exact hids
        | normal _ _ h => exact absurd h hlost
  · -- `allocate` has thrown, and `start` goes on without a mask
    have hshort := (shortage_of_refused herror).1
    rw [startSafe_of_shortage_iff hcall hrun hfree hle hshort]
    constructor
    · intro hcreates
      exact .refused hshort hcreates
    · intro hsafe
      cases hsafe with
      | notReserved h => exact absurd h hreserve
      | noCores h => exact absurd h (Nat.ne_of_gt (cores_pos_of_shortage hshort))
      | refused _ hcreates => exact hcreates
      | granted h _ _ _ _ => exact absurd hshort h
      | normal h _ _ => exact absurd hshort h

/-- One worker of a mission on the small machine, when the system grants everything. -/
theorem missionWorker_startSafe_iff :
    StartSafe (fun _ => missionPolicy) (init smallMachine fun _ => ⟨false, []⟩) 0 true 0 {} ↔
      SafeRequest missionPolicy smallMachine {} :=
  startSafe_iff (fun _ => missionPolicy) (init smallMachine fun _ => ⟨false, []⟩) 0 true 0 {} rfl
    rfl rfl

/-- All pools are empty, and the stack holds an old mask. -/
def exhausted : Workers := init ⟨[], [], [0], false⟩ fun _ => ⟨false, [5]⟩

/-- With no core left a mission's worker runs on whatever the stack holds. -/
theorem exhausted_readsUnset :
    ¬ StartSafe (fun _ => missionPolicy) exhausted 0 true 0 {} ∧
      (runFrom (step fun _ => missionPolicy) exhausted
          (startUpToThread 0 ++ upToAffinity 0)).map
        (fun s => (s.call.isSome, s.threads.map fun t => (t.cpus, t.mask))) =
          some (true, [([], some [5])]) := by
  refine ⟨?_, by decide⟩
  have hshort : Shortage missionPolicy exhausted.manager := by decide
  have hiff : StartSafe (fun _ => missionPolicy) exhausted 0 true 0 ⟨true, true, true⟩ ↔
      true = false :=
    startSafe_of_shortage_iff rfl rfl rfl (by decide) hshort
  intro hsafe
  cases hiff.1 hsafe

end Workers

end PipelineTools.Threads
