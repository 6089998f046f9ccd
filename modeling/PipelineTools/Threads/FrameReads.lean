import PipelineTools.Threads.Worker

/-!
# What a thread reads from the frame of `start`

The function of a thread refers to `strict` and `mask` in the frame of the call of `start` that
created the thread. Nothing makes `start` wait until the thread has read them. `reads_own` says what
the references rely on: each call of `start` returns after its thread has left `set_affinity`, the
manager grants each request, so that `mask` is set at all, and the cores granted have a bit in it.
`hastyStarts_pin_elsewhere` is a schedule in which one call returns too early, and the thread of the
first worker pins itself to the core of the second.
-/

set_option autoImplicit false

namespace PipelineTools.Threads

open PipelineTools.Library

namespace Workers

/-- No thread has read a frame whose call had returned, and what the threads have read is what the
calls that created them have set: the argument `strict`, and the cores allocated for the worker. -/
def ReadsOwn (s : Workers) : Prop :=
  s.fault = false ∧ ∀ t ∈ s.threads, (∀ b, t.strict = some b → b = t.call.strict) ∧
    ∀ mask, t.mask = some mask →
      ∃ cores, t.call.cores = some cores ∧ mask = cores.map Core.cpuId

/-- A request that gets as far as `allocate` can be met, with cores that have a bit in the mask, and
`start` returns after the thread it has created has left `set_affinity`. -/
def Timely (policy : Nat → ThreadPolicy) (s : Workers) : WorkerOp → Prop
  | .allocateCores reserves _ => ∀ c ∈ s.call, reserves = true →
      (policy c.worker).cores ≤ maxCores → ¬ Shortage (policy c.worker) s.manager ∧
        ∀ cpu ∈ grantedIds (policy c.worker) s.manager, InMask cpu
  | .returnFromStart => ∀ c ∈ s.call, ∀ t ∈ s.threads, t.call.number = c.number →
      t.phase.pastMask = true
  | _ => True

instance (policy : Nat → ThreadPolicy) (s : Workers) :
    (op : WorkerOp) → Decidable (s.Timely policy op)
  | .allocateCores reserves _ =>
    inferInstanceAs (Decidable (∀ c ∈ s.call, reserves = true →
      (policy c.worker).cores ≤ maxCores → ¬ Shortage (policy c.worker) s.manager ∧
        ∀ cpu ∈ grantedIds (policy c.worker) s.manager, InMask cpu))
  | .returnFromStart =>
    inferInstanceAs (Decidable (∀ c ∈ s.call, ∀ t ∈ s.threads, t.call.number = c.number →
      t.phase.pastMask = true))
  | .start .. => isTrue trivial
  | .createThread _ => isTrue trivial
  | .stop _ => isTrue trivial
  | .thread .. => isTrue trivial

/-- The frame of the running call holds what the call has set, and only the thread that it has
created still has to read from a frame. -/
structure FrameInv (s : Workers) : Prop where
  reads : s.ReadsOwn
  pending : ∀ t ∈ s.threads, t.phase.pastMask = false → s.call = some t.call ∧
    t.call.stage = .created
  frame : ∀ c, s.call = some c → (s.frames c.slot).strict = c.strict ∧
    (c.stage ≠ .entered → ∃ cores, c.cores = some cores ∧
      (s.frames c.slot).mask = cores.map Core.cpuId)

theorem frameInv_init (manager : CPUManager) (frames : Nat → Frame) :
    (init manager frames).FrameInv where
  reads := ⟨rfl, fun _ ht => absurd ht List.not_mem_nil⟩
  pending _ ht := absurd ht List.not_mem_nil
  frame c hc := by
    cases hc

/-- Outside the last stage of a call, no thread still has to read from a frame. -/
theorem FrameInv.no_reader {s : Workers} (h : s.FrameInv)
    (hcall : ∀ c, s.call = some c → c.stage ≠ .created) {t : WorkerThread} (ht : t ∈ s.threads) :
    t.phase.pastMask ≠ false := by
  intro hpast
  obtain ⟨hc, hstage⟩ := h.pending t ht hpast
  exact hcall _ hc hstage

theorem FrameInv.no_reader_of_stage {s : Workers} (h : s.FrameInv) {c : StartCall}
    (hcall : s.call = some c) (hstage : c.stage ≠ .created) (t : WorkerThread)
    (ht : t ∈ s.threads) : t.phase.pastMask ≠ false := by
  refine h.no_reader ?_ ht
  intro c' hc'
  obtain rfl := Option.some.inj (hcall.symm.trans hc')
  exact hstage

/-- An exception leaves `start` before the call has created a thread. -/
theorem FrameInv.of_thrown {s : Workers} (h : s.FrameInv)
    (hnone : ∀ t ∈ s.threads, t.phase.pastMask ≠ false) (m : CPUManager) :
    FrameInv { s with manager := m, call := none } := by
  refine ⟨h.reads, ?_, nofun⟩
  intro t ht hphase
  exact absurd hphase (hnone t ht)

/-- A step of a thread: a thread that reads is the one whose call is running. -/
theorem frameInv_turned {s : Workers} (h : s.FrameInv) {k : Nat} {t t' : WorkerThread}
    {fault terminated : Bool} (hk : s.threads[k]? = some t) (hturn : s.Turn t t' fault) :
    FrameInv { s with
      threads := s.threads.set k t', fault := fault, terminated := terminated } := by
  have ht : t ∈ s.threads := List.mem_of_getElem? hk
  obtain ⟨hfault, hreads⟩ := h.reads
  have hactive : t.phase.pastMask = false → s.faultOf t = false := by
    intro hpast
    have hcall := (h.pending t ht hpast).1
    have hframe : s.Active t.call := ⟨t.call, hcall, rfl⟩
    rw [faultOf, hfault, decide_eq_true hframe]
    rfl
  have hfault' : fault = false := by
    cases hturn with
    | readStrict hphase => exact hactive (by rw [hphase]; rfl)
    | readMask next hphase => exact hactive (by rw [hphase]; rfl)
    | noRead next _ _ => exact hfault
  have hread : (∀ b, t'.strict = some b → b = t'.call.strict) ∧
      ∀ mask, t'.mask = some mask →
        ∃ cores, t'.call.cores = some cores ∧ mask = cores.map Core.cpuId := by
    cases hturn with
    | readStrict hphase =>
      have hcall := (h.pending t ht (by rw [hphase]; rfl)).1
      refine ⟨?_, (hreads t ht).2⟩
      intro b hb
      rw [← Option.some.inj hb]
      exact (h.frame _ hcall).1
    | readMask next hphase =>
      obtain ⟨hcall, hstage⟩ := h.pending t ht (by rw [hphase]; rfl)
      refine ⟨(hreads t ht).1, ?_⟩
      intro mask hmask
      obtain ⟨cores, hcores, hframe⟩ := (h.frame _ hcall).2 (by rw [hstage]; decide)
      exact ⟨cores, hcores, (Option.some.inj hmask).symm.trans hframe⟩
    | noRead next _ _ => exact hreads t ht
  -- the mask is the last thing a thread reads
  have hpending : t'.phase.pastMask = false → s.call = some t'.call ∧
      t'.call.stage = .created := by
    intro hpast'
    rw [hturn.call_eq]
    apply h.pending t ht
    cases hturn with
    | readStrict hphase => rw [hphase]; rfl
    | readMask next hphase => rw [hphase]; rfl
    | noRead next _ hnext =>
      cases hpast : t.phase.pastMask with
      | false => rfl
      | true =>
        rw [hnext hpast] at hpast'
        cases hpast'
  refine ⟨⟨hfault', ?_⟩, ?_, h.frame⟩
  · intro u hu
    rcases List.mem_or_eq_of_mem_set hu with hu | rfl
    · exact hreads u hu
    · exact hread
  · intro u hu
    rcases List.mem_or_eq_of_mem_set hu with hu | rfl
    · exact h.pending u hu
    · exact hpending

/-- A timely step keeps the invariant. -/
theorem frameInv_step {policy : Nat → ThreadPolicy} {s s' : Workers} {op : WorkerOp}
    (h : s.FrameInv) (htimely : s.Timely policy op) (hstep : s.step policy op = some s') :
    s'.FrameInv := by
  have hmove := move_of_step hstep
  cases hmove with
  -- the slot is overwritten, but no thread still has to read from it
  | entered worker strict slot hcall =>
    refine ⟨h.reads, ?_, ?_⟩
    · intro t ht hphase
      exact absurd hphase (h.no_reader (by rw [hcall]; nofun) ht)
    · rintro c ⟨⟩
      refine ⟨?_, fun hstage => absurd rfl hstage⟩
      simp only [Function.update_self]
  | notReserved c reserves copies hcall hstage hreserve =>
    exact h.of_thrown (h.no_reader_of_stage hcall (by rw [hstage]; decide)) s.manager
  | threw c m copies hcall hstage hallocate =>
    exact h.of_thrown (h.no_reader_of_stage hcall (by rw [hstage]; decide)) m
  | notCopied c cores m hcall hstage hallocate =>
    exact h.of_thrown (h.no_reader_of_stage hcall (by rw [hstage]; decide)) m
  | allocated c cores m hcall hstage hle hallocate =>
    have hmask : cpuMask cores = cores.map Core.cpuId := by
      rw [cpuMask_eq_iff, (allocation_of_ok hallocate).cpuIds_eq]
      exact (htimely c hcall rfl hle).2
    refine ⟨h.reads, ?_, ?_⟩
    · intro t ht hphase
      exact absurd hphase (h.no_reader_of_stage hcall (by rw [hstage]; decide) t ht)
    · rintro c' ⟨⟩
      simp only [Function.update_self]
      exact ⟨(h.frame c hcall).1, fun _ => ⟨cores, rfl, hmask⟩⟩
  -- without cores the call would leave `mask` unset
  | refused c what m copies hcall hstage hle hallocate =>
    exact absurd (shortage_of_refused hallocate).1 (htimely c hcall rfl hle).1
  -- the new thread is the only one that still has to read
  | created c hcall hstage =>
    refine ⟨⟨h.reads.1, ?_⟩, ?_, ?_⟩
    · intro t ht
      rcases List.mem_append.1 ht with ht | ht
      · exact h.reads.2 t ht
      · obtain rfl := List.mem_singleton.1 ht
        exact ⟨nofun, nofun⟩
    · intro t ht hphase
      rcases List.mem_append.1 ht with ht | ht
      · exact absurd hphase (h.no_reader_of_stage hcall (by rw [hstage]; decide) t ht)
      · obtain rfl := List.mem_singleton.1 ht
        exact ⟨rfl, rfl⟩
    · rintro c' ⟨⟩
      obtain ⟨hstrict, hmask⟩ := h.frame c hcall
      exact ⟨hstrict, fun _ => hmask (by rw [hstage]; decide)⟩
  | notCreated c hcall hstage =>
    exact h.of_thrown (h.no_reader_of_stage hcall (by rw [hstage]; decide)) s.manager
  | returned c hcall hstage =>
    refine ⟨h.reads, ?_, nofun⟩
    intro t ht hphase
    -- the thread that has still to read is the one of this call, and the call has waited for it
    have hown := (h.pending t ht hphase).1
    rw [hcall] at hown
    have hpast := htimely c hcall t ht (by rw [Option.some.inj hown])
    rw [hpast] at hphase
    cases hphase
  | stopped worker hcall => exact ⟨h.reads, h.pending, h.frame⟩
  | turned k ok t t' fault terminated hk hturn => exact frameInv_turned h hk hturn

/-- In every run in which each call of `start` gets its cores, these have a bit in the mask, and the
call returns after the thread it created has left `set_affinity`, threads read frames of running
calls only, and read what these have set. -/
theorem reads_own (policy : Nat → ThreadPolicy) (manager : CPUManager) (frames : Nat → Frame)
    (ops : List WorkerOp)
    (htimely : EveryStep (step policy) (Timely policy) (init manager frames) ops) :
    EveryState (step policy) ReadsOwn (init manager frames) ops := by
  have hinv : EveryState (step policy) FrameInv (init manager frames) ops :=
    everyState_of_everyStep (fun _ _ _ h htimely hstep => frameInv_step h htimely hstep)
      (frameInv_init manager frames) htimely
  intro pre post s hpre hrun
  exact (hinv pre post s hpre hrun).reads

/-- Two workers are started, and each call waits for its thread. -/
def timelyStarts : List WorkerOp :=
  startUpToThread 0 ++ upToAffinity 0 ++ [.returnFromStart] ++
    startUpToThread 1 ++ upToAffinity 1 ++ [.returnFromStart]

theorem timelyStarts_read_own :
    EveryState (step fun _ => missionPolicy) ReadsOwn
      (init smallMachine fun _ => ⟨false, []⟩) timelyStarts :=
  reads_own (fun _ => missionPolicy) smallMachine (fun _ => ⟨false, []⟩) timelyStarts
    (everyStep_of_obeys (by decide +kernel))

/-- Two workers are started, and the first call returns before its thread has run. -/
def hastyStarts : List WorkerOp :=
  startUpToThread 0 ++ [.returnFromStart] ++ startUpToThread 1 ++ upToAffinity 0

/-- The thread of the first worker, which has allocated core `1`, reads a frame whose call has
returned, and finds the mask of the second worker there. -/
theorem hastyStarts_pin_elsewhere :
    (runFrom (step fun _ => missionPolicy) (init smallMachine fun _ => ⟨false, []⟩)
        hastyStarts).map (fun s => (s.fault, s.threads.map fun t => (t.cpus, t.mask))) =
        some (true, [([1], some [0]), ([0], none)]) ∧
      ¬ EveryState (step fun _ => missionPolicy) ReadsOwn
        (init smallMachine fun _ => ⟨false, []⟩) hastyStarts := by
  have hrun : (runFrom (step fun _ => missionPolicy) (init smallMachine fun _ => ⟨false, []⟩)
      hastyStarts).map (fun s => (s.fault, s.threads.map fun t => (t.cpus, t.mask))) =
      some (true, [([1], some [0]), ([0], none)]) := by
    decide +kernel
  refine ⟨hrun, ?_⟩
  intro h
  obtain ⟨s, hs, hview⟩ := Option.map_eq_some_iff.1 hrun
  have hfault := (h hastyStarts [] s (List.append_nil _).symm hs).1
  rw [Prod.mk.injEq, hfault] at hview
  cases hview.1

end Workers

end PipelineTools.Threads
