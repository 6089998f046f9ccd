import PipelineTools.Threads.Worker

/-!
# Stop requests

`Worker::stop` sets the stop flag and does not wait for the thread. The next `Worker::start` clears
the flag, creates a thread, and joins the old one when it assigns to `work_thread`. If the old
thread has not tested the flag between the two calls, it does not see the request, and its function,
which loops until it does, never ends. `stopKept_iff` says which runs keep every request: those in
which each call of `start` that comes as far as creating a thread has found the earlier threads of
its worker ended. Any other call of `start` joins a thread that never ends (`waits_run`).
-/

set_option autoImplicit false

namespace PipelineTools.Threads

open PipelineTools.Library

namespace Workers

/-- Thread `k` tests the stop flag of its worker and finds it clear. -/
def FindsClear (s : Workers) (k : Nat) : Prop :=
  ∃ t ∈ s.threads[k]?, t.phase = .func ∧ s.stopFlag t.call.worker = false

instance (s : Workers) (k : Nat) : Decidable (s.FindsClear k) :=
  inferInstanceAs (Decidable (∃ t ∈ s.threads[k]?, _))

/-- One step, if the function of every worker loops until it sees the stop flag set. A test that
finds the flag clear is followed by another one. -/
def loopStep (policy : Nat → ThreadPolicy) (s : Workers) : WorkerOp → Option Workers
  | .thread k ok =>
    if s.terminated = false ∧ s.FindsClear k then some s else s.step policy (.thread k ok)
  | op => s.step policy op

/-- A thread of another call for the same worker has not ended. -/
def OtherRuns (s : Workers) (c : StartCall) : Prop :=
  ∃ t ∈ s.threads, t.call.worker = c.worker ∧ t.call.number ≠ c.number ∧ t.phase ≠ .ended

/-- When `start` joins the previous thread, that thread has ended or will find the flag set. -/
def StopKept (s : Workers) : Prop :=
  ∀ c ∈ s.call, c.stage = .created → ∀ t ∈ s.threads, t.call.worker = c.worker →
    t.call.number ≠ c.number → t.phase = .ended ∨ s.stopFlag c.worker = true

instance : DecidablePred StopKept := fun s =>
  inferInstanceAs (Decidable (∀ c ∈ s.call, _))

/-- What the last call of `start` has found: some thread of its worker had not ended. -/
def foundRunning (s : Workers) (found : Bool) : WorkerOp → Bool
  | .start worker _ _ => decide (∃ t ∈ s.threads, t.call.worker = worker ∧ t.phase ≠ .ended)
  | _ => found

/-- A call of `start` that creates a thread has found the threads of its worker ended. -/
def FoundEnded (p : Workers × Bool) : WorkerOp → Prop
  | .createThread true => p.2 = false
  | _ => True

instance (p : Workers × Bool) : (op : WorkerOp) → Decidable (FoundEnded p op)
  | .createThread true => inferInstanceAs (Decidable (p.2 = false))
  | .createThread false => isTrue trivial
  | .start .. => isTrue trivial
  | .allocateCores .. => isTrue trivial
  | .returnFromStart => isTrue trivial
  | .stop _ => isTrue trivial
  | .thread .. => isTrue trivial

variable {policy : Nat → ThreadPolicy}

/-- A step of a thread is a test that finds the flag clear, or a step of `Workers`. -/
theorem loopStep_thread {s s' : Workers} {k : Nat} {ok : Bool}
    (h : s.loopStep policy (.thread k ok) = some s') :
    s' = s ∨ ¬ s.FindsClear k ∧ s.turn policy k ok = some s' := by
  rw [loopStep] at h
  split at h
  · left
    exact (Option.some.inj h).symm
  · rename_i hclear
    unfold step at h
    cases hterminated : s.terminated with
    | true =>
      rw [if_pos hterminated] at h
      cases h
    | false =>
      rw [if_neg (by simp [hterminated])] at h
      exact .inr ⟨fun hk => hclear ⟨hterminated, hk⟩, h⟩

/-- A thread ends where its function returns. -/
theorem func_of_ended {s s' : Workers} {k : Nat} {ok : Bool} {t t' : WorkerThread}
    (hk : s.threads[k]? = some t) (h : s.turn policy k ok = some s')
    (hk' : s'.threads[k]? = some t') (hended : t'.phase = .ended) : t.phase = .func := by
  have hlt := (List.getElem?_eq_some_iff.1 hk).1
  -- a step that moves the thread on moves it to `t'`
  have hset : ∀ u, (s.threads.set k u)[k]? = some t' → u.phase = .ended := by
    intro u hu
    rw [List.getElem?_set_self hlt, Option.some.injEq] at hu
    rw [hu]
    exact hended
  rw [turn, hk] at h
  cases hphase : t.phase with
  | func => rfl
  | ended =>
    simp only [hphase] at h
    cases h
  | callTarget =>
    simp only [hphase, Option.some.injEq] at h
    subst h
    cases hset _ hk'
  | setPriority =>
    simp only [hphase] at h
    split at h
    · obtain rfl := Option.some.inj h
      obtain rfl := Option.some.inj (hk.symm.trans hk')
      rw [hphase] at hended
      cases hended
    · obtain rfl := Option.some.inj h
      cases hset _ hk'
  | setAffinity =>
    simp only [hphase] at h
    split at h
    · obtain rfl := Option.some.inj h
      cases hset _ hk'
    · split at h
      · obtain rfl := Option.some.inj h
        cases hset _ hk'
      · obtain rfl := Option.some.inj h
        cases hset _ hk'
  | setName =>
    simp only [hphase, Option.some.injEq] at h
    subst h
    cases hset _ hk'

/-- Replacing one element by another that behaves alike. -/
theorem exists_mem_set_iff {α : Type} {P : α → Prop} {l : List α} {k : Nat} {a b : α}
    (hk : l[k]? = some a) (hab : P b ↔ P a) : (∃ x ∈ l.set k b, P x) ↔ ∃ x ∈ l, P x := by
  have hlt := (List.getElem?_eq_some_iff.1 hk).1
  constructor
  · rintro ⟨x, hx, hP⟩
    rcases List.mem_or_eq_of_mem_set hx with hx | rfl
    · exact ⟨x, hx, hP⟩
    · exact ⟨a, List.mem_of_getElem? hk, hab.1 hP⟩
  · rintro ⟨x, hx, hP⟩
    obtain ⟨j, hj⟩ := List.getElem?_of_mem hx
    by_cases hkj : k = j
    · subst hkj
      obtain rfl := Option.some.inj (hk.symm.trans hj)
      exact ⟨b, List.mem_of_getElem? (List.getElem?_set_self hlt), hab.2 hP⟩
    · exact ⟨x, List.mem_of_getElem? ((List.getElem?_set_ne hkj).trans hj), hP⟩

/-- While the flag of its worker is clear, no thread ends. -/
theorem otherRuns_turned {s s' : Workers} {k : Nat} {ok : Bool} {c : StartCall}
    (hflag : s.stopFlag c.worker = false) (hclear : ¬ s.FindsClear k)
    (h : s.turn policy k ok = some s') : s'.OtherRuns c ↔ s.OtherRuns c := by
  have hmove := move_of_turn h
  cases hmove with
  | turned _ _ t t' fault terminated hk hturn =>
    have hlt := (List.getElem?_eq_some_iff.1 hk).1
    have hended : t'.phase = .ended → t.call.worker ≠ c.worker := by
      intro hended hworker
      have hfunc := func_of_ended hk h (List.getElem?_set_self hlt) hended
      exact hclear ⟨t, hk, hfunc, by rw [hworker]; exact hflag⟩
    apply exists_mem_set_iff hk
    rw [hturn.call_eq]
    constructor
    · rintro ⟨hworker, hnumber, -⟩
      exact ⟨hworker, hnumber, hturn.not_ended⟩
    · rintro ⟨hworker, hnumber, -⟩
      exact ⟨hworker, hnumber, fun h => hended h hworker⟩

/-- While a call of `start` is under way the flag of its worker is clear, and the threads of other
calls are those that it has found. -/
structure JoinInv (s : Workers) (found : Bool) : Prop where
  clear : ∀ c, s.call = some c → s.stopFlag c.worker = false
  found_iff : ∀ c, s.call = some c → (found = true ↔ s.OtherRuns c)
  numbered : ∀ t ∈ s.threads, t.call.number < s.calls
  callNumbered : ∀ c, s.call = some c → c.number < s.calls

theorem joinInv_init (manager : CPUManager) (frames : Nat → Frame) :
    JoinInv (init manager frames) false where
  clear c hc := by cases hc
  found_iff c hc := by cases hc
  numbered _ ht := absurd ht List.not_mem_nil
  callNumbered c hc := by cases hc

/-- Between two calls nothing is to be shown but the numbers. -/
theorem JoinInv.of_no_call {s s' : Workers} {found found' : Bool} (h : JoinInv s found)
    (hcall : s'.call = none) (hthreads : s'.threads = s.threads) (hcalls : s'.calls = s.calls) :
    JoinInv s' found' where
  clear c hc := by rw [hcall] at hc; cases hc
  found_iff c hc := by rw [hcall] at hc; cases hc
  numbered := by rw [hthreads, hcalls]; exact h.numbered
  callNumbered c hc := by rw [hcall] at hc; cases hc

/-- A call of `start` clears the flag and sees which threads run. -/
theorem joinInv_entered {s : Workers} {found : Bool} (h : JoinInv s found) (worker : Nat)
    (strict : Bool) (slot : Nat) :
    JoinInv { s with
        stopFlag := Function.update s.stopFlag worker false
        frames := Function.update s.frames slot { s.frames slot with strict := strict }
        call := some { number := s.calls, worker := worker, strict := strict, slot := slot }
        calls := s.calls + 1 }
      (s.foundRunning found (.start worker strict slot)) := by
  refine ⟨?_, ?_, ?_, ?_⟩
  · rintro c ⟨⟩
    exact Function.update_self ..
  · rintro c ⟨⟩
    rw [foundRunning, decide_eq_true_eq]
    constructor
    · rintro ⟨t, ht, hworker, hphase⟩
      exact ⟨t, ht, hworker, Nat.ne_of_lt (h.numbered t ht), hphase⟩
    · rintro ⟨t, ht, hworker, -, hphase⟩
      exact ⟨t, ht, hworker, hphase⟩
  · intro t ht
    exact Nat.lt_succ_of_lt (h.numbered t ht)
  · rintro c ⟨⟩
    exact Nat.lt_succ_self s.calls

/-- What `allocate_cores` does changes neither the flag nor the threads. -/
theorem joinInv_allocated {s : Workers} {found : Bool} (h : JoinInv s found) {c : StartCall}
    (hcall : s.call = some c) (m : CPUManager) (allocatedCores : Nat → List Core)
    (frames : Nat → Frame) (stage : Stage) (cores : Option (List Core)) :
    JoinInv { s with
        manager := m
        allocatedCores := allocatedCores
        frames := frames
        call := some { c with stage := stage, cores := cores } } found := by
  refine ⟨?_, ?_, h.numbered, ?_⟩
  · rintro c' ⟨⟩
    exact h.clear c hcall
  · rintro c' ⟨⟩
    exact h.found_iff c hcall
  · rintro c' ⟨⟩
    exact h.callNumbered c hcall

/-- The thread that a call creates is not one of the others. -/
theorem joinInv_created {s : Workers} {found : Bool} (h : JoinInv s found) {c : StartCall}
    (hcall : s.call = some c) :
    JoinInv { s with
        threads := s.threads ++ [{ call := { c with stage := .created } }]
        call := some { c with stage := .created } } found := by
  refine ⟨?_, ?_, ?_, ?_⟩
  · rintro c' ⟨⟩
    exact h.clear c hcall
  · rintro c' ⟨⟩
    rw [h.found_iff c hcall]
    constructor
    · rintro ⟨t, ht, hother⟩
      exact ⟨t, List.mem_append_left _ ht, hother⟩
    · rintro ⟨t, ht, hworker, hnumber, hphase⟩
      rcases List.mem_append.1 ht with ht | ht
      · exact ⟨t, ht, hworker, hnumber, hphase⟩
      · obtain rfl := List.mem_singleton.1 ht
        exact absurd rfl hnumber
  · intro t ht
    rcases List.mem_append.1 ht with ht | ht
    · exact h.numbered t ht
    · obtain rfl := List.mem_singleton.1 ht
      exact h.callNumbered c hcall
  · rintro c' ⟨⟩
    exact h.callNumbered c hcall

/-- A test that finds the flag set is not one of a thread that the call waits for. -/
theorem joinInv_turn {s s' : Workers} {found : Bool} {k : Nat} {ok : Bool} (h : JoinInv s found)
    (hclear : ¬ s.FindsClear k) (hturn : s.turn policy k ok = some s') : JoinInv s' found := by
  have hothers : ∀ c, s.call = some c → (s'.OtherRuns c ↔ s.OtherRuns c) :=
    fun c hc => otherRuns_turned (h.clear c hc) hclear hturn
  have hmove := move_of_turn hturn
  cases hmove with
  | turned _ _ t t' fault terminated hk hturned =>
    refine ⟨h.clear, ?_, ?_, h.callNumbered⟩
    · intro c hc
      rw [hothers c hc]
      exact h.found_iff c hc
    · intro u hu
      rcases List.mem_or_eq_of_mem_set hu with hu | rfl
      · exact h.numbered u hu
      · rw [hturned.call_eq]
        exact h.numbered t (List.mem_of_getElem? hk)

theorem joinInv_step {s s' : Workers} {found : Bool} {op : WorkerOp} (h : JoinInv s found)
    (hstep : s.loopStep policy op = some s') : JoinInv s' (s.foundRunning found op) := by
  cases op with
  | thread k ok =>
    rcases loopStep_thread hstep with rfl | ⟨hclear, hturn⟩
    · exact h
    · exact joinInv_turn h hclear hturn
  | start worker strict slot =>
    have hmove := move_of_step hstep
    cases hmove with
    | entered _ _ _ hcall => exact joinInv_entered h worker strict slot
  | allocateCores reserves copies =>
    have hmove := move_of_step hstep
    cases hmove with
    | notReserved c _ _ hcall hstage hreserve => exact h.of_no_call rfl rfl rfl
    | threw c m _ hcall hstage hallocate => exact h.of_no_call rfl rfl rfl
    | notCopied c cores m hcall hstage hallocate => exact h.of_no_call rfl rfl rfl
    | allocated c cores m hcall hstage hle hallocate =>
      exact joinInv_allocated h hcall m _ _ .allocated (some cores)
    | refused c what m _ hcall hstage hle hallocate =>
      exact joinInv_allocated h hcall m _ _ .allocated c.cores
  | createThread created =>
    have hmove := move_of_step hstep
    cases hmove with
    | created c hcall hstage => exact joinInv_created h hcall
    | notCreated c hcall hstage => exact h.of_no_call rfl rfl rfl
  | returnFromStart =>
    have hmove := move_of_step hstep
    cases hmove with
    | returned c hcall hstage => exact h.of_no_call rfl rfl rfl
  | stop worker =>
    have hmove := move_of_step hstep
    cases hmove with
    | stopped _ hcall => exact h.of_no_call hcall rfl rfl

/-- The flag is clear while `start` joins, so that the request is kept only if there is nothing to
wait for. -/
theorem JoinInv.ended_of_stopKept {s : Workers} {found : Bool} (h : JoinInv s found)
    (hkept : s.StopKept) {c : StartCall} (hcall : s.call = some c) (hstage : c.stage = .created) :
    ∀ t ∈ s.threads, t.call.worker = c.worker → t.call.number ≠ c.number →
      t.phase = .ended := by
  intro t ht hworker hnumber
  rcases hkept c hcall hstage t ht hworker hnumber with hended | hflag
  · exact hended
  · rw [h.clear c hcall] at hflag
    cases hflag

/-- What the call has found says whether the request is kept. -/
theorem JoinInv.stopKept_iff_found {s : Workers} {found : Bool} (h : JoinInv s found) :
    s.StopKept ↔ ∀ c, s.call = some c → c.stage = .created → found = false := by
  constructor
  · intro hkept c hc hstage
    cases hfound : found with
    | false => rfl
    | true =>
      obtain ⟨t, ht, hworker, hnumber, hphase⟩ := (h.found_iff c hc).1 hfound
      exact absurd (h.ended_of_stopKept hkept hc hstage t ht hworker hnumber) hphase
  · intro hfound c hc hstage t ht hworker hnumber
    left
    by_contra hphase
    have hother := (h.found_iff c hc).2 ⟨t, ht, hworker, hnumber, hphase⟩
    rw [hfound c hc hstage] at hother
    cases hother

/-- A step loses a request exactly when it creates a thread while another one still runs. -/
theorem stopKept_step {s s' : Workers} {found : Bool} {op : WorkerOp} (h : JoinInv s found)
    (hkept : s.StopKept) (hstep : s.loopStep policy op = some s') :
    s'.StopKept ↔ FoundEnded (s, found) op := by
  have hkept' := h.stopKept_iff_found.1 hkept
  rw [(joinInv_step h hstep).stopKept_iff_found]
  cases op with
  | thread k ok =>
    refine iff_of_true ?_ trivial
    rcases loopStep_thread hstep with rfl | ⟨-, hturn⟩
    · exact hkept'
    · have hmove := move_of_turn hturn
      cases hmove with
      | turned _ _ t t' fault terminated hk hturned => exact hkept'
  | start worker strict slot =>
    refine iff_of_true ?_ trivial
    have hmove := move_of_step hstep
    cases hmove with
    | entered _ _ _ hcall =>
      rintro c ⟨⟩ hstage
      cases hstage
  | allocateCores reserves copies =>
    refine iff_of_true ?_ trivial
    have hmove := move_of_step hstep
    cases hmove with
    | notReserved c _ _ hcall hstage hreserve => exact nofun
    | threw c m _ hcall hstage hallocate => exact nofun
    | notCopied c cores m hcall hstage hallocate => exact nofun
    | allocated c cores m hcall hstage hle hallocate =>
      rintro c' ⟨⟩ hcreated
      cases hcreated
    | refused c what m _ hcall hstage hle hallocate =>
      rintro c' ⟨⟩ hcreated
      cases hcreated
  | createThread created =>
    have hmove := move_of_step hstep
    cases hmove with
    | created c hcall hstage =>
      constructor
      · intro hfound
        exact hfound _ rfl rfl
      · rintro hfound c' ⟨⟩ -
        exact hfound
    -- no thread is created, and nothing joined
    | notCreated c hcall hstage => exact iff_of_true nofun trivial
  | returnFromStart =>
    refine iff_of_true ?_ trivial
    have hmove := move_of_step hstep
    cases hmove with
    | returned c hcall hstage =>
      intro c' hc'
      cases hc'
  | stop worker =>
    refine iff_of_true ?_ trivial
    have hmove := move_of_step hstep
    cases hmove with
    | stopped _ hcall =>
      intro c' hc'
      exact hkept' c' hc'

/-- In a run of workers whose functions loop until they see the flag set, every request to stop is
kept exactly when each call of `start` that creates a thread has found the earlier threads of its
worker ended. -/
theorem stopKept_iff (policy : Nat → ThreadPolicy) (manager : CPUManager) (frames : Nat → Frame)
    (ops : List WorkerOp) (s : Workers)
    (hrun : runFrom (loopStep policy) (init manager frames) ops = some s) :
    EveryState (loopStep policy) StopKept (init manager frames) ops ↔
      EveryStep (recorded (loopStep policy) foundRunning) FoundEnded
        (init manager frames, false) ops := by
  have hrecord : ∃ found, runFrom (recorded (loopStep policy) foundRunning)
      (init manager frames, false) ops = some (s, found) := exists_recorded_run hrun
  obtain ⟨found, hrecorded⟩ := hrecord
  rw [← everyState_recorded (h := false)]
  refine everyState_iff_everyStep (fun p : Workers × Bool => JoinInv p.1 p.2) ?_
    (joinInv_init manager frames) ?_ hrecorded
  · rintro ⟨s, found⟩ op ⟨s', found'⟩ hinv hkept hstep
    obtain ⟨hstep, rfl⟩ := recorded_eq_some_iff.1 hstep
    exact ⟨joinInv_step hinv hstep, stopKept_step hinv hkept hstep⟩
  · intro c hc
    cases hc

/-- Worker 0 is started, its thread sees the request to stop, and it is started again. -/
def restarts : List WorkerOp :=
  startUpToThread 0 ++ [.returnFromStart] ++ List.replicate 6 (.thread 0 true) ++ [.stop 0] ++
    [.thread 0 true] ++ startUpToThread 0 ++ [.returnFromStart]

theorem restarts_keep :
    EveryState (loopStep fun _ => missionPolicy) StopKept
      (init smallMachine fun _ => ⟨false, []⟩) restarts := by
  have hrun : (runFrom (loopStep fun _ => missionPolicy) (init smallMachine fun _ => ⟨false, []⟩)
      restarts).isSome = true := by
    decide +kernel
  obtain ⟨s, hs⟩ := Option.isSome_iff_exists.1 hrun
  exact (stopKept_iff (fun _ => missionPolicy) smallMachine (fun _ => ⟨false, []⟩) restarts s hs).2
    (everyStep_of_obeys (by decide +kernel))

/-- The thread is in its loop when the worker is stopped and started again. -/
def hastyRestart : List WorkerOp :=
  startUpToThread 0 ++ [.returnFromStart] ++ List.replicate 6 (.thread 0 true) ++ [.stop 0] ++
    startUpToThread 0

theorem not_stopKept_hastyRestart :
    ¬ EveryState (loopStep fun _ => missionPolicy) StopKept
      (init smallMachine fun _ => ⟨false, []⟩) hastyRestart := by
  have hlost : ((runFrom (loopStep fun _ => missionPolicy)
      (init smallMachine fun _ => ⟨false, []⟩) hastyRestart).map fun s => decide s.StopKept) =
      some false := by
    decide +kernel
  intro h
  obtain ⟨s, hs, hkept⟩ := Option.map_eq_some_iff.1 hlost
  exact of_decide_eq_false hkept (h hastyRestart [] s (List.append_nil _).symm hs)

/-! ## The call that joins a running thread -/

/-- The call `c` of `start` joins a thread that has no request to stop. -/
structure Waits (s : Workers) (c : StartCall) : Prop where
  call : s.call = some c
  stage : c.stage = .created
  clear : s.stopFlag c.worker = false
  running : s.OtherRuns c

/-- No step ends such a call: the client is inside it, and the thread it waits for goes on. -/
theorem waits_step {s s' : Workers} {c : StartCall} {op : WorkerOp} (h : s.Waits c)
    (hstep : s.loopStep policy op = some s') : s'.Waits c := by
  cases op with
  | thread k ok =>
    rcases loopStep_thread hstep with rfl | ⟨hclear, hturn⟩
    · exact h
    · have hothers := otherRuns_turned h.clear hclear hturn
      have hmove := move_of_turn hturn
      cases hmove with
      | turned _ _ t t' fault terminated hk hturned =>
        exact ⟨h.call, h.stage, h.clear, hothers.2 h.running⟩
  | start worker strict slot =>
    have hmove := move_of_step hstep
    cases hmove with
    | entered _ _ _ hcall =>
      rw [h.call] at hcall
      cases hcall
  | stop worker =>
    have hmove := move_of_step hstep
    cases hmove with
    | stopped _ hcall =>
      rw [h.call] at hcall
      cases hcall
  | allocateCores reserves copies =>
    have hstage : ∀ c', s.call = some c' → c'.stage ≠ .entered := by
      intro c' hc'
      obtain rfl := Option.some.inj (h.call.symm.trans hc')
      rw [h.stage]
      decide
    have hmove := move_of_step hstep
    cases hmove with
    | notReserved c' _ _ hcall hentered _ => exact absurd hentered (hstage c' hcall)
    | threw c' m _ hcall hentered _ => exact absurd hentered (hstage c' hcall)
    | notCopied c' cores m hcall hentered _ => exact absurd hentered (hstage c' hcall)
    | allocated c' cores m hcall hentered _ _ => exact absurd hentered (hstage c' hcall)
    | refused c' what m _ hcall hentered _ _ => exact absurd hentered (hstage c' hcall)
  | createThread created =>
    have hmove := move_of_step hstep
    cases hmove with
    | created c' hcall hallocated =>
      obtain rfl := Option.some.inj (h.call.symm.trans hcall)
      rw [h.stage] at hallocated
      cases hallocated
    | notCreated c' hcall hallocated =>
      obtain rfl := Option.some.inj (h.call.symm.trans hcall)
      rw [h.stage] at hallocated
      cases hallocated
  -- the running thread blocks the return
  | returnFromStart =>
    obtain ⟨t, ht, hworker, hnumber, hphase⟩ := h.running
    have hblocked : ¬ (c.stage = .created ∧ ∀ t ∈ s.threads, t.call.worker = c.worker →
        t.call.number ≠ c.number → t.phase = .ended) :=
      fun hguard => hphase (hguard.2 t ht hworker hnumber)
    unfold loopStep step at hstep
    simp only [h.call, if_neg hblocked, ite_self] at hstep
    cases hstep

/-- A call of `start` that joins a thread without a request to stop never returns. -/
theorem waits_run {s s' : Workers} {c : StartCall} {ops : List WorkerOp} (h : s.Waits c)
    (hrun : runFrom (loopStep policy) s ops = some s') : s'.Waits c :=
  runFrom_invariant (fun _ _ _ h hstep => waits_step h hstep) h hrun

/-- The calls that lose a request are those that wait. -/
theorem JoinInv.waits_of_not_stopKept {s : Workers} {found : Bool} (h : JoinInv s found)
    (hlost : ¬ s.StopKept) : ∃ c, s.Waits c := by
  rw [h.stopKept_iff_found] at hlost
  push Not at hlost
  obtain ⟨c, hcall, hstage, hfound⟩ := hlost
  refine ⟨c, hcall, hstage, h.clear c hcall, (h.found_iff c hcall).1 ?_⟩
  rw [← Bool.not_eq_false]
  exact hfound

/-- A call of `start` that has nothing to wait for returns. -/
theorem JoinInv.returns_of_stopKept {s : Workers} {found : Bool} (h : JoinInv s found)
    (hkept : s.StopKept) {c : StartCall} (hcall : s.call = some c) (hstage : c.stage = .created)
    (hrun : s.terminated = false) :
    s.loopStep policy .returnFromStart = some { s with call := none } := by
  have hended := h.ended_of_stopKept hkept hcall hstage
  unfold loopStep step
  simp only [hcall]
  rw [if_neg (by simp [hrun]), if_pos ⟨hstage, hended⟩]

end Workers

end PipelineTools.Threads
