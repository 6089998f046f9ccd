import PipelineTools.FlowEngine.AutoConnect
import PipelineTools.Library.Runs
import Mathlib.Data.List.Range

/-!
# Missions that are started again

`Mission::start` calls `build` and then creates a worker for every pipeline of the mission, each
with a reference into the vector of pipelines. A second call builds everything once more: the vector
grows and moves its elements, and the pipelines that have a worker already get another one.
`soundRun_iff` says for which sequences of calls of `start` and `stop` every worker that runs has a
pipeline of its own in the vector and the mission has the pipelines of one `build`: those in which
`start` is called only while the mission has no pipelines.

The user's `build` is any computation on the mission that adds `n` pipelines whenever it returns;
`addsPipelines_build` shows that calls of `Mission::add` are one. Between the calls the running
pipelines may change their blocks in any way.
-/

set_option autoImplicit false

namespace PipelineTools.FlowEngine

open PipelineTools.Library PipelineTools.Queues

variable {ι κ : Type} {β : κ → Type} {σ ε : Type}

/-- The memory of a vector: which one it is, counted from the first, and for how many elements. -/
structure VectorStorage where
  generation : Nat := 0
  capacity : Nat := 0

/-- `push_back` on a vector of `size` elements. A full vector moves to memory twice as large. -/
def VectorStorage.pushBack (v : VectorStorage) (size : Nat) : VectorStorage :=
  if size = v.capacity then ⟨v.generation + 1, max 1 (2 * v.capacity)⟩ else v

/-- `left` calls of `push_back` on a vector of `size` elements. -/
def VectorStorage.pushBacks : Nat → Nat → VectorStorage → VectorStorage
  | 0, _, v => v
  | left + 1, size, v => pushBacks left (size + 1) (v.pushBack size)

/-- Where a reference to an element of a vector points. -/
structure Place where
  generation : Nat
  index : Nat
  deriving DecidableEq

/-- A worker of a mission: the pipeline it executes, and whether it has been told to stop. -/
structure PipelineWorker where
  place : Place
  stopFlag : Bool := false

/-- A mission with the memory of its vector of pipelines and its workers. -/
structure StartedMission (ι : Type) {κ : Type} (β : κ → Type) (σ ε : Type) where
  state : MissionState ι β σ ε
  storage : VectorStorage := {}
  workers : List PipelineWorker := []
  starts : Nat := 0

/-- Calls on a mission, and what its running pipelines do to the blocks. -/
inductive MissionOp (ι : Type) {κ : Type} (β : κ → Type) (σ ε : Type) where
  | start
  | stop
  | work (heap : Heap (Addr ι) β (Shared β σ) ε)

/-- A computation that adds `n` pipelines whenever it returns. -/
def AddsPipelines {α : Type} (n : Nat) (m : Build ι β σ ε α) : Prop :=
  ∀ S a S', m S = .ok a S' →
    ∃ ps, ps.length = n ∧ S'.mission.pipelines = S.mission.pipelines ++ ps

namespace StartedMission

/-- `build` has not been called. -/
def init (queueType : QueueType) (obj : ι → Obj β (Shared β σ) ε) : StartedMission ι β σ ε where
  state := MissionState.init queueType obj

/-- The pipelines of the mission. -/
def pipelines (s : StartedMission ι β σ ε) : List (Pipeline (Addr ι)) := s.state.mission.pipelines

/-- One worker for each of `size` pipelines, the last one first. -/
def workersFor (generation size : Nat) : List PipelineWorker :=
  (List.range size).reverse.map fun i => { place := ⟨generation, i⟩ }

/-- `Mission::start`; an exception of `build` ends the run. -/
def start (build : Build ι β σ ε Unit) (s : StartedMission ι β σ ε) :
    Option (StartedMission ι β σ ε) :=
  match build s.state with
  | .ok _ S =>
    let size := S.mission.pipelines.length
    let storage := s.storage.pushBacks (size - s.pipelines.length) s.pipelines.length
    some {
      state := S
      storage := storage
      workers := s.workers ++ workersFor storage.generation size
      starts := s.starts + 1 }
  | .error _ _ => none

/-- `Mission::stop`. -/
def stop (s : StartedMission ι β σ ε) : StartedMission ι β σ ε :=
  { s with workers := s.workers.map fun w => { w with stopFlag := true } }

/-- One call, or one step of the running pipelines. -/
def step (build : Build ι β σ ε Unit) (s : StartedMission ι β σ ε) :
    MissionOp ι β σ ε → Option (StartedMission ι β σ ε)
  | .start => s.start build
  | .stop => some s.stop
  | .work heap => some { s with state := { s.state with heap := heap } }

/-- The workers that have not been told to stop. -/
def running (s : StartedMission ι β σ ε) : List PipelineWorker :=
  s.workers.filter fun w => !w.stopFlag

/-- Every running worker has a pipeline of its own, at the place it was given, and there are the `n`
pipelines of one `build`. -/
structure Sound (n : Nat) (s : StartedMission ι β σ ε) : Prop where
  exclusive : (s.running.map PipelineWorker.place).Nodup
  stored : ∀ w ∈ s.running,
    w.place.generation = s.storage.generation ∧ w.place.index < s.pipelines.length
  count : 0 < s.starts → s.pipelines.length = n

/-- `start` is called only while there are no pipelines. -/
def StartsEmpty (s : StartedMission ι β σ ε) : MissionOp ι β σ ε → Prop
  | .start => s.pipelines = []
  | _ => True

end StartedMission

/-! ## What `build` adds -/

section Adds

variable {α γ : Type} {n k : Nat}

theorem AddsPipelines.bind {m : Build ι β σ ε α} {f : α → Build ι β σ ε γ}
    (hm : AddsPipelines n m) (hf : ∀ a, AddsPipelines k (f a)) :
    AddsPipelines (n + k) (m >>= f) := by
  intro S c S' h
  obtain ⟨a, S₁, hfirst, hsecond⟩ := bind_eq_ok_iff.1 h
  obtain ⟨ps, hps, hpipelines⟩ := hm S a S₁ hfirst
  obtain ⟨qs, hqs, hpipelines'⟩ := hf a S₁ c S' hsecond
  refine ⟨ps ++ qs, ?_, ?_⟩
  · rw [List.length_append, hps, hqs]
  · rw [hpipelines', hpipelines, List.append_assoc]

/-- A computation that leaves the list of pipelines alone. -/
theorem addsPipelines_zero {m : Build ι β σ ε α}
    (h : ∀ S a S', m S = .ok a S' → S'.mission.pipelines = S.mission.pipelines) :
    AddsPipelines 0 m := by
  intro S a S' hm
  exact ⟨[], rfl, by rw [h S a S' hm, List.append_nil]⟩

variable [DecidableEq ι] [DecidableEq κ]

omit [DecidableEq κ] in
theorem addsPipelines_applyFlows (p : Pipeline (Addr ι)) (fs : List (Addr ι)) :
    AddsPipelines 0 (Mission.applyFlows p fs : Build ι β σ ε _) :=
  addsPipelines_zero fun S a S' h => by rw [mission_applyFlows h]

omit [DecidableEq ι] in
theorem addsPipelines_getOrCreateQueue (t : Ty κ) :
    AddsPipelines 0 (Mission.getOrCreateQueue t : Build ι β σ ε _) := by
  refine addsPipelines_zero ?_
  intro S q S' h
  rw [Mission.getOrCreateQueue] at h
  split at h
  · cases h
    rfl
  · split at h
    · cases h
      rfl
    · split at h
      · cases h
        rfl
      · cases h

theorem addsPipelines_makeQueueEnd (kind : QueueEnd) (t : Option (Ty κ)) :
    AddsPipelines 0 (Mission.makeQueueEnd kind t : Build ι β σ ε _) := by
  cases t with
  | none =>
    intro S f S' h
    cases h
  | some t =>
    have hmake : ∀ q, AddsPipelines 0 (Mission.makeBlock ⟨kind, t, q⟩ : Build ι β σ ε _) := by
      refine fun q => addsPipelines_zero fun S f S' h => ?_
      cases h
      rfl
    exact (addsPipelines_getOrCreateQueue t).bind hmake

theorem addsPipelines_addSources (a : AddArgs ι) (p : Pipeline (Addr ι)) :
    AddsPipelines 0 (Mission.addSources a p : Build ι β σ ε _) := by
  rw [Mission.addSources]
  split
  · exact addsPipelines_applyFlows p _
  · refine AddsPipelines.bind ?_ fun src => addsPipelines_applyFlows p [src]
    intro S f S' h
    exact addsPipelines_makeQueueEnd .source _ S f S' h

theorem addsPipelines_addSinks (a : AddArgs ι) (p : Pipeline (Addr ι)) :
    AddsPipelines 0 (Mission.addSinks a p : Build ι β σ ε _) := by
  rw [Mission.addSinks]
  split
  · exact addsPipelines_applyFlows p _
  · refine AddsPipelines.bind ?_ fun snk => addsPipelines_applyFlows p [snk]
    intro S f S' h
    exact addsPipelines_makeQueueEnd .sink _ S f S' h

/-- A call of `Mission::add` adds one pipeline. -/
theorem addsPipelines_add (a : AddArgs ι) :
    AddsPipelines 1 (Mission.add a : Build ι β σ ε Unit) := by
  have hstore : ∀ p : Pipeline (Addr ι), AddsPipelines 1 (modify fun S =>
      { S with mission := { S.mission with pipelines := S.mission.pipelines ++ [p] } } :
        Build ι β σ ε Unit) := by
    intro p S _ S' h
    cases h
    exact ⟨[p], rfl, rfl⟩
  have hadd := (addsPipelines_addSources a {}).bind fun p =>
    (addsPipelines_applyFlows p (a.nodes.map .given)).bind fun p =>
      (addsPipelines_addSinks a p).bind hstore
  exact hadd

theorem addsPipelines_build (calls : List (AddArgs ι)) :
    AddsPipelines calls.length (Mission.build calls : Build ι β σ ε Unit) := by
  induction calls with
  | nil =>
    refine addsPipelines_zero fun S _ S' h => ?_
    cases h
    rfl
  | cons a calls ih =>
    have hcons := (addsPipelines_add a).bind fun _ => ih
    rw [List.length_cons, Nat.add_comm]
    exact hcons

end Adds

namespace StartedMission

variable {build : Build ι β σ ε Unit} {n : Nat} {s s' : StartedMission ι β σ ε}

theorem sound_init (queueType : QueueType) (obj : ι → Obj β (Shared β σ) ε) (n : Nat) :
    (init queueType obj).Sound n where
  exclusive := List.nodup_nil
  stored := nofun
  count h := absurd h (lt_irrefl 0)

theorem running_stop (s : StartedMission ι β σ ε) : s.stop.running = [] := by
  rw [running, stop, List.filter_eq_nil_iff]
  intro w hw
  obtain ⟨w', -, rfl⟩ := List.mem_map.1 hw
  exact Bool.false_ne_true

/-- The workers of a new call run until they are told to stop. -/
theorem filter_workersFor (generation size : Nat) :
    (workersFor generation size).filter (fun w => !w.stopFlag) = workersFor generation size := by
  rw [List.filter_eq_self]
  intro w hw
  obtain ⟨i, -, rfl⟩ := List.mem_map.1 hw
  rfl

theorem nodup_workersFor (generation size : Nat) :
    ((workersFor generation size).map PipelineWorker.place).Nodup := by
  rw [workersFor, List.map_map]
  refine (List.nodup_reverse.2 List.nodup_range).map ?_
  intro i j hij
  exact (Place.mk.inj hij).2

theorem mem_workersFor {generation size : Nat} {w : PipelineWorker}
    (h : w ∈ workersFor generation size) :
    w.place.generation = generation ∧ w.place.index < size := by
  obtain ⟨i, hi, rfl⟩ := List.mem_map.1 h
  exact ⟨rfl, List.mem_range.1 (List.mem_reverse.1 hi)⟩

/-- What a call of `start` that returns has done. -/
theorem start_spec (hbuild : AddsPipelines n build) (h : s.start build = some s') :
    s'.pipelines.length = s.pipelines.length + n ∧ s'.starts = s.starts + 1 ∧
      s'.running = s.running ++ workersFor s'.storage.generation s'.pipelines.length := by
  rw [start] at h
  cases hr : build s.state with
  | error e S =>
    rw [hr] at h
    cases h
  | ok u S =>
    rw [hr] at h
    obtain rfl := Option.some.inj h
    obtain ⟨ps, hps, hpipelines⟩ := hbuild _ _ _ hr
    refine ⟨?_, rfl, ?_⟩
    · show S.mission.pipelines.length = _
      rw [hpipelines, List.length_append, hps]
      rfl
    · show (s.workers ++ _).filter _ = _
      rw [List.filter_append, filter_workersFor]
      rfl

/-- The pipelines of a mission that is started again are there twice. -/
theorem sound_start_iff (hbuild : AddsPipelines n build) (h : s.Sound n)
    (hstep : s.start build = some s') : s'.Sound n ↔ s.pipelines = [] := by
  obtain ⟨hlength, hstarts, hrunning⟩ := start_spec hbuild hstep
  constructor
  · intro h'
    have hcount := h'.count (by omega)
    exact List.eq_nil_of_length_eq_zero (by omega)
  · intro hempty
    -- a worker that runs would have a pipeline
    have hidle : s.running = [] := by
      refine List.eq_nil_iff_forall_not_mem.2 fun w hw => ?_
      have hindex := (h.stored w hw).2
      rw [hempty] at hindex
      exact absurd hindex (Nat.not_lt_zero _)
    rw [hempty, List.length_nil, Nat.zero_add] at hlength
    rw [hidle, List.nil_append] at hrunning
    refine ⟨?_, ?_, fun _ => hlength⟩
    · rw [hrunning]
      exact nodup_workersFor _ _
    · intro w hw
      rw [hrunning] at hw
      exact mem_workersFor hw

theorem sound_step_iff (hbuild : AddsPipelines n build) {op : MissionOp ι β σ ε}
    (h : s.Sound n) (hstep : s.step build op = some s') : s'.Sound n ↔ s.StartsEmpty op := by
  cases op with
  | start => exact sound_start_iff hbuild h hstep
  | stop =>
    obtain rfl := Option.some.inj hstep
    refine ⟨fun _ => trivial, fun _ => ⟨?_, ?_, h.count⟩⟩
    · rw [running_stop]
      exact List.nodup_nil
    · rw [running_stop]
      exact nofun
  | work heap =>
    obtain rfl := Option.some.inj hstep
    exact ⟨fun _ => trivial, fun _ => ⟨h.exclusive, h.stored, h.count⟩⟩

/-- Starting and stopping a mission keeps its workers and pipelines in order exactly when `start` is
called only while the mission has no pipelines. -/
theorem soundRun_iff (build : Build ι β σ ε Unit) (n : Nat) (hbuild : AddsPipelines n build)
    (queueType : QueueType) (obj : ι → Obj β (Shared β σ) ε) (ops : List (MissionOp ι β σ ε))
    (s : StartedMission ι β σ ε) (hrun : runFrom (step build) (init queueType obj) ops = some s) :
    EveryState (step build) (Sound n) (init queueType obj) ops ↔
      EveryStep (step build) StartsEmpty (init queueType obj) ops := by
  refine everyState_iff_everyStep (fun _ => True) ?_ trivial (sound_init queueType obj n) hrun
  intro m op m' _ h hstep
  exact ⟨trivial, sound_step_iff hbuild h hstep⟩

/-- A pipeline of one source and one sink. -/
def oneProducer : Build Nat (fun _ : Unit => Nat) Unit Empty Unit := Mission.build [⟨[0], [], [2]⟩]

theorem oneProducer_sound :
    EveryState (step oneProducer) (Sound 1) (init .LOCK_FREE missionBlocks)
      [.start, .stop, .stop] := by
  refine (soundRun_iff oneProducer 1 (addsPipelines_build _) .LOCK_FREE missionBlocks
    [.start, .stop, .stop] _ rfl).2 ?_
  refine (everyStep_cons rfl).2 ⟨rfl, ?_⟩
  refine (everyStep_cons rfl).2 ⟨trivial, ?_⟩
  exact (everyStep_cons rfl).2 ⟨trivial, everyStep_nil⟩

/-- After the second call the first worker's reference dangles, and there are two pipelines. -/
theorem startedTwice_dangles :
    (runFrom (step oneProducer) (init .LOCK_FREE missionBlocks) [.start, .start]).map
        (fun s => (s.pipelines.length, s.storage.generation, s.running.map PipelineWorker.place)) =
      some (2, 2, [⟨1, 0⟩, ⟨2, 1⟩, ⟨2, 0⟩]) ∧
      ¬ EveryState (step oneProducer) (Sound 1) (init .LOCK_FREE missionBlocks)
        [.start, .start] := by
  refine ⟨rfl, fun h => ?_⟩
  have hcount := (h [.start, .start] [] _ rfl rfl).count (by decide)
  exact absurd hcount (by decide)

end StartedMission

end PipelineTools.FlowEngine
