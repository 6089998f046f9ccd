import PipelineTools.FlowEngine.Chains

/-!
# Calls of `Mission::add` that throw

`get_or_create_queue` sets the flag `used` of the last queue before it casts the queue to the type
that the new pipeline needs. When the cast throws, the flag stays set. `failedAdd_changes` says that
this happens in every call of `add` that throws: none of them leaves the queues as they were, and
after it no queue is open, so that the pipeline for which the queue was meant gets a new one, which
nothing feeds (`mismatch_disconnects`).
-/

set_option autoImplicit false

namespace PipelineTools.FlowEngine

open PipelineTools.Library PipelineTools.Queues

variable {ι κ : Type} {β : κ → Type} {σ ε : Type}

/-- The tuples that the compiler accepts: a queue type can be deduced for every missing end. -/
structure AddArgs.Accepted (a : AddArgs ι) : Prop where
  source : a.sources = [] → a.nodes ++ a.sinks ≠ []
  sink : a.sinks = [] → a.sources ++ a.nodes ≠ []

/-- The pipelines and the queues, with their flags, are what they were. -/
structure Mission.Restored (m m' : Mission ι κ) : Prop where
  pipelines : m'.pipelines = m.pipelines
  queues : m'.queues = m.queues

/-- The queues that are marked as used. -/
def Mission.usedQueues (m : Mission ι κ) : Nat := m.queues.countP QueueWrapper.used

/-- No queue is waiting for a second block. -/
def Mission.Closed (m : Mission ι κ) : Prop := ∀ w, m.queues.getLast? = some w → w.used = true

/-- The mission after a call of `add`, whether it returned or threw. The caller catches the
exceptions. -/
def Mission.attempt [DecidableEq ι] [DecidableEq κ] (S : MissionState ι β σ ε) (a : AddArgs ι) :
    MissionState ι β σ ε :=
  finalState (Mission.add a S)

/-- What a part of a call of `add` does up to the point where the pipeline is stored. A queue that
is marked as used stays so, and an exception leaves one more behind. -/
structure Attempted {α : Type} (obj : ι → Obj β (Shared β σ) ε) (S : MissionState ι β σ ε)
    (r : EStateM.Result (MissionExn κ) (MissionState ι β σ ε) α) : Prop where
  blocks : SameBlocks obj (finalState r).heap
  pipelines : (finalState r).mission.pipelines = S.mission.pipelines
  used : S.mission.usedQueues ≤ (finalState r).mission.usedQueues
  failed : ∀ e, stopOf r = some e → (∃ s t, e = .badAnyCastWithInfo s t) ∧
    S.mission.usedQueues < (finalState r).mission.usedQueues ∧ (finalState r).mission.Closed

section Parts

variable {obj : ι → Obj β (Shared β σ) ε} {S : MissionState ι β σ ε}

/-- A part that returns and leaves the mission alone. -/
theorem attempted_ok {α : Type} {a : α} {S' : MissionState ι β σ ε} (hS : SameBlocks obj S'.heap)
    (hmission : S'.mission = S.mission) : Attempted obj S (.ok a S') := by
  refine ⟨hS, ?_, ?_, nofun⟩
  · rw [finalState_ok, hmission]
  · rw [finalState_ok, hmission]

theorem Attempted.bind {α γ : Type} {m : Build ι β σ ε α} {f : α → Build ι β σ ε γ}
    (hm : Attempted obj S (m S))
    (hf : ∀ a S', m S = .ok a S' → SameBlocks obj S'.heap → Attempted obj S' (f a S')) :
    Attempted obj S ((m >>= f) S) := by
  cases hr : m S with
  | error e S' =>
    rw [hr] at hm
    rw [bind_error hr]
    exact ⟨hm.blocks, hm.pipelines, hm.used, hm.failed⟩
  | ok a S' =>
    rw [hr] at hm
    rw [bind_ok hr]
    have hrest := hf a S' hr hm.blocks
    refine ⟨hrest.blocks, hrest.pipelines.trans hm.pipelines, hm.used.trans hrest.used, ?_⟩
    intro e he
    obtain ⟨hcast, hlt, hclosed⟩ := hrest.failed e he
    exact ⟨hcast, lt_of_le_of_lt hm.used hlt, hclosed⟩

variable [DecidableEq ι] [DecidableEq κ]

omit [DecidableEq ι] in
/-- A request for a queue creates one, takes the open one, or marks it and throws. -/
theorem attempted_getOrCreateQueue (hS : SameBlocks obj S.heap) (t : Ty κ) :
    Attempted obj S (Mission.getOrCreateQueue t S) := by
  have hcreate : Attempted obj S (Mission.createQueue t S) := by
    refine ⟨hS, rfl, ?_, fun e he => by cases he⟩
    simp [Mission.createQueue, Mission.usedQueues]
  rw [Mission.getOrCreateQueue]
  cases hlast : S.mission.queues.getLast? with
  | none => exact hcreate
  | some back =>
    by_cases hused : back.used = true
    · simp only [if_pos hused]
      exact hcreate
    -- the flag is set whether the cast succeeds or not
    · simp only [if_neg hused]
      have hsplit : S.mission.queues = S.mission.queues.dropLast ++ [back] :=
        (List.dropLast_append_getLast? back hlast).symm
      have hmarked : S.mission.usedQueues <
          (S.mission.queues.dropLast ++ [{ back with used := true }]).countP QueueWrapper.used := by
        rw [Mission.usedQueues, hsplit]
        simp [hused]
      by_cases helem : back.elem = t
      · rw [if_pos helem]
        exact ⟨hS, rfl, hmarked.le, fun e he => by cases he⟩
      · rw [if_neg helem]
        refine ⟨hS, rfl, hmarked.le, ?_⟩
        rintro e ⟨⟩
        refine ⟨⟨_, _, rfl⟩, hmarked, ?_⟩
        intro w hw
        simp only [finalState_error, List.getLast?_concat, Option.some.injEq] at hw
        rw [← hw]

theorem attempted_makeQueueEnd (hS : SameBlocks obj S.heap) (kind : QueueEnd) (t : Ty κ) :
    Attempted obj S (Mission.makeQueueEnd kind (some t) S) := by
  refine (attempted_getOrCreateQueue hS t).bind ?_
  intro q S' _ hS'
  refine ⟨fun i => ?_, rfl, le_rfl, fun e he => by cases he⟩
  simp [Mission.makeBlock, hS' i]

/-- The block that is made is a queue block of the kind asked for. -/
theorem obj_makeQueueEnd {kind : QueueEnd} {t : Ty κ} {f : Addr ι} {S' : MissionState ι β σ ε}
    (h : Mission.makeQueueEnd kind (some t) S = .ok f S') :
    ∃ q, (S'.heap f).obj = queueBlock t q kind := by
  obtain ⟨q, S₁, -, hmake⟩ := bind_eq_ok_iff.1 h
  cases hmake
  exact ⟨q, by simp⟩

theorem attempted_addSources {a : AddArgs ι} (ha : a.WellKinded obj) (haccepted : a.Accepted)
    (hS : SameBlocks obj S.heap) : Attempted obj S (Mission.addSources a {} S) := by
  by_cases hnil : a.sources = []
  -- a source end is made, and added as the first block
  · obtain ⟨t, ht⟩ := Option.ne_none_iff_exists'.1
      (ha.inputType_ne_none (haccepted.source hnil))
    have htype : Mission.inputTypeFromFirstFlow S.heap (a.nodes ++ a.sinks) = some t := by
      rw [hS.inputType]
      exact ht
    have hmake : Mission.makeQueueSource (a.nodes ++ a.sinks) S =
        Mission.makeQueueEnd .source (some t) S := by
      rw [← htype]
      rfl
    rw [Mission.addSources, if_neg (not_not.2 hnil)]
    refine Attempted.bind ?_ ?_
    · rw [hmake]
      exact attempted_makeQueueEnd hS .source t
    · intro src S₁ hsrc hS₁
      rw [hmake] at hsrc
      obtain ⟨q, hobj⟩ := obj_makeQueueEnd hsrc
      obtain ⟨p, happly, -⟩ := applyFlows_sources (S := S₁) [src] (p := {}) rfl (by
        intro f hf
        rw [List.mem_singleton.1 hf, hobj]
        rfl)
      rw [happly]
      exact attempted_ok hS₁ rfl
  · rw [Mission.addSources, if_pos hnil]
    obtain ⟨p, happly, -⟩ := applyFlows_sources (S := S) (a.sources.map .given) (p := {}) rfl (by
      intro f hf
      obtain ⟨i, hi, rfl⟩ := List.mem_map.1 hf
      rw [← isSource_shape, hS i, isSource_shape]
      exact ha.sources i hi)
    rw [happly]
    exact attempted_ok hS rfl

omit [DecidableEq κ] in
/-- Blocks that are not sources are added without an exception. -/
theorem attempted_applyFlows (hS : SameBlocks obj S.heap) (fs : List (Addr ι))
    (p : Pipeline (Addr ι))
    (hfs : ∀ f ∈ fs, (S.heap f).obj.isNode = true ∨ (S.heap f).obj.isSink = true) :
    Attempted obj S (Mission.applyFlows p fs S) := by
  obtain ⟨p', S', happly, hshape⟩ := applyFlows_consumers fs p hfs
  rw [happly]
  exact attempted_ok (fun i => (hshape (.given i)).trans (hS i)) (mission_applyFlows happly)

theorem attempted_addSinks {a : AddArgs ι} (ha : a.WellKinded obj) (haccepted : a.Accepted)
    (hS : SameBlocks obj S.heap) (p : Pipeline (Addr ι)) :
    Attempted obj S (Mission.addSinks a p S) := by
  by_cases hnil : a.sinks = []
  · obtain ⟨t, ht⟩ := Option.ne_none_iff_exists'.1
      (ha.outputType_ne_none (haccepted.sink hnil))
    have htype : Mission.outputTypeFromLastFlow S.heap (a.sources ++ a.nodes) = some t := by
      rw [hS.outputType]
      exact ht
    have hmake : Mission.makeQueueSink (a.sources ++ a.nodes) S =
        Mission.makeQueueEnd .sink (some t) S := by
      rw [← htype]
      rfl
    rw [Mission.addSinks, if_neg (not_not.2 hnil)]
    refine Attempted.bind ?_ ?_
    · rw [hmake]
      exact attempted_makeQueueEnd hS .sink t
    · intro snk S₁ hsnk hS₁
      rw [hmake] at hsnk
      obtain ⟨q, hobj⟩ := obj_makeQueueEnd hsnk
      refine attempted_applyFlows hS₁ [snk] p ?_
      intro f hf
      rw [List.mem_singleton.1 hf, hobj]
      exact .inr rfl
  · rw [Mission.addSinks, if_pos hnil]
    refine attempted_applyFlows hS (a.sinks.map .given) p ?_
    intro f hf
    obtain ⟨i, hi, rfl⟩ := List.mem_map.1 hf
    right
    rw [← isSink_shape, hS i, isSink_shape]
    exact ha.sinks i hi

/-- `Mission::add` up to the point where the pipeline is stored. -/
def Mission.assemble (a : AddArgs ι) : Build ι β σ ε (Pipeline (Addr ι)) := do
  let p ← addSources a {}
  let p ← applyFlows p (a.nodes.map .given)
  addSinks a p

theorem attempted_assemble {a : AddArgs ι} (ha : a.WellKinded obj) (haccepted : a.Accepted)
    (hS : SameBlocks obj S.heap) : Attempted obj S (Mission.assemble a S) := by
  refine (attempted_addSources ha haccepted hS).bind fun p₁ S₁ _ hS₁ => ?_
  have hnodes : ∀ f ∈ a.nodes.map Addr.given,
      (S₁.heap f).obj.isNode = true ∨ (S₁.heap f).obj.isSink = true := by
    intro f hf
    obtain ⟨i, hi, rfl⟩ := List.mem_map.1 hf
    left
    rw [← isNode_shape, hS₁ i, isNode_shape]
    exact ha.nodes i hi
  refine (attempted_applyFlows hS₁ _ p₁ hnodes).bind fun p₂ S₂ _ hS₂ => ?_
  exact attempted_addSinks ha haccepted hS₂ p₂

/-- The pipeline is stored when nothing can throw any more. -/
theorem add_eq_assemble (a : AddArgs ι) (S : MissionState ι β σ ε) :
    Mission.add a S = (Mission.assemble a >>= fun p => modify fun S =>
      { S with mission := { S.mission with pipelines := S.mission.pipelines ++ [p] } }) S := by
  rw [Mission.assemble, bind_assoc]
  simp only [bind_assoc]
  rfl

theorem error_of_add {a : AddArgs ι} {e : MissionExn κ} {S' : MissionState ι β σ ε}
    (h : Mission.add a S = .error e S') : Mission.assemble a S = .error e S' := by
  rw [add_eq_assemble] at h
  cases hr : Mission.assemble a S with
  | error e' S₁ =>
    rw [bind_error hr] at h
    cases h
    rfl
  | ok p S₁ =>
    rw [bind_ok hr] at h
    cases h

/-- A call of `add` keeps the caller's blocks, whether it returns or throws. -/
theorem sameBlocks_attempt {a : AddArgs ι} (ha : a.WellKinded obj) (haccepted : a.Accepted)
    (hS : SameBlocks obj S.heap) : SameBlocks obj (Mission.attempt S a).heap := by
  have hblocks := (attempted_assemble ha haccepted hS).blocks
  rw [Mission.attempt, add_eq_assemble]
  cases hr : Mission.assemble a S with
  | error e S₁ =>
    rw [hr] at hblocks
    rw [bind_error hr]
    exact hblocks
  | ok p S₁ =>
    rw [hr] at hblocks
    rw [bind_ok hr]
    exact hblocks

theorem sameBlocks_attempts {calls : List (AddArgs ι)}
    (hcalls : ∀ b ∈ calls, b.WellKinded obj ∧ b.Accepted) (hS : SameBlocks obj S.heap) :
    SameBlocks obj (calls.foldl Mission.attempt S).heap := by
  induction calls generalizing S with
  | nil => exact hS
  | cons b calls ih =>
    obtain ⟨hb, hrest⟩ := List.forall_mem_cons.1 hcalls
    exact ih hrest (sameBlocks_attempt hb.1 hb.2 hS)

/-- Whatever calls of `add` were made before, a call that throws does not leave the queues as they
were: it marks a queue as used that no second block has got, and none is open afterwards. -/
theorem failedAdd_changes (queueType : QueueType) (obj : ι → Obj β (Shared β σ) ε)
    (earlier : List (AddArgs ι)) (hearlier : ∀ b ∈ earlier, b.WellKinded obj ∧ b.Accepted)
    (a : AddArgs ι) (ha : a.WellKinded obj) (haccepted : a.Accepted) (S : MissionState ι β σ ε)
    (hS : earlier.foldl Mission.attempt (MissionState.init queueType obj) = S) (e : MissionExn κ)
    (S' : MissionState ι β σ ε) (h : Mission.add a S = .error e S') :
    (∃ s t, e = .badAnyCastWithInfo s t) ∧ ¬ S.mission.Restored S'.mission ∧
      S'.mission.pipelines = S.mission.pipelines ∧ S'.mission.Closed := by
  have hblocks : SameBlocks obj S.heap := by
    rw [← hS]
    exact sameBlocks_attempts hearlier fun _ => rfl
  have hattempted := attempted_assemble ha haccepted hblocks
  rw [error_of_add h] at hattempted
  obtain ⟨hcast, hlt, hclosed⟩ := hattempted.failed e rfl
  refine ⟨hcast, fun hrestored => ?_, hattempted.pipelines, hclosed⟩
  rw [finalState_error, Mission.usedQueues, Mission.usedQueues, hrestored.queues] at hlt
  exact absurd hlt (lt_irrefl _)

end Parts

/-! ## A mission with two element types -/

/-- A source of numbers, a sink of vectors, and a sink of numbers at every other address. -/
def mixedBlocks : Nat → Obj (fun _ : Unit => Nat) (Shared (fun _ : Unit => Nat) Unit) Empty
  | 0 => .source (.base ()) .Fanout fun u => (.ok (some (1 : Nat)), u)
  | 1 => .sink (.vector (.base ())) fun _ u => (.ok (), u)
  | _ => .sink (.base ()) fun _ u => (.ok (), u)

/-- The mission after a pipeline that produces numbers. -/
def openMission : MissionState Nat (fun _ : Unit => Nat) Unit Empty :=
  Mission.attempt (MissionState.init .LOCK_FREE mixedBlocks) ⟨[0], [], []⟩

/-- The consumer of vectors is rejected. The consumer of numbers that is added next reads a new
queue; without the rejected call it would read the queue of the producer. -/
theorem mismatch_disconnects :
    (∃ S', Mission.add ⟨[], [], [1]⟩ openMission =
        .error (.badAnyCastWithInfo (.base ()) (.vector (.base ()))) S' ∧
      (Mission.attempt S' ⟨[], [], [2]⟩).mission.users .source 1 =
        [⟨.source, .base (), 1⟩] ∧
      (Mission.attempt S' ⟨[], [], [2]⟩).mission.users .source 0 = [] ∧
      ¬ openMission.mission.Restored S'.mission) ∧
    (Mission.attempt openMission ⟨[], [], [2]⟩).mission.users .source 0 =
      [⟨.source, .base (), 0⟩] := by
  refine ⟨⟨_, rfl, rfl, rfl, fun h => ?_⟩, rfl⟩
  have hused := congrArg (List.countP QueueWrapper.used) h.queues
  exact absurd hused (by decide)

theorem mismatch_changes :
    ∃ S', Mission.add ⟨[], [], [1]⟩ openMission =
        .error (.badAnyCastWithInfo (.base ()) (.vector (.base ()))) S' ∧
      ((∃ s t, MissionExn.badAnyCastWithInfo (κ := Unit) (.base ()) (.vector (.base ())) =
          .badAnyCastWithInfo s t) ∧ ¬ openMission.mission.Restored S'.mission ∧
        S'.mission.pipelines = openMission.mission.pipelines ∧ S'.mission.Closed) := by
  refine ⟨_, rfl, failedAdd_changes .LOCK_FREE mixedBlocks [⟨[0], [], []⟩] ?_ ⟨[], [], [1]⟩ ?_ ?_
    openMission rfl _ _ rfl⟩
  · intro b hb
    rw [List.mem_singleton.1 hb]
    refine ⟨⟨?_, nofun, nofun⟩, ⟨nofun, fun _ => by simp⟩⟩
    intro i hi
    rw [List.mem_singleton.1 hi]
    rfl
  · refine ⟨nofun, nofun, ?_⟩
    intro i hi
    rw [List.mem_singleton.1 hi]
    rfl
  · exact ⟨fun _ => by simp, nofun⟩

end PipelineTools.FlowEngine
