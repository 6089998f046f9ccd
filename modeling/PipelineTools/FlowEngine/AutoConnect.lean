import PipelineTools.FlowEngine.Mission
import Mathlib.Data.List.Nodup

/-!
# Which blocks share an automatic queue

Every call of `Mission::add` asks for a queue once for each end it is not given. A queue serves two
consecutive requests, whatever the blocks are that made them: the first one creates it, the second
one takes it over and sets `used`. `Paired` is the invariant that says so of a mission and the
requests made so far.

`singleProducerSingleConsumer_iff` reads off when a queue has at most one writing and one reading
block: exactly when the requests, taken two by two, are always for the two different ends.
-/

set_option autoImplicit false

namespace PipelineTools.FlowEngine

open PipelineTools.Library PipelineTools.Queues

variable {ι κ : Type} {β : κ → Type} {σ ε : Type}

/-- The queue blocks of one kind on the queue `q`. -/
def Mission.users (m : Mission ι κ) (kind : QueueEnd) (q : Nat) : List (AutoBlock κ) :=
  m.made.filter fun b => b.kind = kind ∧ b.queue = q

/-- Every queue was given to at most one `QueueSink` and at most one `QueueSource`. -/
def Mission.SingleProducerSingleConsumer (m : Mission ι κ) : Prop :=
  ∀ q, (m.users .sink q).length ≤ 1 ∧ (m.users .source q).length ≤ 1

/-- The queue blocks one call of `add` makes. -/
def AddArgs.requests (a : AddArgs ι) : List QueueEnd :=
  (if a.sources = [] then [.source] else []) ++ (if a.sinks = [] then [.sink] else [])

/-- The first and the second request, the third and the fourth, and so on, are for different
ends. -/
def PairsDiffer : List QueueEnd → Prop
  | r :: r' :: rs => r ≠ r' ∧ PairsDiffer rs
  | _ => True

/-- Two consecutive requests get the same queue. -/
def assigned (rs : List QueueEnd) : List (QueueEnd × Nat) :=
  rs.zipIdx.map fun p => (p.1, p.2 / 2)

theorem assigned_concat (rs : List QueueEnd) (r : QueueEnd) :
    assigned (rs ++ [r]) = assigned rs ++ [(r, rs.length / 2)] := by
  simp [assigned, List.zipIdx_append]

/-- Requests from an even position on get queues from half that position on. -/
theorem le_of_mem_assigned {rs : List QueueEnd} {k q : Nat} {r : QueueEnd}
    (h : (r, q) ∈ (rs.zipIdx (2 * k)).map fun p => (p.1, p.2 / 2)) : k ≤ q := by
  obtain ⟨⟨r', i⟩, hmem, heq⟩ := List.mem_map.1 h
  have hle : 2 * k ≤ i := List.le_snd_of_mem_zipIdx hmem
  obtain ⟨-, rfl⟩ := Prod.mk.inj heq
  show k ≤ i / 2
  omega

/-- No end of a queue is given out twice exactly when the pairs differ. -/
theorem nodup_assigned_iff : ∀ (rs : List QueueEnd) (k : Nat),
    ((rs.zipIdx (2 * k)).map fun p => (p.1, p.2 / 2)).Nodup ↔ PairsDiffer rs
  | [], _ => by simp [PairsDiffer]
  | [r], k => by simp [PairsDiffer]
  | r :: r' :: rs, k => by
    have hrest := nodup_assigned_iff rs (k + 1)
    have hnot : ∀ x, (x, k) ∉ (rs.zipIdx (2 * (k + 1))).map fun p => (p.1, p.2 / 2) := by
      intro x hx
      have hle := le_of_mem_assigned hx
      omega
    have hhalf : (2 * k + 1) / 2 = k := by omega
    have hhalf' : 2 * k / 2 = k := by omega
    have hstart : 2 * k + 1 + 1 = 2 * (k + 1) := by omega
    rw [List.zipIdx_cons, List.zipIdx_cons, List.map_cons, List.map_cons, hstart, hhalf, hhalf',
      List.nodup_cons, List.nodup_cons, hrest, List.mem_cons, PairsDiffer]
    constructor
    · rintro ⟨hfirst, -, hpairs⟩
      exact ⟨fun heq => hfirst (Or.inl (by rw [heq])), hpairs⟩
    · rintro ⟨hne, hpairs⟩
      refine ⟨?_, hnot r', hpairs⟩
      rintro (heq | hmem)
      · exact hne (Prod.mk.inj heq).1
      · exact hnot r hmem

/-- Each queue has at most one block of each kind when no pair of kind and queue occurs twice. -/
theorem singleProducerSingleConsumer_iff_nodup (m : Mission ι κ) :
    m.SingleProducerSingleConsumer ↔ (m.made.map fun b => (b.kind, b.queue)).Nodup := by
  have hcount : ∀ kind q, (m.users kind q).length =
      (m.made.map fun b => (b.kind, b.queue)).count (kind, q) := by
    intro kind q
    rw [List.count, List.countP_map, Mission.users, ← List.countP_eq_length_filter]
    apply List.countP_congr
    intro b _
    simp
  rw [List.nodup_iff_count_le_one, Prod.forall]
  constructor
  · intro h kind q
    rw [← hcount]
    cases kind with
    | source => exact (h q).2
    | sink => exact (h q).1
  · intro h q
    rw [hcount, hcount]
    exact ⟨h .sink q, h .source q⟩

/-! ## The invariant -/

/-- The queue blocks of a mission are paired up in the order of the requests, and the last queue is
open while it waits for its second block. -/
structure Paired (m : Mission ι κ) (rs : List QueueEnd) : Prop where
  made : (m.made.map fun b => (b.kind, b.queue)) = assigned rs
  count : m.queues.length = (rs.length + 1) / 2
  last : ∀ w, m.queues.getLast? = some w → (w.used = true ↔ rs.length % 2 = 0)

theorem paired_init (queueType : QueueType) :
    Paired ({ queueType := queueType } : Mission ι κ) [] := by
  refine ⟨rfl, rfl, ?_⟩
  intro w hw
  cases hw

section Steps

variable [DecidableEq ι] [DecidableEq κ]

omit [DecidableEq κ] in
theorem mission_applyFlows {fs : List (Addr ι)} {p p' : Pipeline (Addr ι)}
    {S S' : MissionState ι β σ ε} (h : Mission.applyFlows p fs S = .ok p' S') :
    S'.mission = S.mission := by
  induction fs generalizing p S with
  | nil =>
    cases h
    rfl
  | cons f fs ih =>
    simp only [Mission.applyFlows] at h
    split at h
    · have hrest := ih h
      exact hrest
    · cases h

omit [DecidableEq ι] in
/-- A request for a queue extends the invariant by one position. -/
theorem paired_getOrCreateQueue {t : Ty κ} {q : Nat} {S S' : MissionState ι β σ ε}
    {rs : List QueueEnd} (hp : Paired S.mission rs)
    (h : Mission.getOrCreateQueue t S = .ok q S') :
    q = rs.length / 2 ∧ S'.mission.made = S.mission.made ∧
      S'.mission.queues.length = (rs.length + 1 + 1) / 2 ∧
      ∀ w, S'.mission.queues.getLast? = some w → (w.used = true ↔ (rs.length + 1) % 2 = 0) := by
  have hcount := hp.count
  -- an even number of requests: the last queue has both its blocks, a new one is made
  have hcreate : rs.length % 2 = 0 → Mission.createQueue t S = .ok q S' →
      q = rs.length / 2 ∧ S'.mission.made = S.mission.made ∧
        S'.mission.queues.length = (rs.length + 1 + 1) / 2 ∧
        ∀ w, S'.mission.queues.getLast? = some w →
          (w.used = true ↔ (rs.length + 1) % 2 = 0) := by
    intro heven hnew
    cases hnew
    refine ⟨?_, rfl, ?_, ?_⟩
    · omega
    · simp only [List.length_append, List.length_singleton]
      omega
    · intro w hw
      simp only [List.getLast?_concat, Option.some.injEq] at hw
      subst hw
      simp only [Bool.false_eq_true, false_iff]
      omega
  rw [Mission.getOrCreateQueue] at h
  cases hlast : S.mission.queues.getLast? with
  | none =>
    rw [hlast] at h
    have hnil := List.getLast?_eq_none_iff.1 hlast
    rw [hnil, List.length_nil] at hcount
    exact hcreate (by omega) h
  | some back =>
    rw [hlast] at h
    have hused := hp.last back hlast
    have hne : S.mission.queues ≠ [] := by
      intro hnil
      rw [hnil] at hlast
      cases hlast
    have hpos := List.length_pos_of_ne_nil hne
    simp only at h
    by_cases hback : back.used = true
    · rw [if_pos hback] at h
      exact hcreate (hused.1 hback) h
    · rw [if_neg hback] at h
      have hodd : rs.length % 2 = 1 := by
        have hnot := mt hused.2 hback
        omega
      -- an odd number: the last queue is taken, if its element type fits
      by_cases helem : back.elem = t
      · rw [if_pos helem] at h
        cases h
        refine ⟨?_, rfl, ?_, ?_⟩
        · omega
        · simp only [List.length_append, List.length_dropLast, List.length_singleton]
          omega
        · intro w hw
          simp only [List.getLast?_concat, Option.some.injEq] at hw
          subst hw
          simp only [true_iff]
          omega
      · rw [if_neg helem] at h
        cases h

/-- Making a queue block is one request. -/
theorem paired_makeQueueEnd {kind : QueueEnd} {t : Option (Ty κ)} {a : Addr ι}
    {S S' : MissionState ι β σ ε} {rs : List QueueEnd} (hp : Paired S.mission rs)
    (h : Mission.makeQueueEnd kind t S = .ok a S') : Paired S'.mission (rs ++ [kind]) := by
  cases t with
  | none => cases h
  | some t =>
    obtain ⟨q, S₁, hq, hblock⟩ := bind_eq_ok_iff.1 h
    obtain ⟨rfl, hmade, hlen, hlast⟩ := paired_getOrCreateQueue hp hq
    cases hblock
    refine ⟨?_, ?_, ?_⟩
    · simp only [List.map_append, List.map_cons, List.map_nil, hmade, hp.made, assigned_concat]
    · rw [List.length_append]
      exact hlen
    · intro w hw
      rw [List.length_append]
      exact hlast w hw

theorem paired_addSources {a : AddArgs ι} {p p' : Pipeline (Addr ι)} {S S' : MissionState ι β σ ε}
    {rs : List QueueEnd} (hp : Paired S.mission rs) (h : Mission.addSources a p S = .ok p' S') :
    Paired S'.mission (rs ++ if a.sources = [] then [.source] else []) := by
  rw [Mission.addSources] at h
  by_cases hnil : a.sources = []
  · rw [if_neg (not_not.2 hnil)] at h
    obtain ⟨src, S₁, hsrc, happly⟩ := bind_eq_ok_iff.1 h
    rw [if_pos hnil, mission_applyFlows happly]
    exact paired_makeQueueEnd hp hsrc
  · rw [if_pos hnil] at h
    rw [if_neg hnil, List.append_nil, mission_applyFlows h]
    exact hp

theorem paired_addSinks {a : AddArgs ι} {p p' : Pipeline (Addr ι)} {S S' : MissionState ι β σ ε}
    {rs : List QueueEnd} (hp : Paired S.mission rs) (h : Mission.addSinks a p S = .ok p' S') :
    Paired S'.mission (rs ++ if a.sinks = [] then [.sink] else []) := by
  rw [Mission.addSinks] at h
  by_cases hnil : a.sinks = []
  · rw [if_neg (not_not.2 hnil)] at h
    obtain ⟨snk, S₁, hsnk, happly⟩ := bind_eq_ok_iff.1 h
    rw [if_pos hnil, mission_applyFlows happly]
    exact paired_makeQueueEnd hp hsnk
  · rw [if_pos hnil] at h
    rw [if_neg hnil, List.append_nil, mission_applyFlows h]
    exact hp

/-- A call of `add` that returns makes its requests, the source end first. -/
theorem paired_add {a : AddArgs ι} {S S' : MissionState ι β σ ε} {rs : List QueueEnd}
    (hp : Paired S.mission rs) (h : Mission.add a S = .ok () S') :
    Paired S'.mission (rs ++ a.requests) := by
  obtain ⟨p₁, S₁, hsources, h₁⟩ := bind_eq_ok_iff.1 h
  obtain ⟨p₂, S₂, hnodes, h₂⟩ := bind_eq_ok_iff.1 h₁
  obtain ⟨p₃, S₃, hsinks, hstore⟩ := bind_eq_ok_iff.1 h₂
  have hp₁ := paired_addSources hp hsources
  rw [← mission_applyFlows hnodes] at hp₁
  have hp₃ := paired_addSinks hp₁ hsinks
  rw [List.append_assoc] at hp₃
  cases hstore
  exact ⟨hp₃.made, hp₃.count, hp₃.last⟩

/-- The requests of a sequence of calls that all return. -/
theorem paired_build {calls : List (AddArgs ι)} {S S' : MissionState ι β σ ε}
    {rs : List QueueEnd} (hp : Paired S.mission rs) (h : Mission.build calls S = .ok () S') :
    Paired S'.mission (rs ++ calls.flatMap AddArgs.requests) := by
  induction calls generalizing S rs with
  | nil =>
    cases h
    simpa using hp
  | cons a calls ih =>
    obtain ⟨_, S₁, hadd, hrest⟩ := bind_eq_ok_iff.1 h
    have hnext := ih (paired_add hp hadd) hrest
    rw [List.append_assoc] at hnext
    rw [List.flatMap_cons]
    exact hnext

/-- After any calls of `add` that return, every queue has at most one writing and one reading block
exactly when no two requests that share a queue are for the same end. -/
theorem singleProducerSingleConsumer_iff (queueType : QueueType)
    (obj : ι → Obj β (Shared β σ) ε) (calls : List (AddArgs ι)) (S : MissionState ι β σ ε)
    (h : Mission.build calls (MissionState.init queueType obj) = .ok () S) :
    S.mission.SingleProducerSingleConsumer ↔ PairsDiffer (calls.flatMap AddArgs.requests) := by
  have hp := paired_build (paired_init queueType) h
  rw [singleProducerSingleConsumer_iff_nodup, hp.made, List.nil_append]
  exact nodup_assigned_iff _ 0

end Steps

/-! ## Two short missions -/

/-- Blocks over numbers: two sources, and a sink at every other address. -/
def missionBlocks : Nat → Obj (fun _ : Unit => Nat) (Shared (fun _ : Unit => Nat) Unit) Empty
  | 0 => .source (.base ()) .Fanout fun u => (.ok (some (1 : Nat)), u)
  | 1 => .source (.base ()) .Fanout fun u => (.ok (some (2 : Nat)), u)
  | _ => .sink (.base ()) fun _ u => (.ok (), u)

/-- Two producing pipelines, one after the other. -/
def twoProducers : List (AddArgs Nat) := [⟨[0], [], []⟩, ⟨[1], [], []⟩]

/-- A producing pipeline, then a consuming one. -/
def producerAndConsumer : List (AddArgs Nat) := [⟨[0], [], []⟩, ⟨[], [], [2]⟩]

/-- Two producing pipelines in a row write to the same queue. -/
theorem twoProducers_share :
    ∃ S, Mission.build twoProducers (MissionState.init .LOCK_FREE missionBlocks) = .ok () S ∧
      ¬ S.mission.SingleProducerSingleConsumer := by
  refine ⟨_, rfl, fun h => ?_⟩
  have hwriters := (h 0).1
  revert hwriters
  decide

theorem producerAndConsumer_iff :
    ∃ S, Mission.build producerAndConsumer (MissionState.init .LOCK_FREE missionBlocks) =
        .ok () S ∧
      (S.mission.SingleProducerSingleConsumer ↔
        PairsDiffer (producerAndConsumer.flatMap AddArgs.requests)) := by
  have hreturns : (stopOf (Mission.build producerAndConsumer
      (MissionState.init .LOCK_FREE missionBlocks))).isNone = true := by
    decide +kernel
  obtain ⟨_, S, hbuild⟩ := exists_ok_of_stopOf hreturns
  exact ⟨S, hbuild,
    singleProducerSingleConsumer_iff .LOCK_FREE missionBlocks producerAndConsumer S hbuild⟩

end PipelineTools.FlowEngine
