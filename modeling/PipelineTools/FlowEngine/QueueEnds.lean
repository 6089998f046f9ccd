import PipelineTools.FlowEngine.AutoConnect

/-!
# Which pipeline holds which queue

The queue blocks a call of `Mission::add` makes belong to the pipeline it adds. `Mission.madeBy`
lists them call by call, and `Mission.HasEnd` reads off the pipelines with a block of one kind on
one queue. By the invariant `Paired` they depend on nothing but the requests: a pipeline's blocks
are those of its requests, and request number `r` is served with queue `r / 2` (`holds_iff`).

A pipeline with neither sources nor sinks makes two requests in a row. `noSelfLoop_iff` says when
they are for different queues: when an odd number of requests came before them, so that the first
takes over the queue of the pipeline added before and the second creates one.
-/

set_option autoImplicit false

namespace PipelineTools.FlowEngine

open PipelineTools.Library PipelineTools.Queues

variable {ι κ : Type} {β : κ → Type} {σ ε : Type}

/-- The queues that serve the requests of a call when `m` requests have been made before. -/
def AddArgs.ends (a : AddArgs ι) (m : Nat) : List (QueueEnd × Nat) :=
  (a.requests.zipIdx m).map fun p => (p.1, p.2 / 2)

/-- The number of requests of the calls. -/
def requestCount (calls : List (AddArgs ι)) : Nat := (calls.flatMap AddArgs.requests).length

theorem requestCount_cons (a : AddArgs ι) (calls : List (AddArgs ι)) :
    requestCount (a :: calls) = a.requests.length + requestCount calls := by
  rw [requestCount, List.flatMap_cons, List.length_append, requestCount]

theorem requestCount_append (calls calls' : List (AddArgs ι)) :
    requestCount (calls ++ calls') = requestCount calls + requestCount calls' := by
  rw [requestCount, List.flatMap_append, List.length_append, requestCount, requestCount]

theorem mem_ends_iff {a : AddArgs ι} {m q : Nat} {kind : QueueEnd} :
    (kind, q) ∈ a.ends m ↔ ∃ x, a.requests[x]? = some kind ∧ q = (m + x) / 2 := by
  constructor
  · intro h
    obtain ⟨⟨r, n⟩, hmem, heq⟩ := List.mem_map.1 h
    obtain ⟨rfl, rfl⟩ := Prod.mk.inj heq
    obtain ⟨hle, hget⟩ := List.mem_zipIdx_iff_le_and_getElem?_sub.1 hmem
    refine ⟨n - m, hget, ?_⟩
    rw [Nat.add_sub_cancel' hle]
  · rintro ⟨x, hx, rfl⟩
    apply List.mem_map.2
    refine ⟨(kind, m + x),
      List.mem_zipIdx_iff_le_and_getElem?_sub.2 ⟨Nat.le_add_right m x, ?_⟩, rfl⟩
    rw [Nat.add_sub_cancel_left]
    exact hx

theorem assigned_append (rs rs' : List QueueEnd) :
    assigned (rs ++ rs') = assigned rs ++ (rs'.zipIdx rs.length).map fun p => (p.1, p.2 / 2) := by
  rw [assigned, List.zipIdx_append, List.map_append, Nat.zero_add, assigned]

namespace Mission

variable [DecidableEq ι] [DecidableEq κ]

/-- The queue blocks that each of the calls makes. A call that throws ends the build. -/
def madeBy : List (AddArgs ι) → MissionState ι β σ ε → List (List (AutoBlock κ))
  | [], _ => []
  | a :: calls, S =>
    match add a S with
    | .ok _ S' => S'.mission.made.drop S.mission.made.length :: madeBy calls S'
    | .error _ _ => []

/-- Pipeline number `j` of those that `calls` add has a queue block of the kind on the queue `q`. -/
def HasEnd (calls : List (AddArgs ι)) (S : MissionState ι β σ ε) (j : Nat) (kind : QueueEnd)
    (q : Nat) : Prop :=
  ∃ blocks b, (madeBy calls S)[j]? = some blocks ∧ b ∈ blocks ∧ b.kind = kind ∧ b.queue = q

end Mission

section Build

variable [DecidableEq ι] [DecidableEq κ]

/-- The blocks of every call of an accepted build are those of its requests. -/
theorem madeBy_getElem? {calls : List (AddArgs ι)} {S S' : MissionState ι β σ ε}
    {rs : List QueueEnd} (hp : Paired S.mission rs) (h : Mission.build calls S = .ok () S')
    (j : Nat) :
    ((Mission.madeBy calls S)[j]?).map (List.map fun b => (b.kind, b.queue)) =
      (calls[j]?).map fun a => a.ends (rs.length + requestCount (calls.take j)) := by
  induction calls generalizing S rs j with
  | nil => simp [Mission.madeBy]
  | cons a calls ih =>
    obtain ⟨_, S₁, hadd, hrest⟩ := bind_eq_ok_iff.1 h
    have hp₁ := paired_add hp hadd
    have hmade : Mission.madeBy (a :: calls) S =
        S₁.mission.made.drop S.mission.made.length :: Mission.madeBy calls S₁ := by
      rw [Mission.madeBy, hadd]
    rw [hmade]
    cases j with
    | zero =>
      have hlength : S.mission.made.length = (assigned rs).length := by
        rw [← hp.made, List.length_map]
      have hnew : (S₁.mission.made.drop S.mission.made.length).map (fun b => (b.kind, b.queue)) =
          a.ends rs.length := by
        rw [List.map_drop, hp₁.made, assigned_append, hlength, List.drop_left, AddArgs.ends]
      rw [List.getElem?_cons_zero, List.getElem?_cons_zero, Option.map_some, Option.map_some, hnew]
      rfl
    | succ j =>
      rw [List.getElem?_cons_succ, List.getElem?_cons_succ, ih hp₁ hrest, List.take_succ_cons,
        requestCount_cons, List.length_append, Nat.add_assoc]

/-- Who holds a queue is decided by the requests alone. -/
theorem holds_iff (queueType : QueueType) {obj : ι → Obj β (Shared β σ) ε}
    {calls : List (AddArgs ι)} {S : MissionState ι β σ ε}
    (h : Mission.build calls (MissionState.init queueType obj) = .ok () S) {j q : Nat}
    {kind : QueueEnd} :
    Mission.HasEnd calls (MissionState.init queueType obj) j kind q ↔
      ∃ a, calls[j]? = some a ∧ (kind, q) ∈ a.ends (requestCount (calls.take j)) := by
  have hget := madeBy_getElem? (paired_init queueType) h j
  simp only [List.length_nil, Nat.zero_add] at hget
  constructor
  · rintro ⟨blocks, b, hblocks, hb, rfl, rfl⟩
    rw [hblocks, Option.map_some] at hget
    obtain ⟨a, ha, hends⟩ := Option.map_eq_some_iff.1 hget.symm
    refine ⟨a, ha, ?_⟩
    rw [hends]
    exact List.mem_map.2 ⟨b, hb, rfl⟩
  · rintro ⟨a, ha, hmem⟩
    rw [ha, Option.map_some] at hget
    obtain ⟨blocks, hblocks, hends⟩ := Option.map_eq_some_iff.1 hget
    rw [← hends] at hmem
    obtain ⟨b, hb, heq⟩ := List.mem_map.1 hmem
    obtain ⟨rfl, rfl⟩ := Prod.mk.inj heq
    exact ⟨blocks, b, hblocks, hb, rfl, rfl⟩

end Build

/-! ## Pipelines that read what they write -/

/-- No pipeline reads the queue it writes. -/
def Mission.NoSelfLoop [DecidableEq ι] [DecidableEq κ] (calls : List (AddArgs ι))
    (S : MissionState ι β σ ε) : Prop :=
  ∀ j q q', Mission.HasEnd calls S j .source q → Mission.HasEnd calls S j .sink q' → q ≠ q'

/-- A pipeline for which both ends are made requests the source end, then the sink end. -/
theorem requests_eq_pair {a : AddArgs ι} (hsources : a.sources = []) (hsinks : a.sinks = []) :
    a.requests = [.source, .sink] := by
  rw [AddArgs.requests, if_pos hsources, if_pos hsinks]
  rfl

/-- Only a pipeline without sources and sinks has two ends of its own. -/
theorem ends_of_requests {a : AddArgs ι} {x y : Nat} (hsource : a.requests[x]? = some .source)
    (hsink : a.requests[y]? = some .sink) :
    (a.sources = [] ∧ a.sinks = []) ∧ x = 0 ∧ y = 1 := by
  rw [AddArgs.requests] at hsource hsink
  by_cases hsources : a.sources = []
  · by_cases hsinks : a.sinks = []
    · rw [if_pos hsources, if_pos hsinks] at hsource hsink
      refine ⟨⟨hsources, hsinks⟩, ?_⟩
      rcases x with _ | _ | x
      · rcases y with _ | _ | y
        · cases hsink
        · exact ⟨rfl, rfl⟩
        · cases hsink
      · cases hsource
      · cases hsource
    · rw [if_pos hsources, if_neg hsinks, List.append_nil] at hsink
      rcases y with _ | y <;> cases hsink
  · rw [if_neg hsources, List.nil_append] at hsource
    by_cases hsinks : a.sinks = []
    · rw [if_pos hsinks] at hsource
      rcases x with _ | x <;> cases hsource
    · rw [if_neg hsinks] at hsource
      cases hsource

variable [DecidableEq ι] [DecidableEq κ]

/-- After any calls of `add` that return, no pipeline reads the queue it writes exactly when an odd
number of requests comes before each pipeline that has neither sources nor sinks. -/
theorem noSelfLoop_iff (queueType : QueueType) (obj : ι → Obj β (Shared β σ) ε)
    (calls : List (AddArgs ι)) (S : MissionState ι β σ ε)
    (h : Mission.build calls (MissionState.init queueType obj) = .ok () S) :
    Mission.NoSelfLoop calls (MissionState.init queueType obj) ↔
      ∀ before a after, calls = before ++ a :: after → a.sources = [] → a.sinks = [] →
        requestCount before % 2 = 1 := by
  constructor
  -- its two requests are neighbours, and share a queue if the first is even
  · rintro hloop before a after rfl hsources hsinks
    have hget : (before ++ a :: after)[before.length]? = some a := by
      rw [List.getElem?_append_right le_rfl, Nat.sub_self, List.getElem?_cons_zero]
    have hends : ∀ x kind, a.requests[x]? = some kind →
        Mission.HasEnd (before ++ a :: after) (MissionState.init queueType obj) before.length kind
          ((requestCount before + x) / 2) := by
      intro x kind hx
      refine (holds_iff queueType h).2 ⟨a, hget, ?_⟩
      rw [List.take_left]
      exact mem_ends_iff.2 ⟨x, hx, rfl⟩
    have hpair := requests_eq_pair hsources hsinks
    have hne := hloop before.length _ _ (hends 0 .source (by rw [hpair]; rfl))
      (hends 1 .sink (by rw [hpair]; rfl))
    omega
  · intro hodd j q q' hsource hsink
    obtain ⟨a, ha, hmem⟩ := (holds_iff queueType h).1 hsource
    obtain ⟨a', ha', hmem'⟩ := (holds_iff queueType h).1 hsink
    obtain rfl := Option.some.inj (ha.symm.trans ha')
    obtain ⟨x, hx, rfl⟩ := mem_ends_iff.1 hmem
    obtain ⟨y, hy, rfl⟩ := mem_ends_iff.1 hmem'
    obtain ⟨⟨hsources, hsinks⟩, rfl, rfl⟩ := ends_of_requests hx hy
    have hj := (List.getElem?_eq_some_iff.1 ha).1
    have hsplit : calls = calls.take j ++ a :: calls.drop (j + 1) := by
      rw [← (List.getElem?_eq_some_iff.1 ha).2, ← List.drop_eq_getElem_cons hj,
        List.take_append_drop]
    have hparity := hodd _ a _ hsplit hsources hsinks
    omega

/-- Blocks over numbers: a source, a module, and a sink at every other address. -/
def chainBlocks : Nat → Obj (fun _ : Unit => Nat) (Shared (fun _ : Unit => Nat) Unit) Empty
  | 0 => .source (.base ()) .Fanout fun u => (.ok (some (1 : Nat)), u)
  | 1 => .module (.base ()) (.base ()) .Fanout fun v u => (.ok (some v), u)
  | _ => .sink (.base ()) fun _ u => (.ok (), u)

/-- A pipeline of one module, added first, reads the queue it writes. -/
theorem loneModule_loops :
    ∃ S, Mission.build [⟨[], [1], []⟩] (MissionState.init .LOCK_FREE chainBlocks) = .ok () S ∧
      ¬ Mission.NoSelfLoop [⟨[], [1], []⟩] (MissionState.init .LOCK_FREE chainBlocks) := by
  have hreturns : (stopOf (Mission.build [⟨[], [1], []⟩]
      (MissionState.init .LOCK_FREE chainBlocks))).isNone = true := by
    decide +kernel
  obtain ⟨_, S, hbuild⟩ := exists_ok_of_stopOf hreturns
  refine ⟨S, hbuild, fun h => ?_⟩
  exact h 0 0 0 ⟨_, _, rfl, List.mem_cons_self, rfl, rfl⟩
    ⟨_, _, rfl, List.mem_cons_of_mem _ List.mem_cons_self, rfl, rfl⟩ rfl

/-- Behind a producing pipeline it does not. -/
theorem producerAndModule_noSelfLoop_iff :
    Mission.NoSelfLoop [⟨[0], [], []⟩, ⟨[], [1], []⟩]
        (MissionState.init .LOCK_FREE chainBlocks) ↔
      ∀ before a after, [⟨[0], [], []⟩, ⟨[], [1], []⟩] = before ++ a :: after →
        a.sources = [] → a.sinks = [] → requestCount before % 2 = 1 := by
  have hreturns : (stopOf (Mission.build [⟨[0], [], []⟩, ⟨[], [1], []⟩]
      (MissionState.init .LOCK_FREE chainBlocks))).isNone = true := by
    decide +kernel
  obtain ⟨_, S, hbuild⟩ := exists_ok_of_stopOf hreturns
  exact noSelfLoop_iff .LOCK_FREE chainBlocks _ S hbuild

end PipelineTools.FlowEngine
