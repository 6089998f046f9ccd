import PipelineTools.FlowEngine.QueueTurns

/-!
# Queue calls as single turns

The workers whose queue calls go access by access (`queueClient` on `queuesCode`) do what the
workers of `Threads.step` do, whose turns are not cut in two (`workers_refine`). A turn of a queue
block is taken as a whole when the call takes effect. Until the call returns, its worker is
behind: `ahead` is where it will be then. For this each end of a queue has to belong to one worker
(`OwnedByWorkers`).
-/

set_option autoImplicit false

namespace PipelineTools.FlowEngine

open PipelineTools.Library PipelineTools.Queues

variable {ι κ : Type} {β : κ → Type} {σ ε : Type}

/-! ## Who executes what -/

/-- Each block that is executed belongs to one worker, and so does each end of a queue. The source
at the end of a queue has a consumer. -/
structure OwnedByWorkers [DecidableEq κ] (pipelines : List (Pipeline ι))
    (ends : ι → Option (AutoBlock κ)) (h : Heap ι β σ ε) (worker : ι → Option Nat) : Prop where
  starts : ∀ (w : Nat) (p : Pipeline ι), pipelines[w]? = some p →
    ∀ d ∈ (p.starts : List (ι × Any β × Nat)), worker d.1 = some w
  consumers : ∀ (x y : ι) (w : Nat), worker x = some w →
    (h.withQueues ends x).obj.isSink = false → Edge h x y → worker y = some w
  apart : ∀ (x y : ι) (b : AutoBlock κ) (v w : Nat), ends x = some b → ends y = some b →
    worker x = some v → worker y = some w → v = w
  fed : ∀ (x : ι) (b : AutoBlock κ) (w : Nat), ends x = some b → b.kind = .source →
    worker x = some w → (h x).nextNodes ≠ []

/-- The calls that a worker has made. -/
def workerLog (worker : ι → Option Nat) (w : Nat) (log : List (Event ι β ε)) :
    List (Event ι β ε) :=
  log.filter fun e => worker e.block = some w

/-- The calls of the user's blocks. -/
def usersLog (ends : ι → Option (AutoBlock κ)) (log : List (Event ι β ε)) : List (Event ι β ε) :=
  log.filter fun e => (ends e.block).isNone

section Logs

variable {worker : ι → Option Nat} {v w : Nat} {es : List (Event ι β ε)}

theorem workerLog_append (log : List (Event ι β ε)) :
    workerLog worker w (log ++ es) = workerLog worker w log ++ workerLog worker w es :=
  List.filter_append _ _

theorem workerLog_of_own (h : ∀ e ∈ es, worker e.block = some w) : workerLog worker w es = es := by
  rw [workerLog, List.filter_eq_self]
  intro e he
  exact decide_eq_true (h e he)

theorem workerLog_of_other (h : ∀ e ∈ es, worker e.block = some v) (hne : w ≠ v) :
    workerLog worker w es = [] := by
  rw [workerLog, List.filter_eq_nil_iff]
  intro e he hw
  exact hne (Option.some.inj ((of_decide_eq_true hw).symm.trans (h e he)))

theorem usersLog_append {ends : ι → Option (AutoBlock κ)} (log : List (Event ι β ε)) :
    usersLog ends (log ++ es) = usersLog ends log ++ usersLog ends es :=
  List.filter_append _ _

theorem usersLog_of_end {ends : ι → Option (AutoBlock κ)} {b : AutoBlock κ}
    (h : ∀ e ∈ es, ends e.block = some b) : usersLog ends es = [] := by
  rw [usersLog, List.filter_eq_nil_iff]
  intro e he
  simp [h e he]

end Logs

section

variable [DecidableEq ι] [DecidableEq κ] {ends : ι → Option (AutoBlock κ)}

/-- The calls of the queues. -/
abbrev QueueStatus (β : κ → Type) := QueueSide κ → CallStatus (QueueCall β) (QueueReply β)

/-- Where a worker with the given stack will be when its queue call has returned, if the call has
taken effect, and what it will have logged by then. -/
def ahead (ends : ι → Option (AutoBlock κ)) (nextNodes : ι → List (ι × Nat))
    (status : QueueStatus β) : List (Task ι β) → List (Task ι β) × List (Event ι β ε)
  | [] => ([], [])
  | t :: rest =>
    match request ends t with
    | none => (t :: rest, [])
    | some (side, _) =>
      match status side with
      | .done reply =>
        match finish ends nextNodes t reply with
        | some (ts, es) => (ts ++ rest, es)
        | none => (t :: rest, [])
      | _ => (t :: rest, [])

section Ahead

variable {nextNodes : ι → List (ι × Nat)} {status status' : QueueStatus β} {t : Task ι β}
  {rest ts : List (Task ι β)} {side : QueueSide κ} {call : QueueCall β} {reply : QueueReply β}
  {es : List (Event ι β ε)}

theorem ahead_of_not_done
    (h : ∀ side call, ts.head?.bind (request ends) = some (side, call) →
      ∀ reply, status side ≠ .done reply) :
    ahead (ε := ε) ends nextNodes status ts = (ts, []) := by
  cases ts with
  | nil => rfl
  | cons t rest =>
    cases hrequest : request ends t with
    | none => simp only [ahead, hrequest]
    | some p =>
      have hstatus := h p.1 p.2 hrequest
      cases hs : status p.1 with
      | idle => simp only [ahead, hrequest, hs]
      | called op => simp only [ahead, hrequest, hs]
      | done reply => exact absurd hs (hstatus reply)

omit [DecidableEq ι] in
/-- A worker waits for one call only. -/
theorem not_done_of_call (hcall : ts.head?.bind (request ends) = some (side, call))
    (hstatus : ∀ reply, status side ≠ .done reply) :
    ∀ side' call', ts.head?.bind (request ends) = some (side', call') →
      ∀ reply, status side' ≠ .done reply := by
  intro side' call' hcall'
  obtain ⟨rfl, rfl⟩ := Prod.mk.inj (Option.some.inj (hcall.symm.trans hcall'))
  exact hstatus

theorem ahead_congr
    (h : ∀ side call, ts.head?.bind (request ends) = some (side, call) →
      status side = status' side) :
    ahead (ε := ε) ends nextNodes status ts = ahead ends nextNodes status' ts := by
  cases ts with
  | nil => rfl
  | cons t rest =>
    cases hrequest : request ends t with
    | none => simp only [ahead, hrequest]
    | some p =>
      have hstatus := h p.1 p.2 hrequest
      simp only [ahead, hrequest, hstatus]

theorem ahead_of_finish (hrequest : request ends t = some (side, call))
    (hdone : status side = .done reply) (hfinish : finish ends nextNodes t reply = some (ts, es)) :
    ahead ends nextNodes status (t :: rest) = (ts ++ rest, es) := by
  simp only [ahead, hrequest, hdone, hfinish]

theorem ahead_of_thrown (hrequest : request ends t = some (side, call))
    (hdone : status side = .done reply) (hfinish : finish (ε := ε) ends nextNodes t reply = none) :
    ahead (ε := ε) ends nextNodes status (t :: rest) = (t :: rest, []) := by
  simp only [ahead, hrequest, hdone, hfinish]

/-- A worker is ahead if its call has taken effect and the turn comes to an end. -/
theorem ahead_cases (ends : ι → Option (AutoBlock κ)) (nextNodes : ι → List (ι × Nat))
    (status : QueueStatus β) (ts : List (Task ι β)) :
    ahead (ε := ε) ends nextNodes status ts = (ts, []) ∨
      ∃ t rest reply ts' es, ts = t :: rest ∧ finish ends nextNodes t reply = some (ts', es) ∧
        ahead (ε := ε) ends nextNodes status ts = (ts' ++ rest, es) := by
  cases ts with
  | nil => exact .inl rfl
  | cons t rest =>
    cases hrequest : request ends t with
    | none => exact .inl (by simp only [ahead, hrequest])
    | some p =>
      cases hs : status p.1 with
      | idle => exact .inl (by simp only [ahead, hrequest, hs])
      | called op => exact .inl (by simp only [ahead, hrequest, hs])
      | done reply =>
        cases hfinish : finish (ε := ε) ends nextNodes t reply with
        | none => exact .inl (ahead_of_thrown hrequest hs hfinish)
        | some r =>
          exact .inr ⟨t, rest, reply, r.1, r.2, rfl, hfinish, ahead_of_finish hrequest hs hfinish⟩

end Ahead

/-! ## Keeping step -/

/-- The queues, one by one. -/
abbrev QueuesAtomic (β : κ → Type) :=
  AtomicObject (QueueSide κ) (QueueCall β) (QueueReply β) (∀ k : Ty κ × Nat, IQueue (k.1.Val β))

/-- The workers of `Threads.step` have taken the turns of all calls that have taken effect. -/
structure Keeps (pipelines : List (Pipeline ι)) (ends : ι → Option (AutoBlock κ))
    (h : Heap ι β σ ε) (worker : ι → Option Nat) (g : Threads ι β σ ε) (a : QueuesAtomic β)
    (s : Threads ι β (Shared β σ) ε) : Prop where
  machine : s.machine =
    g.machine.withQueues ends (fun t q => a.object (t, q)) s.machine.log
  wiring : SameWiring h g.machine.heap
  owned : ∀ w, ∀ t ∈ g.tasks w, worker t.block = some w
  pipeline : ∀ w, g.tasks w ≠ [] → ∃ p, pipelines[w]? = some p
  caller : ∀ side, a.status side ≠ .idle → ∃ w call,
    (g.tasks w).head?.bind (request ends) = some (side, call) ∧
      ∀ call', a.status side = .called call' → call' = call
  tasks : ∀ w, s.tasks w = (ahead (ε := ε) ends (fun x => (h x).nextNodes) a.status (g.tasks w)).1
  workers : ∀ w, workerLog worker w s.machine.log = workerLog worker w g.machine.log ++
    (ahead ends (fun x => (h x).nextNodes) a.status (g.tasks w)).2
  users : usersLog ends s.machine.log = usersLog ends g.machine.log

variable {pipelines : List (Pipeline ι)} {h : Heap ι β σ ε} {worker : ι → Option Nat}
  {g g' : Threads ι β σ ε} {a : QueuesAtomic β} {s : Threads ι β (Shared β σ) ε}

omit [DecidableEq ι] in
/-- The side of a queue that a block calls, and the block at it. -/
theorem side_of_request {t : Task ι β} {side : QueueSide κ} {call : QueueCall β}
    (hrequest : request ends t = some (side, call)) :
    ∃ b, ends t.block = some b ∧ side.1 = (b.elem, b.queue) ∧
      (side.2 = .consumer ↔ b.kind = .source) := by
  obtain ⟨b, hb, ⟨hkind, rfl, -⟩ | ⟨value, hkind, -, rfl, -⟩⟩ := request_cases hrequest
  · exact ⟨b, hb, rfl, fun _ => hkind, fun _ => rfl⟩
  · refine ⟨b, hb, rfl, ?_, ?_⟩
    · intro hside
      cases hside
    · intro hsource
      rw [hkind] at hsource
      cases hsource

omit [DecidableEq ι] in
/-- Two blocks that call the same side of a queue belong to the same worker. -/
theorem OwnedByWorkers.same_caller (hwired : OwnedByWorkers pipelines ends h worker) {v w : Nat}
    {ts ts' : List (Task ι β)} {side : QueueSide κ} {call call' : QueueCall β}
    (hts : ∀ t ∈ ts, worker t.block = some v) (hts' : ∀ t ∈ ts', worker t.block = some w)
    (hcall : ts.head?.bind (request ends) = some (side, call))
    (hcall' : ts'.head?.bind (request ends) = some (side, call')) : v = w := by
  obtain ⟨t, ht, hrequest⟩ := Option.bind_eq_some_iff.1 hcall
  obtain ⟨t', ht', hrequest'⟩ := Option.bind_eq_some_iff.1 hcall'
  obtain ⟨b, hb, hside, hkind⟩ := side_of_request hrequest
  obtain ⟨b', hb', hside', hkind'⟩ := side_of_request hrequest'
  have hsame : b = b' := by
    obtain ⟨kind, elem, queue⟩ := b
    obtain ⟨kind', elem', queue'⟩ := b'
    obtain ⟨rfl, rfl⟩ := Prod.mk.inj (hside.symm.trans hside')
    have hkinds : kind = .source ↔ kind' = .source := hkind.symm.trans hkind'
    cases kind with
    | source => rw [hkinds.1 rfl]
    | sink =>
      cases kind' with
      | source => cases hkinds.2 rfl
      | sink => rfl
  subst hsame
  exact hwired.apart _ _ b v w hb hb' (hts t (List.mem_of_head? ht))
    (hts' t' (List.mem_of_head? ht'))

/-- A worker that has just come to a new block has not called its queue yet. -/
theorem OwnedByWorkers.ahead_fresh (hwired : OwnedByWorkers pipelines ends h worker) {w : Nat}
    (howned : ∀ v, ∀ t ∈ g.tasks v, worker t.block = some v) {ts : List (Task ι β)}
    (hts : ∀ t ∈ ts, worker t.block = some w) {status : QueueStatus β}
    (hother : ∀ side, status side ≠ .idle → ∃ v call, v ≠ w ∧
      (g.tasks v).head?.bind (request ends) = some (side, call))
    (nextNodes : ι → List (ι × Nat)) :
    ahead (ε := ε) ends nextNodes status ts = (ts, []) := by
  apply ahead_of_not_done
  intro side call hcall reply hdone
  obtain ⟨v, call', hne, hcall'⟩ := hother side (by
    rw [hdone]
    exact fun hidle => by cases hidle)
  exact hne (hwired.same_caller (howned v) hts hcall' hcall)

/-! ## A worker with other tasks -/

/-- Its new tasks are its own; the other workers keep theirs. -/
theorem Keeps.owned_update (hkeeps : Keeps pipelines ends h worker g a s) {w : Nat}
    {ts : List (Task ι β)} (hts : ∀ t ∈ ts, worker t.block = some w) :
    ∀ v, ∀ t ∈ Function.update g.tasks w ts v, worker t.block = some v :=
  (Function.forall_update_iff g.tasks fun v ts => ∀ t ∈ ts, worker t.block = some v).2
    ⟨hts, fun v _ => hkeeps.owned v⟩

theorem Keeps.pipeline_update (hkeeps : Keeps pipelines ends h worker g a s) {w : Nat}
    {p : Pipeline ι} (hp : pipelines[w]? = some p) (ts : List (Task ι β)) :
    ∀ v, Function.update g.tasks w ts v ≠ [] → ∃ p, pipelines[v]? = some p :=
  (Function.forall_update_iff g.tasks fun v ts => ts ≠ [] → ∃ p, pipelines[v]? = some p).2
    ⟨fun _ => ⟨p, hp⟩, fun v _ => hkeeps.pipeline v⟩

/-- The calls of the other sides are made by other workers. -/
theorem Keeps.caller_other (hkeeps : Keeps pipelines ends h worker g a s) {w : Nat}
    {side side' : QueueSide κ} (hbusy : a.status side' ≠ .idle) (hne : side' ≠ side)
    {call : QueueCall β} (hcall : (g.tasks w).head?.bind (request ends) = some (side, call)) :
    ∃ v call', v ≠ w ∧ (g.tasks v).head?.bind (request ends) = some (side', call') ∧
      ∀ call'', a.status side' = .called call'' → call'' = call' := by
  obtain ⟨v, call', hcall', hcalled⟩ := hkeeps.caller side' hbusy
  refine ⟨v, call', ?_, hcall', hcalled⟩
  rintro rfl
  exact hne (Prod.mk.inj (Option.some.inj (hcall'.symm.trans hcall))).1

/-! ## Turns without a queue call -/

/-- What a turn of a worker is. -/
theorem turn_cases {w : Nat} (hturn : (queueClient pipelines ends).turn g w = some g') :
    ∃ p, pipelines[w]? = some p ∧
      ((g.tasks w = [] ∧
          g' = { g with tasks := Function.update g.tasks w (tasksOf 0 p.starts) }) ∨
        ∃ t rest, g.tasks w = t :: rest ∧
          ((ends t.block = none ∧ ∃ ts m, activate t g.machine = .ok ts m ∧
              g' = ⟨m, Function.update g.tasks w (ts ++ rest)⟩) ∨
            ∃ b, ends t.block = some b ∧ b.kind = .sink ∧ t.skips = true ∧
              g' = { g with tasks := Function.update g.tasks w rest })) := by
  cases hp : pipelines[w]? with
  | none =>
    simp only [queueClient, hp] at hturn
    cases hturn
  | some p =>
    refine ⟨p, rfl, ?_⟩
    cases htasks : g.tasks w with
    | nil =>
      simp only [queueClient, hp, htasks, Option.some.injEq] at hturn
      exact .inl ⟨rfl, hturn.symm⟩
    | cons t rest =>
      refine .inr ⟨t, rest, rfl, ?_⟩
      cases hend : ends t.block with
      | none =>
        cases hact : activate t g.machine with
        | error e m =>
          simp only [queueClient, hp, htasks, hend, hact] at hturn
          cases hturn
        | ok ts m =>
          simp only [queueClient, hp, htasks, hend, hact, Option.some.injEq] at hturn
          exact .inl ⟨rfl, ts, m, rfl, hturn.symm⟩
      | some b =>
        simp only [queueClient, hp, htasks, hend] at hturn
        by_cases hskip : b.kind = .sink ∧ t.skips = true
        · rw [if_pos hskip] at hturn
          exact .inr ⟨b, rfl, hskip.1, hskip.2, (Option.some.inj hturn).symm⟩
        · rw [if_neg hskip] at hturn
          cases hturn

/-- A worker without a queue call takes the same turn in both. -/
theorem Keeps.of_turn (hwired : OwnedByWorkers pipelines ends h worker)
    (hkeeps : Keeps pipelines ends h worker g a s) {w : Nat} {p : Pipeline ι}
    (hp : pipelines[w]? = some p) (hnone : (g.tasks w).head?.bind (request ends) = none)
    {ts : List (Task ι β)} {m : Machine ι β σ ε} {es : List (Event ι β ε)}
    (hts : ∀ t ∈ ts, worker t.block = some w) (hes : ∀ e ∈ es, worker e.block = some w)
    (hwiring : SameWiring g.machine.heap m.heap) (hlog : m.log = g.machine.log ++ es) :
    Keeps pipelines ends h worker ⟨m, Function.update g.tasks w ts⟩ a
      ⟨m.withQueues ends (fun t q => a.object (t, q)) (s.machine.log ++ es),
        Function.update s.tasks w ts⟩ := by
  -- the calls in progress are those of other workers
  have hcaller : ∀ side, a.status side ≠ .idle → ∃ v call, v ≠ w ∧
      (g.tasks v).head?.bind (request ends) = some (side, call) ∧
        ∀ call', a.status side = .called call' → call' = call := by
    intro side hside
    obtain ⟨v, call, hcall, hcalled⟩ := hkeeps.caller side hside
    refine ⟨v, call, ?_, hcall, hcalled⟩
    rintro rfl
    rw [hnone] at hcall
    cases hcall
  have hfresh : ahead (ε := ε) ends (fun x => (h x).nextNodes) a.status ts = (ts, []) := by
    apply hwired.ahead_fresh hkeeps.owned hts
    intro side hside
    obtain ⟨v, call, hne, hcall, -⟩ := hcaller side hside
    exact ⟨v, call, hne, hcall⟩
  -- worker `w` makes no call, so it was not behind
  have hbefore : (ahead (ε := ε) ends (fun x => (h x).nextNodes) a.status (g.tasks w)).2 = [] := by
    rw [ahead_of_not_done]
    intro side call hcall
    rw [hnone] at hcall
    cases hcall
  refine ⟨rfl, hkeeps.wiring.trans hwiring, hkeeps.owned_update hts, hkeeps.pipeline_update hp ts,
    ?_, ?_, ?_, ?_⟩
  · intro side hside
    obtain ⟨v, call, hne, hcall, hcalled⟩ := hcaller side hside
    refine ⟨v, call, ?_, hcalled⟩
    dsimp only
    rw [Function.update_of_ne hne]
    exact hcall
  · intro v
    dsimp only
    by_cases hv : v = w
    · subst hv
      rw [Function.update_self, Function.update_self, hfresh]
    · rw [Function.update_of_ne hv, Function.update_of_ne hv]
      exact hkeeps.tasks v
  · intro v
    simp only [Machine.withQueues, hlog, workerLog_append, hkeeps.workers v]
    by_cases hv : v = w
    · subst hv
      rw [Function.update_self, hfresh, hbefore, List.append_nil, List.append_nil]
    · rw [Function.update_of_ne hv, workerLog_of_other hes hv, List.append_nil, List.append_nil]
  · simp only [Machine.withQueues, hlog, usersLog_append, hkeeps.users]

/-- A worker whose queue call has not taken effect has come as far in both. -/
theorem Keeps.tasks_eq (hkeeps : Keeps pipelines ends h worker g a s) {w : Nat}
    (hnot : ∀ side call, (g.tasks w).head?.bind (request ends) = some (side, call) →
      ∀ reply, a.status side ≠ .done reply) : s.tasks w = g.tasks w := by
  rw [hkeeps.tasks w, ahead_of_not_done hnot]

/-- A turn in which the machine stays as it is. -/
theorem Keeps.of_idle_turn (hwired : OwnedByWorkers pipelines ends h worker)
    (hkeeps : Keeps pipelines ends h worker g a s) {w : Nat} {p : Pipeline ι}
    (hp : pipelines[w]? = some p) (hnone : (g.tasks w).head?.bind (request ends) = none)
    {ts : List (Task ι β)} (hts : ∀ t ∈ ts, worker t.block = some w) :
    Keeps pipelines ends h worker { g with tasks := Function.update g.tasks w ts } a
      { s with tasks := Function.update s.tasks w ts } := by
  have hsame := hkeeps.of_turn hwired hp hnone hts (by simp) (SameWiring.refl _)
    (List.append_nil _).symm
  rw [List.append_nil, ← hkeeps.machine] at hsame
  exact hsame

/-- A turn of a block of the user leads to blocks of the same worker. -/
theorem OwnedByWorkers.owned_of_activate (hwired : OwnedByWorkers pipelines ends h worker) {w : Nat}
    {m m' : Machine ι β σ ε} (hwiring : SameWiring h m.heap) {t : Task ι β} {ts : List (Task ι β)}
    (hend : ends t.block = none) (ht : worker t.block = some w) (hact : activate t m = .ok ts m') :
    ∀ t' ∈ ts, worker t'.block = some w := by
  intro t' ht'
  obtain ⟨hsink, id, hid⟩ := (edge_of_activate hact).2 t' ht'
  refine hwired.consumers _ _ w ht ?_ ⟨id, ?_⟩
  · rw [← hsink, hwiring.isSink]
    simp only [Heap.withQueues, hend]
    cases (h t.block).obj <;> rfl
  · rw [← hwiring.nextNodes]
    exact hid

theorem keeps_turn (hwired : OwnedByWorkers pipelines ends h worker)
    (hkeeps : Keeps pipelines ends h worker g a s) {w : Nat}
    (hturn : (queueClient pipelines ends).turn g w = some g') :
    ∃ s', Threads.step pipelines s w = some s' ∧ Keeps pipelines ends h worker g' a s' := by
  obtain ⟨p, hp, ⟨hnil, rfl⟩ | ⟨t, rest, htasks, hcases⟩⟩ := turn_cases hturn
  · -- the worker begins the next execution of its pipeline
    have hnone : (g.tasks w).head?.bind (request ends) = none := by
      rw [hnil]
      rfl
    have hsame : s.tasks w = [] := by
      rw [hkeeps.tasks w, hnil]
      rfl
    refine ⟨_, ?_, hkeeps.of_idle_turn hwired hp hnone ?_⟩
    · simp only [Threads.step, hp, hsame]
    · intro t ht
      obtain ⟨d, hd, rfl⟩ := List.mem_map.1 ht
      exact hwired.starts w p hp d hd
  · obtain ⟨ht, hrest⟩ := List.forall_mem_cons.1 (htasks ▸ hkeeps.owned w)
    have hnone : (g.tasks w).head?.bind (request ends) = none → s.tasks w = t :: rest := by
      intro hnone
      rw [← htasks]
      apply hkeeps.tasks_eq
      intro side call hcall
      rw [hnone] at hcall
      cases hcall
    rcases hcases with ⟨hend, ts, m, hact, rfl⟩ | ⟨b, hb, hkind, hskip, rfl⟩
    · have hrequest : (g.tasks w).head?.bind (request ends) = none := by
        rw [htasks]
        exact congrArg (fun b => Option.bind b _) hend
      obtain ⟨es, hlog, hes, hcoarse⟩ := activate_withQueues hend hact
        (fun t q => a.object (t, q)) s.machine.log
      rw [← hkeeps.machine] at hcoarse
      refine ⟨_, ?_, hkeeps.of_turn hwired hp hrequest ?_ ?_ (edge_of_activate hact).1 hlog⟩
      · simp only [Threads.step, hp, hnone hrequest, hcoarse]
      · intro t' ht'
        rcases List.mem_append.1 ht' with hnew | hold
        · exact hwired.owned_of_activate hkeeps.wiring hend ht hact t' hnew
        · exact hrest t' hold
      · intro e he
        rw [hes e he]
        exact ht
    · -- a sink that is not called
      have hrequest : (g.tasks w).head?.bind (request ends) = none := by
        rw [htasks]
        refine Option.eq_none_iff_forall_ne_some.2 ?_
        rintro ⟨side, call⟩ hrequest
        obtain ⟨b', hb', ⟨hkind', -⟩ | ⟨value, -, hinput, -⟩⟩ := request_cases hrequest
        · obtain rfl := Option.some.inj (hb.symm.trans hb')
          rw [hkind] at hkind'
          cases hkind'
        · rw [Task.skips, hinput] at hskip
          cases hskip
      have hsink : (s.machine.heap t.block).obj.isSink = true := by
        rw [hkeeps.machine]
        simp only [Machine.withQueues, Heap.withQueues, hb, hkind]
        rfl
      refine ⟨_, ?_, hkeeps.of_idle_turn hwired hp hrequest hrest⟩
      simp only [Threads.step, hp, hnone hrequest, activate_of_skips hsink hskip, List.nil_append]

/-! ## Queue calls -/

/-- A call of one worker does not bring the others further. -/
theorem Keeps.ahead_other (hwired : OwnedByWorkers pipelines ends h worker)
    (hkeeps : Keeps pipelines ends h worker g a s) {w v : Nat} {side : QueueSide κ}
    {call : QueueCall β} (hcall : (g.tasks w).head?.bind (request ends) = some (side, call))
    (hv : v ≠ w) (status : CallStatus (QueueCall β) (QueueReply β)) :
    ahead (ε := ε) ends (fun x => (h x).nextNodes) (Function.update a.status side status)
      (g.tasks v) = ahead ends (fun x => (h x).nextNodes) a.status (g.tasks v) := by
  apply ahead_congr
  intro side' call' hcall'
  apply Function.update_of_ne
  rintro rfl
  exact hv (hwired.same_caller (hkeeps.owned v) (hkeeps.owned w) hcall' hcall)

/-- A call begins. -/
theorem keeps_call (hwired : OwnedByWorkers pipelines ends h worker)
    (hkeeps : Keeps pipelines ends h worker g a s) {w : Nat} {side : QueueSide κ}
    {call : QueueCall β} (hcall : (g.tasks w).head?.bind (request ends) = some (side, call))
    (hidle : a.status side = .idle) :
    Keeps pipelines ends h worker g (a.set side (.called call)) s := by
  -- a call that has only begun brings nobody further
  have hsame : ∀ v, ahead (ε := ε) ends (fun x => (h x).nextNodes)
      (a.set side (.called call)).status (g.tasks v) =
      ahead ends (fun x => (h x).nextNodes) a.status (g.tasks v) := by
    intro v
    by_cases hv : v = w
    · subst hv
      have hbefore : ∀ reply, a.status side ≠ .done reply := by
        intro reply
        rw [hidle]
        exact fun heq => by cases heq
      have hafter : ∀ reply, (a.set side (.called call)).status side ≠ .done reply := by
        intro reply
        rw [AtomicObject.status_set_self]
        exact fun heq => by cases heq
      rw [ahead_of_not_done (not_done_of_call hcall hbefore),
        ahead_of_not_done (not_done_of_call hcall hafter)]
    · exact hkeeps.ahead_other hwired hcall hv _
  refine ⟨hkeeps.machine, hkeeps.wiring, hkeeps.owned, hkeeps.pipeline, ?_, ?_, ?_, hkeeps.users⟩
  · intro side' hside'
    by_cases hs : side' = side
    · subst hs
      refine ⟨w, call, hcall, ?_⟩
      intro call' hcalled
      rw [AtomicObject.status_set_self] at hcalled
      cases hcalled
      rfl
    · rw [AtomicObject.status_set_of_ne _ hs] at hside' ⊢
      exact hkeeps.caller side' hside'
  · intro v
    rw [hsame v]
    exact hkeeps.tasks v
  · intro v
    rw [hsame v]
    exact hkeeps.workers v

/-- A call takes effect: its worker takes the whole turn, or none if the call has thrown. -/
theorem Keeps.of_effect (hwired : OwnedByWorkers pipelines ends h worker)
    (hkeeps : Keeps pipelines ends h worker g a s) {w : Nat} {side : QueueSide κ}
    {call : QueueCall β} (hcall : (g.tasks w).head?.bind (request ends) = some (side, call))
    (hcalled : a.status side = .called call) {reply : QueueReply β}
    {queues : ∀ k : Ty κ × Nat, IQueue (k.1.Val β)} {ts : List (Task ι β)} {es : List (Event ι β ε)}
    {b : AutoBlock κ} (hes : ∀ e ∈ es, worker e.block = some w ∧ ends e.block = some b)
    (hahead : ahead ends (fun x => (h x).nextNodes)
      (({ a with object := queues } : QueuesAtomic β).set side (.done reply)).status (g.tasks w) =
        (ts, es)) :
    Keeps pipelines ends h worker g
      (({ a with object := queues } : QueuesAtomic β).set side (.done reply))
      ⟨g.machine.withQueues ends (fun t q => queues (t, q)) (s.machine.log ++ es),
        Function.update s.tasks w ts⟩ := by
  -- until now the call had not taken effect, and the worker was not behind
  have hbefore : ahead (ε := ε) ends (fun x => (h x).nextNodes) a.status (g.tasks w) =
      (g.tasks w, []) := by
    apply ahead_of_not_done
    apply not_done_of_call hcall
    intro reply'
    rw [hcalled]
    exact fun heq => by cases heq
  -- the other workers are where they were
  have hother : ∀ v, v ≠ w → ahead (ε := ε) ends (fun x => (h x).nextNodes)
      (({ a with object := queues } : QueuesAtomic β).set side (.done reply)).status (g.tasks v) =
      ahead ends (fun x => (h x).nextNodes) a.status (g.tasks v) :=
    fun v hv => hkeeps.ahead_other hwired hcall hv _
  refine ⟨rfl, hkeeps.wiring, hkeeps.owned, hkeeps.pipeline, ?_, ?_, ?_, ?_⟩
  · intro side' hside'
    by_cases hs : side' = side
    · subst hs
      refine ⟨w, call, hcall, ?_⟩
      intro call' hcalled'
      rw [AtomicObject.status_set_self] at hcalled'
      cases hcalled'
    · rw [AtomicObject.status_set_of_ne _ hs] at hside' ⊢
      exact hkeeps.caller side' hside'
  · intro v
    dsimp only
    by_cases hv : v = w
    · subst hv
      rw [Function.update_self, hahead]
    · rw [Function.update_of_ne hv, hother v hv]
      exact hkeeps.tasks v
  · intro v
    simp only [Machine.withQueues, workerLog_append, hkeeps.workers v]
    by_cases hv : v = w
    · subst hv
      rw [hahead, hbefore, List.append_nil, workerLog_of_own fun e he => (hes e he).1]
    · rw [hother v hv, workerLog_of_other (fun e he => (hes e he).1) hv, List.append_nil]
  · simp only [Machine.withQueues, usersLog_append, hkeeps.users,
      usersLog_of_end fun e he => (hes e he).2, List.append_nil]

theorem setQueue_eq_update (queues : ∀ k : Ty κ × Nat, IQueue (k.1.Val β)) (k : Ty κ × Nat)
    (queue : IQueue (k.1.Val β)) :
    setQueue (fun t q => queues (t, q)) k queue =
      fun t q => Function.update queues k queue (t, q) := by
  obtain ⟨elem, n⟩ := k
  funext t q
  by_cases ht : t = elem
  · subst ht
    by_cases hq : q = n
    · subst hq
      simp only [setQueue, Function.update_self]
    · have hne : (t, q) ≠ (t, n) := fun heq => hq (Prod.mk.inj heq).2
      simp only [setQueue, Function.update_self, Function.update_of_ne hq,
        Function.update_of_ne hne]
  · have hne : (t, q) ≠ (elem, n) := fun heq => ht (Prod.mk.inj heq).1
    simp only [setQueue, Function.update_of_ne ht, Function.update_of_ne hne]

theorem keeps_effect (hwired : OwnedByWorkers pipelines ends h worker)
    (hkeeps : Keeps pipelines ends h worker g a s) {side : QueueSide κ} {call : QueueCall β}
    (hcalled : a.status side = .called call) {reply : QueueReply β}
    {queues : ∀ k : Ty κ × Nat, IQueue (k.1.Val β)}
    (heffect : OneOf (fun _ => QueueDoes) call a.object reply queues) :
    ∃ ws s', runFrom (Threads.step pipelines) s ws = some s' ∧ Keeps pipelines ends h worker g
      (({ a with object := queues } : QueuesAtomic β).set side (.done reply)) s' := by
  obtain ⟨w, call', hcall, hsame⟩ := hkeeps.caller side (by
    rw [hcalled]
    exact fun heq => by cases heq)
  obtain rfl := hsame call hcalled
  obtain ⟨t, hhead, hrequest⟩ := Option.bind_eq_some_iff.1 hcall
  obtain ⟨rest, htasks⟩ := List.head?_eq_some_iff.1 hhead
  have hbehind : s.tasks w = t :: rest := by
    rw [← htasks]
    apply hkeeps.tasks_eq
    apply not_done_of_call hcall
    intro reply'
    rw [hcalled]
    exact fun heq => by cases heq
  have ht : worker t.block = some w := hkeeps.owned w t (List.mem_of_head? hhead)
  cases heffect with
  | @one k op _ result queue hdoes =>
    have hdone : (({ a with object := Function.update a.object k queue } : QueuesAtomic β).set side
        (.done ⟨k, result⟩)).status side = .done ⟨k, result⟩ := AtomicObject.status_set_self _ _ _
    rcases finish_of_answer (ε := ε) (fun t q => a.object (t, q)) hrequest hdoes
      (fun x => (h x).nextNodes) (fun b hb hkind => hwired.fed _ b w hb hkind ht) with
      ⟨hfinish, hqueue⟩ | ⟨⟨ts, es⟩, hfinish⟩
    · -- `push` has thrown, and the queue is as before
      obtain ⟨b, hb, -⟩ := request_cases hrequest
      have hown : ∀ e ∈ ([] : List (Event ι β ε)),
          worker e.block = some w ∧ ends e.block = some b := by simp
      have hkept := hkeeps.of_effect hwired hcall hcalled hown (by
        rw [htasks]
        exact ahead_of_thrown hrequest hdone hfinish)
      refine ⟨[], s, rfl, ?_⟩
      rw [hqueue, Function.update_eq_self] at hkept ⊢
      rw [← hbehind, Function.update_eq_self, List.append_nil, ← hkeeps.machine] at hkept
      exact hkept
    · obtain ⟨b, hb, hes, -⟩ := edge_of_finish hfinish
      obtain ⟨p, hp⟩ := hkeeps.pipeline w (by
        rw [htasks]
        exact List.cons_ne_nil _ _)
      have hfinish' : finish ends (fun x => (g.machine.heap x).nextNodes) t ⟨k, result⟩ =
          some (ts, es) := by
        rw [funext hkeeps.wiring.nextNodes]
        exact hfinish
      have hturn := activate_of_answer (fun t q => a.object (t, q)) hrequest hdoes hfinish'
        s.machine.log
      rw [← hkeeps.machine, setQueue_eq_update] at hturn
      have hown : ∀ e ∈ es, worker e.block = some w ∧ ends e.block = some b := by
        intro e he
        rw [hes e he]
        exact ⟨ht, hb⟩
      have hkept := hkeeps.of_effect hwired hcall hcalled hown (by
        rw [htasks]
        exact ahead_of_finish hrequest hdone hfinish)
      refine ⟨[w], _, runFrom_cons.2 ⟨_, ?_, rfl⟩, hkept⟩
      simp only [Threads.step, hp, hbehind, hturn]

/-- What a worker does with the result of its queue call. -/
theorem resume_cases {w : Nat} {t : Task ι β} {rest : List (Task ι β)} {reply : QueueReply β}
    (htasks : g.tasks w = t :: rest)
    (hresume : (queueClient pipelines ends).resume g w reply = some g') :
    ∃ ts es, finish ends (fun x => (g.machine.heap x).nextNodes) t reply = some (ts, es) ∧
      g' = ⟨{ g.machine with log := g.machine.log ++ es },
        Function.update g.tasks w (ts ++ rest)⟩ := by
  simp only [queueClient, htasks] at hresume
  obtain ⟨⟨ts, es⟩, hfinish, rfl⟩ := Option.map_eq_some_iff.1 hresume
  exact ⟨ts, es, hfinish, rfl⟩

/-- A call returns: its worker is where it has been ahead. -/
theorem keeps_ret (hwired : OwnedByWorkers pipelines ends h worker)
    (hkeeps : Keeps pipelines ends h worker g a s) {w : Nat} {side : QueueSide κ}
    {call : QueueCall β} (hcall : (g.tasks w).head?.bind (request ends) = some (side, call))
    {reply : QueueReply β} (hdone : a.status side = .done reply)
    (hresume : (queueClient pipelines ends).resume g w reply = some g') :
    Keeps pipelines ends h worker g' (a.set side .idle) s := by
  obtain ⟨t, hhead, hrequest⟩ := Option.bind_eq_some_iff.1 hcall
  obtain ⟨rest, htasks⟩ := List.head?_eq_some_iff.1 hhead
  obtain ⟨ts, es, hfinish, rfl⟩ := resume_cases htasks hresume
  rw [funext hkeeps.wiring.nextNodes] at hfinish
  obtain ⟨b, hb, hes, hconsumers⟩ := edge_of_finish hfinish
  have ht : worker t.block = some w := hkeeps.owned w t (List.mem_of_head? hhead)
  -- the worker goes on to consumers of its own block
  have howned : ∀ t' ∈ ts ++ rest, worker t'.block = some w := by
    intro t' ht'
    rcases List.mem_append.1 ht' with hnew | hold
    · obtain ⟨hkind, hedge⟩ := hconsumers t' hnew
      refine hwired.consumers _ _ w ht ?_ hedge
      simp only [Heap.withQueues, hb, hkind]
      rfl
    · apply hkeeps.owned w
      rw [htasks]
      exact List.mem_cons_of_mem _ hold
  obtain ⟨p, hp⟩ := hkeeps.pipeline w (by
    rw [htasks]
    exact List.cons_ne_nil _ _)
  -- so far the worker was behind by just this turn
  have hbefore : ahead ends (fun x => (h x).nextNodes) a.status (g.tasks w) = (ts ++ rest, es) := by
    rw [htasks]
    exact ahead_of_finish hrequest hdone hfinish
  -- no call is in progress on this side any more
  have hcaller : ∀ side', (a.set side .idle).status side' ≠ .idle → ∃ v call', v ≠ w ∧
      (g.tasks v).head?.bind (request ends) = some (side', call') ∧
        ∀ call'', (a.set side .idle).status side' = .called call'' → call'' = call' := by
    intro side' hside'
    have hne : side' ≠ side := by
      rintro rfl
      exact hside' (AtomicObject.status_set_self _ _ _)
    rw [AtomicObject.status_set_of_ne _ hne] at hside' ⊢
    exact hkeeps.caller_other hside' hne hcall
  -- the new tasks have no call behind them
  have hfresh : ahead (ε := ε) ends (fun x => (h x).nextNodes) (a.set side .idle).status
      (ts ++ rest) = (ts ++ rest, []) := by
    apply hwired.ahead_fresh hkeeps.owned howned
    intro side' hside'
    obtain ⟨v, call', hne, hcall', -⟩ := hcaller side' hside'
    exact ⟨v, call', hne, hcall'⟩
  have hother : ∀ v, v ≠ w → ahead (ε := ε) ends (fun x => (h x).nextNodes)
      (a.set side .idle).status (g.tasks v) =
      ahead ends (fun x => (h x).nextNodes) a.status (g.tasks v) :=
    fun v hv => hkeeps.ahead_other hwired hcall hv _
  have hown : ∀ e ∈ es, worker e.block = some w := by
    intro e he
    rw [hes e he]
    exact ht
  refine ⟨hkeeps.machine, hkeeps.wiring, hkeeps.owned_update howned,
    hkeeps.pipeline_update hp (ts ++ rest), ?_, ?_, ?_, ?_⟩
  · intro side' hside'
    obtain ⟨v, call', hne, hcall', hcalled⟩ := hcaller side' hside'
    refine ⟨v, call', ?_, hcalled⟩
    dsimp only
    rw [Function.update_of_ne hne]
    exact hcall'
  · intro v
    dsimp only
    by_cases hv : v = w
    · subst hv
      rw [Function.update_self, hfresh, hkeeps.tasks v, hbefore]
    · rw [Function.update_of_ne hv, hother v hv]
      exact hkeeps.tasks v
  · intro v
    simp only [workerLog_append, hkeeps.workers v]
    by_cases hv : v = w
    · subst hv
      rw [Function.update_self, hfresh, hbefore, workerLog_of_own hown, List.append_nil]
    · rw [Function.update_of_ne hv, hother v hv, workerLog_of_other hown hv, List.append_nil]
  · have hend : ∀ e ∈ es, ends e.block = some b := by
      intro e he
      rw [hes e he]
      exact hb
    simp only [usersLog_append, usersLog_of_end hend, List.append_nil, hkeeps.users]

/-! ## Whole runs -/

/-- One case for each kind of step. -/
theorem keeps_step (hwired : OwnedByWorkers pipelines ends h worker) {a' : QueuesAtomic β}
    (hkeeps : Keeps pipelines ends h worker g a s)
    (hstep : (queueClient pipelines ends).AtomicStep (OneOf fun _ => QueueDoes) (g, a) (g', a')) :
    ∃ ws s', runFrom (Threads.step pipelines) s ws = some s' ∧
      Keeps pipelines ends h worker g' a' s' := by
  cases hstep with
  | turn hturns =>
    obtain ⟨w, hturn⟩ := hturns
    obtain ⟨s', hs', hkept⟩ := keeps_turn hwired hkeeps hturn
    exact ⟨[w], s', runFrom_cons.2 ⟨s', hs', rfl⟩, hkept⟩
  | call hpending hidle => exact ⟨[], s, rfl, keeps_call hwired hkeeps hpending hidle⟩
  | effect hcalled heffect => exact keeps_effect hwired hkeeps hcalled heffect
  | ret hpending hdone hresume =>
    exact ⟨[], s, rfl, keeps_ret hwired hkeeps hpending hdone hresume⟩

theorem keeps_init (queues : ∀ k : Ty κ × Nat, IQueue (k.1.Val β)) (u : σ) :
    Keeps pipelines ends h worker (Threads.init ⟨h, u, []⟩) (.start queues)
      (Threads.init (Machine.withQueues ends ⟨h, u, []⟩ (fun t q => queues (t, q)) [])) where
  machine := rfl
  wiring := SameWiring.refl h
  owned _ := by simp [Threads.init]
  pipeline _ hne := absurd rfl hne
  caller _ hne := absurd rfl hne
  tasks _ := rfl
  workers _ := rfl
  users := rfl

theorem Keeps.heap_eq (hkeeps : Keeps pipelines ends h worker g a s) :
    s.machine.heap = g.machine.heap.withQueues ends :=
  congrArg Machine.heap hkeeps.machine

theorem Keeps.user_eq (hkeeps : Keeps pipelines ends h worker g a s) :
    s.machine.user.user = g.machine.user :=
  congrArg (fun m => m.user.user) hkeeps.machine

/-- Worker `w` has come as far as in `g`, or is behind the queue call that it makes in `g`. -/
def Follows (pipelines : List (Pipeline ι)) (ends : ι → Option (AutoBlock κ))
    (worker : ι → Option Nat) (g : Threads ι β σ ε) (s : Threads ι β (Shared β σ) ε) (w : Nat) :
    Prop :=
  ∃ g', (g' = g ∨ ∃ reply, (queueClient pipelines ends).resume g w reply = some g') ∧
    s.tasks w = g'.tasks w ∧
    workerLog worker w s.machine.log = workerLog worker w g'.machine.log

theorem Keeps.follows (hkeeps : Keeps pipelines ends h worker g a s) (w : Nat) :
    Follows pipelines ends worker g s w := by
  rcases ahead_cases (ε := ε) ends (fun x => (h x).nextNodes) a.status (g.tasks w) with
    hsame | ⟨t, rest, reply, ts, es, htasks, hfinish, hahead⟩
  · refine ⟨g, .inl rfl, ?_, ?_⟩
    · rw [hkeeps.tasks w, hsame]
    · rw [hkeeps.workers w, hsame, List.append_nil]
  · have hown : ∀ e ∈ es, worker e.block = some w := by
      obtain ⟨b, -, hes, -⟩ := edge_of_finish hfinish
      intro e he
      rw [hes e he]
      apply hkeeps.owned w
      rw [htasks]
      exact List.mem_cons_self
    refine ⟨⟨{ g.machine with log := g.machine.log ++ es }, Function.update g.tasks w (ts ++ rest)⟩,
      .inr ⟨reply, ?_⟩, ?_, ?_⟩
    · rw [← funext hkeeps.wiring.nextNodes] at hfinish
      simp only [queueClient, htasks, hfinish, Option.map_some]
    · dsimp only
      rw [hkeeps.tasks w, hahead, Function.update_self]
    · rw [hkeeps.workers w, hahead, workerLog_append, workerLog_of_own hown]

/-- Along every run of the workers and the code of the queues: the code implements the queues, and
each step of the workers with atomic queues is matched by a turn or by none. -/
theorem exists_keeps_of_run {pipelines : List (Pipeline ι)} {ends : ι → Option (AutoBlock κ)}
    {h : Heap ι β σ ε} {worker : ι → Option Nat} (hwired : OwnedByWorkers pipelines ends h worker)
    (type : QueueType) (u : σ) {ls : List (ClientStep Nat Bool)} {g : Threads ι β σ ε}
    {c : (queuesCode β type).State}
    (hrun : runFrom ((queueClient pipelines ends).step (queuesCode β type))
      (Threads.init ⟨h, u, []⟩, (queuesCode β type).start) ls = some (g, c)) :
    ∃ ws s a, runFrom (Threads.step pipelines) (Threads.init (Machine.withQueues ends ⟨h, u, []⟩
        (fun _ _ => makeQueue 15 type) [])) ws = some s ∧
      Keeps pipelines ends h worker g a s := by
  have himpl : (queuesCode β type).Implements (OneOf fun _ => QueueDoes)
      (fun _ => makeQueue 15 type) := implements_family fun _ => implements_queueCode type
  obtain ⟨a, hatomic⟩ := Client.atomicRun_of_implements himpl hrun
  -- induction on the atomic run
  have hmatched : ∀ {x : Threads ι β σ ε × QueuesAtomic β},
      Relation.ReflTransGen ((queueClient pipelines ends).AtomicStep (OneOf fun _ => QueueDoes))
        (Threads.init ⟨h, u, []⟩, .start fun _ => makeQueue 15 type) x →
      ∃ ws s, runFrom (Threads.step pipelines) (Threads.init (Machine.withQueues ends ⟨h, u, []⟩
        (fun _ _ => makeQueue 15 type) [])) ws = some s ∧
        Keeps pipelines ends h worker x.1 x.2 s := by
    intro x hx
    induction hx with
    | refl => exact ⟨[], _, rfl, keeps_init _ u⟩
    | tail _ hstep ih =>
      obtain ⟨ws, s, hws, hkeeps⟩ := ih
      obtain ⟨ws', s', hws', hkeeps'⟩ := keeps_step hwired hkeeps hstep
      exact ⟨ws ++ ws', s', runFrom_append.2 ⟨s, hws, hws'⟩, hkeeps'⟩
  obtain ⟨ws, s, hws, hkeeps⟩ := hmatched hatomic
  exact ⟨ws, s, a, hws, hkeeps⟩

/-- What workers do whose queue calls go access by access, workers also do that make each queue call
in one turn: with the same heap and the same state of the user, with the same calls of the user's
blocks, and with the same tasks and calls of each worker but for a queue call in progress. -/
theorem workers_refine {pipelines : List (Pipeline ι)} {ends : ι → Option (AutoBlock κ)}
    {h : Heap ι β σ ε} {worker : ι → Option Nat} (hwired : OwnedByWorkers pipelines ends h worker)
    (type : QueueType) (u : σ) (ls : List (ClientStep Nat Bool)) {g : Threads ι β σ ε}
    {c : (queuesCode β type).State}
    (hrun : runFrom ((queueClient pipelines ends).step (queuesCode β type))
      (Threads.init ⟨h, u, []⟩, (queuesCode β type).start) ls = some (g, c)) :
    ∃ ws s, runFrom (Threads.step pipelines) (Threads.init (Machine.withQueues ends ⟨h, u, []⟩
        (fun _ _ => makeQueue 15 type) [])) ws = some s ∧
      s.machine.heap = g.machine.heap.withQueues ends ∧ s.machine.user.user = g.machine.user ∧
      usersLog ends s.machine.log = usersLog ends g.machine.log ∧
      ∀ w, Follows pipelines ends worker g s w := by
  obtain ⟨ws, s, a, hws, hkeeps⟩ := exists_keeps_of_run hwired type u hrun
  exact ⟨ws, s, hws, hkeeps.heap_eq, hkeeps.user_eq, hkeeps.users, hkeeps.follows⟩

end

/-! ## Two workers and a queue -/

/-- A source of numbers and a sink behind a queue, with a module between the queue and the sink. -/
def relayBlocks : Heap Nat (fun _ : Unit => Nat) Nat Unit
  | 0 => ⟨.source (.base ()) .Fanout fun n => (.ok (some n), n + 1), [(1, 0)]⟩
  | 2 => ⟨.source (.base ()) .Fanout fun n => (.ok none, n), [(3, 0)]⟩
  | 3 => ⟨.module (.base ()) (.base ()) .Fanout fun m n =>
      (.ok (if m = 1 then none else some (10 * m)), n), [(4, 0)]⟩
  | _ => ⟨.sink (.base ()) fun _ n => (.ok (), n), []⟩

/-- The blocks `1` and `2` are at the queue. -/
def relayEnds : Nat → Option (AutoBlock Unit)
  | 1 => some ⟨.sink, .base (), 0⟩
  | 2 => some ⟨.source, .base (), 0⟩
  | _ => none

def relayWorker : Nat → Option Nat
  | 0 => some 0
  | 1 => some 0
  | 2 => some 1
  | 3 => some 1
  | 4 => some 1
  | _ => none

def relayPipelines : List (Pipeline Nat) := [⟨[0], []⟩, ⟨[2], [3]⟩]

theorem relay_owned : OwnedByWorkers relayPipelines relayEnds relayBlocks relayWorker where
  starts w p hp d hd := by
    match w with
    | 0 =>
      cases hp
      obtain rfl := List.mem_singleton.1 hd
      rfl
    | 1 =>
      cases hp
      obtain rfl := List.mem_singleton.1 hd
      rfl
    | w + 2 => cases hp
  consumers x y w hx _ hedge := by
    obtain ⟨id, hid⟩ := hedge
    match x with
    | 0 =>
      obtain ⟨rfl, -⟩ := Prod.mk.inj (List.mem_singleton.1 hid)
      exact hx
    | 1 => cases hid
    | 2 =>
      obtain ⟨rfl, -⟩ := Prod.mk.inj (List.mem_singleton.1 hid)
      exact hx
    | 3 =>
      obtain ⟨rfl, -⟩ := Prod.mk.inj (List.mem_singleton.1 hid)
      exact hx
    | x + 4 => cases hid
  apart x y b v w hx hy hv hw := by
    match x, y with
    | 1, 1 => exact Option.some.inj (hv.symm.trans hw)
    | 2, 2 => exact Option.some.inj (hv.symm.trans hw)
    | 1, 2 => cases hx.trans hy.symm
    | 2, 1 => cases hx.trans hy.symm
    | 0, _ => cases hx
    | x + 3, _ => cases hx
    | 1, 0 => cases hy
    | 2, 0 => cases hy
    | 1, y + 3 => cases hy
    | 2, y + 3 => cases hy
  fed x b w hx hkind hw := by
    match x with
    | 0 => cases hx
    | 1 =>
      cases hx
      cases hkind
    | 2 => exact List.cons_ne_nil _ _
    | x + 3 => cases hx

/-- Both workers are in a call of the queue at once. The number has reached the last sink, and the
`push` has not returned yet. -/
def relayAccesses : List (ClientStep Nat Bool) :=
  [.turn 0, .turn 0, .turn 1, .call 0, .access 0 true, .call 1, .access 1 true, .access 0 true,
    .access 0 true, .access 1 true, .access 1 true, .access 1 true, .ret 1, .turn 1, .turn 1]

theorem relay_refines :
    ∃ (g : Threads Nat (fun _ : Unit => Nat) Nat Unit)
      (c : (queuesCode (fun _ : Unit => Nat) .LOCK_FREE).State),
      runFrom ((queueClient relayPipelines relayEnds).step
          (queuesCode (fun _ : Unit => Nat) .LOCK_FREE))
        (Threads.init ⟨relayBlocks, 0, []⟩, (queuesCode (fun _ : Unit => Nat) .LOCK_FREE).start)
        relayAccesses = some (g, c) ∧
      (g.machine.log.map fun e => e.block) = [0, 2, 3, 4] ∧
      ∃ ws s, runFrom (Threads.step relayPipelines) (Threads.init (Machine.withQueues relayEnds
          ⟨relayBlocks, 0, []⟩ (fun _ _ => makeQueue 15 .LOCK_FREE) [])) ws = some s ∧
        s.machine.heap = g.machine.heap.withQueues relayEnds ∧
        s.machine.user.user = g.machine.user ∧
        usersLog relayEnds s.machine.log = usersLog relayEnds g.machine.log ∧
        ∀ w, Follows relayPipelines relayEnds relayWorker g s w :=
  ⟨_, _, rfl, rfl, workers_refine relay_owned .LOCK_FREE 0 relayAccesses rfl⟩

end PipelineTools.FlowEngine
