import PipelineTools.FlowEngine.FailedAdds
import PipelineTools.FlowEngine.RejectedSources
import PipelineTools.FlowEngine.WorkerRefinement

/-!
# The workers of a mission

`Mission::start` runs `build()` and gives each pipeline a worker. If no block is given to two calls
of `add`, and each queue has one block at each end, the pipelines have nothing in common but the
queues (`Connected`). The mission's workers, whose queue calls go access by access, then do what
workers do that call a queue within one turn (`mission_refines`).
-/

set_option autoImplicit false

namespace PipelineTools.FlowEngine

open PipelineTools.Library PipelineTools.Queues

variable {ι κ : Type} {β : κ → Type} {σ ε : Type}

/-! ## Whose blocks they are -/

section Owners

variable [DecidableEq ι]

/-- The blocks of a pipeline: those the caller gives to `add`, and the queue blocks that `add`
makes when there are `made` already. -/
def AddArgs.has (a : AddArgs ι) (made : Nat) : Addr ι → Bool
  | .given i => decide (i ∈ a.sources ++ a.nodes ++ a.sinks)
  | .auto n => decide (made ≤ n ∧ n < made + a.requests.length)

/-- Pipeline number `w` has the block. -/
def Mission.has (calls : List (AddArgs ι)) (w : Nat) (x : Addr ι) : Bool :=
  (calls[w]?).any fun a => a.has (requestCount (calls.take w)) x

/-- The number of the pipeline that has the block. -/
def Mission.workerOf (calls : List (AddArgs ι)) (x : Addr ι) : Option Nat :=
  (List.range calls.length).find? fun w => Mission.has calls w x

/-- No block of the caller is given to two calls. -/
def GivenOnce (calls : List (AddArgs ι)) : Prop :=
  calls.Pairwise fun a b => ∀ i ∈ a.sources ++ a.nodes ++ a.sinks,
    i ∉ b.sources ++ b.nodes ++ b.sinks

variable {calls : List (AddArgs ι)} {a : AddArgs ι} {x : Addr ι} {v w : Nat}

theorem has_iff : Mission.has calls w x = true ↔
    ∃ a, calls[w]? = some a ∧ a.has (requestCount (calls.take w)) x = true := by
  rw [Mission.has, Option.any_eq_true]

theorem has_append (h : Mission.has calls w x = true) (rest : List (AddArgs ι)) :
    Mission.has (calls ++ rest) w x = true := by
  obtain ⟨a, ha, hx⟩ := has_iff.1 h
  have hlt := (List.getElem?_eq_some_iff.1 ha).1
  refine has_iff.2 ⟨a, ?_, ?_⟩
  · rw [List.getElem?_append_left hlt]
    exact ha
  · rw [List.take_append_of_le_length hlt.le]
    exact hx

theorem has_last (h : a.has (requestCount calls) x = true) :
    Mission.has (calls ++ [a]) calls.length x = true := by
  refine has_iff.2 ⟨a, List.getElem?_concat_length, ?_⟩
  rw [List.take_left]
  exact h

/-- A block of one pipeline is not a block of a later one. -/
theorem not_has_later (hgiven : GivenOnce calls) (hv : Mission.has calls v x = true)
    (hvw : v < w) : Mission.has calls w x ≠ true := by
  intro hw
  obtain ⟨a, ha, hx⟩ := has_iff.1 hv
  obtain ⟨b, hb, hx'⟩ := has_iff.1 hw
  cases x with
  | given i =>
    obtain ⟨hlt, rfl⟩ := List.getElem?_eq_some_iff.1 ha
    obtain ⟨hlt', rfl⟩ := List.getElem?_eq_some_iff.1 hb
    exact List.pairwise_iff_getElem.1 hgiven v w hlt hlt' hvw i (of_decide_eq_true hx)
      (of_decide_eq_true hx')
  | auto n =>
    -- the blocks of the earlier pipeline were all made before those of the later one
    have htake : (calls.take w)[v]? = some a := by
      rw [List.getElem?_take_of_lt hvw]
      exact ha
    have hle := requestCount_take_le htake
    rw [List.take_take, Nat.min_eq_left hvw.le] at hle
    have hx := of_decide_eq_true hx
    have hx' := of_decide_eq_true hx'
    omega

theorem has_unique (hgiven : GivenOnce calls) (hv : Mission.has calls v x = true)
    (hw : Mission.has calls w x = true) : v = w := by
  rcases Nat.lt_trichotomy v w with hlt | heq | hlt
  · exact absurd hw (not_has_later hgiven hv hlt)
  · exact heq
  · exact absurd hv (not_has_later hgiven hw hlt)

theorem has_of_workerOf (h : Mission.workerOf calls x = some w) : Mission.has calls w x = true := by
  rw [Mission.workerOf] at h
  have hfound := List.find?_some h
  exact hfound

theorem workerOf_of_has (hgiven : GivenOnce calls) (h : Mission.has calls w x = true) :
    Mission.workerOf calls x = some w := by
  cases hworker : Mission.workerOf calls x with
  | none =>
    obtain ⟨a, ha, -⟩ := has_iff.1 h
    have hmem : w ∈ List.range calls.length :=
      List.mem_range.2 (List.getElem?_eq_some_iff.1 ha).1
    exact absurd h (List.find?_eq_none.1 hworker w hmem)
  | some v => rw [has_unique hgiven (has_of_workerOf hworker) h]

end Owners

/-- The queue blocks that a mission has made. -/
def Mission.ends (m : Mission ι κ) : Addr ι → Option (AutoBlock κ)
  | .given _ => none
  | .auto n => m.made[n]?

/-! ## What a part of `add` does -/

section Parts

variable [DecidableEq ι] [DecidableEq κ]

/-- The blocks at the addresses for queue blocks. -/
def QueueBlocksPlaced (S : MissionState ι β σ ε) : Prop :=
  ∀ n, (S.heap (.auto n)).obj =
    match S.mission.made[n]? with
    | some b => queueBlock b.elem b.queue b.kind
    | none => .other .Fanout fun a _ u => (.ok a, u)

/-- Parts of `add` make queue blocks and add edges between the blocks of `P`. -/
structure Extends (P : Addr ι → Prop) (S S' : MissionState ι β σ ε) : Prop where
  made : S.mission.made <+: S'.mission.made
  pipelines : S'.mission.pipelines = S.mission.pipelines
  edges : ∀ x y, Edge S'.heap x y → Edge S.heap x y ∨ (P x ∧ P y)
  fed : ∀ n < S.mission.made.length, (S.heap (.auto n)).nextNodes ≠ [] →
    (S'.heap (.auto n)).nextNodes ≠ []
  blocks : ∀ i, (S'.heap (.given i)).obj.shape = (S.heap (.given i)).obj.shape
  placed : QueueBlocksPlaced S → QueueBlocksPlaced S'

namespace Extends

variable {P : Addr ι → Prop} {S S' S'' : MissionState ι β σ ε}

omit [DecidableEq ι] in
theorem refl (P : Addr ι → Prop) (S : MissionState ι β σ ε) : Extends P S S where
  made := List.prefix_rfl
  pipelines := rfl
  edges _ _ := .inl
  fed _ _ := id
  blocks _ := rfl
  placed := id

omit [DecidableEq ι] in
theorem trans (h : Extends P S S') (h' : Extends P S' S'') : Extends P S S'' where
  made := h.made.trans h'.made
  pipelines := h'.pipelines.trans h.pipelines
  edges x y hedge := by
    rcases h'.edges x y hedge with hedge | hP
    · exact h.edges x y hedge
    · exact .inr hP
  fed n hn hne := h'.fed n (hn.trans_le h.made.length_le) (h.fed n hn hne)
  blocks i := (h'.blocks i).trans (h.blocks i)
  placed hplaced := h'.placed (h.placed hplaced)

end Extends

omit [DecidableEq ι] [DecidableEq κ] in
/-- A source, a sink or a block of another class keeps all its members. -/
theorem eq_of_shape_eq {obj obj' : Obj β σ ε} (h : obj'.shape = obj.shape)
    (hnode : obj.isNode = false) : obj' = obj := by
  cases obj with
  | «module» inp out policy process => cases hnode
  | aggregator inp out toOut toIn process self => cases hnode
  | _ =>
    cases obj' with
    | aggregator inp out toOut toIn process self => cases h
    | _ => exact h

omit [DecidableEq ι] in
/-- What keeps the classes of the blocks leaves the queue blocks as they are. -/
theorem QueueBlocksPlaced.of_shapes {S S' : MissionState ι β σ ε} (hplaced : QueueBlocksPlaced S)
    (hmade : S'.mission.made = S.mission.made)
    (hshape : ∀ x, (S'.heap x).obj.shape = (S.heap x).obj.shape) : QueueBlocksPlaced S' := by
  intro n
  have hn := hplaced n
  rw [hmade, ← hn]
  apply eq_of_shape_eq (hshape _)
  rw [hn]
  cases S.mission.made[n]? with
  | none => rfl
  | some b =>
    obtain ⟨kind, elem, queue⟩ := b
    cases kind <;> rfl

omit [DecidableEq κ] in
theorem edge_wire {P : Addr ι → Prop} {p : Pipeline (Addr ι)} {h : Heap (Addr ι) β (Shared β σ) ε}
    {f : Addr ι} (hp : ∀ x ∈ p.sources ++ p.nodes, P x) (hf : P f) {x y : Addr ι}
    (hedge : Edge (p.wire h f) x y) : Edge h x y ∨ (P x ∧ P y) := by
  rw [Pipeline.wire] at hedge
  cases hback : p.nodes.getLast? with
  | some back =>
    rw [hback] at hedge
    rcases edge_addConsumer hedge with hold | ⟨rfl, rfl⟩
    · exact .inl hold
    · exact .inr ⟨hp x (List.mem_append_right _ (List.mem_of_getLast? hback)), hf⟩
  | none =>
    rw [hback] at hedge
    have hsources : ∀ x ∈ p.sources, P x := fun x hx => hp x (List.mem_append_left _ hx)
    dsimp only at hedge
    generalize p.sources = sources at hedge hsources
    -- induction on the sources, which all get the new consumer
    induction sources generalizing h with
    | nil => exact .inl hedge
    | cons src rest ih =>
      obtain ⟨hsrc, hrest⟩ := List.forall_mem_cons.1 hsources
      rcases ih hedge hrest with hold | hP
      · rcases edge_addConsumer hold with hold | ⟨rfl, rfl⟩
        · exact .inl hold
        · exact .inr ⟨hsrc, hf⟩
      · exact .inr hP

omit [DecidableEq κ] in
/-- What one call of `Pipeline::add` that returns does. -/
theorem pipelineAdd_cases {p p' : Pipeline (Addr ι)} {h h' : Heap (Addr ι) β (Shared β σ) ε}
    {f : Addr ι} (hadd : p.add h f = (none, p', h')) :
    ((h f).obj.isSource = true ∧ h' = h ∧ p' = { p with sources := p.sources ++ [f] }) ∨
      (h' = p.wire h f ∧ (p' = { p with nodes := p.nodes ++ [f] } ∨ p' = p)) := by
  rw [Pipeline.add] at hadd
  cases hobj : (h f).obj with
  | source out policy process =>
    simp only [hobj] at hadd
    by_cases hnodes : p.nodes ≠ []
    · rw [if_pos hnodes] at hadd
      cases hadd
    · rw [if_neg hnodes] at hadd
      cases hadd
      exact .inl ⟨rfl, rfl, rfl⟩
  | «module» inp out policy process =>
    simp only [hobj] at hadd
    cases hadd
    exact .inr ⟨rfl, .inl rfl⟩
  | aggregator inp out toOut toIn process self =>
    simp only [hobj] at hadd
    cases hadd
    exact .inr ⟨rfl, .inl rfl⟩
  | sink inp process =>
    simp only [hobj] at hadd
    cases hadd
    exact .inr ⟨rfl, .inr rfl⟩
  | other policy processAny =>
    simp only [hobj] at hadd
    cases hadd

theorem extends_wire {P : Addr ι → Prop} {p : Pipeline (Addr ι)} {S : MissionState ι β σ ε}
    {f : Addr ι} (hp : ∀ x ∈ p.sources ++ p.nodes, P x) (hf : P f) :
    Extends P S { S with heap := p.wire S.heap f } where
  made := List.prefix_rfl
  pipelines := rfl
  edges _ _ := edge_wire hp hf
  fed _ _ hne := consumers_wire hne p f
  blocks i := shape_wire p S.heap f (.given i)
  placed hplaced := hplaced.of_shapes rfl fun x => shape_wire p S.heap f x

theorem extends_applyFlows {P : Addr ι → Prop} {fs : List (Addr ι)} {p p' : Pipeline (Addr ι)}
    {S S' : MissionState ι β σ ε} (hp : ∀ x ∈ p.sources ++ p.nodes, P x) (hfs : ∀ f ∈ fs, P f)
    (h : Mission.applyFlows p fs S = .ok p' S') :
    Extends P S S' ∧ ∀ x ∈ p'.sources ++ p'.nodes, P x := by
  -- induction on the blocks: each is remembered, and wired to blocks that were added before
  induction fs generalizing p S with
  | nil =>
    cases h
    exact ⟨.refl P _, hp⟩
  | cons f fs ih =>
    obtain ⟨hf, hrest⟩ := List.forall_mem_cons.1 hfs
    rcases hadd : p.add S.heap f with ⟨e, p₁, h₁⟩
    simp only [Mission.applyFlows, hadd] at h
    cases e with
    | some e => cases h
    | none =>
      rcases pipelineAdd_cases hadd with ⟨-, rfl, rfl⟩ | ⟨rfl, hnodes⟩
      · refine ih ?_ hrest h
        intro x hx
        rw [List.append_assoc, List.mem_append, List.mem_append] at hx
        rcases hx with hx | hx | hx
        · exact hp x (List.mem_append_left _ hx)
        · rw [List.mem_singleton.1 hx]
          exact hf
        · exact hp x (List.mem_append_right _ hx)
      · have hp₁ : ∀ x ∈ p₁.sources ++ p₁.nodes, P x := by
          rcases hnodes with rfl | rfl
          · intro x hx
            rw [← List.append_assoc, List.mem_append] at hx
            rcases hx with hx | hx
            · exact hp x hx
            · rw [List.mem_singleton.1 hx]
              exact hf
          · exact hp
        obtain ⟨hextends, hp'⟩ := ih hp₁ hrest h
        exact ⟨(extends_wire hp hf).trans hextends, hp'⟩

/-- The first block behind a source becomes its consumer. -/
theorem fed_applyFlows {P : Addr ι → Prop} {f : Addr ι} {fs : List (Addr ι)}
    {p p' : Pipeline (Addr ι)} {S S' : MissionState ι β σ ε}
    (hp : ∀ x ∈ p.sources ++ p.nodes, P x) (hfs : ∀ g ∈ f :: fs, P g) (hnodes : p.nodes = [])
    (hf : (S.heap f).obj.isSource = false) {n : Nat} (hn : n < S.mission.made.length)
    (hsource : .auto n ∈ p.sources) (h : Mission.applyFlows p (f :: fs) S = .ok p' S') :
    (S'.heap (.auto n)).nextNodes ≠ [] := by
  obtain ⟨hPf, hrest⟩ := List.forall_mem_cons.1 hfs
  rcases hadd : p.add S.heap f with ⟨e, p₁, h₁⟩
  simp only [Mission.applyFlows, hadd] at h
  cases e with
  | some e => cases h
  | none =>
    have hcases := pipelineAdd_cases hadd
    have hwire : h₁ = p.wire S.heap f ∧ ∀ x ∈ p₁.sources ++ p₁.nodes, P x := by
      rcases hcases with ⟨hsource, -⟩ | ⟨rfl, rfl | rfl⟩
      · cases hf.symm.trans hsource
      · refine ⟨rfl, ?_⟩
        intro x hx
        rw [← List.append_assoc, List.mem_append] at hx
        rcases hx with hx | hx
        · exact hp x hx
        · rw [List.mem_singleton.1 hx]
          exact hPf
      · exact ⟨rfl, hp⟩
    obtain ⟨rfl, hp₁⟩ := hwire
    obtain ⟨hextends, -⟩ := extends_applyFlows (S := { S with heap := p.wire S.heap f }) hp₁ hrest h
    exact hextends.fed n hn (consumers_wire_source hnodes hsource f)

omit [DecidableEq ι] in
theorem getOrCreateQueue_keeps {t : Ty κ} {q : Nat} {S S' : MissionState ι β σ ε}
    (h : Mission.getOrCreateQueue t S = .ok q S') :
    S'.heap = S.heap ∧ S'.mission.made = S.mission.made ∧
      S'.mission.pipelines = S.mission.pipelines := by
  rw [Mission.getOrCreateQueue] at h
  cases hlast : S.mission.queues.getLast? with
  | none =>
    rw [hlast] at h
    cases h
    exact ⟨rfl, rfl, rfl⟩
  | some back =>
    simp only [hlast] at h
    by_cases hused : back.used = true
    · rw [if_pos hused] at h
      cases h
      exact ⟨rfl, rfl, rfl⟩
    · rw [if_neg hused] at h
      by_cases helem : back.elem = t
      · rw [if_pos helem] at h
        cases h
        exact ⟨rfl, rfl, rfl⟩
      · rw [if_neg helem] at h
        cases h

/-- A queue block is made at a new address. -/
theorem makeQueueEnd_spec (P : Addr ι → Prop) {kind : QueueEnd} {t : Option (Ty κ)} {f : Addr ι}
    {S S' : MissionState ι β σ ε} (h : Mission.makeQueueEnd kind t S = .ok f S') :
    f = .auto S.mission.made.length ∧ t ≠ none ∧ Extends P S S' ∧
      ∃ b, b.kind = kind ∧ S'.mission.made = S.mission.made ++ [b] ∧
        (S'.heap f).obj = queueBlock b.elem b.queue b.kind := by
  cases t with
  | none => cases h
  | some t =>
    obtain ⟨q, S₁, hq, hblock⟩ := bind_eq_ok_iff.1 h
    obtain ⟨hheap, hmade, hpipelines⟩ := getOrCreateQueue_keeps hq
    cases hblock
    refine ⟨by rw [hmade], by simp, ?_, ⟨kind, t, q⟩, rfl, by rw [hmade], by
      dsimp only
      rw [Function.update_self]⟩
    refine ⟨?_, hpipelines, ?_, ?_, ?_, ?_⟩
    · rw [← hmade]
      exact List.prefix_append _ _
    · -- the new block has no consumers
      rintro x y ⟨id, hid⟩
      dsimp only at hid
      by_cases hx : x = .auto S₁.mission.made.length
      · rw [hx, Function.update_self] at hid
        cases hid
      · rw [Function.update_of_ne hx, hheap] at hid
        exact .inl ⟨id, hid⟩
    · intro n hn hne
      have hold : Addr.auto n ≠ (.auto S₁.mission.made.length : Addr ι) := by
        rintro heq
        rw [hmade] at heq
        exact absurd (Addr.auto.inj heq) hn.ne
      dsimp only
      rw [Function.update_of_ne hold, hheap]
      exact hne
    · intro i
      dsimp only
      rw [Function.update_of_ne (fun heq => by cases heq), hheap]
    · intro hplaced n
      have hn := hplaced n
      dsimp only
      rw [hmade, hheap]
      -- the heap has a queue block at each number below the new length, and at no other
      by_cases hnew : n = S.mission.made.length
      · subst hnew
        rw [Function.update_self, List.getElem?_concat_length]
      · have hold : Addr.auto n ≠ (.auto S.mission.made.length : Addr ι) :=
          fun heq => hnew (Addr.auto.inj heq)
        rw [Function.update_of_ne hold, hn]
        rcases Nat.lt_or_ge n S.mission.made.length with hlt | hge
        · rw [List.getElem?_append_left hlt]
        · have hgt : (S.mission.made ++ [(⟨kind, t, q⟩ : AutoBlock κ)]).length ≤ n := by
            rw [List.length_append, List.length_singleton]
            omega
          rw [List.getElem?_eq_none hge, List.getElem?_eq_none hgt]

end Parts

/-! ## What `add` does -/

section Add

variable [DecidableEq ι] [DecidableEq κ] {obj : ι → Obj β (Shared β σ) ε} {a : AddArgs ι}
  {m : Nat} {S S' : MissionState ι β σ ε} {p p' : Pipeline (Addr ι)}

/-- The blocks of the pipeline that is being added. -/
abbrev AddArgs.Own (a : AddArgs ι) (m : Nat) (x : Addr ι) : Prop := a.has m x = true

omit [DecidableEq κ] in
theorem own_given {is : List ι} (his : ∀ i ∈ is, i ∈ a.sources ++ a.nodes ++ a.sinks) :
    ∀ f ∈ is.map Addr.given, a.Own m f := by
  intro f hf
  obtain ⟨i, hi, rfl⟩ := List.mem_map.1 hf
  exact decide_eq_true (his i hi)

omit [DecidableEq ι] in
theorem AddArgs.length_requests (a : AddArgs ι) :
    a.requests.length = (if a.sources = [] then 1 else 0) + if a.sinks = [] then 1 else 0 := by
  by_cases hsources : a.sources = []
  · by_cases hsinks : a.sinks = [] <;> simp [AddArgs.requests, hsources, hsinks]
  · by_cases hsinks : a.sinks = [] <;> simp [AddArgs.requests, hsources, hsinks]

/-- The sources of a pipeline: those given, or a queue block that waits for its consumer. -/
theorem addSources_spec (hm : S.mission.made.length = m)
    (h : Mission.addSources a {} S = .ok p S') :
    Extends (a.Own m) S S' ∧ (∀ x ∈ p.sources ++ p.nodes, a.Own m x) ∧
      ((a.sources ≠ [] ∧ S'.mission.made = S.mission.made) ∨
        (a.sources = [] ∧ a.nodes ++ a.sinks ≠ [] ∧ p = ⟨[.auto m], []⟩ ∧
          S'.mission.made.length = m + 1)) := by
  have hnone : ∀ x ∈ ({} : Pipeline (Addr ι)).sources ++ ({} : Pipeline (Addr ι)).nodes,
      a.Own m x := fun x hx => by cases hx
  rw [Mission.addSources] at h
  by_cases hnil : a.sources = []
  · rw [if_neg (not_not.2 hnil)] at h
    obtain ⟨src, S₁, hsrc, happly⟩ := bind_eq_ok_iff.1 h
    obtain ⟨rfl, htype, hextends, b, hkind, hmade, hobj⟩ := makeQueueEnd_spec (a.Own m) hsrc
    rw [hm] at happly hobj
    have hown : a.Own m (.auto m) := by
      have hlength := a.length_requests
      rw [if_pos hnil] at hlength
      exact decide_eq_true (by omega)
    rw [hkind] at hobj
    simp only [Mission.applyFlows, Pipeline.add, hobj, queueBlock, ne_eq, not_true_eq_false,
      if_false, List.nil_append] at happly
    cases happly
    refine ⟨hextends, ?_, .inr ⟨hnil, ?_, rfl, ?_⟩⟩
    · intro x hx
      rw [List.append_nil, List.mem_singleton] at hx
      rw [hx]
      exact hown
    · intro hempty
      rw [hempty] at htype
      exact htype rfl
    · rw [hmade, List.length_append, List.length_singleton, hm]
  · rw [if_pos hnil] at h
    have hgiven : ∀ i ∈ a.sources, i ∈ a.sources ++ a.nodes ++ a.sinks := fun i hi =>
      List.mem_append_left _ (List.mem_append_left _ hi)
    obtain ⟨hextends, hp⟩ := extends_applyFlows hnone (own_given hgiven) h
    exact ⟨hextends, hp, .inl ⟨hnil, congrArg Mission.made (mission_applyFlows h)⟩⟩

/-- The sinks of a pipeline: those given, or a queue block. -/
theorem addSinks_spec (hm : S.mission.made.length = m + if a.sources = [] then 1 else 0)
    (hp : ∀ x ∈ p.sources ++ p.nodes, a.Own m x) (h : Mission.addSinks a p S = .ok p' S') :
    Extends (a.Own m) S S' ∧ (∀ x ∈ p'.sources ++ p'.nodes, a.Own m x) ∧
      S'.mission.made.length = m + a.requests.length ∧
      ∀ n b, S'.mission.made[n]? = some b → S.mission.made.length ≤ n → b.kind = .sink := by
  have hlength := a.length_requests
  rw [Mission.addSinks] at h
  by_cases hnil : a.sinks = []
  · rw [if_neg (not_not.2 hnil)] at h
    rw [if_pos hnil] at hlength
    -- no sinks: `add` makes a queue sink
    obtain ⟨snk, S₁, hsnk, happly⟩ := bind_eq_ok_iff.1 h
    obtain ⟨rfl, -, hextends, b, hkind, hmade, -⟩ := makeQueueEnd_spec (a.Own m) hsnk
    have hown : ∀ f ∈ [(.auto S.mission.made.length : Addr ι)], a.Own m f := by
      intro f hf
      rw [List.mem_singleton.1 hf]
      exact decide_eq_true (by omega)
    obtain ⟨hextends', hp'⟩ := extends_applyFlows hp hown happly
    have hmade' : S'.mission.made = S.mission.made ++ [b] := by
      rw [mission_applyFlows happly]
      exact hmade
    refine ⟨hextends.trans hextends', hp', ?_, ?_⟩
    · rw [hmade', List.length_append, List.length_singleton]
      omega
    · intro n b' hb' hn
      rw [hmade', List.getElem?_append_right hn] at hb'
      have hmem := List.mem_of_getElem? hb'
      rw [List.mem_singleton.1 hmem]
      exact hkind
  · rw [if_pos hnil] at h
    rw [if_neg hnil] at hlength
    -- the sinks of the caller: no queue block is made
    have hgiven : ∀ i ∈ a.sinks, i ∈ a.sources ++ a.nodes ++ a.sinks := fun i hi =>
      List.mem_append_right _ hi
    obtain ⟨hextends, hp'⟩ := extends_applyFlows hp (own_given hgiven) h
    have hmade : S'.mission.made = S.mission.made :=
      congrArg Mission.made (mission_applyFlows h)
    refine ⟨hextends, hp', ?_, ?_⟩
    · rw [hmade]
      omega
    · intro n b hb hn
      rw [hmade, List.getElem?_eq_none hn] at hb
      cases hb

omit [DecidableEq ι] [DecidableEq κ] in
theorem isSource_eq_false {h : Heap (Addr ι) β (Shared β σ) ε} (hblocks : SameBlocks obj h) {i : ι}
    (hi : (obj i).isNode = true ∨ (obj i).isSink = true) : (h (.given i)).obj.isSource = false := by
  rw [← isSource_shape, hblocks i, isSource_shape]
  cases hobj : obj i with
  | source out policy process =>
    rw [hobj] at hi
    rcases hi with hi | hi <;> cases hi
  | _ => rfl

/-- A queue block that is the source of its pipeline has a consumer. -/
theorem source_fed (hkinds : a.WellKinded obj) (hblocks : SameBlocks obj S.heap)
    (hm : S.mission.made.length = m) {p₁ p₂ p₃ : Pipeline (Addr ι)}
    {S₁ S₂ S₃ : MissionState ι β σ ε} (hsources : Mission.addSources a {} S = .ok p₁ S₁)
    (hnodes : Mission.applyFlows p₁ (a.nodes.map .given) S₁ = .ok p₂ S₂)
    (hsinks : Mission.addSinks a p₂ S₂ = .ok p₃ S₃) (hnil : a.sources = []) :
    (S₃.heap (.auto m)).nextNodes ≠ [] := by
  obtain ⟨hextends, hp₁, ⟨hne, -⟩ | ⟨-, hrest, rfl, hmade⟩⟩ := addSources_spec hm hsources
  · exact absurd hnil hne
  have hblocks₁ : SameBlocks obj S₁.heap := fun i => (hextends.blocks i).trans (hblocks i)
  have hm₁ : m < S₁.mission.made.length := by omega
  -- the consumer is the first node, or the first sink if there is no node
  cases hn : a.nodes with
  | nil =>
    rw [hn] at hnodes hrest
    cases hnodes
    obtain ⟨i, is, his⟩ := List.exists_cons_of_ne_nil hrest
    have hsinksNe : a.sinks ≠ [] := hrest
    rw [Mission.addSinks, if_pos hsinksNe] at hsinks
    rw [List.nil_append] at his
    have hgiven : ∀ j ∈ a.sinks, j ∈ a.sources ++ a.nodes ++ a.sinks := fun j hj =>
      List.mem_append_right _ hj
    have hown := own_given (m := m) hgiven
    have hi : (obj i).isSink = true := hkinds.sinks i (his ▸ List.mem_cons_self)
    rw [his, List.map_cons] at hsinks hown
    exact fed_applyFlows hp₁ hown rfl (isSource_eq_false hblocks₁ (.inr hi)) hm₁
      (List.mem_singleton_self _) hsinks
  | cons i is =>
    have hgiven : ∀ j ∈ a.nodes, j ∈ a.sources ++ a.nodes ++ a.sinks := fun j hj =>
      List.mem_append_left _ (List.mem_append_right _ hj)
    have hown := own_given (m := m) hgiven
    have hi : (obj i).isNode = true := hkinds.nodes i (hn ▸ List.mem_cons_self)
    rw [hn, List.map_cons] at hnodes hown
    have hfed := fed_applyFlows hp₁ hown rfl (isSource_eq_false hblocks₁ (.inl hi)) hm₁
      (List.mem_singleton_self _) hnodes
    obtain ⟨hextends₂, hp₂⟩ := extends_applyFlows hp₁ hown hnodes
    have hmade₂ : S₂.mission.made.length = m + if a.sources = [] then 1 else 0 := by
      rw [mission_applyFlows hnodes, hmade, if_pos hnil]
    obtain ⟨hextends₃, -⟩ := addSinks_spec hmade₂ hp₂ hsinks
    refine hextends₃.fed m ?_ hfed
    rw [hmade₂, if_pos hnil]
    omega

/-- The pipelines of a mission have nothing in common but the queues. -/
structure Connected (obj : ι → Obj β (Shared β σ) ε) (calls : List (AddArgs ι))
    (S : MissionState ι β σ ε) : Prop where
  made : S.mission.made.length = requestCount calls
  count : S.mission.pipelines.length = calls.length
  starts : ∀ w p, S.mission.pipelines[w]? = some p → ∀ x ∈ p.sources ++ p.nodes,
    Mission.has calls w x = true
  edges : ∀ x y, Edge S.heap x y →
    ∃ w, Mission.has calls w x = true ∧ Mission.has calls w y = true
  blocks : SameBlocks obj S.heap
  placed : QueueBlocksPlaced S
  fed : ∀ n b, S.mission.made[n]? = some b → b.kind = .source →
    (S.heap (.auto n)).nextNodes ≠ []

theorem connected_init (queueType : QueueType) :
    Connected obj [] (MissionState.init queueType obj) where
  made := rfl
  count := rfl
  starts w p hp := by cases hp
  edges x y hedge := by
    obtain ⟨id, hid⟩ := hedge
    cases x <;> cases hid
  blocks := sameBlocks_init queueType
  placed _ := rfl
  fed n b hb := by cases hb

/-- The blocks of a new pipeline are its own. -/
theorem connected_add {calls : List (AddArgs ι)} (hkinds : a.WellKinded obj)
    (hconnected : Connected obj calls S) (h : Mission.add a S = .ok () S') :
    Connected obj (calls ++ [a]) S' := by
  obtain ⟨p₁, S₁, hsources, h₁⟩ := bind_eq_ok_iff.1 h
  obtain ⟨p₂, S₂, hnodes, h₂⟩ := bind_eq_ok_iff.1 h₁
  obtain ⟨p₃, S₃, hsinks, hstore⟩ := bind_eq_ok_iff.1 h₂
  obtain ⟨hextends₁, hp₁, hmade₁⟩ := addSources_spec hconnected.made hsources
  have hgiven : ∀ j ∈ a.nodes, j ∈ a.sources ++ a.nodes ++ a.sinks := fun j hj =>
    List.mem_append_left _ (List.mem_append_right _ hj)
  obtain ⟨hextends₂, hp₂⟩ := extends_applyFlows hp₁ (own_given hgiven) hnodes
  have hmade₂ : S₂.mission.made.length = requestCount calls + if a.sources = [] then 1 else 0 := by
    rw [mission_applyFlows hnodes]
    rcases hmade₁ with ⟨hne, hsame⟩ | ⟨hnil, -, -, hlength⟩
    · rw [hsame, if_neg hne]
      exact hconnected.made
    · rw [hlength, if_pos hnil]
  obtain ⟨hextends₃, hp₃, hmade₃, hsinkKind⟩ := addSinks_spec hmade₂ hp₂ hsinks
  have hextends := (hextends₁.trans hextends₂).trans hextends₃
  cases hstore
  refine ⟨?_, ?_, ?_, ?_, ?_, ?_, ?_⟩
  · rw [requestCount_append, requestCount_cons]
    exact hmade₃
  · simp only [List.length_append, List.length_singleton, hextends.pipelines, hconnected.count]
  · intro w p hp
    dsimp only at hp
    rw [hextends.pipelines] at hp
    rcases Nat.lt_or_ge w S.mission.pipelines.length with hlt | hge
    · rw [List.getElem?_append_left hlt] at hp
      exact fun x hx => has_append (hconnected.starts w p hp x hx) [a]
    · have hlast : w = calls.length ∧ p = p₃ := by
        rw [List.getElem?_append_right hge, hconnected.count] at hp
        have hzero := (List.getElem?_eq_some_iff.1 hp).1
        rw [List.length_singleton] at hzero
        rw [hconnected.count] at hge
        exact ⟨by omega, List.mem_singleton.1 (List.mem_of_getElem? hp)⟩
      obtain ⟨rfl, rfl⟩ := hlast
      exact fun x hx => has_last (hp₃ x hx)
  · intro x y hedge
    rcases hextends.edges x y hedge with hold | ⟨hx, hy⟩
    · obtain ⟨w, hx, hy⟩ := hconnected.edges x y hold
      exact ⟨w, has_append hx [a], has_append hy [a]⟩
    · exact ⟨calls.length, has_last hx, has_last hy⟩
  · exact fun i => (hextends.blocks i).trans (hconnected.blocks i)
  · exact hextends.placed hconnected.placed
  · intro n b hb hkind
    dsimp only at hb ⊢
    rcases Nat.lt_or_ge n S.mission.made.length with hlt | hge
    · have hold : S.mission.made[n]? = some b := by
        obtain ⟨bs, hbs⟩ := hextends.made
        rw [← hb, ← hbs, List.getElem?_append_left hlt]
      exact hextends.fed n hlt (hconnected.fed n b hold hkind)
    · have hnot : n < S₂.mission.made.length := by
        by_contra hsink
        cases hkind.symm.trans (hsinkKind n b hb (Nat.le_of_not_lt hsink))
      rw [hconnected.made] at hge
      -- only the source of this pipeline is new
      by_cases hnil : a.sources = []
      · rw [hmade₂, if_pos hnil] at hnot
        obtain rfl : n = requestCount calls := by omega
        exact source_fed hkinds hconnected.blocks hconnected.made hsources hnodes hsinks hnil
      · rw [hmade₂, if_neg hnil] at hnot
        omega

theorem connected_build {calls rest : List (AddArgs ι)} (hkinds : ∀ a ∈ rest, a.WellKinded obj)
    (hconnected : Connected obj calls S) (h : Mission.build rest S = .ok () S') :
    Connected obj (calls ++ rest) S' := by
  induction rest generalizing calls S with
  | nil =>
    cases h
    rw [List.append_nil]
    exact hconnected
  | cons a rest ih =>
    obtain ⟨ha, hrest⟩ := List.forall_mem_cons.1 hkinds
    obtain ⟨_, S₁, hadd, hbuild⟩ := bind_eq_ok_iff.1 h
    have hnext := ih hrest (connected_add ha hconnected hadd) hbuild
    rw [List.append_assoc] at hnext
    exact hnext

end Add

/-! ## The workers -/

section Workers

variable [DecidableEq ι] [DecidableEq κ] {calls : List (AddArgs ι)} {S : MissionState ι β σ ε}

/-- The workers of a mission share the queues and nothing else. -/
theorem Connected.owned {obj : ι → Obj β (Shared β σ) ε} (hconnected : Connected obj calls S)
    (hgiven : GivenOnce calls) (hends : S.mission.SingleProducerSingleConsumer)
    {h : Heap (Addr ι) β σ ε} (hheap : h.withQueues S.mission.ends = S.heap) :
    OwnedByWorkers S.mission.pipelines S.mission.ends h (Mission.workerOf calls) where
  starts w p hp d hd := by
    apply workerOf_of_has hgiven
    apply hconnected.starts w p hp
    rw [Pipeline.starts] at hd
    by_cases hsources : p.sources ≠ []
    · rw [if_pos hsources] at hd
      obtain ⟨src, hsrc, rfl⟩ := List.mem_map.1 hd
      exact List.mem_append_left _ hsrc
    · rw [if_neg hsources] at hd
      obtain ⟨front, hfront, rfl⟩ := List.mem_map.1 hd
      exact List.mem_append_right _ (List.mem_of_head? (Option.mem_toList.1 hfront))
  consumers x y w hx _ hedge := by
    have hedge' : Edge S.heap x y := by
      rw [← hheap]
      exact hedge
    obtain ⟨v, hv, hy⟩ := hconnected.edges x y hedge'
    obtain rfl := has_unique hgiven hv (has_of_workerOf hx)
    exact workerOf_of_has hgiven hy
  apart x y b v w hx hy hv hw := by
    have hnodup := (singleProducerSingleConsumer_iff_nodup S.mission).1 hends
    have hsame : x = y := by
      cases x with
      | given i => cases hx
      | auto n =>
        cases y with
        | given i => cases hy
        | auto n' =>
          -- the two ends would be for the same side of a queue
          have hmap : ∀ k : Nat, S.mission.made[k]? = some b →
              (S.mission.made.map fun b => (b.kind, b.queue))[k]? = some (b.kind, b.queue) := by
            intro k hk
            rw [List.getElem?_map, hk]
            rfl
          have hlt := (List.getElem?_eq_some_iff.1 (hmap n hx)).1
          rw [(List.getElem?_inj hlt hnodup).1 ((hmap n hx).trans (hmap n' hy).symm)]
    rw [hsame] at hv
    exact Option.some.inj (hv.symm.trans hw)
  fed x b w hx hkind _ := by
    cases x with
    | given i => cases hx
    | auto n =>
      have hfed := hconnected.fed n b hx hkind
      rw [← hheap] at hfed
      exact hfed

omit [DecidableEq ι] [DecidableEq κ] in
theorem exists_withQueues {o : Obj β (Shared β σ) ε} {user : Obj β σ ε}
    (h : o.shape = user.withQueues.shape) : ∃ user' : Obj β σ ε, o = user'.withQueues := by
  cases user with
  | «module» inp out policy process =>
    cases o with
    | aggregator inp' out' toOut toIn process' self => cases h
    | _ => exact ⟨.module inp out policy process, h⟩
  | aggregator inp out toOut toIn process self =>
    cases o with
    | aggregator inp' out' toOut' toIn' process' self' =>
      cases h
      exact ⟨.aggregator inp out toOut toIn process self', rfl⟩
    | _ => cases h
  | source out policy process => exact ⟨_, eq_of_shape_eq h rfl⟩
  | sink inp process => exact ⟨_, eq_of_shape_eq h rfl⟩
  | other policy processAny => exact ⟨_, eq_of_shape_eq h rfl⟩

omit [DecidableEq ι] in
/-- The blocks of a mission are those of the user, and the queue blocks that it has made. -/
theorem exists_heap {obj : ι → Obj β σ ε}
    (hblocks : SameBlocks (fun i => (obj i).withQueues) S.heap) (hplaced : QueueBlocksPlaced S) :
    ∃ h : Heap (Addr ι) β σ ε, h.withQueues S.mission.ends = S.heap := by
  choose user huser using fun i => exists_withQueues (hblocks i)
  refine ⟨fun x => ⟨match x with
    | .given i => user i
    | .auto _ => .other .Fanout fun a _ u => (.ok a, u), (S.heap x).nextNodes⟩, ?_⟩
  have hsame : ∀ (x : Addr ι) (o : Obj β (Shared β σ) ε), (S.heap x).obj = o →
      (⟨o, (S.heap x).nextNodes⟩ : Flow (Addr ι) β (Shared β σ) ε) = S.heap x := by
    rintro x o rfl
    rfl
  funext x
  cases x with
  | given i => exact hsame _ _ (huser i)
  | auto n =>
    have hn := hplaced n
    simp only [Heap.withQueues, Mission.ends]
    cases hmade : S.mission.made[n]? with
    | none =>
      rw [hmade] at hn
      exact hsame _ _ hn
    | some b =>
      rw [hmade] at hn
      exact hsame _ _ hn

/-- The workers of a mission that was built without an exception, each block of the user given to
one call and each queue with one block at either end: what they do access by access is done by
workers that make each queue call in one turn, on the heap that was built and new queues of the
mission's type. -/
theorem mission_refines (queueType : QueueType) (obj : ι → Obj β σ ε)
    (hkinds : ∀ a ∈ calls, a.WellKinded (fun i => (obj i).withQueues : ι → Obj β (Shared β σ) ε))
    (hgiven : GivenOnce calls)
    (hbuild : Mission.build calls (MissionState.init queueType fun i => (obj i).withQueues) =
      .ok () S)
    (hends : S.mission.SingleProducerSingleConsumer) :
    (∃ h : Heap (Addr ι) β σ ε, h.withQueues S.mission.ends = S.heap) ∧
      ∀ (h : Heap (Addr ι) β σ ε), h.withQueues S.mission.ends = S.heap →
        ∀ (u : σ) (ls : List (ClientStep Nat Bool)) (g : Threads (Addr ι) β σ ε)
          (c : (queuesCode β queueType).State),
          runFrom ((queueClient S.mission.pipelines S.mission.ends).step (queuesCode β queueType))
            (Threads.init ⟨h, u, []⟩, (queuesCode β queueType).start) ls = some (g, c) →
          ∃ ws s, runFrom (Threads.step S.mission.pipelines)
              (Threads.init ⟨S.heap, ⟨u, fun _ _ => makeQueue 15 queueType⟩, []⟩) ws = some s ∧
            s.machine.heap = g.machine.heap.withQueues S.mission.ends ∧
            s.machine.user.user = g.machine.user ∧
            usersLog S.mission.ends s.machine.log = usersLog S.mission.ends g.machine.log ∧
            ∀ w, Follows S.mission.pipelines S.mission.ends (Mission.workerOf calls) g s w := by
  have hconnected := connected_build hkinds (connected_init queueType) hbuild
  rw [List.nil_append] at hconnected
  refine ⟨exists_heap hconnected.blocks hconnected.placed, ?_⟩
  intro h hheap u ls g c hrun
  obtain ⟨ws, s, a, hws, hkeeps⟩ :=
    exists_keeps_of_run (hconnected.owned hgiven hends hheap) queueType u hrun
  rw [Machine.withQueues, hheap] at hws
  exact ⟨ws, s, hws, hkeeps.heap_eq, hkeeps.user_eq, hkeeps.users, hkeeps.follows⟩

end Workers

/-! ## A mission of two pipelines -/

/-- A source without a sink, and a module and a sink without a source. -/
def relayCalls : List (AddArgs Nat) := [⟨[0], [], []⟩, ⟨[], [3], [4]⟩]

/-- The heap that is built, without the queues. -/
def relayHeap : Heap (Addr Nat) (fun _ : Unit => Nat) Nat Unit
  | .given 0 => ⟨(relayBlocks 0).obj, [(.auto 0, 0)]⟩
  | .given 3 => ⟨(relayBlocks 3).obj, [(.given 4, 0)]⟩
  | .given i => ⟨(relayBlocks i).obj, []⟩
  | .auto 1 => ⟨.other .Fanout fun a _ u => (.ok a, u), [(.given 3, 0)]⟩
  | .auto _ => ⟨.other .Fanout fun a _ u => (.ok a, u), []⟩

theorem relayMission_refines :
    ∃ (S : MissionState Nat (fun _ : Unit => Nat) Nat Unit)
      (g : Threads (Addr Nat) (fun _ : Unit => Nat) Nat Unit)
      (c : (queuesCode (fun _ : Unit => Nat) .LOCK_FREE).State),
      Mission.build relayCalls
        (MissionState.init .LOCK_FREE fun i => (relayBlocks i).obj.withQueues) = .ok () S ∧
      runFrom ((queueClient S.mission.pipelines S.mission.ends).step
          (queuesCode (fun _ : Unit => Nat) .LOCK_FREE))
        (Threads.init ⟨relayHeap, 0, []⟩, (queuesCode (fun _ : Unit => Nat) .LOCK_FREE).start)
        relayAccesses = some (g, c) ∧
      (g.machine.log.map fun e => e.block) = [.given 0, .auto 1, .given 3, .given 4] ∧
      ∃ ws s, runFrom (Threads.step S.mission.pipelines)
          (Threads.init ⟨S.heap, ⟨0, fun _ _ => makeQueue 15 .LOCK_FREE⟩, []⟩) ws = some s ∧
        s.machine.heap = g.machine.heap.withQueues S.mission.ends ∧
        s.machine.user.user = g.machine.user ∧
        usersLog S.mission.ends s.machine.log = usersLog S.mission.ends g.machine.log ∧
        ∀ w, Follows S.mission.pipelines S.mission.ends (Mission.workerOf relayCalls) g s w := by
  have hkinds : ∀ a ∈ relayCalls, a.WellKinded (fun i => (relayBlocks i).obj.withQueues :
      Nat → Obj (fun _ : Unit => Nat) (Shared (fun _ : Unit => Nat) Nat) Unit) := by
    intro a ha
    rcases List.mem_cons.1 ha with rfl | ha
    · constructor <;> decide
    · obtain rfl := List.mem_singleton.1 ha
      constructor <;> decide
  have hgiven : GivenOnce relayCalls := by
    simp [GivenOnce, relayCalls]
  refine ⟨_, _, _, rfl, rfl, rfl, ?_⟩
  refine (mission_refines .LOCK_FREE (fun i => (relayBlocks i).obj) hkinds hgiven rfl ?_).2
    relayHeap ?_ 0 relayAccesses _ _ rfl
  · rw [singleProducerSingleConsumer_iff_nodup]
    decide
  · funext x
    match x with
    | .given 0 => rfl
    | .given 1 => rfl
    | .given 2 => rfl
    | .given 3 => rfl
    | .given 4 => rfl
    | .given (i + 5) => rfl
    | .auto 0 => rfl
    | .auto 1 => rfl
    | .auto (n + 2) => rfl

end PipelineTools.FlowEngine
