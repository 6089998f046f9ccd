import PipelineTools.FlowEngine.ExecuteRounds

/-!
# Pipelines that start with an aggregator

Sources and sinks are added first, then the aggregator, then anything that leaves the aggregator and
the sources alone. Whatever the order, the sources end up feeding the aggregator, each with its own
producer id (`backBuilt_run`).

An execute of such a pipeline collects once if in each of the earlier ones either all sources
delivered or none did (`collectsOnce_of_allOrNone`). A round-robin source with an empty batch, or a
source that throws after others have delivered, leaves a half-filled round behind; the next delivery
of a producer that is already in it is dropped, and the stale value is handed to `process` together
with later ones (`emptyBatch_drops`).
-/

set_option autoImplicit false

namespace PipelineTools.FlowEngine

open PipelineTools.Library

variable {ι κ : Type} {β : κ → Type} {σ ε : Type}

section Build

variable [DecidableEq ι]

/-- What is added before the first node: sources and sinks. -/
def AddsFront (obj : ι → Obj β σ ε) : Op ι → Prop
  | .add f => (obj f).isSource = true ∨ (obj f).isSink = true
  | _ => False

/-- What may follow the aggregator `a`: blocks other than `a` that are not sources, and edges that
do not lead to `a` or to a source. -/
def AddsBehind (obj : ι → Obj β σ ε) (a : ι) : Op ι → Prop
  | .add f => f ≠ a ∧ (obj f).isSource = false
  | .connect _ j => j ≠ a ∧ (obj j).isSource = false
  | .execute => False

/-- Feeding an aggregator from the blocks `l`, one after the other. -/
theorem foldl_addConsumer {inp out : Ty κ} {toOut : inp.Val β → out.Val β}
    {toIn : out.Val β → inp.Val β} {process : List (inp.Val β) → Process σ ε (out.Val β)} {a : ι} :
    ∀ (l : List ι) (h : Heap ι β σ ε) (agg : Aggregator (out.Val β)),
      (h a).obj = .aggregator inp out toOut toIn process agg → l.Nodup →
      ((l.foldl (fun h src => addConsumer h src a) h) a).obj =
          .aggregator inp out toOut toIn process
            { agg with producerCount := agg.producerCount + l.length } ∧
        (∀ i, i ≠ a → ((l.foldl (fun h src => addConsumer h src a) h) i).obj = (h i).obj) ∧
        (∀ k src, l[k]? = some src →
          ((l.foldl (fun h src => addConsumer h src a) h) src).nextNodes =
            (h src).nextNodes ++ [(a, agg.producerCount + k)]) ∧
        ∀ i, i ∉ l → ((l.foldl (fun h src => addConsumer h src a) h) i).nextNodes =
          (h i).nextNodes := by
  intro l
  -- induction on the producers: each takes the next id
  induction l with
  | nil =>
    intro h agg hagg _
    refine ⟨hagg, fun _ _ => rfl, fun k src hk => ?_, fun _ _ => rfl⟩
    rw [List.getElem?_nil] at hk
    cases hk
  | cons x l ih =>
    intro h agg hagg hnodup
    obtain ⟨hx, hl⟩ := List.nodup_cons.1 hnodup
    have hagg' : ((addConsumer h x a) a).obj = .aggregator inp out toOut toIn process
        { agg with producerCount := agg.producerCount + 1 } := by
      rw [obj_addConsumer, if_pos rfl, hagg]
      rfl
    have hid : (h a).obj.registerProducer.1 = agg.producerCount := by
      rw [hagg]
      rfl
    obtain ⟨hobj, hothers, hport, hkeep⟩ := ih (addConsumer h x a) _ hagg' hl
    rw [List.foldl_cons]
    refine ⟨?_, ?_, ?_, ?_⟩
    · rw [hobj, List.length_cons, Nat.add_assoc, Nat.add_comm 1]
    · intro i hi
      rw [hothers i hi, obj_addConsumer, if_neg hi]
    · intro k src hk
      cases k with
      | zero =>
        obtain rfl := Option.some.inj hk
        rw [hkeep x hx, nextNodes_addConsumer, if_pos rfl, hid]
        rfl
      | succ k =>
        have hk' : l[k]? = some src := hk
        have hne : src ≠ x := fun heq => hx (heq ▸ List.mem_of_getElem? hk')
        rw [hport k src hk', nextNodes_addConsumer, if_neg hne, Nat.add_assoc, Nat.add_comm 1]
    · intro i hi
      have hix : i ≠ x := fun heq => hi (heq ▸ List.mem_cons_self)
      have hil : i ∉ l := fun hmem => hi (List.mem_cons_of_mem _ hmem)
      rw [hkeep i hil, nextNodes_addConsumer, if_neg hix]

variable [DecidableEq κ]

/-- The pipeline before its first node: sources, and sinks that some of them feed. -/
structure FrontBuilt (obj : ι → Obj β σ ε) (S : System ι β σ ε) : Prop where
  nodes : S.pipeline.nodes = []
  sources : ∀ i ∈ S.pipeline.sources, (obj i).isSource = true
  objects : ∀ i, (S.machine.heap i).obj = obj i
  edges : ∀ i j, Edge S.machine.heap i j → i ∈ S.pipeline.sources ∧ (obj j).isSink = true

variable {obj : ι → Obj β σ ε} {S : System ι β σ ε}

omit [DecidableEq κ] in
/-- A sink becomes a consumer of the sources that are there. -/
theorem foldl_addConsumer_sink {f : ι} (hf : (obj f).isSink = true) {srcs : List ι} :
    ∀ (l : List ι) (h : Heap ι β σ ε), l ⊆ srcs → (∀ i, (h i).obj = obj i) →
      (∀ i j, Edge h i j → i ∈ srcs ∧ (obj j).isSink = true) →
      (∀ i, ((l.foldl (fun h src => addConsumer h src f) h) i).obj = obj i) ∧
        ∀ i j, Edge (l.foldl (fun h src => addConsumer h src f) h) i j →
          i ∈ srcs ∧ (obj j).isSink = true := by
  intro l
  -- induction on the sources: a sink takes no id, and only gains producers
  induction l with
  | nil => exact fun h _ hobj hedges => ⟨hobj, hedges⟩
  | cons x l ih =>
    intro h hsub hobj hedges
    obtain ⟨hx, hl⟩ := List.cons_subset.1 hsub
    refine ih (addConsumer h x f) hl ?_ ?_
    · intro i
      rw [obj_addConsumer, hobj f, hobj i]
      by_cases hi : i = f
      · subst hi
        rw [if_pos rfl]
        cases hobj' : obj i with
        | sink inp process => rfl
        | _ =>
          rw [hobj'] at hf
          cases hf
      · rw [if_neg hi]
    · intro i j hij
      rcases edge_addConsumer hij with hij | ⟨rfl, rfl⟩
      · exact hedges i j hij
      · exact ⟨hx, hf⟩

theorem frontBuilt_step (hS : FrontBuilt obj S) (fuel : Nat) {op : Op ι} (hop : AddsFront obj op) :
    FrontBuilt obj (S.step fuel op).2 := by
  cases op with
  | connect i j => exact hop.elim
  | execute => exact hop.elim
  | add f =>
    have hobj := hS.objects f
    -- a source joins the sources, a sink is fed by all of them
    rcases hop with hsource | hsink
    · cases hf : obj f with
      | source out policy process =>
        rw [hf] at hobj
        simp only [System.step, Pipeline.add, hobj, hS.nodes, ne_eq, not_true_eq_false, if_false]
        refine ⟨rfl, ?_, hS.objects, fun i j hij => ?_⟩
        · intro i hi
          rcases List.mem_append.1 hi with hi | hi
          · exact hS.sources i hi
          · rw [List.mem_singleton.1 hi]
            exact hsource
        · obtain ⟨hi, hj⟩ := hS.edges i j hij
          exact ⟨List.mem_append_left _ hi, hj⟩
      | _ =>
        rw [hf] at hsource
        cases hsource
    · cases hf : obj f with
      | sink inp process =>
        rw [hf] at hobj
        obtain ⟨hobjects, hedges⟩ := foldl_addConsumer_sink hsink S.pipeline.sources
          S.machine.heap (List.Subset.refl _) hS.objects hS.edges
        simp only [System.step, Pipeline.add, hobj, Pipeline.wire, hS.nodes, List.getLast?_nil]
        exact ⟨hS.nodes, hS.sources, hobjects, hedges⟩
      | _ =>
        rw [hf] at hsink
        cases hsink

omit [DecidableEq ι] [DecidableEq κ] in
theorem frontBuilt_init (obj : ι → Obj β σ ε) (u : σ) : FrontBuilt obj (System.init obj u) where
  nodes := rfl
  sources _ hi := absurd hi List.not_mem_nil
  objects _ := rfl
  edges _ _ := fun ⟨_, hid⟩ => absurd hid List.not_mem_nil

theorem frontBuilt_run (fuel : Nat) (ops : List (Op ι)) {S : System ι β σ ε}
    (h : FrontBuilt obj S) (hops : ∀ op ∈ ops, AddsFront obj op) :
    FrontBuilt obj (S.run fuel ops).2 :=
  run_invariant (FrontBuilt obj) (AddsFront obj)
    (fun _ _ hop hS => frontBuilt_step hS fuel hop) hops h

variable {inp out : Ty κ} {toOut : inp.Val β → out.Val β} {toIn : out.Val β → inp.Val β}
  {process : List (inp.Val β) → Process σ ε (out.Val β)} {a : ι}

/-- The pipeline from the aggregator on. -/
structure BackBuilt (obj : ι → Obj β σ ε) (toOut : inp.Val β → out.Val β)
    (toIn : out.Val β → inp.Val β) (process : List (inp.Val β) → Process σ ε (out.Val β))
    (srcs : List ι) (a : ι) (S : System ι β σ ε) : Prop where
  nodes : S.pipeline.nodes ≠ []
  sources : S.pipeline.sources = srcs
  shape : ∀ i, (S.machine.heap i).obj.shape = (obj i).shape
  idle : Idle toOut toIn process srcs a S.machine

/-- The aggregator as first node. -/
theorem backBuilt_aggregator (hS : FrontBuilt obj S)
    (ha : obj a = .aggregator inp out toOut toIn process {}) (hnodup : S.pipeline.sources.Nodup)
    (fuel : Nat) :
    BackBuilt obj toOut toIn process S.pipeline.sources a (S.step fuel (.add a)).2 := by
  have hagg : (S.machine.heap a).obj = .aggregator inp out toOut toIn process {} :=
    (hS.objects a).trans ha
  have hout : a ∉ S.pipeline.sources := by
    intro hmem
    have hsource := hS.sources a hmem
    rw [ha] at hsource
    cases hsource
  obtain ⟨hself, hothers, hport, hkeep⟩ := foldl_addConsumer S.pipeline.sources S.machine.heap {}
    hagg hnodup
  have hstep : (S.step fuel (.add a)).2 = { S with
      pipeline := { S.pipeline with nodes := [a] }
      machine := { S.machine with
        heap := S.pipeline.sources.foldl (fun h src => addConsumer h src a) S.machine.heap } } := by
    simp only [System.step, Pipeline.add, hagg, Pipeline.wire, hS.nodes, List.getLast?_nil,
      List.nil_append]
  rw [hstep]
  generalize S.pipeline.sources.foldl (fun h src => addConsumer h src a) S.machine.heap = h
    at hself hothers hport hkeep
  -- an edge leads from a source to the aggregator or to an earlier sink
  have hedge : ∀ i j, Edge h i j →
      i ∈ S.pipeline.sources ∧ (j = a ∨ (obj j).isSink = true) := by
    rintro i j ⟨id, hid⟩
    by_cases hi : i ∈ S.pipeline.sources
    · refine ⟨hi, ?_⟩
      obtain ⟨k, hk⟩ := List.mem_iff_getElem?.1 hi
      rw [hport k i hk, List.mem_append, List.mem_singleton] at hid
      rcases hid with hid | hid
      · exact Or.inr (hS.edges i j ⟨id, hid⟩).2
      · exact Or.inl (Prod.mk.inj hid).1
    · rw [hkeep i hi] at hid
      exact absurd (hS.edges i j ⟨id, hid⟩).1 hi
  refine ⟨List.cons_ne_nil _ _, rfl, ?_, ⟨hout, ?_, ?_, ?_, ?_⟩, _, hself, ?_⟩
  · intro i
    by_cases hi : i = a
    · subst hi
      rw [hself, ha]
      rfl
    · rw [hothers i hi, hS.objects i]
  · intro src hsrc
    rw [hothers src fun heq => hout (heq ▸ hsrc), hS.objects src]
    exact hS.sources src hsrc
  · intro k src hk
    refine ⟨(S.machine.heap src).nextNodes, [], ?_, fun c hc heq => ?_⟩
    · rw [hport k src hk, Nat.zero_add]
    · rw [List.append_nil] at hc
      have hsink := (hS.edges src c.1 ⟨c.2, hc⟩).2
      rw [heq, ha] at hsink
      cases hsink
  · exact fun i hi => (hedge i a hi).1
  · intro i j hij hj
    rcases (hedge i j hij).2 with rfl | hsink
    · exact hout hj
    · have hsource := hS.sources j hj
      cases hobj : obj j with
      | sink inp process =>
        rw [hobj] at hsource
        cases hsource
      | _ =>
        rw [hobj] at hsink
        cases hsink
  · refine ⟨?_, ?_, ?_, fun hne => absurd rfl hne⟩
    · exact Nat.zero_add _
    · simp
    · exact List.Perm.refl _

omit [DecidableEq κ] in
theorem Idle.addConsumer {srcs : List ι} {s : Machine ι β σ ε}
    (hs : Idle toOut toIn process srcs a s) {next : ι} (hne : next ≠ a) (hsrc : next ∉ srcs)
    (this : ι) :
    Idle toOut toIn process srcs a { s with heap := addConsumer s.heap this next } where
  feeds := by
    refine ⟨hs.feeds.outside, ?_, ?_, ?_, ?_⟩
    · intro src hmem
      rw [obj_addConsumer, if_neg fun heq : src = next => hsrc (heq ▸ hmem)]
      exact hs.feeds.isSource src hmem
    · intro k src hk
      obtain ⟨before, after, hport, hothers⟩ := hs.feeds.port k src hk
      rw [nextNodes_addConsumer]
      by_cases heq : src = this
      · subst heq
        rw [if_pos rfl, hport, List.append_assoc, List.cons_append]
        refine ⟨before, _, rfl, ?_⟩
        intro c hc
        rw [← List.append_assoc, List.mem_append, List.mem_singleton] at hc
        rcases hc with hc | rfl
        · exact hothers c hc
        · exact hne
      · rw [if_neg heq]
        exact ⟨before, after, hport, hothers⟩
    · intro i hi
      rcases edge_addConsumer hi with hi | ⟨-, heq⟩
      · exact hs.feeds.feeders i hi
      · exact absurd heq.symm hne
    · intro i j hij
      rcases edge_addConsumer hij with hij | ⟨-, rfl⟩
      · exact hs.feeds.roots i j hij
      · exact hsrc
  round := by
    obtain ⟨agg, hobj, hholds⟩ := hs.round
    refine ⟨agg, ?_, hholds⟩
    rw [obj_addConsumer, if_neg hne.symm]
    exact hobj

theorem backBuilt_step {srcs : List ι} (hS : BackBuilt obj toOut toIn process srcs a S)
    (fuel : Nat) {op : Op ι} (hop : AddsBehind obj a op) :
    BackBuilt obj toOut toIn process srcs a (S.step fuel op).2 := by
  have hnotSrc : ∀ j, (obj j).isSource = false → j ∉ srcs := by
    intro j hj hmem
    have hsource := hS.idle.feeds.isSource j hmem
    rw [← isSource_shape, hS.shape j, isSource_shape, hj] at hsource
    cases hsource
  -- a new edge leads neither to a source nor to the aggregator
  have hadd : ∀ this next, next ≠ a → (obj next).isSource = false →
      (∀ i, (addConsumer S.machine.heap this next i).obj.shape = (obj i).shape) ∧
        Idle toOut toIn process srcs a
          { S.machine with heap := addConsumer S.machine.heap this next } :=
    fun this next hne hsrc => ⟨fun i => (shape_addConsumer _ this next i).trans (hS.shape i),
      hS.idle.addConsumer hne (hnotSrc next hsrc) this⟩
  cases op with
  | execute => exact hop.elim
  | connect i j =>
    obtain ⟨hshape, hidle⟩ := hadd i j hop.1 hop.2
    exact ⟨hS.nodes, hS.sources, hshape, hidle⟩
  | add f =>
    obtain ⟨back, hback⟩ : ∃ back, S.pipeline.nodes.getLast? = some back :=
      ⟨_, List.getLast?_eq_getLast_of_ne_nil hS.nodes⟩
    obtain ⟨hshape, hidle⟩ := hadd back f hop.1 hop.2
    have hclass : (S.machine.heap f).obj.isSource = false := by
      rw [← isSource_shape, hS.shape f, isSource_shape]
      exact hop.2
    cases hobj : (S.machine.heap f).obj with
    | source out policy process =>
      rw [hobj] at hclass
      cases hclass
    | module inp out policy process =>
      simp only [System.step, Pipeline.add, hobj, Pipeline.wire, hback]
      exact ⟨by simp, hS.sources, hshape, hidle⟩
    | aggregator inp out toOut toIn process self =>
      simp only [System.step, Pipeline.add, hobj, Pipeline.wire, hback]
      exact ⟨by simp, hS.sources, hshape, hidle⟩
    | sink inp process =>
      simp only [System.step, Pipeline.add, hobj, Pipeline.wire, hback]
      exact ⟨hS.nodes, hS.sources, hshape, hidle⟩
    -- `add` throws for a block of no known class
    | other policy processAny =>
      simp only [System.step, Pipeline.add, hobj]
      exact hS

theorem backBuilt_run (fuel : Nat) {srcs : List ι} (ops : List (Op ι)) {S : System ι β σ ε}
    (h : BackBuilt obj toOut toIn process srcs a S) (hops : ∀ op ∈ ops, AddsBehind obj a op) :
    BackBuilt obj toOut toIn process srcs a (S.run fuel ops).2 :=
  run_invariant (BackBuilt obj toOut toIn process srcs a) (AddsBehind obj a)
    (fun _ _ hop hS => backBuilt_step hS fuel hop) hops h

/-- The calls of `process_any` in the execute that follows `k` executes. -/
def System.executeCalls (S : System ι β σ ε) (fuel k : Nat) : List (Activation ι β σ ε) :=
  let T := (S.run fuel (List.replicate k .execute)).2
  T.pipeline.activations fuel T.machine

theorem run_replicate_succ (S : System ι β σ ε) (fuel k : Nat) :
    (S.run fuel (List.replicate (k + 1) .execute)).2 =
      ((S.run fuel (List.replicate k .execute)).2.step fuel .execute).2 := by
  rw [List.replicate_succ', run_append]
  rfl

theorem step_execute (S : System ι β σ ε) (fuel : Nat) :
    (S.step fuel .execute).2 =
      { S with machine := finalState (S.pipeline.execute fuel S.machine) } := by
  simp only [System.step]
  cases S.pipeline.execute fuel S.machine <;> rfl

/-- In every pipeline of which at most 30 sources feed an aggregator as first node, and after any
number of executes in each of which all sources delivered to it or none did, an execute drops no
delivery, has no undefined behaviour in the aggregator and collects the values of that execute
only. -/
theorem collectsOnce_of_allOrNone (fuel : Nat) (obj : ι → Obj β σ ε) (u : σ)
    (front rest : List (Op ι)) (ha : obj a = .aggregator inp out toOut toIn process {})
    (hfront : ∀ op ∈ front, AddsFront obj op) (hrest : ∀ op ∈ rest, AddsBehind obj a op)
    (S : System ι β σ ε) (hrun : ((System.init obj u).run fuel (front ++ .add a :: rest)).2 = S)
    (srcs : List ι) (hsrcs : ((System.init obj u).run fuel front).2.pipeline.sources = srcs)
    (hne : srcs ≠ []) (hnodup : srcs.Nodup) (hsmall : srcs.length ≤ 30) (K : Nat)
    (hall : ∀ k < K, AllOrNone srcs.length (received inp a (S.executeCalls fuel k))) :
    CollectsOnce inp (toIn ∘ toOut) a (S.executeCalls fuel K) := by
  subst hsrcs
  have hbuilt := frontBuilt_run fuel front (frontBuilt_init obj u) hfront
  have hback := backBuilt_run fuel rest (backBuilt_aggregator hbuilt ha hnodup fuel) hrest
  have hS :
      S = ((((System.init obj u).run fuel front).2.step fuel (.add a)).2.run fuel rest).2 := by
    rw [← hrun, run_append]
    rfl
  rw [← hS] at hback
  generalize ((System.init obj u).run fuel front).2.pipeline.sources = srcs
    at hne hnodup hsmall hall hback
  -- the executes before this one each leave an empty round
  have hidle : ∀ k ≤ K, (S.run fuel (List.replicate k .execute)).2.pipeline.sources = srcs ∧
      Idle toOut toIn process srcs a (S.run fuel (List.replicate k .execute)).2.machine := by
    intro k
    induction k with
    | zero => exact fun _ => ⟨hback.sources, hback.idle⟩
    | succ k ih =>
      intro hk
      obtain ⟨hsources, hidle⟩ := ih (by omega)
      have hall' := hall k (by omega)
      rw [System.executeCalls] at hall'
      rw [run_replicate_succ, step_execute]
      generalize (S.run fuel (List.replicate k .execute)).2 = T at hsources hidle hall'
      subst hsources
      exact ⟨rfl, (execute_idle hne hsmall fuel hidle).2 hall'⟩
  obtain ⟨hsources, hidle⟩ := hidle K le_rfl
  rw [System.executeCalls]
  generalize (S.run fuel (List.replicate K .execute)).2 = T at hsources hidle
  subst hsources
  exact (execute_idle hne hsmall fuel hidle).1

end Build

/-! ## An empty batch -/

/-- A source of numbers, a round-robin source of vectors of numbers that depend on the first
source's count, and an aggregator that returns nothing. -/
def batchBlocks (batch : Nat → List Nat) : Nat → Obj (fun _ : Unit => Nat) Nat Empty
  | 0 => .source (.base ()) .Fanout fun u : Nat => (.ok (some u), u + 1)
  | 1 => .source (.vector (.base ())) .RoundRobin fun u : Nat => (.ok (some (batch u)), u)
  | _ => .aggregator (.base ()) (.base ()) id id (fun _ u => (.ok none, u)) {}

/-- The pipeline of the two sources and the aggregator. -/
def batchSystem (batch : Nat → List Nat) : System Nat (fun _ : Unit => Nat) Nat Empty :=
  ((System.init (batchBlocks batch) 0).run 3 [.add 0, .add 1, .add 2]).2

/-- The batches `[]`, `[7]`, `[7]`, …. -/
def lateBatch (u : Nat) : List Nat := if u ≤ 1 then [] else [7]

/-- After an execute with an empty batch, the next delivery of the other source is dropped, and the
value that was left behind is collected in its place. -/
theorem emptyBatch_drops :
    (batchSystem lateBatch).pipeline.sources = [0, 1] ∧
      (∃ x ∈ (batchSystem lateBatch).executeCalls 3 1, x.block = 2 ∧ x.dropped = true) ∧
      ¬ ∀ K, CollectsOnce (.base ()) id 2 ((batchSystem lateBatch).executeCalls 3 K) := by
  have hdrop : ∃ x ∈ (batchSystem lateBatch).executeCalls 3 1, x.block = 2 ∧ x.dropped = true := by
    have hany : ((batchSystem lateBatch).executeCalls 3 1).any
        (fun x => decide (x.block = 2) && x.dropped) = true := rfl
    obtain ⟨x, hx, hcond⟩ := List.any_eq_true.1 hany
    exact ⟨x, hx, by simpa using hcond⟩
  refine ⟨rfl, hdrop, fun h => ?_⟩
  obtain ⟨x, hx, hblock, hdropped⟩ := hdrop
  rw [(h 1).kept x hx hblock] at hdropped
  cases hdropped

/-- With a value in every batch the pipeline of the example collects each execute. -/
theorem fullBatch_collects :
    CollectsOnce (.base ()) (id ∘ id) 2 ((batchSystem fun _ => [7]).executeCalls 3 1) := by
  refine collectsOnce_of_allOrNone 3 (batchBlocks fun _ => [7]) 0 [.add 0, .add 1] [] rfl ?_ nofun
    (batchSystem fun _ => [7]) rfl [0, 1] rfl (by simp) (by decide) (by decide) 1 ?_
  · intro op hop
    rcases List.mem_cons.1 hop with rfl | hop
    · exact Or.inl rfl
    · rw [List.mem_singleton.1 hop]
      exact Or.inl rfl
  · intro k hk
    obtain rfl : k = 0 := by omega
    have hids : (received (.base ()) 2 ((batchSystem fun _ => [7]).executeCalls 3 0)).map Prod.fst =
        [0, 1] := rfl
    refine Or.inl ?_
    rw [hids]
    decide

end PipelineTools.FlowEngine
