import PipelineTools.FlowEngine.Meaning
import PipelineTools.FlowEngine.Activations
import PipelineTools.FlowEngine.TypeSoundness
import PipelineTools.Library.Unfolding

/-!
# Branching graphs of pure blocks

A `BranchingGraph` is wired by calls of `connect` alone: any number of consumers behind each block,
several ways to one block, several edges between two blocks. Its blocks are sources, modules and
sinks whose `process` functions are pure and return values.

What a consumer receives then depends on nothing but the path on which it is reached.
`BranchingGraph.carried` lists what the edges out of a block carry when the block is activated with
a given input; a path is admissible when all its edges carry a value. `VisitsPaths` says that one
`execute` of the source activates the ends of the admissible paths, each path once, in depth-first
order. `BranchingGraph.visitsPaths_iff` says when it does: what a round-robin block takes out of a
vector of `bool` is not a `bool`, and the first consumer of such a block throws. The bound on the
depth of the recursion is the number of edges, whatever the values are.
-/

set_option autoImplicit false

namespace PipelineTools.FlowEngine

open PipelineTools.Library

variable {ι κ : Type} {β : κ → Type} {σ ε : Type}

/-! ## Pure blocks -/

/-- The type a consumer receives from a producer of a type; a round-robin producer hands out the
elements of its vector. -/
def ProductionPolicy.delivers : ProductionPolicy → Ty κ → Option (Ty κ)
  | .Fanout, t => some t
  | .RoundRobin, .vector t => some t
  | .RoundRobin, _ => none

/-- A block whose `process` is a pure function that returns a value. A sink returns nothing; it may
record its input in the user state. -/
inductive PureBlock {κ : Type} (β : κ → Type) (σ : Type) where
  | source (out : Ty κ) (policy : ProductionPolicy) (value : out.Val β)
  | module (inp out : Ty κ) (policy : ProductionPolicy) (f : inp.Val β → out.Val β)
  | sink (inp : Ty κ) (record : inp.Val β → σ → σ)

namespace PureBlock

def obj : PureBlock β σ → Obj β σ ε
  | .source out policy value => .source out policy fun u => (.ok (some value), u)
  | .module inp out policy f => .module inp out policy fun v u => (.ok (some (f v)), u)
  | .sink inp record => .sink inp fun v u => (.ok (), record v u)

def isSink : PureBlock β σ → Bool
  | .sink .. => true
  | _ => false

def policy : PureBlock β σ → ProductionPolicy
  | .source _ policy _ => policy
  | .module _ _ policy _ => policy
  | .sink .. => .Fanout

/-- The input type; a source has none. -/
def inputType : PureBlock β σ → Option (Ty κ)
  | .source .. => none
  | .module inp .. => some inp
  | .sink inp _ => some inp

/-- The output type; a sink has none. -/
def outputType : PureBlock β σ → Option (Ty κ)
  | .source out .. => some out
  | .module _ out .. => some out
  | .sink .. => none

/-- The type each consumer receives. -/
def delivers (b : PureBlock β σ) : Option (Ty κ) := b.outputType.bind b.policy.delivers

/-- The inputs the block can be activated with. -/
def Accepts (b : PureBlock β σ) (a : Any β) : Prop :=
  match b.inputType with
  | none => a.type ≠ .nullopt
  | some t => ∃ v, a = .val t v

theorem isSink_obj (b : PureBlock β σ) : (b.obj : Obj β σ ε).isSink = b.isSink := by
  cases b <;> rfl

theorem policy_obj (b : PureBlock β σ) : (b.obj : Obj β σ ε).policy = b.policy := by
  cases b <;> rfl

theorem outputType_obj (b : PureBlock β σ) : (b.obj : Obj β σ ε).outputType = b.outputType := by
  cases b <;> rfl

theorem not_nullopt {b : PureBlock β σ} {a : Any β} (h : b.Accepts a) : a.type ≠ .nullopt := by
  rw [Accepts] at h
  cases ht : b.inputType with
  | none =>
    rw [ht] at h
    exact h
  | some t =>
    rw [ht] at h
    obtain ⟨v, rfl⟩ := h
    simp [Any.type]

variable [DecidableEq κ]

/-- What the block produces from an input. -/
def output : PureBlock β σ → Any β → Option (Any β)
  | .source out _ value, _ => some (.val out value)
  | .module inp out _ f, a => (anyCast inp a).map fun v => .val out (f v)
  | .sink .., _ => none

/-- The block hands on bits: a round-robin block that puts out a vector of `bool` with an
element. -/
def HandsBits (b : PureBlock β σ) (a : Any β) : Prop :=
  b.policy = .RoundRobin ∧
    ∃ bits : List Bool, bits ≠ [] ∧ b.output a = some (.val (.vector .bool) bits)

/-- What the block does to the user state. -/
def record : PureBlock β σ → Any β → σ → σ
  | .sink inp record, a, u => (anyCast inp a).elim u fun v => record v u
  | _, _, u => u

/-- The call of the user's `process`, as it is logged. -/
def call (b : PureBlock β σ) (a : Any β) : Call β ε where
  args := if b.inputType = none then [] else [a]
  ret := (b.output a).elim .void .value

/-- What `process_any` does. -/
theorem processAny_obj {b : PureBlock β σ} {a : Any β} (h : b.Accepts a) (producerId : Nat)
    (u : σ) :
    (b.obj : Obj β σ ε).processAny a producerId u =
      (⟨some (b.call a), .ok ((b.output a).getD .empty)⟩, b.obj, b.record a u) := by
  cases b with
  | source out policy value => rfl
  | «module» inp out policy f =>
    obtain ⟨v, rfl⟩ := h
    simp [obj, Obj.processAny, Module.processAny, pack, call, output, record, inputType]
  | sink inp note =>
    obtain ⟨v, rfl⟩ := h
    simp [obj, Obj.processAny, Sink.processAny, call, output, record, inputType]

/-- An activated block produces a value, unless it is a sink. -/
theorem output_eq_some {b : PureBlock β σ} {a : Any β} (h : b.Accepts a) (hb : b.isSink = false) :
    ∃ t v, b.output a = some (.val t v) ∧ b.outputType = some t := by
  cases b with
  | source out policy value => exact ⟨out, value, rfl, rfl⟩
  | «module» inp out policy f =>
    obtain ⟨v, rfl⟩ := h
    exact ⟨out, f v, by simp [output], rfl⟩
  | sink inp note => cases hb

end PureBlock

/-! ## Graphs -/

/-- Blocks wired by the calls of `connect` in `connects`, with a source to start from. -/
structure BranchingGraph (ι : Type) {κ : Type} (β : κ → Type) (σ : Type) where
  block : ι → PureBlock β σ
  root : ι
  connects : List (ι × ι)
  root_source : (block root).inputType = none
  typed : ∀ e ∈ connects, (block e.1).isSink = false →
    ∃ t, (block e.1).delivers = some t ∧ (block e.2).inputType = some t
  consumed : ∀ i, Relation.ReflTransGen (fun i j => (i, j) ∈ connects) root i →
    (block i).isSink = false → ∃ j, (i, j) ∈ connects
  acyclic : Acyclic fun i j => (i, j) ∈ connects

namespace BranchingGraph

variable [DecidableEq ι]

/-- The blocks after the calls of `connect`. -/
def heap (g : BranchingGraph ι β σ) : Heap ι β σ ε :=
  g.connects.foldl (fun h e => connect h e.1 e.2) fun i => { obj := (g.block i).obj }

/-- The consumers of a block, in the order of their registration. -/
def consumers (g : BranchingGraph ι β σ) (i : ι) : List ι :=
  (g.connects.filter fun e => e.1 = i).map Prod.snd

theorem heap_apply (g : BranchingGraph ι β σ) (i : ι) :
    (g.heap : Heap ι β σ ε) i =
      { obj := (g.block i).obj, nextNodes := (g.consumers i).map fun j => (j, 0) } := by
  have hfold : ∀ (connects : List (ι × ι)) (h : Heap ι β σ ε),
      (∀ i, (h i).obj = (g.block i).obj) →
      connects.foldl (fun h e => connect h e.1 e.2) h i =
        { obj := (g.block i).obj
          nextNodes := (h i).nextNodes ++
            ((connects.filter fun e => e.1 = i).map Prod.snd).map fun j => (j, 0) } := by
    intro connects
    -- induction on the calls of `connect`: each adds one edge to one block
    induction connects with
    | nil =>
      intro h hobj
      rw [List.foldl_nil, List.filter_nil, List.map_nil, List.map_nil, List.append_nil, ← hobj i]
    | cons e connects ih =>
      intro h hobj
      have hplain : (h e.2).obj.registerProducer = (0, (h e.2).obj) := by
        rw [hobj]
        cases g.block e.2 <;> rfl
      rw [List.foldl_cons, connect, addConsumer_plain hplain, ih _ (fun i => by
        rw [obj_feed, hobj])]
      by_cases hi : e.1 = i
      · subst hi
        rw [feed_of_mem List.mem_cons_self, List.filter_cons_of_pos (by simp), List.map_cons,
          List.map_cons, List.append_assoc]
        rfl
      · rw [feed_of_not_mem (by simpa using Ne.symm hi),
          List.filter_cons_of_neg (by simpa using hi)]
  rw [heap, hfold g.connects _ (fun _ => rfl)]
  rfl

theorem mem_consumers_iff (g : BranchingGraph ι β σ) {i j : ι} :
    j ∈ g.consumers i ↔ (i, j) ∈ g.connects := by
  constructor
  · intro hj
    obtain ⟨⟨i', j'⟩, he, rfl⟩ := List.mem_map.1 hj
    obtain ⟨he, hi⟩ := List.mem_filter.1 he
    rw [← of_decide_eq_true hi]
    exact he
  · intro hj
    exact List.mem_map.2 ⟨(i, j), List.mem_filter.2 ⟨hj, decide_eq_true rfl⟩, rfl⟩

theorem consumers_ne_nil (g : BranchingGraph ι β σ) {i : ι}
    (h : ∃ j, (i, j) ∈ g.connects) : g.consumers i ≠ [] := by
  obtain ⟨j, hj⟩ := h
  exact List.ne_nil_of_mem (g.mem_consumers_iff.2 hj)

/-- A block with an outgoing edge is the first argument of a call of `connect`. -/
theorem exists_rank (g : BranchingGraph ι β σ) :
    ∃ rank : ι → Nat, (∀ i, rank i ≤ g.connects.length) ∧
      ∀ i j, (i, j) ∈ g.connects → rank j < rank i := by
  have hsub : tails (fun i j => (i, j) ∈ g.connects) ⊆
      ((g.connects.map Prod.fst).toFinset : Set ι) := by
    rintro i ⟨j, hj⟩
    exact List.mem_toFinset.2 (List.mem_map.2 ⟨(i, j), hj, rfl⟩)
  have hfin : (tails fun i j => (i, j) ∈ g.connects).Finite := (Finset.finite_toSet _).subset hsub
  obtain ⟨rank, hbound, hrank⟩ := exists_rank_of_acyclic hfin g.acyclic
  refine ⟨rank, fun i => ?_, hrank⟩
  calc rank i ≤ (tails fun i j => (i, j) ∈ g.connects).ncard := hbound i
    _ ≤ ((g.connects.map Prod.fst).toFinset : Set ι).ncard :=
      Set.ncard_le_ncard hsub (Finset.finite_toSet _)
    _ = (g.connects.map Prod.fst).toFinset.card := Set.ncard_coe_finset _
    _ ≤ (g.connects.map Prod.fst).length := List.toFinset_card_le _
    _ = g.connects.length := List.length_map _

variable [DecidableEq κ]

/-- What the edges out of a block carry when it is activated with an input. A round-robin producer
serves as many edges as its vector has elements. -/
def carried (g : BranchingGraph ι β σ) (x : ι × Any β) : List (ι × Any β) :=
  match (g.block x.1).output x.2 with
  | none => []
  | some output =>
    match (g.block x.1).policy, output with
    | .Fanout, _ => (g.consumers x.1).map fun j => (j, output)
    | .RoundRobin, .val (.vector t) values => (g.consumers x.1).zip (List.map (.val t) values)
    | .RoundRobin, _ => []

/-- The end of a path from the source, with the value computed along the path, if it is
admissible. -/
def valueAlong (g : BranchingGraph ι β σ) (path : List Nat) : Option (ι × Any β) :=
  follow g.carried (g.root, .empty) path

/-- No block that an admissible path leads to hands on bits. -/
def NoBits (g : BranchingGraph ι β σ) : Prop :=
  ∀ path x, g.valueAlong path = some x → ¬ (g.block x.1).HandsBits x.2

/-- The log entry of an activation. -/
def event (g : BranchingGraph ι β σ) (x : Nat × ι × Any β) : Event ι β ε :=
  ⟨x.1, x.2.1, (g.block x.2.1).call x.2.2⟩

/-- One `execute` of the source returns, and its log lists the admissible paths in depth-first
order: each entry is the activation of the end of its path with the value computed along it. -/
def VisitsPaths (g : BranchingGraph ι β σ) (fuel : Nat) (u : σ) (log : List (Event ι β ε)) : Prop :=
  ∃ (paths : List (List Nat)) (events : List (Event ι β ε)) (u' : σ),
    execute fuel 0 g.root .empty 0 ⟨g.heap, u, log⟩ = .ok () ⟨g.heap, u', log ++ events⟩ ∧
    paths.Pairwise (List.Lex (· < ·)) ∧
    (∀ p, p ∈ paths ↔ (g.valueAlong p).isSome) ∧
    events.map some =
      paths.map (fun p => (g.valueAlong p).map fun x => g.event (p.length, x)) ∧
    ∀ i, (events.filter fun e => e.block = i).length =
      (paths.filter fun p => (g.valueAlong p).map Prod.fst = some i).length

/-! ## The engine on such a graph -/

/-- A call of `process_any`. -/
theorem processAny_eq (g : BranchingGraph ι β σ) {i : ι} {a : Any β} (h : (g.block i).Accepts a)
    (depth producerId : Nat) (u : σ) (log : List (Event ι β ε)) :
    processAny depth i a producerId ⟨g.heap, u, log⟩ =
      .ok (((g.block i).output a).getD .empty)
        ⟨g.heap, (g.block i).record a u, log ++ [g.event (depth, i, a)]⟩ := by
  have hobj : ((g.heap : Heap ι β σ ε) i).obj = (g.block i).obj := by rw [heap_apply]
  have hsame : Function.update (g.heap : Heap ι β σ ε) i
      { (g.heap : Heap ι β σ ε) i with obj := (g.block i).obj } = g.heap := by
    rw [← hobj]
    exact Function.update_eq_self i _
  simp only [processAny, hobj, PureBlock.processAny_obj h]
  rw [hsame]
  rfl

/-- `produce` hands to each consumer what its edge carries, unless this is a bit. -/
theorem produce_eq (g : BranchingGraph ι β σ) {i : ι} {a : Any β} (h : (g.block i).Accepts a)
    (hi : (g.block i).isSink = false) (hconsumers : g.consumers i ≠ [])
    (htyped : ∃ t, (g.block i).delivers = some t) (hbits : ¬ (g.block i).HandsBits a)
    (exec : ι → Any β → Nat → Eng ι β σ ε Unit) :
    (g.heap i).produce exec (((g.block i).output a).getD .empty) =
      runAlong exec ((g.carried (i, a)).map fun x => (x.1, x.2, 0)) := by
  obtain ⟨t, v, houtput, htype⟩ := PureBlock.output_eq_some h hi
  have hpolicy : ((g.heap : Heap ι β σ ε) i).obj.policy = (g.block i).policy := by
    rw [heap_apply, PureBlock.policy_obj]
  have hnext : ((g.heap : Heap ι β σ ε) i).nextNodes = (g.consumers i).map fun j => (j, 0) := by
    rw [heap_apply]
  have htype' : ((g.heap : Heap ι β σ ε) i).obj.outputType = some t := by
    rw [heap_apply, PureBlock.outputType_obj, htype]
  rw [houtput, Option.getD_some]
  cases hp : (g.block i).policy with
  | Fanout =>
    rw [produce_fanout (hpolicy.trans hp) (by simpa [hnext] using hconsumers), hnext]
    simp only [carried, houtput, hp, runAlong, List.forM_map]
  | RoundRobin =>
    -- a round-robin producer with a typed edge produces a vector
    obtain ⟨elem, helem⟩ := htyped
    rw [PureBlock.delivers, htype, hp] at helem
    cases t with
    | base k => cases helem
    | bool => cases helem
    | vector t =>
      rw [produce_roundRobin (hpolicy.trans hp) htype', hnext]
      simp only [carried, houtput, hp, runAlong, List.zip_map_left, List.zip_map_right,
        List.forM_map]
      by_cases hbool : t = .bool
      · subst hbool
        have hnil : v = [] := by
          by_contra hne
          exact hbits ⟨hp, v, hne, houtput⟩
        rw [hnil, List.zip_nil_right]
        rfl
      · simp only [Any.element_eq hbool]
        rfl

/-- A bit is handed on, and the consumer cannot cast it. -/
theorem produce_bits (g : BranchingGraph ι β σ) {i j : ι} {a : Any β} (hedge : (i, j) ∈ g.connects)
    (hbits : (g.block i).HandsBits a) (fuel depth : Nat) (u : σ) (log : List (Event ι β ε)) :
    ∃ e s', (g.heap i).produce (execute (fuel + 1) depth) (((g.block i).output a).getD .empty)
      ⟨g.heap, u, log⟩ = .error e s' := by
  obtain ⟨hp, bits, hne, houtput⟩ := hbits
  have hsink : (g.block i).isSink = false := by
    cases hb : g.block i with
    | source => rfl
    | «module» => rfl
    | sink inp note =>
      rw [hb] at houtput
      cases houtput
  have htype : (g.block i).outputType = some (.vector .bool) := by
    cases hb : g.block i with
    | source out policy value =>
      rw [hb] at houtput
      cases houtput
      rfl
    | «module» inp out policy f =>
      rw [hb, PureBlock.output] at houtput
      obtain ⟨v, -, hv⟩ := Option.map_eq_some_iff.1 houtput
      cases hv
      rfl
    | sink inp note =>
      rw [hb] at houtput
      cases houtput
  have hnext : ((g.heap : Heap ι β σ ε) i).nextNodes = (g.consumers i).map fun j => (j, 0) := by
    rw [heap_apply]
  have hrr : ((g.heap : Heap ι β σ ε) i).obj.policy = .RoundRobin := by
    rw [heap_apply, PureBlock.policy_obj, hp]
  have hout : ((g.heap : Heap ι β σ ε) i).obj.outputType = some (.vector .bool) := by
    rw [heap_apply, PureBlock.outputType_obj, htype]
  have hbasic : ∀ i, ((g.heap : Heap ι β σ ε) i).obj.isBasic = true := by
    intro i
    rw [heap_apply]
    cases g.block i <;> rfl
  obtain ⟨first, rest, hfirst⟩ := List.exists_cons_of_ne_nil (g.consumers_ne_nil ⟨j, hedge⟩)
  obtain ⟨bit, more, rfl⟩ := List.exists_cons_of_ne_nil hne
  -- the first consumer takes a `bool`
  have hinp : ((g.heap : Heap ι β σ ε) first).obj.inputType = some .bool := by
    have hmem : first ∈ g.consumers i := by
      rw [hfirst]
      exact List.mem_cons_self
    obtain ⟨t, ht, hin⟩ := g.typed _ (g.mem_consumers_iff.1 hmem) hsink
    rw [PureBlock.delivers, htype, hp] at ht
    cases ht
    rw [heap_apply]
    cases hb : g.block first with
    | source =>
      rw [hb] at hin
      cases hin
    | «module» inp out policy f =>
      rw [hb] at hin
      exact hin
    | sink inp note =>
      rw [hb] at hin
      exact hin
  obtain ⟨e, s', hrun, -, -, -⟩ := execute_badCast fuel depth 0 hbasic
    (rfl : (⟨g.heap, u, log⟩ : Machine ι β σ ε).heap = g.heap)
    (fun _ => Any.element_present .bool bit) hinp (anyCast_bitReference .bool bit)
  refine ⟨e, s', ?_⟩
  rw [houtput, Option.getD_some, produce_roundRobin hrr hout, hnext, hfirst, List.map_cons,
    List.zip_cons_cons, List.forM_cons]
  exact bind_error hrun

/-- What an edge carries is the output of a fanout producer, or an element of the vector that a
round-robin producer put out. -/
theorem mem_carried (g : BranchingGraph ι β σ) {i j : ι} {a b : Any β}
    (hmem : (j, b) ∈ g.carried (i, a)) :
    j ∈ g.consumers i ∧ ∃ output, (g.block i).output a = some output ∧
      (((g.block i).policy = .Fanout ∧ b = output) ∨
        ∃ (t : Ty κ) (values : List (t.Val β)) (v : t.Val β), (g.block i).policy = .RoundRobin ∧
          output = .val (.vector t) values ∧ b = .val t v) := by
  rw [carried] at hmem
  cases houtput : (g.block i).output a with
  | none =>
    rw [houtput] at hmem
    cases hmem
  | some output =>
    rw [houtput] at hmem
    cases hp : (g.block i).policy with
    | Fanout =>
      simp only [hp] at hmem
      obtain ⟨j', hj', heq⟩ := List.mem_map.1 hmem
      cases heq
      exact ⟨hj', b, rfl, .inl ⟨rfl, rfl⟩⟩
    | RoundRobin =>
      simp only [hp] at hmem
      rcases output with _ | _ | _ | ⟨_ | _ | t, values⟩
      · cases hmem
      · cases hmem
      · cases hmem
      · cases hmem
      · cases hmem
      · obtain ⟨v, -, rfl⟩ := List.mem_map.1 (List.of_mem_zip hmem).2
        exact ⟨(List.of_mem_zip hmem).1, _, rfl, .inr ⟨t, values, v, rfl, rfl, rfl⟩⟩

theorem edge_of_mem_carried (g : BranchingGraph ι β σ) {x y : ι × Any β}
    (hmem : y ∈ g.carried x) : (x.1, y.1) ∈ g.connects :=
  g.mem_consumers_iff.1 (g.mem_carried hmem).1

/-- Nothing comes out of a sink. -/
theorem carried_of_isSink (g : BranchingGraph ι β σ) {x : ι × Any β}
    (h : (g.block x.1).isSink = true) : g.carried x = [] := by
  rw [carried]
  cases hb : g.block x.1 with
  | source => rw [hb] at h; cases h
  | «module» => rw [hb] at h; cases h
  | sink inp note => rfl

/-- Every edge leads to a block that accepts what the edge carries. -/
theorem accepts_of_mem_carried (g : BranchingGraph ι β σ) {i j : ι} {a b : Any β}
    (h : (g.block i).Accepts a) (hmem : (j, b) ∈ g.carried (i, a)) : (g.block j).Accepts b := by
  obtain ⟨hj, output, houtput, hb⟩ := g.mem_carried hmem
  have hsink : (g.block i).isSink = false := by
    cases hblock : g.block i with
    | source => rfl
    | «module» => rfl
    | sink inp note =>
      rw [hblock] at houtput
      cases houtput
  obtain ⟨t, v, houtput', htype⟩ := PureBlock.output_eq_some h hsink
  obtain rfl : .val t v = output := Option.some.inj (houtput'.symm.trans houtput)
  obtain ⟨elem, helem, hinp⟩ := g.typed _ (g.mem_consumers_iff.1 hj) hsink
  rw [PureBlock.delivers, htype, Option.bind_some] at helem
  rw [PureBlock.Accepts, hinp]
  -- a fanout hands on its output, a round robin an element of it
  rcases hb with ⟨hp, rfl⟩ | ⟨t', values, w, hp, heq, rfl⟩
  · rw [hp] at helem
    cases helem
    exact ⟨v, rfl⟩
  · cases heq
    rw [hp] at helem
    cases helem
    exact ⟨w, rfl⟩

omit [DecidableEq κ] in
/-- Along a row of deliveries, each of which logs its own entries. -/
theorem runAlong_eq (g : BranchingGraph ι β σ) {exec : ι → Any β → Nat → Eng ι β σ ε Unit}
    {entries : ι × Any β → List (Event ι β ε)} (xs : List (ι × Any β))
    (hexec : ∀ x ∈ xs, ∀ (u : σ) (log : List (Event ι β ε)), ∃ u',
      exec x.1 x.2 0 ⟨g.heap, u, log⟩ = .ok () ⟨g.heap, u', log ++ entries x⟩)
    (u : σ) (log : List (Event ι β ε)) :
    ∃ u', runAlong exec (xs.map fun x => (x.1, x.2, 0)) ⟨g.heap, u, log⟩ =
      .ok () ⟨g.heap, u', log ++ xs.flatMap entries⟩ := by
  -- induction on the row
  induction xs generalizing u log with
  | nil => exact ⟨u, by rw [List.flatMap_nil, List.append_nil]; rfl⟩
  | cons x xs ih =>
    obtain ⟨u₁, hhead⟩ := hexec x List.mem_cons_self u log
    obtain ⟨u₂, htail⟩ := ih (fun y hy => hexec y (List.mem_cons_of_mem _ hy)) u₁ (log ++ entries x)
    refine ⟨u₂, ?_⟩
    rw [List.map_cons, runAlong, List.forM_cons, bind_ok hhead, List.flatMap_cons,
      ← List.append_assoc]
    exact htail

/-- One activation with everything below it, when no bits are handed on there. By induction on the
fuel; the rank of the block, which drops along every edge, is below it. -/
theorem execute_eq (g : BranchingGraph ι β σ) {rank : ι → Nat}
    (hrank : ∀ i j, (i, j) ∈ g.connects → rank j < rank i) (fuel : Nat) :
    ∀ (depth : Nat) (i : ι) (a : Any β) (producerId : Nat) (u : σ) (log : List (Event ι β ε)),
      rank i < fuel → Relation.ReflTransGen (fun i j => (i, j) ∈ g.connects) g.root i →
      (g.block i).Accepts a →
      Throughout g.carried (fun x => ¬ (g.block x.1).HandsBits x.2) (i, a) →
      ∃ u', execute fuel depth i a producerId ⟨g.heap, u, log⟩ =
        .ok () ⟨g.heap, u', log ++ (visits g.carried fuel depth (i, a)).map g.event⟩ := by
  induction fuel with
  | zero =>
    intro depth i a producerId u log hfuel
    exact absurd hfuel (Nat.not_lt_zero _)
  | succ fuel ih =>
    intro depth i a producerId u log hfuel hreach haccepts hgood
    obtain ⟨hbits, hbelow⟩ := throughout_iff.1 hgood
    have hcall := g.processAny_eq haccepts depth producerId u log
    have hnullopt := PureBlock.not_nullopt haccepts
    have hsinkObj : ((g.heap : Heap ι β σ ε) i).obj.isSink = (g.block i).isSink := by
      rw [heap_apply, PureBlock.isSink_obj]
    rw [execute_succ]
    cases hsink : (g.block i).isSink with
    | true =>
      -- a sink is activated with a value of its type
      obtain ⟨t, v, rfl⟩ : ∃ t v, a = .val t v := by
        cases hb : g.block i with
        | source => rw [hb] at hsink; cases hsink
        | «module» => rw [hb] at hsink; cases hsink
        | sink inp note =>
          rw [hb] at haccepts
          exact ⟨inp, haccepts⟩
      have hvisits : visits g.carried (fuel + 1) depth (i, .val t v) = [(depth, i, .val t v)] := by
        rw [visits, g.carried_of_isSink hsink, List.flatMap_nil]
      rw [if_pos (hsinkObj.trans hsink), if_neg (by simp [Any.hasValue, Any.type]), bind_ok hcall,
        hvisits]
      exact ⟨_, rfl⟩
    | false =>
      obtain ⟨t, v, houtput, htype⟩ := PureBlock.output_eq_some haccepts hsink
      have hconsumers := g.consumed i hreach hsink
      have hdelivers : ∃ t, (g.block i).delivers = some t := by
        obtain ⟨j, hj⟩ := hconsumers
        obtain ⟨t, ht, -⟩ := g.typed _ hj hsink
        exact ⟨t, ht⟩
      have hproduce := g.produce_eq haccepts hsink (g.consumers_ne_nil hconsumers) hdelivers hbits
        (execute fuel (depth + 1) : ι → Any β → Nat → Eng ι β σ ε Unit)
      -- every delivery is a run of smaller rank
      have hrow : ∀ x ∈ g.carried (i, a), ∀ (u : σ) (log : List (Event ι β ε)), ∃ u',
          execute fuel (depth + 1) x.1 x.2 0 ⟨g.heap, u, log⟩ =
            .ok () ⟨g.heap, u', log ++ (visits g.carried fuel (depth + 1) x).map g.event⟩ := by
        rintro ⟨j, b⟩ hmem u log
        have hedge : (i, j) ∈ g.connects := g.edge_of_mem_carried hmem
        have hj := g.accepts_of_mem_carried haccepts hmem
        have hlt := hrank i j hedge
        exact ih (depth + 1) j b 0 u log (by omega) (hreach.tail hedge) hj (hbelow _ hmem)
      obtain ⟨u', hrun⟩ := g.runAlong_eq (g.carried (i, a)) hrow ((g.block i).record a u)
        (log ++ [g.event (depth, i, a)])
      refine ⟨u', ?_⟩
      rw [if_neg (by rw [hsinkObj, hsink]; exact Bool.false_ne_true), bind_ok hcall,
        if_pos (by simp [houtput, Any.hasValue, hnullopt]), hproduce, hrun, visits, List.map_cons,
        List.map_flatMap, List.append_assoc]
      rfl

omit [DecidableEq κ] in
/-- Along a row of deliveries, one of which throws. -/
theorem runAlong_error (g : BranchingGraph ι β σ) {exec : ι → Any β → Nat → Eng ι β σ ε Unit}
    {good : ι × Any β → Prop} (xs : List (ι × Any β))
    (hexec : ∀ x ∈ xs, good x → ∀ (u : σ) (log : List (Event ι β ε)), ∃ u' log',
      exec x.1 x.2 0 ⟨g.heap, u, log⟩ = .ok () ⟨g.heap, u', log'⟩)
    (hthrows : ∀ x ∈ xs, ¬ good x → ∀ (u : σ) (log : List (Event ι β ε)), ∃ e s',
      exec x.1 x.2 0 ⟨g.heap, u, log⟩ = .error e s')
    (hbad : ∃ x ∈ xs, ¬ good x) (u : σ) (log : List (Event ι β ε)) :
    ∃ e s', runAlong exec (xs.map fun x => (x.1, x.2, 0)) ⟨g.heap, u, log⟩ = .error e s' := by
  -- induction on the row: the deliveries before the first bad one return
  induction xs generalizing u log with
  | nil =>
    obtain ⟨x, hx, -⟩ := hbad
    cases hx
  | cons x xs ih =>
    rw [List.map_cons, runAlong, List.forM_cons]
    by_cases hx : good x
    · obtain ⟨u₁, log₁, hhead⟩ := hexec x List.mem_cons_self hx u log
      rw [bind_ok hhead]
      refine ih (fun y hy => hexec y (List.mem_cons_of_mem _ hy))
        (fun y hy => hthrows y (List.mem_cons_of_mem _ hy)) ?_ u₁ log₁
      obtain ⟨y, hy, hynot⟩ := hbad
      rcases List.mem_cons.1 hy with rfl | hy
      · exact absurd hx hynot
      · exact ⟨y, hy, hynot⟩
    · obtain ⟨e, s', hhead⟩ := hthrows x List.mem_cons_self hx u log
      exact ⟨e, s', bind_error hhead⟩

/-- One activation with bits somewhere below it throws. By induction on the fuel, as before. -/
theorem execute_error (g : BranchingGraph ι β σ) {rank : ι → Nat}
    (hrank : ∀ i j, (i, j) ∈ g.connects → rank j < rank i) (fuel : Nat) :
    ∀ (depth : Nat) (i : ι) (a : Any β) (producerId : Nat) (u : σ) (log : List (Event ι β ε)),
      rank i < fuel → Relation.ReflTransGen (fun i j => (i, j) ∈ g.connects) g.root i →
      (g.block i).Accepts a →
      ¬ Throughout g.carried (fun x => ¬ (g.block x.1).HandsBits x.2) (i, a) →
      ∃ e s', execute fuel depth i a producerId ⟨g.heap, u, log⟩ = .error e s' := by
  induction fuel with
  | zero =>
    intro depth i a producerId u log hfuel
    exact absurd hfuel (Nat.not_lt_zero _)
  | succ fuel ih =>
    intro depth i a producerId u log hfuel hreach haccepts hbad
    have hcall := g.processAny_eq haccepts depth producerId u log
    have hnullopt := PureBlock.not_nullopt haccepts
    have hsink : (g.block i).isSink = false := by
      cases hsink : (g.block i).isSink with
      | false => rfl
      | true =>
        -- nothing comes out of a sink
        refine absurd (throughout_iff.2 ⟨?_, ?_⟩) hbad
        · rintro ⟨hp, -⟩
          cases hb : g.block i with
          | source => rw [hb] at hsink; cases hsink
          | «module» => rw [hb] at hsink; cases hsink
          | sink inp note =>
            rw [hb] at hp
            cases hp
        · intro x hx
          rw [g.carried_of_isSink hsink] at hx
          cases hx
    have hsinkObj : ((g.heap : Heap ι β σ ε) i).obj.isSink = false := by
      rw [heap_apply, PureBlock.isSink_obj, hsink]
    obtain ⟨t, v, houtput, htype⟩ := PureBlock.output_eq_some haccepts hsink
    obtain ⟨j, hj⟩ := g.consumed i hreach hsink
    rw [execute_succ, if_neg (by rw [hsinkObj]; exact Bool.false_ne_true), bind_ok hcall,
      if_pos (by simp [houtput, Any.hasValue, hnullopt])]
    by_cases hbits : (g.block i).HandsBits a
    · obtain ⟨fuel, rfl⟩ : ∃ n, fuel = n + 1 := by
        have hlt := hrank i j hj
        exact ⟨fuel - 1, by omega⟩
      exact g.produce_bits hj hbits fuel (depth + 1) _ _
    · have hdelivers : ∃ t, (g.block i).delivers = some t := by
        obtain ⟨t, ht, -⟩ := g.typed _ hj hsink
        exact ⟨t, ht⟩
      have hbelow : ∃ x ∈ g.carried (i, a),
          ¬ Throughout g.carried (fun x => ¬ (g.block x.1).HandsBits x.2) x := by
        by_contra hnone
        push Not at hnone
        exact hbad (throughout_iff.2 ⟨hbits, hnone⟩)
      rw [g.produce_eq haccepts hsink (g.consumers_ne_nil ⟨j, hj⟩) hdelivers hbits]
      refine g.runAlong_error (g.carried (i, a)) ?_ ?_ hbelow _ _
      · rintro ⟨k, b⟩ hmem hgood u log
        have hedge : (i, k) ∈ g.connects := g.edge_of_mem_carried hmem
        have hlt := hrank i k hedge
        obtain ⟨u', hrun⟩ := g.execute_eq hrank fuel (depth + 1) k b 0 u log (by omega)
          (hreach.tail hedge) (g.accepts_of_mem_carried haccepts hmem) hgood
        exact ⟨u', _, hrun⟩
      · rintro ⟨k, b⟩ hmem hgood u log
        have hedge : (i, k) ∈ g.connects := g.edge_of_mem_carried hmem
        have hlt := hrank i k hedge
        exact ih (depth + 1) k b 0 u log (by omega) (hreach.tail hedge)
          (g.accepts_of_mem_carried haccepts hmem) hgood

/-- One `execute` of the source activates the ends of the admissible paths exactly when none of the
blocks they lead to hands on bits. -/
theorem visitsPaths_iff (g : BranchingGraph ι β σ) (u : σ) (log : List (Event ι β ε))
    (fuel : Nat) (hfuel : g.connects.length < fuel) : g.VisitsPaths fuel u log ↔ g.NoBits := by
  obtain ⟨rank, hbound, hrank⟩ := g.exists_rank
  have hroot : rank g.root < fuel := lt_of_le_of_lt (hbound _) hfuel
  have haccepts : (g.block g.root).Accepts .empty := by
    rw [PureBlock.Accepts, g.root_source]
    simp [Any.type]
  constructor
  · -- a bit that is handed on ends the run with an exception
    rintro ⟨paths, events, u', hrun, -⟩
    by_contra hbits
    obtain ⟨e, s', herror⟩ :=
      g.execute_error hrank fuel 0 g.root .empty 0 u log hroot .refl haccepts hbits
    rw [hrun] at herror
    cases herror
  intro hbits
  obtain ⟨u', hrun⟩ := g.execute_eq hrank fuel 0 g.root .empty 0 u log hroot .refl haccepts hbits
  -- each visit is the end of a path, with the value that this path carries
  have hentries : ((visits g.carried fuel 0 (g.root, .empty)).map (g.event (ε := ε))).map some =
      (depthFirst g.carried fuel (g.root, .empty)).map fun p =>
        (g.valueAlong p).map fun x => g.event (p.length, x) := by
    have hends := depthFirst_follow g.carried fuel 0 (g.root, .empty)
    have hmapped := congrArg (List.map (Option.map (g.event (ε := ε)))) hends
    rw [List.map_map, List.map_map] at hmapped
    rw [List.map_map]
    refine Eq.trans hmapped.symm (List.map_congr_left ?_)
    intro p _
    simp only [Function.comp_apply, Option.map_map, Nat.zero_add, valueAlong]
    rfl
  refine ⟨_, _, u', hrun, depthFirst_sorted g.carried fuel (g.root, .empty), ?_, hentries, ?_⟩
  · exact mem_depthFirst_iff (fun x => rank x.1)
      (fun x y hy => hrank x.1 y.1 (g.edge_of_mem_carried hy)) hroot
  · intro i
    rw [← List.countP_eq_length_filter, ← List.countP_eq_length_filter,
      countP_of_map_some hentries]
    refine List.countP_congr ?_
    intro p _
    cases hp : g.valueAlong p with
    | none => simp
    | some x => simp [event]

end BranchingGraph

/-! ## A diamond -/

/-- A round-robin source of two numbers with three edges, the first and the third to one module; the
modules lead to one sink, the first of them by two edges. The sink collects what it receives. -/
def forkedGraph : BranchingGraph Nat (fun _ : Unit => Nat) (List Nat) where
  block
    | 0 => .source (.vector (.base ())) .RoundRobin [5, 7]
    | 1 => .module (.base ()) (.base ()) .Fanout (10 * ·)
    | 2 => .module (.base ()) (.base ()) .Fanout (100 * ·)
    | _ => .sink (.base ()) fun v u => u ++ [v]
  root := 0
  connects := [(0, 1), (0, 2), (0, 1), (1, 3), (1, 3), (2, 3)]
  root_source := rfl
  typed := by
    intro e he _
    simp only [List.mem_cons, List.not_mem_nil, or_false] at he
    rcases he with rfl | rfl | rfl | rfl | rfl | rfl <;> exact ⟨_, rfl, rfl⟩
  consumed := by
    intro i _ hi
    match i with
    | 0 => exact ⟨1, by decide⟩
    | 1 => exact ⟨3, by decide⟩
    | 2 => exact ⟨3, by decide⟩
    | _ + 3 => cases hi
  acyclic := by
    refine acyclic_of_rank (fun i => 3 - i) ?_
    intro i j hedge
    simp only [List.mem_cons, Prod.mk.injEq, List.not_mem_nil, or_false] at hedge
    omega

example : depthFirst forkedGraph.carried 7 (0, .empty) = [[], [0], [0, 0], [0, 1], [1], [1, 0]] :=
  rfl

theorem forkedGraph_visitsPaths_iff :
    forkedGraph.VisitsPaths 7 [] ([] : List (Event Nat (fun _ : Unit => Nat) Unit)) ↔
      forkedGraph.NoBits :=
  forkedGraph.visitsPaths_iff [] [] 7 (by decide)

/-- A round-robin source of one bit in front of a sink of `bool`. -/
def bitGraph : BranchingGraph Bool (fun _ : Unit => Nat) (List Bool) where
  block i :=
    if i then .sink .bool fun v u => u ++ [v] else .source (.vector .bool) .RoundRobin [true]
  root := false
  connects := [(false, true)]
  root_source := rfl
  typed := by
    intro e he _
    obtain rfl := List.mem_singleton.1 he
    exact ⟨.bool, rfl, rfl⟩
  consumed := by
    intro i _ hi
    cases i with
    | false => exact ⟨true, List.mem_singleton_self _⟩
    | true => cases hi
  acyclic := by
    refine acyclic_of_rank (fun i => if i then 0 else 1) ?_
    intro i j hedge
    obtain ⟨rfl, rfl⟩ := Prod.mk.inj (List.mem_singleton.1 hedge)
    decide

/-- The path to the sink is admissible, and its end is never activated. -/
theorem bitGraph_not_visitsPaths :
    bitGraph.valueAlong [0] = some (true, .val .bool true) ∧
      stopOf (execute 2 0 false .empty 0
          (⟨bitGraph.heap, [], []⟩ : Machine Bool (fun _ : Unit => Nat) (List Bool) Unit)) =
        some (.threw (.badAnyCastWithInfo .bitReference (.ty .bool))) ∧
      ¬ bitGraph.VisitsPaths 2 [] ([] : List (Event Bool (fun _ : Unit => Nat) Unit)) := by
  have hstop : stopOf (execute 2 0 false .empty 0
      (⟨bitGraph.heap, [], []⟩ : Machine Bool (fun _ : Unit => Nat) (List Bool) Unit)) =
        some (.threw (.badAnyCastWithInfo .bitReference (.ty .bool))) := rfl
  refine ⟨rfl, hstop, ?_⟩
  rintro ⟨paths, events, u', hrun, -⟩
  have hrun' : execute 2 0 false .empty 0 (⟨bitGraph.heap, [], []⟩ :
      Machine Bool (fun _ : Unit => Nat) (List Bool) Unit) = _ := hrun
  rw [hrun'] at hstop
  cases hstop

end PipelineTools.FlowEngine
