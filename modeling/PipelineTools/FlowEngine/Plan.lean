import PipelineTools.FlowEngine.Engine

/-!
# What a linear pipeline means

A `Plan` is a pipeline as its author thinks of it: some sources of one type, modules in a row whose
types fit together, and some sinks. The processes are total state transformers. `Stages.apply` is
the composed function of the modules.

`Plan.turns` runs the plan without any engine: for each source in a list, the value is computed,
taken through the modules, and handed to every sink. Running the whole plan `K` times means running
the list of its sources `K` times over. `Plan.log` is the list of all calls of user functions this
makes, in order.
-/

set_option autoImplicit false

namespace PipelineTools.FlowEngine

variable {ι κ : Type} {β : κ → Type} {σ ε : Type}

/-- Modules in a row, from one type to another. -/
inductive Stages (ι : Type) {κ : Type} (β : κ → Type) (σ : Type) : Ty κ → Ty κ → Type where
  | nil (t : Ty κ) : Stages ι β σ t t
  | cons {r s t : Ty κ} (i : ι) (process : r.Val β → σ → s.Val β × σ) (rest : Stages ι β σ s t) :
      Stages ι β σ r t

namespace Stages

/-- The blocks, first to last. -/
def ids {s t : Ty κ} : Stages ι β σ s t → List ι
  | .nil _ => []
  | .cons i _ rest => i :: rest.ids

/-- The composed function of the modules. -/
def apply {s t : Ty κ} : Stages ι β σ s t → s.Val β → σ → t.Val β × σ
  | .nil _, v, u => (v, u)
  | .cons _ process rest, v, u => rest.apply (process v u).1 (process v u).2

/-- The calls the modules make on the way, the first one at depth `depth`. -/
def calls {s t : Ty κ} : Stages ι β σ s t → Nat → s.Val β → σ → List (Event ι β ε)
  | .nil _, _, _, _ => []
  | .cons (r := r) (s := s) i process rest, depth, v, u =>
      ⟨depth, i, ⟨[.val r v], .value (.val s (process v u).1)⟩⟩ ::
        rest.calls (depth + 1) (process v u).1 (process v u).2

end Stages

/-- Sources, then modules, then sinks. -/
structure Plan (ι : Type) {κ : Type} (β : κ → Type) (σ : Type) where
  {inner outer : Ty κ}
  sources : List (ι × (σ → inner.Val β × σ))
  stages : Stages ι β σ inner outer
  sinks : List (ι × (outer.Val β → σ → σ))

namespace Plan

/-- All blocks, in the order in which they are added. -/
def ids (p : Plan ι β σ) : List ι :=
  p.sources.map Prod.fst ++ p.stages.ids ++ p.sinks.map Prod.fst

/-- The calls of the sinks for one final value. -/
def sinkCalls (p : Plan ι β σ) (w : p.outer.Val β) : List (Event ι β ε) :=
  p.sinks.map fun snk => ⟨p.stages.ids.length + 1, snk.1, ⟨[.val p.outer w], .void⟩⟩

/-- The user state after every sink has received the final value. -/
def deliver (p : Plan ι β σ) (w : p.outer.Val β) (u : σ) : σ :=
  p.sinks.foldl (fun u snk => snk.2 w u) u

/-- One value of one source: the calls of the source and the modules, the final value, and the user
state after the sinks. -/
def turn (ε : Type) (p : Plan ι β σ) (src : ι × (σ → p.inner.Val β × σ)) (u : σ) :
    List (Event ι β ε) × p.outer.Val β × σ :=
  let v := src.2 u
  let w := p.stages.apply v.1 v.2
  (⟨0, src.1, ⟨[], .value (.val p.inner v.1)⟩⟩ :: p.stages.calls 1 v.1 v.2, w.1,
    p.deliver w.1 w.2)

/-- One value of each of the sources listed, one after the other. -/
def turns (ε : Type) (p : Plan ι β σ) :
    List (ι × (σ → p.inner.Val β × σ)) → σ → List (List (Event ι β ε) × p.outer.Val β) × σ
  | [], u => ([], u)
  | src :: srcs, u =>
    let r := p.turn ε src u
    let rest := p.turns ε srcs r.2.2
    ((r.1, r.2.1) :: rest.1, rest.2)

/-- The sources of `K` runs of the plan. -/
def rounds (p : Plan ι β σ) (K : Nat) : List (ι × (σ → p.inner.Val β × σ)) :=
  (List.replicate K p.sources).flatten

/-- The calls of some turns: for each one the source, the modules and the sinks. -/
def log (p : Plan ι β σ) (ts : List (List (Event ι β ε) × p.outer.Val β)) : List (Event ι β ε) :=
  ts.flatMap fun t => t.1 ++ p.sinkCalls t.2

/-- The calls of the sinks in some turns. -/
def sinkLog (p : Plan ι β σ) (ts : List (List (Event ι β ε) × p.outer.Val β)) :
    List (Event ι β ε) :=
  ts.flatMap fun t => p.sinkCalls t.2

theorem turns_append (p : Plan ι β σ) (xs ys : List (ι × (σ → p.inner.Val β × σ))) (u : σ) :
    p.turns ε (xs ++ ys) u =
      ((p.turns ε xs u).1 ++ (p.turns ε ys (p.turns ε xs u).2).1,
        (p.turns ε ys (p.turns ε xs u).2).2) := by
  induction xs generalizing u with
  | nil => rfl
  | cons src xs ih => simp only [List.cons_append, turns, ih]

/-- The calls of a turn before the sinks are calls of the source or of modules. -/
theorem block_of_mem_calls {s t : Ty κ} (stages : Stages ι β σ s t) {depth : Nat} {v : s.Val β}
    {u : σ} {e : Event ι β ε} (he : e ∈ stages.calls depth v u) : e.block ∈ stages.ids := by
  induction stages generalizing depth u with
  | nil => cases he
  | cons i process rest ih =>
    rcases List.mem_cons.1 he with rfl | he
    · exact List.mem_cons_self
    · exact List.mem_cons_of_mem _ (ih he)

variable [DecidableEq ι]

/-- The blocks that are sinks of the plan. -/
def isSinkBlock (p : Plan ι β σ) (i : ι) : Bool := i ∈ p.sinks.map Prod.fst

/-- Of the calls of a turn, those of the sinks are the ones after the final value. -/
theorem filter_sinks_turn (p : Plan ι β σ) (hnodup : p.ids.Nodup)
    {src : ι × (σ → p.inner.Val β × σ)} (hsrc : src ∈ p.sources) (u : σ) :
    ((p.turn ε src u).1 ++ p.sinkCalls (p.turn ε src u).2.1).filter
        (fun e => p.isSinkBlock e.block) = p.sinkCalls (p.turn ε src u).2.1 := by
  have hdisjoint := (List.nodup_append.1 hnodup).2.2
  rw [List.filter_append]
  have hbefore : (p.turn ε src u).1.filter (fun e => p.isSinkBlock e.block) = [] := by
    rw [List.filter_eq_nil_iff]
    intro e he hsink
    have hsink' : e.block ∈ p.sinks.map Prod.fst := by simpa [isSinkBlock] using hsink
    refine hdisjoint e.block ?_ e.block hsink' rfl
    rcases List.mem_cons.1 he with rfl | he
    · exact List.mem_append_left _ (List.mem_map_of_mem hsrc)
    · exact List.mem_append_right _ (block_of_mem_calls p.stages he)
  have hafter : (p.sinkCalls (ε := ε) (p.turn ε src u).2.1).filter
      (fun e => p.isSinkBlock e.block) = p.sinkCalls (p.turn ε src u).2.1 := by
    rw [List.filter_eq_self]
    intro e he
    obtain ⟨snk, hsnk, rfl⟩ := List.mem_map.1 he
    simpa [isSinkBlock] using ⟨snk.2, hsnk⟩
  rw [hbefore, hafter, List.nil_append]

/-- The sink calls of a log are the sink calls of its turns. -/
theorem filter_sinks_log (p : Plan ι β σ) (hnodup : p.ids.Nodup) :
    ∀ (srcs : List (ι × (σ → p.inner.Val β × σ))) (u : σ), (∀ src ∈ srcs, src ∈ p.sources) →
      (p.log (p.turns ε srcs u).1).filter (fun e => p.isSinkBlock e.block) =
        p.sinkLog (p.turns ε srcs u).1 := by
  intro srcs
  induction srcs with
  | nil =>
    intro u _
    rfl
  | cons src srcs ih =>
    intro u h
    obtain ⟨hsrc, hsrcs⟩ := List.forall_mem_cons.1 h
    have hrest := ih (p.turn ε src u).2.2 hsrcs
    simp only [log, sinkLog, turns, List.flatMap_cons] at hrest ⊢
    rw [List.filter_append, hrest, filter_sinks_turn p hnodup hsrc]

end Plan

end PipelineTools.FlowEngine
