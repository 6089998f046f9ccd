import PipelineTools.FlowEngine.Activations
import PipelineTools.Library.Runs
import Mathlib.Logic.Relation

/-!
# Worker threads

The workers of a mission execute their pipelines over and over, each in a thread of its own. A
thread is the stack of the activations it still has to make: one turn takes the first of them, calls
`process_any`, and puts what `produce` hands to the consumers in front of the rest. Threads
interleave between turns, and since a block's `process` pushes to or pops from a queue at most once,
this is the granularity of the queue operations.

`turns_of_execute` connects the turns with the engine: the turns of a thread that is not interrupted
are the run of `execute`. `Threads.step` lets any worker take a turn.
-/

set_option autoImplicit false

namespace PipelineTools.FlowEngine

open PipelineTools.Library

variable {ι κ : Type} {β : κ → Type} {σ ε : Type}

/-- An activation that waits. -/
structure Task (ι : Type) {κ : Type} (β : κ → Type) where
  depth : Nat
  block : ι
  input : Any β
  producerId : Nat

/-- The activations that a row of deliveries asks for. -/
def tasksOf (depth : Nat) (ds : List (ι × Any β × Nat)) : List (Task ι β) :=
  ds.map fun d => ⟨depth, d.1, d.2.1, d.2.2⟩

section Turns

variable [DecidableEq κ]

variable [DecidableEq ι]

/-- One turn: the call that `execute` makes, with what is to be executed next. -/
def activate (t : Task ι β) : Eng ι β σ ε (List (Task ι β)) := fun s =>
  let f := s.heap t.block
  if f.obj.isSink then
    if !t.input.hasValue || t.input.type = .nullopt then .ok [] s
    else
      match processAny t.depth t.block t.input t.producerId s with
      | .ok _ s' => .ok [] s'
      | .error e s' => .error e s'
  else
    match processAny t.depth t.block t.input t.producerId s with
    | .error e s' => .error e s'
    | .ok output s' =>
      if output.hasValue && t.input.type ≠ .nullopt then
        match f.hand output with
        | .ok ds => .ok (tasksOf (t.depth + 1) ds) s'
        | .error e => .error e s'
      else .ok [] s'

/-- A turn of a thread with some tasks on a machine. -/
def ThreadStep (x y : List (Task ι β) × Machine ι β σ ε) : Prop :=
  ∃ t rest ts, x.1 = t :: rest ∧ activate t x.2 = .ok ts y.2 ∧ y.1 = ts ++ rest

/-- Any number of turns. -/
abbrev ThreadSteps : List (Task ι β) × Machine ι β σ ε → List (Task ι β) × Machine ι β σ ε → Prop :=
  Relation.ReflTransGen ThreadStep

/-- The turns of a thread from the stack `ts ++ rest` come to the end that the run `r` comes to:
only `rest` is left, or the call that throws is next. -/
def EndsAs (ts rest : List (Task ι β)) (s : Machine ι β σ ε)
    (r : EStateM.Result (Stop κ ε) (Machine ι β σ ε) Unit) : Prop :=
  match r with
  | .ok _ s' => ThreadSteps (ts ++ rest, s) (rest, s')
  | .error e s' => e = .outOfFuel ∨
      ∃ t rest' s'', ThreadSteps (ts ++ rest, s) (t :: rest', s'') ∧ activate t s'' = .error e s'

/-- Turns may come first. -/
theorem EndsAs.prepend {ts ts' rest : List (Task ι β)} {s s' : Machine ι β σ ε}
    {r : EStateM.Result (Stop κ ε) (Machine ι β σ ε) Unit}
    (hturns : ThreadSteps (ts ++ rest, s) (ts' ++ rest, s')) (hends : EndsAs ts' rest s' r) :
    EndsAs ts rest s r := by
  cases r with
  | ok u s'' => exact hturns.trans hends
  | error e s'' =>
    rcases hends with hfuel | ⟨t, rest', m, hmore, hthrow⟩
    · exact .inl hfuel
    · exact .inr ⟨t, rest', m, hturns.trans hmore, hthrow⟩

theorem EndsAs.of_turn {t : Task ι β} {ts rest : List (Task ι β)} {s s' : Machine ι β σ ε}
    {r : EStateM.Result (Stop κ ε) (Machine ι β σ ε) Unit} (h : activate t s = .ok ts s')
    (hends : EndsAs ts rest s' r) : EndsAs [t] rest s r := by
  have hturn : ThreadStep (t :: rest, s) (ts ++ rest, s') := ⟨t, rest, ts, rfl, h, rfl⟩
  exact hends.prepend (.single hturn)

theorem EndsAs.of_last {t : Task ι β} {rest : List (Task ι β)} {s s' : Machine ι β σ ε}
    (h : activate t s = .ok [] s') : EndsAs [t] rest s (.ok () s') :=
  .of_turn h .refl

theorem EndsAs.of_error {t : Task ι β} {rest : List (Task ι β)} {s s' : Machine ι β σ ε}
    {e : Stop κ ε} (h : activate t s = .error e s') : EndsAs [t] rest s (.error e s') :=
  .inr ⟨t, rest, s, .refl, h⟩

/-- The rows of tasks: those of the first delivery, then the others. -/
theorem endsAs_along {exec : ι → Any β → Nat → Eng ι β σ ε Unit} {depth : Nat}
    (hexec : ∀ i a producerId s rest,
      EndsAs [⟨depth, i, a, producerId⟩] rest s (exec i a producerId s))
    (ds : List (ι × Any β × Nat)) (s : Machine ι β σ ε) (rest : List (Task ι β)) :
    EndsAs (tasksOf depth ds) rest s (runAlong exec ds s) := by
  -- induction on the deliveries: the first one runs with the others below it on the stack
  induction ds generalizing s with
  | nil => exact .refl
  | cons d ds ih =>
    have hhead := hexec d.1 d.2.1 d.2.2 s (tasksOf depth ds ++ rest)
    rw [runAlong, List.forM_cons]
    cases hr : exec d.1 d.2.1 d.2.2 s with
    | error e s' =>
      rw [bind_error hr]
      rw [hr] at hhead
      exact hhead
    | ok u s' =>
      rw [bind_ok hr]
      rw [hr] at hhead
      -- the turns of the first delivery come before those of the others
      exact (ih s').prepend hhead

/-- The turns of a thread that is not interrupted are the run of `execute`. -/
theorem turns_of_execute : ∀ (fuel depth : Nat) (i : ι) (a : Any β) (producerId : Nat)
    (s : Machine ι β σ ε) (rest : List (Task ι β)),
    EndsAs [⟨depth, i, a, producerId⟩] rest s (execute fuel depth i a producerId s)
  | 0, _, _, _, _, _, _ => .inl rfl
  | fuel + 1, depth, i, a, producerId, s, rest => by
    rw [execute_succ]
    by_cases hsink : (s.heap i).obj.isSink = true
    · rw [if_pos hsink]
      by_cases hskip : (!a.hasValue || decide (a.type = .nullopt)) = true
      · rw [if_pos hskip]
        refine EndsAs.of_last ?_
        simp only [activate, if_pos hsink, if_pos hskip]
      · rw [if_neg hskip]
        cases hr : processAny depth i a producerId s with
        | ok b s' =>
          rw [bind_ok hr]
          refine EndsAs.of_last ?_
          simp only [activate, if_pos hsink, if_neg hskip, hr]
        | error e s' =>
          rw [bind_error hr]
          refine EndsAs.of_error ?_
          simp only [activate, if_pos hsink, if_neg hskip, hr]
    · rw [if_neg hsink]
      cases hr : processAny depth i a producerId s with
      | error e s' =>
        rw [bind_error hr]
        refine EndsAs.of_error ?_
        simp only [activate, if_neg hsink, hr]
      | ok output s' =>
        rw [bind_ok hr]
        by_cases hgo : (output.hasValue && decide (a.type ≠ .nullopt)) = true
        -- the consumers come on the stack, unless the producer throws first
        · rw [if_pos hgo]
          rcases produce_eq_hand (execute fuel (depth + 1)) (s.heap i) output s' with
            ⟨ds, hhand, hrun⟩ | ⟨e, hhand, hrun⟩
          · rw [hrun]
            have hturn : activate ⟨depth, i, a, producerId⟩ s =
                .ok (tasksOf (depth + 1) ds) s' := by
              simp only [activate, if_neg hsink, hr, if_pos hgo, hhand]
            exact .of_turn hturn (endsAs_along (turns_of_execute fuel (depth + 1)) ds s' rest)
          · rw [hrun]
            refine EndsAs.of_error ?_
            simp only [activate, if_neg hsink, hr, if_pos hgo, hhand]
        · rw [if_neg hgo]
          refine EndsAs.of_last ?_
          simp only [activate, if_neg hsink, hr, if_neg hgo]

end Turns

/-! ## Many workers -/

/-- The blocks that the threads share, and the stack of each thread. -/
structure Threads (ι : Type) {κ : Type} (β : κ → Type) (σ ε : Type) where
  machine : Machine ι β σ ε
  tasks : Nat → List (Task ι β)

namespace Threads

variable [DecidableEq ι] [DecidableEq κ]

/-- No execution has begun. -/
def init (machine : Machine ι β σ ε) : Threads ι β σ ε := ⟨machine, fun _ => []⟩

/-- Worker `w` begins the next execution of its pipeline or takes a turn in the one it is at. There
is no step when a call throws. -/
def step (pipelines : List (Pipeline ι)) (s : Threads ι β σ ε) (w : Nat) :
    Option (Threads ι β σ ε) :=
  match pipelines[w]? with
  | none => none
  | some p =>
    match s.tasks w with
    | [] => some { s with tasks := Function.update s.tasks w (tasksOf 0 p.starts) }
    | t :: rest =>
      match activate t s.machine with
      | .ok ts m => some ⟨m, Function.update s.tasks w (ts ++ rest)⟩
      | .error _ _ => none

/-- What a step does. -/
theorem step_cases {pipelines : List (Pipeline ι)} {s s' : Threads ι β σ ε} {w : Nat}
    (h : s.step pipelines w = some s') :
    ∃ p, pipelines[w]? = some p ∧
      ((s.tasks w = [] ∧
          s' = { s with tasks := Function.update s.tasks w (tasksOf 0 p.starts) }) ∨
        ∃ t rest ts m, s.tasks w = t :: rest ∧ activate t s.machine = .ok ts m ∧
          s' = ⟨m, Function.update s.tasks w (ts ++ rest)⟩) := by
  cases hp : pipelines[w]? with
  | none =>
    simp only [step, hp] at h
    cases h
  | some p =>
    refine ⟨p, rfl, ?_⟩
    cases htasks : s.tasks w with
    | nil =>
      simp only [step, hp, htasks, Option.some.injEq] at h
      exact .inl ⟨rfl, h.symm⟩
    | cons t rest =>
      cases hact : activate t s.machine with
      | error e m =>
        simp only [step, hp, htasks, hact] at h
        cases h
      | ok ts m =>
        simp only [step, hp, htasks, hact, Option.some.injEq] at h
        exact .inr ⟨t, rest, ts, m, rfl, hact, h.symm⟩

/-- The turns of one worker alone. -/
theorem runFrom_of_turns {pipelines : List (Pipeline ι)} {p : Pipeline ι} {w : Nat}
    (hp : pipelines[w]? = some p) {x y : List (Task ι β) × Machine ι β σ ε}
    (h : ThreadSteps x y) (tasks : Nat → List (Task ι β)) :
    ∃ n, runFrom (step pipelines) ⟨x.2, Function.update tasks w x.1⟩ (List.replicate n w) =
      some ⟨y.2, Function.update tasks w y.1⟩ := by
  induction h using Relation.ReflTransGen.head_induction_on with
  | refl => exact ⟨0, rfl⟩
  | @head x m hturn _ ih =>
    obtain ⟨t, rest, ts, hx, hactivate, hm⟩ := hturn
    obtain ⟨n, hn⟩ := ih
    refine ⟨n + 1, runFrom_cons.2 ⟨⟨m.2, Function.update tasks w m.1⟩, ?_, hn⟩⟩
    simp only [step, hp, Function.update_self, hx, hactivate, hm, Function.update_idem]

/-- A worker that nobody interrupts executes its pipeline. -/
theorem runFrom_execute {pipelines : List (Pipeline ι)} {p : Pipeline ι} {w fuel : Nat}
    (hp : pipelines[w]? = some p) {s : Threads ι β σ ε} (hidle : s.tasks w = [])
    {m : Machine ι β σ ε} (h : p.execute fuel s.machine = .ok () m) :
    ∃ n, runFrom (step pipelines) s (List.replicate n w) = some { s with machine := m } := by
  have hends := endsAs_along (turns_of_execute fuel 0) p.starts s.machine []
  rw [← execute_eq_runAlong, h] at hends
  obtain ⟨n, hn⟩ := runFrom_of_turns hp hends s.tasks
  refine ⟨n + 1, runFrom_cons.2
    ⟨{ s with tasks := Function.update s.tasks w (tasksOf 0 p.starts) }, ?_, ?_⟩⟩
  · simp only [step, hp, hidle]
  · rw [List.append_nil] at hn
    rw [hn]
    have hsame : Function.update s.tasks w [] = s.tasks := by
      rw [← hidle, Function.update_eq_self]
    rw [hsame]

end Threads

end PipelineTools.FlowEngine
