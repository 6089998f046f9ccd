import PipelineTools.Library.Implementations
import Mathlib.Data.List.Induction
import Mathlib.Logic.Relation

/-!
# Clients of an object

A `Client` is a program of several workers that share an object: a worker either takes a turn of its
own or has a call of the object to make. `Client.step` runs it on an implementation of the object,
access by access, and `Client.AtomicStep` on the object itself, whose operations take effect at
once.

The client does not notice the difference: what it does on an implementation it also does on the
object (`atomicRun_of_implements`). The effects of operations may have to be moved to earlier points
of their calls, but the turns and the calls stay where they are.
-/

set_option autoImplicit false

namespace PipelineTools.Library

universe u v w x y z u' v'

variable {T : Type u} {Op : Type v} {Res : Type w} {S : Type x} {A : Type y} {W : Type u'}
  {G : Type v'}

/-- A program with the states `G`. `pending` is the call that a worker makes next or has made, with
the thread it makes it as, and `resume` what the worker does with the result. -/
structure Client (T : Type u) (Op : Type v) (Res : Type w) (W : Type u') (G : Type v') where
  turn : G → W → Option G
  pending : G → W → Option (T × Op)
  resume : G → W → Res → Option G

/-- What may happen next: a worker takes a turn, calls, makes an access, or returns from the
call. -/
inductive ClientStep (W : Type u') (A : Type y) where
  | turn (worker : W)
  | call (worker : W)
  | access (worker : W) (i : A)
  | ret (worker : W)

namespace Client

/-- One step of a client and an implementation of its object, if it is there. -/
def step (client : Client T Op Res W G) (impl : Implementation T Op Res A) (s : G × impl.State) :
    ClientStep W A → Option (G × impl.State)
  | .turn worker => (client.turn s.1 worker).map fun g => (g, s.2)
  | .call worker => (client.pending s.1 worker).bind fun p =>
      (impl.call s.2 p.1 p.2).map fun c => (s.1, c)
  | .access worker i => (client.pending s.1 worker).bind fun p =>
      (impl.access s.2 p.1 i).map fun c => (s.1, c)
  | .ret worker => (client.pending s.1 worker).bind fun p =>
      (impl.ret s.2 p.1).bind fun r => (client.resume s.1 worker r.1).map fun g => (g, r.2)

/-- The part of the client in an event. -/
inductive Reacts (client : Client T Op Res W G) : Event T Op Res → G → G → Prop
  | call {g : G} {worker : W} {t : T} {op : Op} (h : client.pending g worker = some (t, op)) :
      Reacts client (.call t op) g g
  | ret {g g' : G} {worker : W} {t : T} {op : Op} {result : Res}
      (h : client.pending g worker = some (t, op))
      (hresume : client.resume g worker result = some g') : Reacts client (.ret t result) g g'

/-- A turn of one of the workers. -/
def Turns (client : Client T Op Res W G) (g g' : G) : Prop :=
  ∃ worker, client.turn g worker = some g'

/-- What the client does when it sees the events `history`. -/
inductive Plays (client : Client T Op Res W G) (g₀ : G) : List (Event T Op Res) → G → Prop
  | start : Plays client g₀ [] g₀
  | turn {history : List (Event T Op Res)} {g g' : G} (h : Plays client g₀ history g)
      (hturn : client.Turns g g') : Plays client g₀ history g'
  | event {history : List (Event T Op Res)} {g g' : G} {e : Event T Op Res}
      (h : Plays client g₀ history g) (hreacts : client.Reacts e g g') :
      Plays client g₀ (history ++ [e]) g'

variable {client : Client T Op Res W G} {g₀ g g' : G} {history : List (Event T Op Res)}

theorem Plays.turns_of_nil (h : client.Plays g₀ [] g) :
    Relation.ReflTransGen client.Turns g₀ g := by
  generalize hnil : ([] : List (Event T Op Res)) = history at h
  induction h with
  | start => exact .refl
  | turn _ hturn ih => exact (ih hnil).tail hturn
  | event _ _ _ => cases List.append_ne_nil_of_right_ne_nil _ (List.cons_ne_nil _ _) hnil.symm

/-- Behind the last event there are only turns. -/
theorem Plays.of_concat {e : Event T Op Res} (h : client.Plays g₀ (history ++ [e]) g) :
    ∃ m m', client.Plays g₀ history m ∧ client.Reacts e m m' ∧
      Relation.ReflTransGen client.Turns m' g := by
  generalize hlast : history ++ [e] = whole at h
  induction h with
  | start => cases List.append_ne_nil_of_right_ne_nil _ (List.cons_ne_nil _ _) hlast
  | turn _ hturn ih =>
    obtain ⟨m, m', hplays, hreacts, hturns⟩ := ih hlast
    exact ⟨m, m', hplays, hreacts, hturns.tail hturn⟩
  | event hplays hreacts _ =>
    obtain ⟨rfl, hone⟩ := List.append_inj' hlast rfl
    obtain ⟨rfl, -⟩ := List.cons.inj hone
    exact ⟨_, _, hplays, hreacts, .refl⟩

variable [DecidableEq T]

/-- One step of a client and its object. -/
inductive AtomicStep (client : Client T Op Res W G) (spec : Op → S → Res → S → Prop) :
    G × AtomicObject T Op Res S → G × AtomicObject T Op Res S → Prop
  | turn {g g' : G} {a : AtomicObject T Op Res S} (h : client.Turns g g') :
      AtomicStep client spec (g, a) (g', a)
  | call {g : G} {a : AtomicObject T Op Res S} {worker : W} {t : T} {op : Op}
      (h : client.pending g worker = some (t, op)) (hidle : a.status t = .idle) :
      AtomicStep client spec (g, a) (g, a.set t (.called op))
  | effect {g : G} {a : AtomicObject T Op Res S} {t : T} {op : Op} {result : Res} {s : S}
      (h : a.status t = .called op) (heffect : spec op a.object result s) :
      AtomicStep client spec (g, a) (g, { a with object := s }.set t (.done result))
  | ret {g g' : G} {a : AtomicObject T Op Res S} {worker : W} {t : T} {op : Op} {result : Res}
      (h : client.pending g worker = some (t, op)) (hdone : a.status t = .done result)
      (hresume : client.resume g worker result = some g') :
      AtomicStep client spec (g, a) (g', a.set t .idle)

variable {spec : Op → S → Res → S → Prop} {init : S}

theorem atomicSteps_of_turns (a : AtomicObject T Op Res S)
    (h : Relation.ReflTransGen client.Turns g g') :
    Relation.ReflTransGen (client.AtomicStep spec) (g, a) (g', a) := by
  induction h with
  | refl => exact .refl
  | tail _ hturn ih => exact ih.tail (.turn hturn)

/-- A client plays along with an atomic run that has the events it sees. -/
theorem Plays.atomicSteps {ms : List (Moment T Op Res S)} {a : AtomicObject T Op Res S}
    (hplays : client.Plays g₀ history g) (hrun : AtomicRun (.atOnce spec) (.start init) ms a)
    (hvisible : ms.filterMap Moment.event? = history) :
    Relation.ReflTransGen (client.AtomicStep spec) (g₀, .start init) (g, a) := by
  -- induction from the end: the last moment is an event the client sees, or an effect
  induction ms using List.reverseRecOn generalizing history g a with
  | nil =>
    subst hvisible
    obtain rfl := hrun.det (.nil _)
    exact atomicSteps_of_turns _ hplays.turns_of_nil
  | append_singleton ms m ih =>
    obtain ⟨b, hb, hlast⟩ := hrun.split
    rw [List.filterMap_append] at hvisible
    cases hlast with
    | cons hstep hnil =>
      obtain rfl := hnil.det (.nil _)
      cases hstep with
      | call op hidle =>
        rw [← hvisible] at hplays
        obtain ⟨n, n', hplays', hreacts, hturns⟩ := Plays.of_concat hplays
        cases hreacts with
        | call hpending =>
          have hbefore := ih hplays' hb rfl
          exact (hbefore.tail (.call hpending hidle)).trans (atomicSteps_of_turns _ hturns)
      | effect hcalled heffect =>
        have hsame : ms.filterMap Moment.event? = history := by
          rw [← hvisible]
          exact (List.append_nil _).symm
        exact (ih hplays hb hsame).tail (.effect hcalled heffect)
      | prepare hcalled hprepare => cases hprepare
      | ret hdone =>
        rw [← hvisible] at hplays
        obtain ⟨n, n', hplays', hreacts, hturns⟩ := Plays.of_concat hplays
        cases hreacts with
        | ret hpending hresume =>
          have hbefore := ih hplays' hb rfl
          exact (hbefore.tail (.ret hpending hdone hresume)).trans (atomicSteps_of_turns _ hturns)

/-- A run of the client on an implementation, with the atomic run that explains it. -/
def Explained (client : Client T Op Res W G) {impl : Implementation T Op Res A}
    (spec : Op → S → Res → S → Prop) (related : impl.State → Observed T Op Res S → Prop) (g₀ : G)
    (init : S) (s : G × impl.State) : Prop :=
  ∃ history ms a o, client.Plays g₀ history s.1 ∧ Explains (.atOnce spec) init ms a o ∧
    ms.filterMap Moment.event? = history ∧ related s.2 o

variable {impl : Implementation T Op Res A} {related : impl.State → Observed T Op Res S → Prop}

/-- One case for each kind of step; what the object does is explained by `Explains.step`. -/
theorem explained_step (hmatched : impl.Matched spec related) {s s' : G × impl.State}
    {l : ClientStep W A} (h : client.Explained spec related g₀ init s)
    (hstep : client.step impl s l = some s') : client.Explained spec related g₀ init s' := by
  obtain ⟨history, ms, a, o, hplays, hexplains, hvisible, hrelated⟩ := h
  obtain ⟨g, c⟩ := s
  cases l with
  | turn worker =>
    obtain ⟨g', hturn, rfl⟩ := Option.map_eq_some_iff.1 hstep
    exact ⟨history, ms, a, o, hplays.turn ⟨worker, hturn⟩, hexplains, hvisible, hrelated⟩
  | call worker =>
    obtain ⟨⟨t, op⟩, hpending, hbind⟩ := Option.bind_eq_some_iff.1 hstep
    obtain ⟨c', hcall, rfl⟩ := Option.map_eq_some_iff.1 hbind
    obtain ⟨o', hobserved, hrelated'⟩ := hmatched.call hrelated hcall
    obtain ⟨ns, b, hexplains', hvisible'⟩ := hexplains.step hobserved
    rw [hvisible] at hvisible'
    exact ⟨_, ns, b, o', hplays.event (.call hpending), hexplains', hvisible', hrelated'⟩
  | access worker i =>
    obtain ⟨⟨t, op⟩, hpending, hbind⟩ := Option.bind_eq_some_iff.1 hstep
    obtain ⟨c', haccess, rfl⟩ := Option.map_eq_some_iff.1 hbind
    obtain ⟨o', hobserved, hrelated'⟩ := hmatched.access hrelated haccess
    obtain ⟨ns, b, hexplains', hvisible'⟩ := hexplains.step hobserved
    rw [hvisible, List.append_nil] at hvisible'
    exact ⟨_, ns, b, o', hplays, hexplains', hvisible', hrelated'⟩
  | ret worker =>
    obtain ⟨⟨t, op⟩, hpending, hbind⟩ := Option.bind_eq_some_iff.1 hstep
    obtain ⟨⟨result, c'⟩, hret, hbind'⟩ := Option.bind_eq_some_iff.1 hbind
    obtain ⟨g', hresume, rfl⟩ := Option.map_eq_some_iff.1 hbind'
    obtain ⟨o', hobserved, hrelated'⟩ := hmatched.ret hrelated hret
    obtain ⟨ns, b, hexplains', hvisible'⟩ := hexplains.step hobserved
    rw [hvisible] at hvisible'
    exact ⟨_, ns, b, o', hplays.event (.ret hpending hresume), hexplains', hvisible', hrelated'⟩

/-- What a client does on an implementation it also does on the object. -/
theorem atomicRun_of_implements (himpl : impl.Implements spec init) {ls : List (ClientStep W A)}
    {s : G × impl.State} (hrun : runFrom (client.step impl) (g₀, impl.start) ls = some s) :
    ∃ a, Relation.ReflTransGen (client.AtomicStep spec) (g₀, .start init) (s.1, a) := by
  obtain ⟨related, hstart, hmatched⟩ := himpl
  have hinit : client.Explained spec related g₀ init (g₀, impl.start) :=
    ⟨[], [], .start init, .start init, .start, explains_start init, rfl, hstart⟩
  have hstep : ∀ s l s', client.Explained spec related g₀ init s → client.step impl s l = some s' →
      client.Explained spec related g₀ init s' := fun s l s' => explained_step hmatched
  obtain ⟨history, ms, a, o, hplays, hexplains, hvisible, -⟩ :=
    runFrom_invariant hstep hinit hrun
  exact ⟨a, hplays.atomicSteps hexplains.run hvisible⟩

end Client

end PipelineTools.Library
