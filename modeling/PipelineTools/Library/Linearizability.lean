import PipelineTools.Library.Runs
import Mathlib.Logic.Function.Basic

/-!
# Linearizable objects

Several threads call the operations of an object. In an atomic run every call has three events: the
call, its effect on the object, and its return. A history of calls and returns is linearizable if
it is what can be seen of an atomic run.

Some operations show in the object before they take effect. For these a `Spec` has a second
relation: a pending call may prepare the object for its effect, and the other threads see that it
did. Where there is only one relation nothing is prepared (`Spec.atOnce`).

A failing operation is often decided late: the thread has to look at the object several times, and
only the last look tells that the object was in a certain state at an earlier one. `Observed` keeps
the states that the object has passed through since each pending call, so that an operation that
leaves the object as it is may take effect in any of them. `Explains.late` moves every such effect
back to its place, and `linearizable_of_simulation` is the rule for an implementation: a relation to
`Observed` that every step keeps.
-/

set_option autoImplicit false

namespace PipelineTools.Library

universe u v w x

variable {T : Type u} {Op : Type v} {Res : Type w} {S : Type x}

/-- What the users of an object see of a call. -/
inductive Event (T : Type u) (Op : Type v) (Res : Type w) where
  | call (thread : T) (op : Op)
  | ret (thread : T) (result : Res)

/-- The thread of an event. -/
def Event.thread : Event T Op Res → T
  | .call thread _ => thread
  | .ret thread _ => thread

/-- What happens at an object: an event, or the operation of a thread turns the object into `s`, by
its effect or before it. -/
inductive Moment (T : Type u) (Op : Type v) (Res : Type w) (S : Type x) where
  | event (e : Event T Op Res)
  | prepare (thread : T) (s : S)
  | effect (thread : T) (result : Res) (s : S)

/-- The thread to which something happens. -/
def Moment.thread : Moment T Op Res S → T
  | .event e => e.thread
  | .prepare thread _ => thread
  | .effect thread _ _ => thread

/-- What can be seen. -/
def Moment.event? : Moment T Op Res S → Option (Event T Op Res)
  | .event e => some e
  | .prepare _ _ => none
  | .effect _ _ _ => none

/-- What the operations of an object do: `effect op s result s'` says that `op` may turn `s` into
`s'` and return `result`, `prepare op s s'` that a call of `op` may turn `s` into `s'` before
that. -/
structure Spec (Op : Type v) (Res : Type w) (S : Type x) where
  effect : Op → S → Res → S → Prop
  prepare : Op → S → S → Prop

/-- Operations that prepare nothing. -/
abbrev Spec.atOnce (effect : Op → S → Res → S → Prop) : Spec Op Res S where
  effect := effect
  prepare _ _ _ := False

/-- Where the call of a thread stands. -/
inductive CallStatus (Op : Type v) (Res : Type w) where
  | idle
  | called (op : Op)
  | done (result : Res)

/-- An object with the calls of its users. -/
@[ext] structure AtomicObject (T : Type u) (Op : Type v) (Res : Type w) (S : Type x) where
  object : S
  status : T → CallStatus Op Res

variable [DecidableEq T]

namespace AtomicObject

/-- No thread has called. -/
def start (init : S) : AtomicObject T Op Res S := ⟨init, fun _ => .idle⟩

/-- The call of `thread` gets a new status. -/
def set (a : AtomicObject T Op Res S) (thread : T) (status : CallStatus Op Res) :
    AtomicObject T Op Res S :=
  { a with status := Function.update a.status thread status }

@[simp] theorem object_set (a : AtomicObject T Op Res S) (t : T) (st : CallStatus Op Res) :
    (a.set t st).object = a.object := rfl

@[simp] theorem status_set_self (a : AtomicObject T Op Res S) (t : T) (st : CallStatus Op Res) :
    (a.set t st).status t = st := Function.update_self _ _ _

theorem status_set_of_ne (a : AtomicObject T Op Res S) {t t' : T} (h : t' ≠ t)
    (st : CallStatus Op Res) : (a.set t st).status t' = a.status t' :=
  Function.update_of_ne h _ _

theorem set_comm (a : AtomicObject T Op Res S) {t t' : T} (h : t ≠ t')
    (st st' : CallStatus Op Res) : (a.set t st).set t' st' = (a.set t' st').set t st := by
  apply AtomicObject.ext
  · rfl
  · exact Function.update_comm h _ _ _

end AtomicObject

section Atomic

variable (spec : Spec Op Res S)

/-- One moment of an atomic run. -/
inductive AtomicStep : AtomicObject T Op Res S → Moment T Op Res S → AtomicObject T Op Res S → Prop
  | call {a : AtomicObject T Op Res S} {t : T} (op : Op) (h : a.status t = .idle) :
      AtomicStep a (.event (.call t op)) (a.set t (.called op))
  | effect {a : AtomicObject T Op Res S} {t : T} {op : Op} {result : Res} {s : S}
      (h : a.status t = .called op) (heffect : spec.effect op a.object result s) :
      AtomicStep a (.effect t result s) ({ a with object := s }.set t (.done result))
  | prepare {a : AtomicObject T Op Res S} {t : T} {op : Op} {s : S}
      (h : a.status t = .called op) (hprepare : spec.prepare op a.object s) :
      AtomicStep a (.prepare t s) { a with object := s }
  | ret {a : AtomicObject T Op Res S} {t : T} {result : Res} (h : a.status t = .done result) :
      AtomicStep a (.event (.ret t result)) (a.set t .idle)

/-- A run in which every operation takes effect at once. -/
inductive AtomicRun :
    AtomicObject T Op Res S → List (Moment T Op Res S) → AtomicObject T Op Res S → Prop
  | nil (a : AtomicObject T Op Res S) : AtomicRun a [] a
  | cons {a b c : AtomicObject T Op Res S} {m : Moment T Op Res S} {ms : List (Moment T Op Res S)}
      (hstep : AtomicStep spec a m b) (hrun : AtomicRun b ms c) : AtomicRun a (m :: ms) c

/-- The calls and returns `history` are those of an atomic run. -/
def Spec.Linearizable (init : S) (history : List (Event T Op Res)) : Prop :=
  ∃ ms a, AtomicRun spec (.start init) ms a ∧ ms.filterMap Moment.event? = history

/-- The same for operations that prepare nothing. -/
def Linearizable (effect : Op → S → Res → S → Prop) (init : S) (history : List (Event T Op Res)) :
    Prop :=
  (Spec.atOnce effect).Linearizable init history

variable {spec} {a b c : AtomicObject T Op Res S} {ms ns : List (Moment T Op Res S)} {t : T}

theorem AtomicStep.det {m : Moment T Op Res S} (h : AtomicStep spec a m b)
    (h' : AtomicStep spec a m c) : b = c := by
  cases h with
  | call op h => cases h' with | call op h' => rfl
  | effect h heffect => cases h' with | effect h' heffect' => rfl
  | prepare h hprepare => cases h' with | prepare h' hprepare' => rfl
  | ret h => cases h' with | ret h' => rfl

theorem AtomicRun.det (h : AtomicRun spec a ms b) (h' : AtomicRun spec a ms c) : b = c := by
  induction h with
  | nil a => cases h' with | nil a => rfl
  | cons hstep hrun ih =>
    cases h' with
    | cons hstep' hrun' =>
      obtain rfl := hstep.det hstep'
      exact ih hrun'

theorem AtomicRun.append (h : AtomicRun spec a ms b) (h' : AtomicRun spec b ns c) :
    AtomicRun spec a (ms ++ ns) c := by
  induction h with
  | nil a => exact h'
  | cons hstep hrun ih => exact .cons hstep (ih h')

theorem AtomicRun.concat {m : Moment T Op Res S} (h : AtomicRun spec a ms b)
    (hstep : AtomicStep spec b m c) : AtomicRun spec a (ms ++ [m]) c :=
  h.append (.cons hstep (.nil c))

theorem AtomicRun.split (h : AtomicRun spec a (ms ++ ns) c) :
    ∃ b, AtomicRun spec a ms b ∧ AtomicRun spec b ns c := by
  induction ms generalizing a with
  | nil => exact ⟨a, .nil a, h⟩
  | cons m ms ih =>
    cases h with
    | cons hstep hrun =>
      obtain ⟨b, hb, hc⟩ := ih hrun
      exact ⟨b, .cons hstep hb, hc⟩

/-- A moment of another thread leaves the call of `t` where it is. -/
theorem AtomicStep.status_eq {m : Moment T Op Res S} (h : AtomicStep spec a m b)
    (hm : m.thread ≠ t) : b.status t = a.status t := by
  cases h with
  | call op h => exact AtomicObject.status_set_of_ne _ hm.symm _
  | effect h heffect => exact AtomicObject.status_set_of_ne _ hm.symm _
  | prepare h hprepare => rfl
  | ret h => exact AtomicObject.status_set_of_ne _ hm.symm _

theorem AtomicRun.status_eq (h : AtomicRun spec a ms b) (hms : ∀ m ∈ ms, m.thread ≠ t) :
    b.status t = a.status t := by
  induction h with
  | nil a => rfl
  | cons hstep hrun ih =>
    rw [List.forall_mem_cons] at hms
    rw [ih hms.2, hstep.status_eq hms.1]

/-- The steps of the other threads do not depend on the call of `t`. -/
theorem AtomicStep.set {m : Moment T Op Res S} (h : AtomicStep spec a m b) (hm : m.thread ≠ t)
    (st : CallStatus Op Res) : AtomicStep spec (a.set t st) m (b.set t st) := by
  cases h with
  | @call u op h =>
    have hne : u ≠ t := hm
    rw [AtomicObject.set_comm _ hne]
    exact .call op (by rw [AtomicObject.status_set_of_ne _ hne]; exact h)
  | @effect u op result s h heffect =>
    have hne : u ≠ t := hm
    rw [AtomicObject.set_comm _ hne]
    exact .effect (a := a.set t st) (by rw [AtomicObject.status_set_of_ne _ hne]; exact h) heffect
  | @prepare u op s h hprepare =>
    have hne : u ≠ t := hm
    exact .prepare (a := a.set t st) (by rw [AtomicObject.status_set_of_ne _ hne]; exact h) hprepare
  | @ret u result h =>
    have hne : u ≠ t := hm
    rw [AtomicObject.set_comm _ hne]
    exact .ret (by rw [AtomicObject.status_set_of_ne _ hne]; exact h)

theorem AtomicRun.set (h : AtomicRun spec a ms b) (hms : ∀ m ∈ ms, m.thread ≠ t)
    (st : CallStatus Op Res) : AtomicRun spec (a.set t st) ms (b.set t st) := by
  induction h with
  | nil a => exact .nil _
  | cons hstep hrun ih =>
    rw [List.forall_mem_cons] at hms
    exact .cons (hstep.set hms.1 st) (ih hms.2)

/-- An effect that leaves the object as it is may be put at an earlier point of the call. -/
theorem AtomicRun.insert_effect {op : Op} {result : Res} (h : AtomicRun spec a ms b)
    (h' : AtomicRun spec b ns c) (hns : ∀ m ∈ ns, m.thread ≠ t) (hcalled : b.status t = .called op)
    (heffect : spec.effect op b.object result b.object) :
    AtomicRun spec a (ms ++ .effect t result b.object :: ns) (c.set t (.done result)) :=
  h.append (.cons (.effect hcalled heffect) (h'.set hns _))

end Atomic

/-! ## Refinement of the sequential specification -/

section Refine

universe y

variable {S' : Type y} {spec : Spec Op Res S} {spec' : Spec Op Res S'} {rel : S → S' → Prop}
  {allowed : Op → Prop}

variable {a b : AtomicObject T Op Res S} {m : Moment T Op Res S} {ms : List (Moment T Op Res S)}
  {t : S'}

/-- Only what is called can be pending. -/
theorem AtomicStep.called_allowed (h : AtomicStep spec a m b)
    (ha : ∀ u op, a.status u = .called op → allowed op)
    (hm : ∀ u op, m = .event (.call u op) → allowed op) {u : T} {op : Op}
    (hb : b.status u = .called op) : allowed op := by
  by_cases hu : u = m.thread
  · subst hu
    cases h with
    | @call v op' hidle =>
      have hself : (a.set v (.called op')).status v = .called op' :=
        AtomicObject.status_set_self a v _
      cases hself.symm.trans hb
      exact hm v op rfl
    | effect hcalled heffect => cases (AtomicObject.status_set_self _ _ _).symm.trans hb
    | prepare hcalled hprepare => exact ha _ op hb
    | ret hdone => cases (AtomicObject.status_set_self _ _ _).symm.trans hb
  · rw [h.status_eq (Ne.symm hu)] at hb
    exact ha u op hb

/-- A step of one object is a step of the other one with the same call or result, or none if
something is prepared. -/
theorem AtomicStep.refine
    (hspec : ∀ op s result s' t, allowed op → rel s t → spec.effect op s result s' →
      ∃ t', spec'.effect op t result t' ∧ rel s' t')
    (hprepare : ∀ op s s' t, allowed op → rel s t → spec.prepare op s s' → rel s' t)
    (h : AtomicStep spec a m b) (hrel : rel a.object t)
    (ha : ∀ u op, a.status u = .called op → allowed op) :
    ∃ ns t', AtomicRun spec' ⟨t, a.status⟩ ns ⟨t', b.status⟩ ∧ rel b.object t' ∧
      ns.filterMap Moment.event? = m.event?.toList := by
  cases h with
  | call op hidle => exact ⟨_, t, .cons (.call op hidle) (.nil _), hrel, rfl⟩
  | @effect u op result s hcalled heffect =>
    obtain ⟨t', heffect', hrel'⟩ := hspec op _ result s t (ha u op hcalled) hrel heffect
    exact ⟨[.effect u result t'], t', .cons (.effect hcalled heffect') (.nil _), hrel', rfl⟩
  | prepare hcalled hprepared =>
    exact ⟨[], t, .nil _, hprepare _ _ _ t (ha _ _ hcalled) hrel hprepared, rfl⟩
  | ret hdone => exact ⟨_, t, .cons (.ret hdone) (.nil _), hrel, rfl⟩

theorem AtomicRun.refine
    (hspec : ∀ op s result s' t, allowed op → rel s t → spec.effect op s result s' →
      ∃ t', spec'.effect op t result t' ∧ rel s' t')
    (hprepare : ∀ op s s' t, allowed op → rel s t → spec.prepare op s s' → rel s' t)
    (hrun : AtomicRun spec a ms b) (hrel : rel a.object t)
    (ha : ∀ u op, a.status u = .called op → allowed op)
    (hcalls : ∀ u op, .event (.call u op) ∈ ms → allowed op) :
    ∃ ns c, AtomicRun spec' ⟨t, a.status⟩ ns c ∧
      ns.filterMap Moment.event? = ms.filterMap Moment.event? := by
  induction hrun generalizing t with
  | nil a => exact ⟨[], _, .nil _, rfl⟩
  | @cons a b c m ms hstep hrun ih =>
    obtain ⟨ns, t', hrun', hrel', hevent⟩ := hstep.refine hspec hprepare hrel ha
    have hm : ∀ u op, m = Moment.event (.call u op) → allowed op :=
      fun u op heq => hcalls u op (heq ▸ List.mem_cons_self)
    obtain ⟨ks, d, hrest, hvisible⟩ := ih hrel' (fun u op => hstep.called_allowed ha hm)
      fun u op hmem => hcalls u op (List.mem_cons_of_mem _ hmem)
    refine ⟨ns ++ ks, d, hrun'.append hrest, ?_⟩
    rw [List.filterMap_append, hevent, hvisible, List.filterMap_cons]
    cases m.event? <;> rfl

/-- A history of one object is one of the other if only allowed operations are called. -/
theorem Spec.Linearizable.refine {init : S} {init' : S'} {history : List (Event T Op Res)}
    (h : spec.Linearizable init history)
    (hspec : ∀ op s result s' t, allowed op → rel s t → spec.effect op s result s' →
      ∃ t', spec'.effect op t result t' ∧ rel s' t')
    (hprepare : ∀ op s s' t, allowed op → rel s t → spec.prepare op s s' → rel s' t)
    (hinit : rel init init') (hcalls : ∀ u op, .call u op ∈ history → allowed op) :
    spec'.Linearizable init' history := by
  obtain ⟨ms, a, hrun, rfl⟩ := h
  obtain ⟨ns, c, hrun', hvisible⟩ := hrun.refine hspec hprepare hinit
    (fun u op hcalled => by cases hcalled)
    (fun u op hmem => hcalls u op (List.mem_filterMap.2 ⟨_, hmem, rfl⟩))
  exact ⟨ns, c, hrun', hvisible⟩

theorem Linearizable.refine {effect : Op → S → Res → S → Prop} {effect' : Op → S' → Res → S' → Prop}
    {init : S} {init' : S'} {history : List (Event T Op Res)}
    (h : Linearizable effect init history)
    (hspec : ∀ op s result s' t, allowed op → rel s t → effect op s result s' →
      ∃ t', effect' op t result t' ∧ rel s' t')
    (hinit : rel init init') (hcalls : ∀ u op, .call u op ∈ history → allowed op) :
    Linearizable effect' init' history :=
  Spec.Linearizable.refine h hspec (fun _ _ _ _ _ _ hprepared => hprepared.elim) hinit hcalls

end Refine

/-! ## Effects at an earlier point of the call -/

/-- Where the call of a thread stands, with the states of the object since it was made. -/
inductive Pending (Op : Type v) (Res : Type w) (S : Type x) where
  | idle
  | called (op : Op) (past : List S)
  | done (result : Res)

/-- The object has a new state. -/
def Pending.pass (s : S) : Pending Op Res S → Pending Op Res S
  | .called op past => .called op (s :: past)
  | p => p

/-- An object with the calls of its users and what they could have seen. -/
structure Observed (T : Type u) (Op : Type v) (Res : Type w) (S : Type x) where
  object : S
  status : T → Pending Op Res S

namespace Observed

/-- No thread has called. -/
def start (init : S) : Observed T Op Res S := ⟨init, fun _ => .idle⟩

/-- The call of `thread` gets a new status. -/
def set (o : Observed T Op Res S) (thread : T) (status : Pending Op Res S) : Observed T Op Res S :=
  { o with status := Function.update o.status thread status }

/-- `thread` turns the object into `s`, and its call gets a new status. -/
def change (o : Observed T Op Res S) (thread : T) (status : Pending Op Res S) (s : S) :
    Observed T Op Res S :=
  ⟨s, Function.update (fun t => (o.status t).pass s) thread status⟩

/-- `thread` turns the object into `s` and has the result of its call. -/
def pass (o : Observed T Op Res S) (thread : T) (result : Res) (s : S) : Observed T Op Res S :=
  o.change thread (.done result) s

/-- `thread` turns the object into `s` before its operation takes effect. -/
def prepare (o : Observed T Op Res S) (thread : T) (op : Op) (s : S) : Observed T Op Res S :=
  o.change thread (.called op [s]) s

@[simp] theorem object_set (o : Observed T Op Res S) (t : T) (st : Pending Op Res S) :
    (o.set t st).object = o.object := rfl

@[simp] theorem status_set_self (o : Observed T Op Res S) (t : T) (st : Pending Op Res S) :
    (o.set t st).status t = st := Function.update_self _ _ _

theorem status_set_of_ne (o : Observed T Op Res S) {t t' : T} (h : t' ≠ t)
    (st : Pending Op Res S) : (o.set t st).status t' = o.status t' :=
  Function.update_of_ne h _ _

@[simp] theorem object_change (o : Observed T Op Res S) (t : T) (st : Pending Op Res S) (s : S) :
    (o.change t st s).object = s := rfl

@[simp] theorem status_change_self (o : Observed T Op Res S) (t : T) (st : Pending Op Res S)
    (s : S) : (o.change t st s).status t = st := by
  show Function.update (fun t => (o.status t).pass s) t st t = _
  rw [Function.update_self]

theorem status_change_of_ne (o : Observed T Op Res S) {t t' : T} (h : t' ≠ t)
    (st : Pending Op Res S) (s : S) : (o.change t st s).status t' = (o.status t').pass s := by
  show Function.update (fun t => (o.status t).pass s) t st t' = _
  rw [Function.update_of_ne h]

@[simp] theorem object_pass (o : Observed T Op Res S) (t : T) (result : Res) (s : S) :
    (o.pass t result s).object = s := rfl

@[simp] theorem status_pass_self (o : Observed T Op Res S) (t : T) (result : Res) (s : S) :
    (o.pass t result s).status t = .done result := o.status_change_self t _ s

theorem status_pass_of_ne (o : Observed T Op Res S) {t t' : T} (h : t' ≠ t) (result : Res) (s : S) :
    (o.pass t result s).status t' = (o.status t').pass s := o.status_change_of_ne h _ s

end Observed

section

variable (spec : Spec Op Res S)

/-- A step of the thread `t`, with the events that can be seen of it. -/
inductive ObservedStep (t : T) :
    Observed T Op Res S → List (Event T Op Res) → Observed T Op Res S → Prop
  | stay (o : Observed T Op Res S) : ObservedStep t o [] o
  | call {o : Observed T Op Res S} (op : Op) (h : o.status t = .idle) :
      ObservedStep t o [.call t op] (o.set t (.called op [o.object]))
  | effect {o : Observed T Op Res S} {op : Op} {past : List S} {result : Res} {s : S}
      (h : o.status t = .called op past) (heffect : spec.effect op o.object result s) :
      ObservedStep t o [] (o.pass t result s)
  | prepare {o : Observed T Op Res S} {op : Op} {past : List S} {s : S}
      (h : o.status t = .called op past) (hprepare : spec.prepare op o.object s) :
      ObservedStep t o [] (o.prepare t op s)
  | late {o : Observed T Op Res S} {op : Op} {past : List S} {result : Res} {s : S}
      (h : o.status t = .called op past) (hs : s ∈ past) (heffect : spec.effect op s result s) :
      ObservedStep t o [] (o.set t (.done result))
  | ret {o : Observed T Op Res S} {result : Res} (h : o.status t = .done result) :
      ObservedStep t o [.ret t result] (o.set t .idle)

/-- Since the last moment of `t` the object was once in the state `s`. -/
def SeenSince (init : S) (ms : List (Moment T Op Res S)) (t : T) (s : S) : Prop :=
  ∃ ns ks a, ms = ns ++ ks ∧ AtomicRun spec (.start init) ns a ∧ a.object = s ∧
    ∀ m ∈ ks, m.thread ≠ t

/-- A pending call in an atomic run whose object has been in all the states of `past` since. -/
inductive Agrees (init : S) (ms : List (Moment T Op Res S)) (t : T) :
    Pending Op Res S → CallStatus Op Res → Prop
  | idle : Agrees init ms t .idle .idle
  | called (op : Op) {past : List S} (h : ∀ s ∈ past, SeenSince spec init ms t s) :
      Agrees init ms t (.called op past) (.called op)
  | done (result : Res) : Agrees init ms t (.done result) (.done result)

/-- The atomic run `ms` explains the state `o`. -/
structure Explains (init : S) (ms : List (Moment T Op Res S)) (a : AtomicObject T Op Res S)
    (o : Observed T Op Res S) : Prop where
  run : AtomicRun spec (.start init) ms a
  object : a.object = o.object
  agrees : ∀ t, Agrees spec init ms t (o.status t) (a.status t)

variable {spec} {init : S} {ms : List (Moment T Op Res S)} {t : T} {s : S}

theorem SeenSince.concat (h : SeenSince spec init ms t s) {m : Moment T Op Res S}
    (hm : m.thread ≠ t) : SeenSince spec init (ms ++ [m]) t s := by
  obtain ⟨ns, ks, a, rfl, hrun, hs, hks⟩ := h
  refine ⟨ns, ks ++ [m], a, List.append_assoc _ _ _, hrun, hs, ?_⟩
  intro m' hm'
  rcases List.mem_append.1 hm' with hmem | hmem
  · exact hks m' hmem
  · obtain rfl := List.mem_singleton.1 hmem
    exact hm

theorem AtomicRun.seenSince {a : AtomicObject T Op Res S} (hrun : AtomicRun spec (.start init) ms a)
    (t : T) : SeenSince spec init ms t a.object :=
  ⟨ms, [], a, (List.append_nil _).symm, hrun, rfl, by simp⟩

/-- An inserted effect without a change of the object hides nothing from the other threads. -/
theorem SeenSince.insert_effect {ns ks : List (Moment T Op Res S)} {u : T} {op : Op} {result : Res}
    {b : AtomicObject T Op Res S} (h : SeenSince spec init (ns ++ ks) t s)
    (hns : AtomicRun spec (.start init) ns b) (hks : ∀ m ∈ ks, m.thread ≠ u)
    (hcalled : b.status u = .called op) (heffect : spec.effect op b.object result b.object)
    (hne : u ≠ t) :
    SeenSince spec init (ns ++ .effect u result b.object :: ks) t s := by
  obtain ⟨ns', ks', a, heq, hrun, hs, hno⟩ := h
  rcases List.append_eq_append_iff.1 heq with ⟨cs, rfl, rfl⟩ | ⟨cs, rfl, rfl⟩
  · -- `t` saw `s` after the inserted effect
    obtain ⟨b', hb', hc'⟩ := hrun.split
    obtain rfl := hb'.det hns
    have hcs : ∀ m ∈ cs, m.thread ≠ u := fun m hm => hks m (List.mem_append_left _ hm)
    refine ⟨ns ++ .effect u result b'.object :: cs, ks', a.set u (.done result), by simp,
      hns.insert_effect hc' hcs hcalled heffect, hs, hno⟩
  · refine ⟨ns', cs ++ .effect u result b.object :: ks, a, List.append_assoc _ _ _, hrun, hs, ?_⟩
    intro m hm
    rcases List.mem_append.1 hm with hmem | hmem
    · exact hno m (List.mem_append_left _ hmem)
    · rcases List.mem_cons.1 hmem with rfl | hmem
      · exact hne
      · exact hno m (List.mem_append_right _ hmem)

theorem Agrees.mono {ns : List (Moment T Op Res S)} {p : Pending Op Res S} {st : CallStatus Op Res}
    (h : Agrees spec init ms t p st)
    (hseen : ∀ s, SeenSince spec init ms t s → SeenSince spec init ns t s) :
    Agrees spec init ns t p st := by
  cases h with
  | idle => exact .idle
  | called op h => exact .called op fun s hs => hseen s (h s hs)
  | done result => exact .done result

/-- The current state may be added to what has been seen. -/
theorem Agrees.pass {p : Pending Op Res S} {st : CallStatus Op Res}
    (h : Agrees spec init ms t p st) (hseen : SeenSince spec init ms t s) :
    Agrees spec init ms t (p.pass s) st := by
  cases h with
  | idle => exact .idle
  | called op h => exact .called op (List.forall_mem_cons.2 ⟨hseen, h⟩)
  | done result => exact .done result

theorem Agrees.eq_idle {st : CallStatus Op Res} (h : Agrees spec init ms t .idle st) :
    st = .idle := by
  cases h
  rfl

theorem Agrees.eq_done {result : Res} {st : CallStatus Op Res}
    (h : Agrees spec init ms t (.done result) st) : st = .done result := by
  cases h
  rfl

theorem Agrees.eq_called {op : Op} {past : List S} {st : CallStatus Op Res}
    (h : Agrees spec init ms t (.called op past) st) :
    st = .called op ∧ ∀ s ∈ past, SeenSince spec init ms t s := by
  cases h with
  | called op h => exact ⟨rfl, h⟩

variable {a : AtomicObject T Op Res S} {o o' : Observed T Op Res S}

theorem explains_start (init : S) :
    Explains spec init [] (.start init : AtomicObject T Op Res S) (.start init) :=
  ⟨.nil _, rfl, fun _ => .idle⟩

/-- The other threads agree after a moment of `t` that leaves the object as it is. -/
theorem Explains.agrees_set (h : Explains spec init ms a o) {ns : List (Moment T Op Res S)}
    {st : CallStatus Op Res} {p : Pending Op Res S}
    (hseen : ∀ u, t ≠ u → ∀ s, SeenSince spec init ms u s → SeenSince spec init ns u s)
    (hself : Agrees spec init ns t p st) (u : T) :
    Agrees spec init ns u ((o.set t p).status u) ((a.set t st).status u) := by
  by_cases hu : u = t
  · subst hu
    rw [Observed.status_set_self, AtomicObject.status_set_self]
    exact hself
  · rw [Observed.status_set_of_ne _ hu, AtomicObject.status_set_of_ne _ hu]
    exact (h.agrees u).mono (hseen u (Ne.symm hu))

theorem Explains.call (h : Explains spec init ms a o) (op : Op) (hidle : o.status t = .idle) :
    Explains spec init (ms ++ [.event (.call t op)]) (a.set t (.called op))
      (o.set t (.called op [o.object])) := by
  have ha : a.status t = .idle := by
    have hagrees := h.agrees t
    rw [hidle] at hagrees
    exact hagrees.eq_idle
  have hrun := h.run.concat (.call op ha)
  refine ⟨hrun, h.object, h.agrees_set (fun u hu s hs => hs.concat hu) (.called op ?_)⟩
  intro s hs
  obtain rfl := List.mem_singleton.1 hs
  rw [← h.object]
  exact hrun.seenSince t

/-- After a moment of `t` the other threads have seen one state more. -/
theorem Explains.change (h : Explains spec init ms a o) {m : Moment T Op Res S}
    {st : CallStatus Op Res} {p : Pending Op Res S} (hm : m.thread = t)
    (hrun : AtomicRun spec (.start init) (ms ++ [m]) ({ a with object := s }.set t st))
    (hself : Agrees spec init (ms ++ [m]) t p st) :
    Explains spec init (ms ++ [m]) ({ a with object := s }.set t st) (o.change t p s) := by
  refine ⟨hrun, rfl, ?_⟩
  intro u
  by_cases hu : u = t
  · subst hu
    rw [Observed.status_change_self, AtomicObject.status_set_self]
    exact hself
  · rw [Observed.status_change_of_ne _ hu, AtomicObject.status_set_of_ne _ hu]
    have hne : m.thread ≠ u := by
      rw [hm]
      exact Ne.symm hu
    have hagrees := (h.agrees u).mono fun s' hs' => hs'.concat hne
    exact hagrees.pass (hrun.seenSince u)

theorem Explains.effect (h : Explains spec init ms a o) {op : Op} {past : List S} {result : Res}
    (hcalled : o.status t = .called op past) (heffect : spec.effect op o.object result s) :
    Explains spec init (ms ++ [.effect t result s]) (({ a with object := s }).set t (.done result))
      (o.pass t result s) := by
  have ha : a.status t = .called op := by
    have hagrees := h.agrees t
    rw [hcalled] at hagrees
    exact hagrees.eq_called.1
  rw [← h.object] at heffect
  exact h.change rfl (h.run.concat (.effect ha heffect)) (.done result)

/-- What `t` has seen before is of no use any more. -/
theorem Explains.prepare (h : Explains spec init ms a o) {op : Op} {past : List S}
    (hcalled : o.status t = .called op past) (hprepare : spec.prepare op o.object s) :
    Explains spec init (ms ++ [.prepare t s]) (({ a with object := s }).set t (.called op))
      (o.prepare t op s) := by
  have ha : a.status t = .called op := by
    have hagrees := h.agrees t
    rw [hcalled] at hagrees
    exact hagrees.eq_called.1
  have hsame : ({ a with object := s } : AtomicObject T Op Res S).set t (.called op) =
      { a with object := s } := by
    rw [← ha]
    exact congrArg (AtomicObject.mk s) (Function.update_eq_self t a.status)
  rw [← h.object] at hprepare
  have hrun := h.run.concat (.prepare ha hprepare)
  rw [← hsame] at hrun
  refine h.change rfl hrun (.called op ?_)
  intro s' hs'
  obtain rfl := List.mem_singleton.1 hs'
  exact hrun.seenSince t

/-- The effect goes back to the point where the state was seen. -/
theorem Explains.late (h : Explains spec init ms a o) {op : Op} {past : List S} {result : Res}
    (hcalled : o.status t = .called op past) (hs : s ∈ past) (heffect : spec.effect op s result s) :
    ∃ ns, Explains spec init ns (a.set t (.done result)) (o.set t (.done result)) ∧
      ns.filterMap Moment.event? = ms.filterMap Moment.event? := by
  have hagrees := h.agrees t
  rw [hcalled] at hagrees
  obtain ⟨ha, hpast⟩ := hagrees.eq_called
  obtain ⟨ns, ks, b, rfl, hns, rfl, hks⟩ := hpast s hs
  obtain ⟨b', hb', hrest⟩ := h.run.split
  obtain rfl := hb'.det hns
  have hb : b'.status t = .called op := by rw [← hrest.status_eq hks, ha]
  refine ⟨ns ++ .effect t result b'.object :: ks, ⟨?_, h.object, ?_⟩, ?_⟩
  · exact hns.insert_effect hrest hks hb heffect
  · apply h.agrees_set
    · intro u hu s' hs'
      exact hs'.insert_effect hns hks hb heffect hu
    · exact .done result
  · rw [List.filterMap_append, List.filterMap_append]
    rfl

theorem Explains.ret (h : Explains spec init ms a o) {result : Res}
    (hdone : o.status t = .done result) :
    Explains spec init (ms ++ [.event (.ret t result)]) (a.set t .idle) (o.set t .idle) := by
  have ha : a.status t = .done result := by
    have hagrees := h.agrees t
    rw [hdone] at hagrees
    exact hagrees.eq_done
  exact ⟨h.run.concat (.ret ha), h.object, h.agrees_set (fun u hu s hs => hs.concat hu) .idle⟩

/-- One step of the observed object can be explained if what was before it can. -/
theorem Explains.step {es : List (Event T Op Res)} (h : Explains spec init ms a o)
    (hstep : ObservedStep spec t o es o') :
    ∃ ns b, Explains spec init ns b o' ∧
      ns.filterMap Moment.event? = ms.filterMap Moment.event? ++ es := by
  cases hstep with
  | stay => exact ⟨ms, a, h, (List.append_nil _).symm⟩
  | call op hidle => exact ⟨_, _, h.call op hidle, List.filterMap_append⟩
  | effect hcalled heffect => exact ⟨_, _, h.effect hcalled heffect, List.filterMap_append⟩
  | prepare hcalled hprepare => exact ⟨_, _, h.prepare hcalled hprepare, List.filterMap_append⟩
  | late hcalled hs heffect =>
    obtain ⟨ns, hexplains, hvisible⟩ := h.late hcalled hs heffect
    exact ⟨ns, _, hexplains, by rw [hvisible, List.append_nil]⟩
  | ret hdone => exact ⟨_, _, h.ret hdone, List.filterMap_append⟩

end

/-! ## The rule for implementations -/

section Simulation

universe y z

variable {C : Type y} {L : Type z} {step : C → L → Option C} {spec : Spec Op Res S}
  {events : C → L → List (Event T Op Res)} {related : C → Observed T Op Res S → Prop}
  {thread : L → T} {allowed : L → Prop} {init : S}

/-- The history of a run next to its states. -/
def withHistory (step : C → L → Option C) (events : C → L → List (Event T Op Res)) :
    C × List (Event T Op Res) → L → Option (C × List (Event T Op Res)) :=
  recorded step fun c h l => h ++ events c l

omit [DecidableEq T] in
/-- What holds of the events of every step holds of the whole history. -/
theorem forall_events_of_run {Q : Event T Op Res → Prop}
    (hstep : ∀ c l, allowed l → ∀ e ∈ events c l, Q e) {c c' : C} {h h' : List (Event T Op Res)}
    {ls : List L} (hls : ∀ l ∈ ls, allowed l)
    (hrun : runFrom (withHistory step events) (c, h) ls = some (c', h')) (hQ : ∀ e ∈ h, Q e) :
    ∀ e ∈ h', Q e := by
  induction ls generalizing c h with
  | nil =>
    obtain ⟨-, rfl⟩ := Prod.mk.inj (Option.some.inj hrun)
    exact hQ
  | cons l ls ih =>
    rw [List.forall_mem_cons] at hls
    obtain ⟨⟨m, hm⟩, hfirst, hrest⟩ := runFrom_cons.1 hrun
    obtain ⟨-, rfl⟩ := recorded_eq_some_iff.1 hfirst
    refine ih hls.2 hrest ?_
    intro e he
    rcases List.mem_append.1 he with he | he
    · exact hQ e he
    · exact hstep c l hls.1 e he

theorem explains_of_run
    (hstep : ∀ c l c' o, related c o → allowed l → step c l = some c' →
      ∃ o', ObservedStep spec (thread l) o (events c l) o' ∧ related c' o')
    {c c' : C} {h h' : List (Event T Op Res)} {ls : List L} (hls : ∀ l ∈ ls, allowed l)
    (hrun : runFrom (withHistory step events) (c, h) ls = some (c', h'))
    {o : Observed T Op Res S} {ms : List (Moment T Op Res S)} {a : AtomicObject T Op Res S}
    (hrelated : related c o) (hexplains : Explains spec init ms a o)
    (hvisible : ms.filterMap Moment.event? = h) :
    ∃ ns b o', Explains spec init ns b o' ∧ ns.filterMap Moment.event? = h' ∧ related c' o' := by
  induction ls generalizing c h o ms a with
  | nil =>
    obtain ⟨rfl, rfl⟩ := Prod.mk.inj (Option.some.inj hrun)
    exact ⟨ms, a, o, hexplains, hvisible, hrelated⟩
  | cons l ls ih =>
    obtain ⟨⟨m, hm⟩, hfirst, hrest⟩ := runFrom_cons.1 hrun
    obtain ⟨hc, rfl⟩ := recorded_eq_some_iff.1 hfirst
    rw [List.forall_mem_cons] at hls
    obtain ⟨o', hobserved, hrelated'⟩ := hstep c l m o hrelated hls.1 hc
    obtain ⟨ns, b, hexplains', hvisible'⟩ := hexplains.step hobserved
    rw [hvisible] at hvisible'
    exact ih hls.2 hrest hrelated' hexplains' hvisible'

/-- If every step of the implementation is matched by a step of the observed object with the same
events, the history of every run is linearizable. -/
theorem linearizable_of_simulation {c c' : C} (hinit : related c (.start init))
    (hstep : ∀ c l c' o, related c o → allowed l → step c l = some c' →
      ∃ o', ObservedStep spec (thread l) o (events c l) o' ∧ related c' o')
    {h : List (Event T Op Res)} {ls : List L} (hls : ∀ l ∈ ls, allowed l)
    (hrun : runFrom (withHistory step events) (c, []) ls = some (c', h)) :
    spec.Linearizable init h := by
  obtain ⟨ms, a, o, hexplains, hvisible, -⟩ :=
    explains_of_run hstep hls hrun hinit (explains_start init) rfl
  exact ⟨ms, a, hexplains.run, hvisible⟩

end Simulation

end PipelineTools.Library
