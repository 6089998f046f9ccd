import PipelineTools.Library.Linearizability

/-!
# Implementations of objects

An `Implementation` is the code of an object: threads call operations, make one access after the
other, and return. It implements a specification if all it does is matched by the object whose
operations take effect at once (`Implements`).

The code may have been matched with another view of the object (`implements_ofSteps`). A `family`
of objects is one object again, whose operations are those of its members, and it implements what
its members implement (`implements_family`).
-/

set_option autoImplicit false

namespace PipelineTools.Library

universe u v w x y z u' v' w' z'

/-- The code of an object. `A` is what an access depends on besides the object. -/
structure Implementation (T : Type u) (Op : Type v) (Res : Type w) (A : Type x) where
  State : Type y
  start : State
  call : State → T → Op → Option State
  access : State → T → A → Option State
  ret : State → T → Option (Res × State)

section

variable {T : Type u} {Op : Type v} {Res : Type w} {A : Type x} {S : Type z} [DecidableEq T]

/-- Whatever the code does, `related` holds again after a step of the object whose operations take
effect at once. -/
structure Implementation.Matched (impl : Implementation T Op Res A)
    (spec : Op → S → Res → S → Prop) (related : impl.State → Observed T Op Res S → Prop) :
    Prop where
  call : ∀ {c c' : impl.State} {o : Observed T Op Res S} {t : T} {op : Op}, related c o →
    impl.call c t op = some c' →
    ∃ o', ObservedStep (.atOnce spec) t o [.call t op] o' ∧ related c' o'
  access : ∀ {c c' : impl.State} {o : Observed T Op Res S} {t : T} {i : A}, related c o →
    impl.access c t i = some c' → ∃ o', ObservedStep (.atOnce spec) t o [] o' ∧ related c' o'
  ret : ∀ {c c' : impl.State} {o : Observed T Op Res S} {t : T} {result : Res}, related c o →
    impl.ret c t = some (result, c') →
    ∃ o', ObservedStep (.atOnce spec) t o [.ret t result] o' ∧ related c' o'

/-- The code implements the object. -/
def Implementation.Implements (impl : Implementation T Op Res A) (spec : Op → S → Res → S → Prop)
    (init : S) : Prop :=
  ∃ related, related impl.start (.start init) ∧ impl.Matched spec related

end

/-! ## Another view of an object -/

section View

variable {T : Type u} {Op : Type v} {Op' : Type v'} {Res : Type w} {Res' : Type w'} {S : Type z}
  {S' : Type z'}

/-- A pending call has seen the object as it is now. -/
def Pending.Knows (s : S) : Pending Op Res S → Prop
  | .called _ past => s ∈ past
  | _ => True

theorem Pending.knows_pass (p : Pending Op Res S) (s : S) : (p.pass s).Knows s := by
  cases p with
  | called op past => exact List.mem_cons_self
  | _ => trivial

/-- Two views of a pending call. What one has seen of the object, the other one has seen as well. -/
inductive Pending.Corresponds (ops : Op → Op' → Prop) (results : Res → Res' → Prop)
    (states : S → S' → Prop) : Pending Op Res S → Pending Op' Res' S' → Prop
  | idle : Corresponds ops results states .idle .idle
  | called {op : Op} {op' : Op'} {past : List S} {past' : List S'} (h : ops op op')
      (hpast : ∀ s ∈ past, ∃ s' ∈ past', states s s') :
      Corresponds ops results states (.called op past) (.called op' past')
  | done {result : Res} {result' : Res'} (h : results result result') :
      Corresponds ops results states (.done result) (.done result')

variable {ops : Op → Op' → Prop} {results : Res → Res' → Prop} {states : S → S' → Prop}

namespace Pending.Corresponds

variable {p : Pending Op Res S} {p' : Pending Op' Res' S'}

/-- Both see another state. -/
theorem pass (h : p.Corresponds ops results states p') {s : S} {s' : S'} (hs : states s s') :
    (p.pass s).Corresponds ops results states (p'.pass s') := by
  cases h with
  | idle => exact .idle
  | called hop hpast =>
    apply Corresponds.called hop
    rw [List.forall_mem_cons]
    refine ⟨⟨s', List.mem_cons_self, hs⟩, ?_⟩
    intro m hm
    obtain ⟨m', hm', hstates⟩ := hpast m hm
    exact ⟨m', List.mem_cons_of_mem _ hm', hstates⟩
  | done hresult => exact .done hresult

/-- Only one of them does. -/
theorem pass_right (h : p.Corresponds ops results states p') (s' : S') :
    p.Corresponds ops results states (p'.pass s') := by
  cases h with
  | idle => exact .idle
  | called hop hpast =>
    apply Corresponds.called hop
    intro m hm
    obtain ⟨m', hm', hstates⟩ := hpast m hm
    exact ⟨m', List.mem_cons_of_mem _ hm', hstates⟩
  | done hresult => exact .done hresult

/-- Only the first one does; the second one knows its state. -/
theorem pass_left (h : p.Corresponds ops results states p') {s : S} {s' : S'} (hs : states s s')
    (hknows : p'.Knows s') : (p.pass s).Corresponds ops results states p' := by
  cases h with
  | idle => exact .idle
  | called hop hpast =>
    apply Corresponds.called hop
    rw [List.forall_mem_cons]
    exact ⟨⟨s', hknows, hs⟩, hpast⟩
  | done hresult => exact .done hresult

theorem of_idle (h : p.Corresponds ops results states p') (hp : p = .idle) : p' = .idle := by
  subst hp
  cases h
  rfl

theorem of_called (h : p.Corresponds ops results states p') {op : Op} {past : List S}
    (hp : p = .called op past) : ∃ op' past', p' = .called op' past' ∧ ops op op' ∧
      ∀ s ∈ past, ∃ s' ∈ past', states s s' := by
  subst hp
  cases h with
  | called hop hpast => exact ⟨_, _, rfl, hop, hpast⟩

theorem of_done (h : p.Corresponds ops results states p') {result : Res} (hp : p = .done result) :
    ∃ result', p' = .done result' ∧ results result result' := by
  subst hp
  cases h with
  | done hresult => exact ⟨_, rfl, hresult⟩

end Pending.Corresponds

/-- Two views of an object with its pending calls. -/
structure Observed.Corresponds (ops : Op → Op' → Prop) (results : Res → Res' → Prop)
    (states : S → S' → Prop) (o : Observed T Op Res S) (o' : Observed T Op' Res' S') : Prop where
  object : states o.object o'.object
  status : ∀ t, (o.status t).Corresponds ops results states (o'.status t)
  knows : ∀ t, (o'.status t).Knows o'.object

variable [DecidableEq T] {spec : Spec Op Res S} {spec' : Spec Op' Res' S'}
  {o o₁ : Observed T Op Res S} {o' : Observed T Op' Res' S'} {t : T}

theorem Observed.Corresponds.set (h : o.Corresponds ops results states o') (t : T)
    {p : Pending Op Res S} {p' : Pending Op' Res' S'} (hp : p.Corresponds ops results states p')
    (hknows : p'.Knows o'.object) : (o.set t p).Corresponds ops results states (o'.set t p') := by
  refine ⟨h.object, ?_, ?_⟩
  · intro u
    by_cases hu : u = t
    · subst hu
      rw [Observed.status_set_self, Observed.status_set_self]
      exact hp
    · rw [Observed.status_set_of_ne _ hu, Observed.status_set_of_ne _ hu]
      exact h.status u
  · intro u
    by_cases hu : u = t
    · subst hu
      rw [Observed.status_set_self]
      exact hknows
    · rw [Observed.status_set_of_ne _ hu]
      exact h.knows u

theorem Observed.Corresponds.pass (h : o.Corresponds ops results states o') (t : T) {result : Res}
    {result' : Res'} (hresult : results result result') {s : S} {s' : S'} (hs : states s s') :
    (o.pass t result s).Corresponds ops results states (o'.pass t result' s') := by
  refine ⟨hs, ?_, ?_⟩
  · intro u
    by_cases hu : u = t
    · subst hu
      rw [Observed.status_pass_self, Observed.status_pass_self]
      exact .done hresult
    · rw [Observed.status_pass_of_ne _ hu, Observed.status_pass_of_ne _ hu]
      exact (h.status u).pass hs
  · intro u
    by_cases hu : u = t
    · subst hu
      rw [Observed.status_pass_self]
      trivial
    · rw [Observed.status_pass_of_ne _ hu]
      exact Pending.knows_pass _ s'

/-- Where one thread prepares the object in the first view, nothing happens in the second one. -/
theorem Observed.Corresponds.prepare (h : o.Corresponds ops results states o') {op : Op}
    {past : List S} (hcalled : o.status t = .called op past) {s : S} (hs : states s o'.object) :
    (o.prepare t op s).Corresponds ops results states o' := by
  refine ⟨hs, ?_, h.knows⟩
  intro u
  by_cases hu : u = t
  · subst hu
    obtain ⟨op', past', hcalled', hop, -⟩ := (h.status u).of_called hcalled
    have hnow : o'.object ∈ past' := by
      have hknows := h.knows u
      rw [hcalled'] at hknows
      exact hknows
    have hself : (o.prepare u op s).status u = .called op [s] := o.status_change_self u _ s
    rw [hself, hcalled']
    apply Pending.Corresponds.called hop
    intro m hm
    obtain rfl := List.mem_singleton.1 hm
    exact ⟨o'.object, hnow, hs⟩
  · have hother : (o.prepare t op s).status u = (o.status u).pass s := o.status_change_of_ne hu _ s
    rw [hother]
    exact (h.status u).pass_left hs (h.knows u)

theorem corresponds_call (h : o.Corresponds ops results states o') {op : Op} {op' : Op'}
    (hop : ops op op') (hstep : ObservedStep spec t o [.call t op] o₁) :
    ∃ o₁', ObservedStep spec' t o' [.call t op'] o₁' ∧ o₁.Corresponds ops results states o₁' := by
  cases hstep with
  | call op hidle =>
    refine ⟨_, .call op' ((h.status t).of_idle hidle),
      h.set t (.called hop ?_) (List.mem_singleton_self _)⟩
    intro s hs
    obtain rfl := List.mem_singleton.1 hs
    exact ⟨o'.object, List.mem_singleton_self _, h.object⟩

theorem corresponds_ret (h : o.Corresponds ops results states o') {result : Res}
    (hstep : ObservedStep spec t o [.ret t result] o₁) :
    ∃ result' o₁', results result result' ∧ ObservedStep spec' t o' [.ret t result'] o₁' ∧
      o₁.Corresponds ops results states o₁' := by
  cases hstep with
  | ret hdone =>
    obtain ⟨result', hdone', hresult⟩ := (h.status t).of_done hdone
    exact ⟨result', _, hresult, .ret hdone', h.set t .idle trivial⟩

/-- A step inside a call. The specifications agree, what is prepared cannot be seen in the second
view, and a state has one view only. -/
theorem corresponds_access (spec' : Spec Op' Res' S')
    (hspec : ∀ op op' s result s₁ s', ops op op' → states s s' → spec.effect op s result s₁ →
      ∃ result' s₁', results result result' ∧ spec'.effect op' s' result' s₁' ∧ states s₁ s₁')
    (hprepare : ∀ op op' s s₁ s', ops op op' → states s s' → spec.prepare op s s₁ → states s₁ s')
    (hview : ∀ s s' s'', states s s' → states s s'' → s' = s'')
    (h : o.Corresponds ops results states o') (hstep : ObservedStep spec t o [] o₁) :
    ∃ o₁', ObservedStep spec' t o' [] o₁' ∧ o₁.Corresponds ops results states o₁' := by
  cases hstep with
  | stay => exact ⟨o', .stay o', h⟩
  | effect hcalled heffect =>
    obtain ⟨op', past', hcalled', hop, -⟩ := (h.status t).of_called hcalled
    obtain ⟨result', s₁', hresult, heffect', hs₁⟩ := hspec _ op' _ _ _ _ hop h.object heffect
    exact ⟨_, .effect hcalled' heffect', h.pass t hresult hs₁⟩
  | prepare hcalled hprepared =>
    obtain ⟨op', past', hcalled', hop, -⟩ := (h.status t).of_called hcalled
    have hs₁ := hprepare _ op' _ _ _ hop h.object hprepared
    exact ⟨o', .stay o', h.prepare hcalled hs₁⟩
  | late hcalled hs heffect =>
    obtain ⟨op', past', hcalled', hop, hpast⟩ := (h.status t).of_called hcalled
    obtain ⟨s', hs', hstates⟩ := hpast _ hs
    obtain ⟨result', s₁', hresult, heffect', hs₁⟩ := hspec _ op' _ _ _ _ hop hstates heffect
    obtain rfl := hview _ _ _ hstates hs₁
    exact ⟨_, .late hcalled' hs' heffect', h.set t (.done hresult) trivial⟩

end View

/-! ## Labelled steps -/

section Steps

variable {T : Type u} {Op : Type v} {Op' : Type v'} {Res : Type w} {Res' : Type w'} {S : Type z}
  {S' : Type z'} {A : Type x} {C : Type y} {L : Type u'}

/-- The code of an object whose threads make the labelled steps `step`; `call`, `access` and `ret`
tell which label is next. -/
def Implementation.ofSteps (step : C → L → Option C) (start : C) (call : T → Op' → Option L)
    (access : C → T → A → Option L) (ret : C → T → Option (Res' × L)) :
    Implementation T Op' Res' A where
  State := C
  start := start
  call c t op := (call t op).bind (step c)
  access c t i := (access c t i).bind (step c)
  ret c t := (ret c t).bind fun r => (step c r.2).map fun c => (r.1, c)

variable [DecidableEq T]

/-- Every step whose label is allowed is matched by the object. -/
def StepsMatched (step : C → L → Option C) (events : C → L → List (Event T Op Res))
    (thread : L → T) (allowed : L → Prop) (spec : Spec Op Res S)
    (related : C → Observed T Op Res S → Prop) : Prop :=
  ∀ c l c' o, related c o → allowed l → step c l = some c' →
    ∃ o', ObservedStep spec (thread l) o (events c l) o' ∧ related c' o'

variable {step : C → L → Option C} {start : C} {call : T → Op' → Option L}
  {access : C → T → A → Option L} {ret : C → T → Option (Res' × L)}
  {events : C → L → List (Event T Op Res)} {thread : L → T} {allowed : L → Prop}
  {spec : Spec Op Res S} {related : C → Observed T Op Res S → Prop}
  {spec' : Op' → S' → Res' → S' → Prop} {init : S} {init' : S'}

/-- If every step is matched by an object, the code implements every object that is another view of
that one. -/
theorem implements_ofSteps (hstep : StepsMatched step events thread allowed spec related)
    (ops : Op → Op' → Prop) (results : Res → Res' → Prop) (states : S → S' → Prop)
    (hstart : related start (.start init)) (hinit : states init init')
    (hspec : ∀ op op' s result s₁ s', ops op op' → states s s' → spec.effect op s result s₁ →
      ∃ result' s₁', results result result' ∧ spec' op' s' result' s₁' ∧ states s₁ s₁')
    (hprepare : ∀ op op' s s₁ s', ops op op' → states s s' → spec.prepare op s s₁ → states s₁ s')
    (hview : ∀ s s' s'', states s s' → states s s'' → s' = s'')
    (hcall : ∀ c t op' l, call t op' = some l →
      allowed l ∧ thread l = t ∧ ∃ op, ops op op' ∧ events c l = [.call t op])
    (haccess : ∀ c t i l, access c t i = some l → allowed l ∧ thread l = t ∧ events c l = [])
    (hret : ∀ c t result' l, ret c t = some (result', l) → allowed l ∧ thread l = t ∧
      ∃ result, (∀ r, results result r → r = result') ∧ events c l = [.ret t result]) :
    (Implementation.ofSteps step start call access ret).Implements spec' init' := by
  -- what both specifications have seen of the run
  let seen (c : C) (o' : Observed T Op' Res' S') : Prop :=
    ∃ o, related c o ∧ o.Corresponds ops results states o'
  have hbegin : seen start (.start init') := ⟨_, hstart, hinit, fun _ => .idle, fun _ => trivial⟩
  refine ⟨seen, hbegin, ?_, ?_, ?_⟩
  · rintro c c' o' t op' ⟨o, hrelated, hcorresponds⟩ hnext
    obtain ⟨l, hl, hc⟩ := Option.bind_eq_some_iff.1 hnext
    obtain ⟨hallowed, rfl, op, hop, hevents⟩ := hcall c t op' l hl
    obtain ⟨o₁, hobserved, hrelated'⟩ := hstep c l c' o hrelated hallowed hc
    rw [hevents] at hobserved
    obtain ⟨o₁', hobserved', hcorresponds'⟩ := corresponds_call hcorresponds hop hobserved
    exact ⟨o₁', hobserved', o₁, hrelated', hcorresponds'⟩
  · rintro c c' o' t i ⟨o, hrelated, hcorresponds⟩ hnext
    obtain ⟨l, hl, hc⟩ := Option.bind_eq_some_iff.1 hnext
    obtain ⟨hallowed, rfl, hevents⟩ := haccess c t i l hl
    obtain ⟨o₁, hobserved, hrelated'⟩ := hstep c l c' o hrelated hallowed hc
    rw [hevents] at hobserved
    obtain ⟨o₁', hobserved', hcorresponds'⟩ :=
      corresponds_access (.atOnce spec') hspec hprepare hview hcorresponds hobserved
    exact ⟨o₁', hobserved', o₁, hrelated', hcorresponds'⟩
  · rintro c c' o' t result' ⟨o, hrelated, hcorresponds⟩ hnext
    obtain ⟨⟨r, l⟩, hl, hmap⟩ := Option.bind_eq_some_iff.1 hnext
    obtain ⟨m, hc, heq⟩ := Option.map_eq_some_iff.1 hmap
    obtain ⟨rfl, rfl⟩ := Prod.mk.inj heq
    obtain ⟨hallowed, rfl, result, hone, hevents⟩ := hret c t _ l hl
    obtain ⟨o₁, hobserved, hrelated'⟩ := hstep c l m o hrelated hallowed hc
    rw [hevents] at hobserved
    obtain ⟨result₁, o₁', hresult, hobserved', hcorresponds'⟩ :=
      corresponds_ret hcorresponds hobserved
    obtain rfl := hone result₁ hresult
    exact ⟨o₁', hobserved', o₁, hrelated', hcorresponds'⟩

end Steps

/-! ## Families of objects -/

section Family

variable {K : Type v} {R : Type u} {A : Type x} {Op : K → Type v} {Res : K → Type w}
  {S : K → Type z} [DecidableEq K]

/-- The objects `impl k`, each of them used by threads of its own. -/
def Implementation.family (impl : ∀ k, Implementation R (Op k) (Res k) A) :
    Implementation (K × R) (Σ k, Op k) (Σ k, Res k) A where
  State := ∀ k, (impl k).State
  start k := (impl k).start
  call c t op :=
    if t.1 = op.1 then ((impl op.1).call (c op.1) t.2 op.2).map (Function.update c op.1) else none
  access c t i := ((impl t.1).access (c t.1) t.2 i).map (Function.update c t.1)
  ret c t := ((impl t.1).ret (c t.1) t.2).map fun r => (⟨t.1, r.1⟩, Function.update c t.1 r.2)

/-- An operation on one of the objects leaves the others as they are. -/
inductive OneOf (spec : ∀ k, Op k → S k → Res k → S k → Prop) :
    (Σ k, Op k) → (∀ k, S k) → (Σ k, Res k) → (∀ k, S k) → Prop
  | one {k : K} {op : Op k} {s : ∀ k, S k} {result : Res k} {s' : S k}
      (h : spec k op (s k) result s') : OneOf spec ⟨k, op⟩ s ⟨k, result⟩ (Function.update s k s')

/-- How a pending call of the object `k` is seen as a call of the family. -/
abbrev SeenAt (k : K) (p : Pending (Op k) (Res k) (S k))
    (p' : Pending (Σ k, Op k) (Σ k, Res k) (∀ k, S k)) : Prop :=
  p.Corresponds (fun op (op' : Σ k, Op k) => op' = ⟨k, op⟩)
    (fun result (result' : Σ k, Res k) => result' = ⟨k, result⟩)
    (fun s (s' : ∀ k, S k) => s' k = s) p'

/-- The objects one by one, and the family. -/
structure FamilySeen (os : ∀ k, Observed R (Op k) (Res k) (S k))
    (o : Observed (K × R) (Σ k, Op k) (Σ k, Res k) (∀ k, S k)) : Prop where
  object : ∀ k, o.object k = (os k).object
  status : ∀ k r, SeenAt k ((os k).status r) (o.status (k, r))

variable [DecidableEq R] {spec : ∀ k, Op k → S k → Res k → S k → Prop}
  {os : ∀ k, Observed R (Op k) (Res k) (S k)}
  {o : Observed (K × R) (Σ k, Op k) (Σ k, Res k) (∀ k, S k)} {k : K} {r : R}

/-- A step of one thread that leaves the objects alone. -/
theorem FamilySeen.set (h : FamilySeen os o) (k : K) (r : R) {p : Pending (Op k) (Res k) (S k)}
    {p' : Pending (Σ k, Op k) (Σ k, Res k) (∀ k, S k)} (hp : SeenAt k p p') :
    FamilySeen (Function.update os k ((os k).set r p)) (o.set (k, r) p') := by
  refine ⟨?_, ?_⟩
  · intro j
    rw [Observed.object_set, h.object j]
    by_cases hj : j = k
    · subst hj
      rw [Function.update_self, Observed.object_set]
    · rw [Function.update_of_ne hj]
  · intro j u
    by_cases hj : j = k
    · subst hj
      rw [Function.update_self]
      by_cases hu : u = r
      · subst hu
        rw [Observed.status_set_self, Observed.status_set_self]
        exact hp
      · have hne : (j, u) ≠ (j, r) := fun heq => hu (Prod.mk.inj heq).2
        rw [Observed.status_set_of_ne _ hu, Observed.status_set_of_ne _ hne]
        exact h.status j u
    · have hne : (j, u) ≠ (k, r) := fun heq => hj (Prod.mk.inj heq).1
      rw [Function.update_of_ne hj, Observed.status_set_of_ne _ hne]
      exact h.status j u

/-- A thread changes the object it works on. -/
theorem FamilySeen.pass (h : FamilySeen os o) (k : K) (r : R) (result : Res k) (s : S k) :
    FamilySeen (Function.update os k ((os k).pass r result s))
      (o.pass (k, r) ⟨k, result⟩ (Function.update o.object k s)) := by
  refine ⟨?_, ?_⟩
  · intro j
    rw [Observed.object_pass]
    by_cases hj : j = k
    · subst hj
      rw [Function.update_self, Function.update_self, Observed.object_pass]
    · rw [Function.update_of_ne hj, Function.update_of_ne hj]
      exact h.object j
  · intro j u
    by_cases hj : j = k
    · subst hj
      rw [Function.update_self]
      by_cases hu : u = r
      · subst hu
        rw [Observed.status_pass_self, Observed.status_pass_self]
        exact Pending.Corresponds.done rfl
      · have hne : (j, u) ≠ (j, r) := fun heq => hu (Prod.mk.inj heq).2
        rw [Observed.status_pass_of_ne _ hu, Observed.status_pass_of_ne _ hne]
        exact (h.status j u).pass (Function.update_self _ _ _)
    · have hne : (j, u) ≠ (k, r) := fun heq => hj (Prod.mk.inj heq).1
      rw [Function.update_of_ne hj, Observed.status_pass_of_ne _ hne]
      exact (h.status j u).pass_right _

theorem family_call (h : FamilySeen os o) {op : Op k} {o₁ : Observed R (Op k) (Res k) (S k)}
    (hstep : ObservedStep (.atOnce (spec k)) r (os k) [.call r op] o₁) :
    ∃ o', ObservedStep (.atOnce (OneOf spec)) (k, r) o [.call (k, r) ⟨k, op⟩] o' ∧
      FamilySeen (Function.update os k o₁) o' := by
  cases hstep with
  | call op hidle =>
    refine ⟨_, .call _ ((h.status k r).of_idle hidle), h.set k r ?_⟩
    refine Pending.Corresponds.called rfl ?_
    intro s hs
    obtain rfl := List.mem_singleton.1 hs
    exact ⟨o.object, List.mem_singleton_self _, h.object k⟩

theorem family_access (h : FamilySeen os o) {o₁ : Observed R (Op k) (Res k) (S k)}
    (hstep : ObservedStep (.atOnce (spec k)) r (os k) [] o₁) :
    ∃ o', ObservedStep (.atOnce (OneOf spec)) (k, r) o [] o' ∧
      FamilySeen (Function.update os k o₁) o' := by
  cases hstep with
  | stay =>
    rw [Function.update_eq_self]
    exact ⟨o, .stay o, h⟩
  | @effect op past result s hcalled heffect =>
    obtain ⟨_, past', hcalled', rfl, -⟩ := (h.status k r).of_called hcalled
    rw [← h.object k] at heffect
    exact ⟨_, .effect hcalled' (OneOf.one heffect), h.pass k r result s⟩
  | prepare hcalled hprepare => cases hprepare
  | @late op past result s hcalled hs heffect =>
    obtain ⟨_, past', hcalled', rfl, hpast⟩ := (h.status k r).of_called hcalled
    obtain ⟨f, hf, rfl⟩ := hpast _ hs
    have hone : OneOf spec ⟨k, op⟩ f ⟨k, result⟩ f := by
      have hsame : Function.update f k (f k) = f := Function.update_eq_self k f
      have hone : OneOf spec ⟨k, op⟩ f ⟨k, result⟩ (Function.update f k (f k)) := .one heffect
      rw [hsame] at hone
      exact hone
    exact ⟨_, .late hcalled' hf hone, h.set k r (Pending.Corresponds.done rfl)⟩

theorem family_ret (h : FamilySeen os o) {result : Res k} {o₁ : Observed R (Op k) (Res k) (S k)}
    (hstep : ObservedStep (.atOnce (spec k)) r (os k) [.ret r result] o₁) :
    ∃ o', ObservedStep (.atOnce (OneOf spec)) (k, r) o [.ret (k, r) ⟨k, result⟩] o' ∧
      FamilySeen (Function.update os k o₁) o' := by
  cases hstep with
  | ret hdone =>
    obtain ⟨_, hdone', rfl⟩ := (h.status k r).of_done hdone
    exact ⟨_, .ret hdone', h.set k r Pending.Corresponds.idle⟩

/-- A family of implementations implements the family of the objects. -/
theorem implements_family {impl : ∀ k, Implementation R (Op k) (Res k) A} {init : ∀ k, S k}
    (h : ∀ k, (impl k).Implements (spec k) (init k)) :
    (Implementation.family impl).Implements (OneOf spec) init := by
  choose related hstart hmatched using h
  let seen (c : ∀ k, (impl k).State)
      (o : Observed (K × R) (Σ k, Op k) (Σ k, Res k) (∀ k, S k)) : Prop :=
    ∃ os, (∀ k, related k (c k) (os k)) ∧ FamilySeen os o
  -- only the object at work has a new state
  have hupdate : ∀ (c : ∀ k, (impl k).State) (os : ∀ k, Observed R (Op k) (Res k) (S k)) (k : K)
      (m : (impl k).State) (o₁ : Observed R (Op k) (Res k) (S k)),
      (∀ k, related k (c k) (os k)) → related k m o₁ →
      ∀ j, related j (Function.update c k m j) (Function.update os k o₁ j) := by
    intro c os k m o₁ hrelated hm j
    by_cases hj : j = k
    · subst hj
      rw [Function.update_self, Function.update_self]
      exact hm
    · rw [Function.update_of_ne hj, Function.update_of_ne hj]
      exact hrelated j
  have hinit : seen (fun k => (impl k).start) (.start init) :=
    ⟨fun k => .start (init k), hstart, fun _ => rfl, fun _ _ => Pending.Corresponds.idle⟩
  refine ⟨seen, hinit, ?_, ?_, ?_⟩
  · rintro c c' o ⟨j, r⟩ ⟨k, op⟩ ⟨os, hrelated, hseen⟩ hcall
    by_cases hj : j = k
    · subst hj
      obtain ⟨m, hm, rfl⟩ := Option.map_eq_some_iff.1 ((if_pos rfl).symm.trans hcall)
      obtain ⟨o₁, hstep, hrelated'⟩ := (hmatched j).call (hrelated j) hm
      obtain ⟨o', hstep', hseen'⟩ := family_call hseen hstep
      exact ⟨o', hstep', _, hupdate c os j m o₁ hrelated hrelated', hseen'⟩
    · cases (if_neg hj).symm.trans hcall
  · rintro c c' o ⟨k, r⟩ i ⟨os, hrelated, hseen⟩ haccess
    obtain ⟨m, hm, rfl⟩ := Option.map_eq_some_iff.1 haccess
    obtain ⟨o₁, hstep, hrelated'⟩ := (hmatched k).access (hrelated k) hm
    obtain ⟨o', hstep', hseen'⟩ := family_access hseen hstep
    exact ⟨o', hstep', _, hupdate c os k m o₁ hrelated hrelated', hseen'⟩
  · rintro c c' o ⟨k, r⟩ result ⟨os, hrelated, hseen⟩ hret
    obtain ⟨⟨result', m⟩, hm, heq⟩ := Option.map_eq_some_iff.1 hret
    obtain ⟨rfl, rfl⟩ := Prod.mk.inj heq
    obtain ⟨o₁, hstep, hrelated'⟩ := (hmatched k).ret (hrelated k) hm
    obtain ⟨o', hstep', hseen'⟩ := family_ret hseen hstep
    exact ⟨o', hstep', _, hupdate c os k m o₁ hrelated hrelated', hseen'⟩

end Family

end PipelineTools.Library
