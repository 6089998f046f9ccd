import Mathlib.Logic.Basic

/-!
# A logic for stateful programs that keep a log

Programs are `EStateM` computations over a state that contains a log. A `Discipline` names what is
asked of the events a program appends: each appended segment satisfies `segment`, the program stops
with a failure exactly when it appended a bad event, and it stops with allowed stops only, while an
invariant of the state is kept. The rules follow the structure of the program: `sound_pure`,
`sound_throw`, `sound_bind` and, for loops over a list, `sound_forM`.
-/

set_option autoImplicit false

namespace PipelineTools.Library

universe u

variable {ε σ α γ E : Type u}

/-- The state a run ended in. -/
def finalState : EStateM.Result ε σ α → σ
  | .ok _ s => s
  | .error _ s => s

/-- The stop a run ended with, if it did not return. -/
def stopOf : EStateM.Result ε σ α → Option ε
  | .ok _ _ => none
  | .error e _ => some e

@[simp] theorem finalState_ok (a : α) (s : σ) :
    finalState (.ok a s : EStateM.Result ε σ α) = s := rfl

@[simp] theorem finalState_error (e : ε) (s : σ) :
    finalState (.error e s : EStateM.Result ε σ α) = s := rfl

@[simp] theorem stopOf_ok (a : α) (s : σ) :
    stopOf (.ok a s : EStateM.Result ε σ α) = none := rfl

@[simp] theorem stopOf_error (e : ε) (s : σ) :
    stopOf (.error e s : EStateM.Result ε σ α) = some e := rfl

/-- A run that has not stopped has returned. -/
theorem exists_ok_of_stopOf {r : EStateM.Result ε σ α} (h : (stopOf r).isNone = true) :
    ∃ a s, r = .ok a s := by
  cases r with
  | ok a s => exact ⟨a, s, rfl⟩
  | error e s => cases h

theorem bind_ok {m : EStateM ε σ α} {f : α → EStateM ε σ γ} {s s' : σ} {a : α}
    (h : m s = .ok a s') : (m >>= f) s = f a s' := by
  show EStateM.bind m f s = _
  simp only [EStateM.bind, h]

theorem bind_error {m : EStateM ε σ α} {f : α → EStateM ε σ γ} {s s' : σ} {e : ε}
    (h : m s = .error e s') : (m >>= f) s = .error e s' := by
  show EStateM.bind m f s = _
  simp only [EStateM.bind, h]

/-- A sequence of two programs returns exactly when both do. -/
theorem bind_eq_ok_iff {m : EStateM ε σ α} {f : α → EStateM ε σ γ} {s s' : σ} {c : γ} :
    (m >>= f) s = .ok c s' ↔ ∃ a s₁, m s = .ok a s₁ ∧ f a s₁ = .ok c s' := by
  cases hm : m s with
  | ok a s₁ =>
    rw [bind_ok hm]
    constructor
    · intro h
      exact ⟨a, s₁, rfl, h⟩
    · rintro ⟨a', s₁', heq, h⟩
      cases heq
      exact h
  | error e s₁ =>
    rw [bind_error hm]
    constructor
    · intro h
      cases h
    · rintro ⟨a, s₁', heq, -⟩
      cases heq

/-- What is asked of a program with log `log`. Segments are closed under concatenation. -/
structure Discipline (ε σ E : Type u) where
  log : σ → List E
  inv : σ → Prop
  segment : List E → Prop
  bad : E → Prop
  fails : ε → Prop
  allowed : ε → Prop
  segment_nil : segment []
  segment_append : ∀ {xs ys : List E}, segment xs → segment ys → segment (xs ++ ys)

/-- The run `r` from `s` follows the discipline. -/
structure Discipline.Sound (D : Discipline ε σ E) (s : σ) (r : EStateM.Result ε σ α) : Prop where
  inv : D.inv (finalState r)
  trace : ∃ new, D.log (finalState r) = D.log s ++ new ∧ D.segment new ∧
    ((∃ e, stopOf r = some e ∧ D.fails e) ↔ ∃ x ∈ new, D.bad x)
  stops : ∀ e, stopOf r = some e → D.allowed e

namespace Discipline

variable {D : Discipline ε σ E}

/-- A stop after a good segment that is not a failure. -/
theorem sound_stop {e : ε} {s s' : σ} {pre : List E} (hinv : D.inv s')
    (hlog : D.log s' = D.log s ++ pre) (hgood : ∀ x ∈ pre, ¬ D.bad x) (hfails : ¬ D.fails e)
    (hallowed : D.allowed e) (hseg : D.segment pre) :
    D.Sound s (.error e s' : EStateM.Result ε σ α) where
  inv := hinv
  trace := ⟨pre, hlog, hseg, by
    refine iff_of_false ?_ fun ⟨x, hx, hb⟩ => hgood x hx hb
    rintro ⟨e', he, hf⟩
    cases he
    exact hfails hf⟩
  stops e' he := by
    cases he
    exact hallowed

/-- A return after a good segment. -/
theorem sound_return {a : α} {s s' : σ} {pre : List E} (hinv : D.inv s')
    (hlog : D.log s' = D.log s ++ pre) (hgood : ∀ x ∈ pre, ¬ D.bad x) (hseg : D.segment pre) :
    D.Sound s (.ok a s' : EStateM.Result ε σ α) where
  inv := hinv
  trace := ⟨pre, hlog, hseg, by
    refine iff_of_false ?_ fun ⟨x, hx, hb⟩ => hgood x hx hb
    rintro ⟨e', he, -⟩
    cases he⟩
  stops e' he := by cases he

theorem sound_pure (a : α) {s : σ} (h : D.inv s) : D.Sound s ((pure a : EStateM ε σ α) s) :=
  sound_return h (List.append_nil _).symm (fun _ hx => absurd hx List.not_mem_nil) D.segment_nil

/-- A stop that is not a failure appends nothing. -/
theorem sound_throw {e : ε} {s : σ} (h : D.inv s) (hf : ¬ D.fails e) (ha : D.allowed e) :
    D.Sound s (.error e s : EStateM.Result ε σ α) :=
  sound_stop h (List.append_nil _).symm (fun _ hx => absurd hx List.not_mem_nil) hf ha
    D.segment_nil

theorem sound_bind {m : EStateM ε σ α} {f : α → EStateM ε σ γ} {s : σ}
    (hm : D.Sound s (m s)) (hf : ∀ a s', m s = .ok a s' → D.inv s' → D.Sound s' (f a s')) :
    D.Sound s ((m >>= f) s) := by
  cases hr : m s with
  | error e s' =>
    rw [hr] at hm
    rw [bind_error hr]
    exact ⟨hm.inv, hm.trace, hm.stops⟩
  | ok a s' =>
    rw [hr] at hm
    rw [bind_ok hr]
    obtain ⟨new, hlog, hseg, hiff⟩ := hm.trace
    have hgood : ¬ ∃ x ∈ new, D.bad x := by
      rw [← hiff]
      rintro ⟨e, he, -⟩
      cases he
    have hfa := hf a s' hr hm.inv
    obtain ⟨new', hlog', hseg', hiff'⟩ := hfa.trace
    refine ⟨hfa.inv, ⟨new ++ new', ?_, D.segment_append hseg hseg', ?_⟩, hfa.stops⟩
    · rw [hlog', ← List.append_assoc]
      exact congrArg (· ++ new') hlog
    · rw [hiff']
      constructor
      · rintro ⟨x, hx, hb⟩
        exact ⟨x, List.mem_append_right _ hx, hb⟩
      · rintro ⟨x, hx, hb⟩
        rcases List.mem_append.1 hx with hx | hx
        · exact absurd ⟨x, hx, hb⟩ hgood
        · exact ⟨x, hx, hb⟩

/-- The same discipline with another requirement on the appended segments. -/
def withSegment (D : Discipline ε σ E) (segment : List E → Prop) (segment_nil : segment [])
    (segment_append : ∀ {xs ys : List E}, segment xs → segment ys → segment (xs ++ ys)) :
    Discipline ε σ E :=
  { D with segment, segment_nil, segment_append }

/-- A run that continues after good events `pre`. What is asked of the rest may differ from what is
asked of the whole. -/
theorem Sound.prepend (segment : List E → Prop) (hnil : segment [])
    (happend : ∀ {xs ys : List E}, segment xs → segment ys → segment (xs ++ ys))
    {s s' : σ} {r : EStateM.Result ε σ α} {pre : List E}
    (hr : (D.withSegment segment hnil happend).Sound s' r) (hlog : D.log s' = D.log s ++ pre)
    (hgood : ∀ x ∈ pre, ¬ D.bad x) (hseg : ∀ new, segment new → D.segment (pre ++ new)) :
    D.Sound s r := by
  obtain ⟨new, hnew, hsegment, hiff⟩ := hr.trace
  have hnew' : D.log (finalState r) = D.log s' ++ new := hnew
  refine ⟨hr.inv, ⟨pre ++ new, ?_, hseg new hsegment, ?_⟩, hr.stops⟩
  · rw [hnew', hlog, List.append_assoc]
  · refine hiff.trans ?_
    constructor
    · rintro ⟨x, hx, hb⟩
      exact ⟨x, List.mem_append_right _ hx, hb⟩
    · rintro ⟨x, hx, hb⟩
      rcases List.mem_append.1 hx with hx | hx
      · exact absurd hb (hgood x hx)
      · exact ⟨x, hx, hb⟩

/-- A failure right after a bad event. -/
theorem sound_fail {e : ε} {s s' : σ} {x : E} (hinv : D.inv s') (hlog : D.log s' = D.log s ++ [x])
    (hbad : D.bad x) (hfails : D.fails e) (hallowed : D.allowed e) (hseg : D.segment [x]) :
    D.Sound s (.error e s' : EStateM.Result ε σ α) where
  inv := hinv
  trace := ⟨[x], hlog, hseg, iff_of_true ⟨e, rfl, hfails⟩ ⟨x, List.mem_singleton_self x, hbad⟩⟩
  stops e' he := by
    cases he
    exact hallowed

/-- A loop over a list whose body follows the discipline. -/
theorem sound_forM {β : Type u} {f : β → EStateM ε σ PUnit} :
    ∀ (xs : List β) {s : σ}, D.inv s →
      (∀ x ∈ xs, ∀ s', D.inv s' → D.Sound s' (f x s')) →
        D.Sound s ((forM xs f : EStateM ε σ PUnit) s)
  | [], _, h, _ => sound_pure PUnit.unit h
  | x :: xs, s, h, hf => by
    rw [List.forM_cons]
    refine sound_bind (hf x List.mem_cons_self s h) fun _ s' _ hs' => ?_
    exact sound_forM xs hs' fun y hy => hf y (List.mem_cons_of_mem _ hy)

end Discipline

end PipelineTools.Library
