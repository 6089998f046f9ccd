import Mathlib.Data.List.Basic

/-!
# Runs and their invariants

A machine takes a step for each of a list of inputs. `AtEach` states a law of every step of a run
and `InEveryState` a property of every state; the two are connected by `inEveryState_iff_atEach`. A
step may also be refused: `runFrom` is the run of such a machine, and `runFrom_invariant` carries
what every accepted step keeps to the whole run; `EveryStep` and `EveryState` are the law and the
property for it. `recorded` lets such a machine keep a record of its run, for laws that are about an
earlier step.
-/

set_option autoImplicit false

namespace PipelineTools.Library

universe u v w

variable {S : Type u} {L : Type v}

section Functional

variable (step : S → L → S)

/-- The law `law` holds at every step of the run of `step` from `s` over `ls`. -/
def AtEach (law : S → L → Prop) (s : S) (ls : List L) : Prop :=
  ∀ pre l post, ls = pre ++ l :: post → law (pre.foldl step s) l

variable {step}

theorem atEach_nil {law : S → L → Prop} {s : S} : AtEach step law s [] := by
  intro pre l post h
  simp at h

theorem atEach_cons {law : S → L → Prop} {s : S} {l : L} {ls : List L} :
    AtEach step law s (l :: ls) ↔ law s l ∧ AtEach step law (step s l) ls := by
  constructor
  · intro h
    refine ⟨h [] l ls rfl, ?_⟩
    intro pre l' post hls
    exact h (l :: pre) l' post (by rw [hls, List.cons_append])
  · rintro ⟨hhead, htail⟩ pre l' post hls
    cases pre with
    | nil =>
      obtain ⟨rfl, -⟩ := List.cons.inj hls
      exact hhead
    | cons p pre =>
      obtain ⟨rfl, hrest⟩ := List.cons.inj hls
      exact htail pre l' post hrest

/-- A law that follows from an invariant holds at every step of a run whose inputs are allowed. -/
theorem atEach_of_invariant {law : S → L → Prop} (allowed : L → Prop) (inv : S → Prop)
    (hstep : ∀ s l, inv s → allowed l → law s l ∧ inv (step s l)) {s : S} (hs : inv s)
    {ls : List L} (hls : ∀ l ∈ ls, allowed l) : AtEach step law s ls := by
  induction ls generalizing s with
  | nil => exact atEach_nil
  | cons l ls ih =>
    obtain ⟨hl, hrest⟩ := List.forall_mem_cons.1 hls
    obtain ⟨hlaw, hnext⟩ := hstep s l hs hl
    exact atEach_cons.2 ⟨hlaw, ih hnext hrest⟩

/-- The property `P` holds in every state of the run of `step` from `s` over `ls`. -/
def InEveryState (step : S → L → S) (P : S → Prop) (s : S) (ls : List L) : Prop :=
  ∀ pre post, ls = pre ++ post → P (pre.foldl step s)

theorem inEveryState_nil {P : S → Prop} {s : S} : InEveryState step P s [] ↔ P s := by
  constructor
  · intro h
    exact h [] [] rfl
  · intro h pre post hnil
    obtain ⟨rfl, rfl⟩ := List.append_eq_nil_iff.1 hnil.symm
    exact h

theorem inEveryState_cons {P : S → Prop} {s : S} {l : L} {ls : List L} :
    InEveryState step P s (l :: ls) ↔ P s ∧ InEveryState step P (step s l) ls := by
  constructor
  · intro h
    refine ⟨h [] (l :: ls) rfl, ?_⟩
    intro pre post hls
    exact h (l :: pre) post (by rw [hls, List.cons_append])
  · rintro ⟨hhead, htail⟩ pre post hls
    cases pre with
    | nil => exact hhead
    | cons p pre =>
      obtain ⟨rfl, hrest⟩ := List.cons.inj hls
      exact htail pre post hrest

/-- A property that lawful steps keep holds in every state of a lawful run. -/
theorem inEveryState_of_atEach {P : S → Prop} {law : S → L → Prop} {s : S} {ls : List L}
    (hs : P s) (hls : AtEach step law s ls) (hstep : ∀ s l, P s → law s l → P (step s l)) :
    InEveryState step P s ls := by
  induction ls generalizing s with
  | nil => exact inEveryState_nil.2 hs
  | cons l ls ih =>
    obtain ⟨hlaw, hrest⟩ := atEach_cons.1 hls
    exact inEveryState_cons.2 ⟨hs, ih (hstep s l hs hlaw) hrest⟩

/-- If a step from a state of `inv` leads to a property exactly when it obeys a law, and lawful
steps keep `inv`, a whole run has the property throughout exactly when each of its steps obeys the
law. -/
theorem inEveryState_iff_atEach_of_inv (inv : S → Prop) {P : S → Prop} {law : S → L → Prop}
    (hinv : ∀ s, inv s → P s) (hkeep : ∀ s l, inv s → law s l → inv (step s l))
    (hstep : ∀ s l, inv s → (P (step s l) ↔ law s l)) {s : S} (hs : inv s) (ls : List L) :
    InEveryState step P s ls ↔ AtEach step law s ls := by
  induction ls generalizing s with
  | nil => exact ⟨fun _ => atEach_nil, fun _ => inEveryState_nil.2 (hinv s hs)⟩
  | cons l ls ih =>
    rw [inEveryState_cons, atEach_cons, ← hstep s l hs]
    constructor
    · rintro ⟨-, hrest⟩
      have hnext : P (step s l) := hrest [] ls rfl
      have hnext' := hkeep s l hs ((hstep s l hs).1 hnext)
      exact ⟨hnext, (ih hnext').1 hrest⟩
    · rintro ⟨hnext, hrest⟩
      have hnext' := hkeep s l hs ((hstep s l hs).1 hnext)
      exact ⟨hinv s hs, (ih hnext').2 hrest⟩

/-- If one step keeps a property exactly when it obeys a law, a whole run keeps the property exactly
when each of its steps obeys the law. -/
theorem inEveryState_iff_atEach {P : S → Prop} {law : S → L → Prop}
    (hstep : ∀ s l, P s → (P (step s l) ↔ law s l)) {s : S} (hs : P s) (ls : List L) :
    InEveryState step P s ls ↔ AtEach step law s ls :=
  inEveryState_iff_atEach_of_inv P (fun _ h => h) (fun s l h => (hstep s l h).2) hstep hs ls

end Functional

section Guarded

variable {step : S → L → Option S}

/-- The state after the steps `ls`, if none of them is refused. -/
def runFrom (step : S → L → Option S) (s : S) (ls : List L) : Option S :=
  ls.foldlM step s

theorem runFrom_nil (s : S) : runFrom step s [] = some s := rfl

theorem runFrom_cons {s s' : S} {l : L} {ls : List L} :
    runFrom step s (l :: ls) = some s' ↔ ∃ m, step s l = some m ∧ runFrom step m ls = some s' := by
  simp [runFrom, Option.bind_eq_some_iff]

/-- One more step at the end of a run. -/
theorem runFrom_concat {s m m' : S} {l : L} {ls : List L} (hrun : runFrom step s ls = some m)
    (hstep : step m l = some m') : runFrom step s (ls ++ [l]) = some m' := by
  rw [runFrom] at hrun
  rw [runFrom, List.foldlM_append, hrun]
  exact runFrom_cons.2 ⟨m', hstep, rfl⟩

/-- What every accepted step keeps, a run keeps. -/
theorem runFrom_invariant {inv : S → Prop}
    (hstep : ∀ s l s', inv s → step s l = some s' → inv s') {s s' : S} (hs : inv s) {ls : List L}
    (hrun : runFrom step s ls = some s') : inv s' := by
  induction ls generalizing s with
  | nil =>
    rw [runFrom_nil] at hrun
    obtain rfl := Option.some.inj hrun
    exact hs
  | cons l ls ih =>
    obtain ⟨m, hm, hrest⟩ := runFrom_cons.1 hrun
    exact ih (hstep s l m hs hm) hrest

theorem runFrom_append {s s' : S} {ls ms : List L} :
    runFrom step s (ls ++ ms) = some s' ↔
      ∃ m, runFrom step s ls = some m ∧ runFrom step m ms = some s' := by
  rw [runFrom, List.foldlM_append]
  exact Option.bind_eq_some_iff

/-- If every step of the kind `mine` lowers `rank`, and no step raises it, a run has at most as many
of them as the rank of its start. -/
theorem runFrom_countP_le {inv : S → Prop} {allowed : L → Prop} {rank : S → Nat} {mine : L → Bool}
    (hstep : ∀ s l s', inv s → allowed l → step s l = some s' →
      inv s' ∧ (mine l).toNat + rank s' ≤ rank s)
    {s s' : S} (hs : inv s) {ls : List L} (hls : ∀ l ∈ ls, allowed l)
    (hrun : runFrom step s ls = some s') : inv s' ∧ ls.countP mine + rank s' ≤ rank s := by
  induction ls generalizing s with
  | nil =>
    rw [runFrom_nil] at hrun
    obtain rfl := Option.some.inj hrun
    exact ⟨hs, by simp⟩
  | cons l ls ih =>
    rw [List.forall_mem_cons] at hls
    obtain ⟨m, hm, hrest⟩ := runFrom_cons.1 hrun
    obtain ⟨hinv, hrank⟩ := hstep s l m hs hls.1 hm
    obtain ⟨hinv', hcount⟩ := ih hinv hls.2 hrest
    refine ⟨hinv', ?_⟩
    have hcons : (l :: ls).countP mine = ls.countP mine + (mine l).toNat := by
      rw [List.countP_cons]
      cases mine l <;> rfl
    omega

/-- The law `law` holds at every step of the run of `step` from `s` over `ls`. -/
def EveryStep (step : S → L → Option S) (law : S → L → Prop) (s : S) (ls : List L) : Prop :=
  ∀ pre l post m, ls = pre ++ l :: post → runFrom step s pre = some m → law m l

/-- The property `P` holds in every state of the run of `step` from `s` over `ls`. -/
def EveryState (step : S → L → Option S) (P : S → Prop) (s : S) (ls : List L) : Prop :=
  ∀ pre post m, ls = pre ++ post → runFrom step s pre = some m → P m

theorem everyStep_nil {law : S → L → Prop} {s : S} : EveryStep step law s [] := by
  intro pre l post m h
  simp at h

theorem everyStep_cons {law : S → L → Prop} {s m : S} {l : L} {ls : List L}
    (hm : step s l = some m) :
    EveryStep step law s (l :: ls) ↔ law s l ∧ EveryStep step law m ls := by
  constructor
  · intro h
    refine ⟨h [] l ls s rfl rfl, ?_⟩
    intro pre l' post m' hls hpre
    exact h (l :: pre) l' post m' (by rw [hls, List.cons_append])
      (runFrom_cons.2 ⟨m, hm, hpre⟩)
  · rintro ⟨hhead, htail⟩ pre l' post m' hls hpre
    cases pre with
    | nil =>
      obtain ⟨rfl, -⟩ := List.cons.inj hls
      obtain rfl := Option.some.inj hpre
      exact hhead
    | cons p pre =>
      obtain ⟨rfl, hrest⟩ := List.cons.inj hls
      obtain ⟨m'', hm'', hpre⟩ := runFrom_cons.1 hpre
      obtain rfl := Option.some.inj (hm.symm.trans hm'')
      exact htail pre l' post m' hrest hpre

theorem everyState_nil {P : S → Prop} {s : S} : EveryState step P s [] ↔ P s := by
  constructor
  · intro h
    exact h [] [] s rfl rfl
  · intro h pre post m hnil hpre
    obtain ⟨rfl, rfl⟩ := List.append_eq_nil_iff.1 hnil.symm
    obtain rfl := Option.some.inj hpre
    exact h

theorem everyState_cons {P : S → Prop} {s m : S} {l : L} {ls : List L} (hm : step s l = some m) :
    EveryState step P s (l :: ls) ↔ P s ∧ EveryState step P m ls := by
  constructor
  · intro h
    refine ⟨h [] (l :: ls) s rfl rfl, ?_⟩
    intro pre post m' hls hpre
    exact h (l :: pre) post m' (by rw [hls, List.cons_append]) (runFrom_cons.2 ⟨m, hm, hpre⟩)
  · rintro ⟨hhead, htail⟩ pre post m' hls hpre
    cases pre with
    | nil =>
      obtain rfl := Option.some.inj hpre
      exact hhead
    | cons p pre =>
      obtain ⟨rfl, hrest⟩ := List.cons.inj hls
      obtain ⟨m'', hm'', hpre⟩ := runFrom_cons.1 hpre
      obtain rfl := Option.some.inj (hm.symm.trans hm'')
      exact htail pre post m' hrest hpre

/-- Check a decidable law along a run. -/
def obeys (step : S → L → Option S) (law : S → L → Prop) [∀ s l, Decidable (law s l)] :
    S → List L → Bool
  | _, [] => true
  | s, l :: ls => decide (law s l) && (step s l).all fun m => obeys step law m ls

theorem everyStep_of_obeys {law : S → L → Prop} [∀ s l, Decidable (law s l)] {s : S}
    {ls : List L} (h : obeys step law s ls = true) : EveryStep step law s ls := by
  induction ls generalizing s with
  | nil => exact everyStep_nil
  | cons l ls ih =>
    rw [obeys, Bool.and_eq_true, decide_eq_true_eq] at h
    obtain ⟨hl, hrest⟩ := h
    cases hm : step s l with
    | some m =>
      rw [hm] at hrest
      exact (everyStep_cons hm).2 ⟨hl, ih hrest⟩
    | none =>
      -- the run ends here
      intro pre l' post m' hls hpre
      cases pre with
      | nil =>
        obtain ⟨rfl, -⟩ := List.cons.inj hls
        obtain rfl := Option.some.inj hpre
        exact hl
      | cons p pre =>
        obtain ⟨rfl, -⟩ := List.cons.inj hls
        obtain ⟨m'', hm'', -⟩ := runFrom_cons.1 hpre
        rw [hm] at hm''
        cases hm''

/-- A property that lawful accepted steps keep holds in every state of a lawful run. -/
theorem everyState_of_everyStep {P : S → Prop} {law : S → L → Prop} {s : S} {ls : List L}
    (hstep : ∀ s l m, P s → law s l → step s l = some m → P m) (hs : P s)
    (hls : EveryStep step law s ls) : EveryState step P s ls := by
  intro pre post m hpre hrun
  subst hpre
  induction pre generalizing s with
  | nil =>
    obtain rfl := Option.some.inj hrun
    exact hs
  | cons l pre ih =>
    obtain ⟨m', hm', hrest⟩ := runFrom_cons.1 hrun
    rw [List.cons_append, everyStep_cons hm'] at hls
    exact ih (hstep s l m' hs hls.1 hm') hrest hls.2

/-- If one accepted step keeps a property exactly when it obeys a law, a whole run keeps the
property exactly when each of its steps obeys the law; `inv` is what all steps keep. -/
theorem everyState_iff_everyStep (inv : S → Prop) {P : S → Prop} {law : S → L → Prop}
    (hstep : ∀ s l m, inv s → P s → step s l = some m → inv m ∧ (P m ↔ law s l)) {s s' : S}
    (hinv : inv s) (hs : P s) {ls : List L} (hrun : runFrom step s ls = some s') :
    EveryState step P s ls ↔ EveryStep step law s ls := by
  induction ls generalizing s with
  | nil => exact ⟨fun _ => everyStep_nil, fun _ => everyState_nil.2 hs⟩
  | cons l ls ih =>
    obtain ⟨m, hm, hrest⟩ := runFrom_cons.1 hrun
    obtain ⟨hnext, hiff⟩ := hstep s l m hinv hs hm
    rw [everyState_cons hm, everyStep_cons hm, ← hiff]
    constructor
    · rintro ⟨-, htail⟩
      have hPm : P m := htail [] ls m rfl rfl
      exact ⟨hPm, (ih hnext hPm hrest).1 htail⟩
    · rintro ⟨hPm, htail⟩
      exact ⟨hs, (ih hnext hPm hrest).2 htail⟩

end Guarded

section Recorded

variable {H : Type w} (step : S → L → Option S) (record : S → H → L → H)

/-- The machine `step` with a record that every accepted step updates. The steps do not depend on
it. -/
def recorded (p : S × H) (l : L) : Option (S × H) :=
  (step p.1 l).map fun s => (s, record p.1 p.2 l)

variable {step record}

theorem recorded_eq_some_iff {p q : S × H} {l : L} :
    recorded step record p l = some q ↔ step p.1 l = some q.1 ∧ record p.1 p.2 l = q.2 := by
  rw [recorded, Option.map_eq_some_iff]
  constructor
  · rintro ⟨s, hs, rfl⟩
    exact ⟨hs, rfl⟩
  · rintro ⟨hs, hrecord⟩
    exact ⟨q.1, hs, by rw [hrecord]⟩

/-- Without its record a recorded run is a run. -/
theorem run_of_recorded {p q : S × H} {ls : List L}
    (hrun : runFrom (recorded step record) p ls = some q) : runFrom step p.1 ls = some q.1 := by
  induction ls generalizing p with
  | nil =>
    obtain rfl := Option.some.inj hrun
    rfl
  | cons l ls ih =>
    obtain ⟨m, hm, hrest⟩ := runFrom_cons.1 hrun
    exact runFrom_cons.2 ⟨m.1, (recorded_eq_some_iff.1 hm).1, ih hrest⟩

/-- Every run has a record. -/
theorem exists_recorded_run {s s' : S} {h : H} {ls : List L}
    (hrun : runFrom step s ls = some s') :
    ∃ h', runFrom (recorded step record) (s, h) ls = some (s', h') := by
  induction ls generalizing s h with
  | nil =>
    obtain rfl := Option.some.inj hrun
    exact ⟨h, rfl⟩
  | cons l ls ih =>
    obtain ⟨m, hm, hrest⟩ := runFrom_cons.1 hrun
    obtain ⟨h', hrecorded⟩ := ih (h := record s h l) hrest
    exact ⟨h', runFrom_cons.2 ⟨(m, record s h l), recorded_eq_some_iff.2 ⟨hm, rfl⟩, hrecorded⟩⟩

/-- A property of the states alone does not depend on the record. -/
theorem everyState_recorded {P : S → Prop} {s : S} {h : H} {ls : List L} :
    EveryState (recorded step record) (fun p => P p.1) (s, h) ls ↔ EveryState step P s ls := by
  constructor
  · intro hstates pre post m hls hrun
    have hrecord : ∃ h', runFrom (recorded step record) (s, h) pre = some (m, h') :=
      exists_recorded_run hrun
    obtain ⟨h', hrecorded⟩ := hrecord
    exact hstates pre post (m, h') hls hrecorded
  · intro hstates pre post m hls hrun
    exact hstates pre post m.1 hls (run_of_recorded hrun)

end Recorded

end PipelineTools.Library
