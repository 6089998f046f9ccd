import PipelineTools.Memory.RefCountSteps
import Mathlib.Data.Fintype.Card

/-!
# Reference counting under any interleaving

The invariant holds initially and every step keeps it (`inv_step`), so it holds after every run.
`Correct` is what a user of `shared_buffer` relies on, and `run_correct` proves it for every state
of every run of any number of threads over any number of handles.
-/

set_option autoImplicit false

namespace PipelineTools.Memory

open PipelineTools.Library

namespace SharedState

variable {H T D : Type} [DecidableEq H] [DecidableEq T] [Fintype T] {s s' : SharedState H T D}
  {t : T}

omit [DecidableEq T] in
theorem inv_init : (init : SharedState H T D).Inv := by
  refine ⟨⟨?_, ?_, ?_, ?_⟩, ?_, ⟨?_, ?_, ?_, ?_⟩⟩
  · simp [init, Pc.handles]
  · simp [init, Pc.handles]
  · simp [init, Pc.handles]
  · simp [init]
  · intro c
    have hnone : ¬ 0 < (init : SharedState H T D).references c := by
      rw [references, refCount_pos_iff]
      rintro ⟨x, -, hx⟩
      cases x with
      | inl h => simp [holds, init] at hx
      | inr t => simp [holds, init, Pc.taken] at hx
    exact (Nat.eq_zero_of_not_pos hnone).symm
  · simp [init]
  · simp [init]
  · simp [init]
  · simp [init]

theorem Inv.releaseCtrl (hi : s.Inv) {h : H} {next : Next H} (hpc : s.pc t = .dropping h next) :
    (s.releaseCtrl t h next).Inv := by
  rw [SharedState.releaseCtrl]
  cases hctrl : s.ctrl h with
  | none => exact hi.finish hpc hctrl
  | some c =>
    dsimp only
    by_cases hone : (s.blocks c).ref = 1
    · rw [if_pos hone]
      exact hi.dropLast hpc hctrl hone
    · rw [if_neg hone]
      apply (hi.dropShared hpc hctrl hone).finish
      · exact hpc
      · simp

omit [Fintype T] in
theorem finish_setPc (p : Pc H) (h : H) (next : Next H) :
    (s.setPc t p).finish t h next = s.finish t h next := by
  cases next <;> simp [SharedState.finish, setPc, setCtrl]

theorem Inv.deleteCtrl (hi : s.Inv) {h : H} {next : Next H} (hpc : s.pc t = .lastOwner h next) :
    (s.deleteCtrl t h next).Inv := by
  obtain ⟨c, hctrl, -, -, -⟩ := hi.recorded.last t h next hpc
  have hdeleted := (hi.deleteLast hpc hctrl rfl).finish (setPc_pc_self _ t (.dropping h next))
    (by simp)
  rw [finish_setPc] at hdeleted
  simpa [SharedState.deleteCtrl, hctrl] using hdeleted

theorem Inv.release (hi : s.Inv) (hidle : s.pc t = .idle) {this : H} (hthis : s.Usable this) :
    (s.release t this).Inv := by
  rw [SharedState.release]
  cases hctrl : s.ctrl this with
  | none => exact hi.returnResult hidle t none
  | some c =>
    dsimp only
    by_cases hone : (s.blocks c).ref = 1
    · rw [if_pos hone]
      exact hi.releaseWin hidle hthis hctrl hone
    · rw [if_neg hone]
      exact hi.returnResult hidle t none

theorem Inv.construct (hi : s.Inv) (hidle : s.pc t = .idle) {this : H} (hthis : this ∉ s.live)
    (rb : ReleasedBuffer D) : (s.construct this rb).Inv := by
  have hempty : (s.addHandle this none).Inv := hi.share hidle hthis (v := none) (by simp)
  rw [SharedState.construct]
  cases hptr : rb.ptr with
  | none => exact hempty
  | some ptr =>
    dsimp only
    by_cases hcount : rb.count = 0
    · rw [if_pos hcount]
      exact hempty
    · rw [if_neg hcount]
      exact hi.allocate hidle hthis rfl rfl rfl rfl rfl

theorem Inv.proceed (hi : s.Inv) (hstep : s.proceed t = some s') : s'.Inv := by
  rw [SharedState.proceed] at hstep
  cases hpc : s.pc t with
  | idle => simp [hpc] at hstep
  | dropping h next =>
    simp only [hpc, Option.some.injEq] at hstep
    rw [← hstep]
    exact hi.releaseCtrl hpc
  | lastOwner h next =>
    simp only [hpc, Option.some.injEq] at hstep
    rw [← hstep]
    exact hi.deleteCtrl hpc
  | moved h other =>
    simp only [hpc, Option.some.injEq] at hstep
    rw [← hstep]
    exact hi.finishMove hpc
  | releasing h =>
    simp only [hpc, Option.some.injEq] at hstep
    obtain ⟨c, hctrl, -, -, -⟩ := hi.recorded.releasing t h hpc
    have htaken := (hi.takeOut hpc hctrl).returnResult (setPc_pc_self _ _ _) t
      (some ⟨some (s.blocks c).ptr, (s.blocks c).size, (s.blocks c).deleter, (s.blocks c).location⟩)
    rw [← hstep]
    simpa [SharedState.takeOut, hctrl] using htaken

theorem Inv.call (hi : s.Inv) (hidle : s.pc t = .idle) {op : Op H D}
    (hstep : s.call t op = some s') : s'.Inv := by
  cases op with
  | defaultConstruct this =>
    obtain ⟨hthis, rfl⟩ : this ∉ s.live ∧ s.addHandle this none = s' := by
      simpa [SharedState.call] using hstep
    exact hi.share hidle hthis (v := none) (by simp)
  | construct this rb =>
    obtain ⟨hthis, rfl⟩ : this ∉ s.live ∧ s.construct this rb = s' := by
      simpa [SharedState.call] using hstep
    exact hi.construct hidle hthis rb
  -- the copied handle still holds its reference, so the count may grow
  | copyConstruct this other =>
    obtain ⟨⟨hthis, hother⟩, rfl⟩ : (this ∉ s.live ∧ s.Usable other) ∧
        (s.fetchAdd (s.ctrl other)).addHandle this (s.ctrl other) = s' := by
      simpa [SharedState.call] using hstep
    apply hi.share hidle hthis
    intro c hctrl
    exact hi.counted.ref_pos_of_usable hother hctrl
  -- self-assignment returns at once, before any count changes
  | copyAssign this other =>
    by_cases husable : s.Usable this ∧ s.Usable other
    · by_cases hself : this = other
      · obtain rfl : s = s' := by simpa [SharedState.call, husable, hself] using hstep
        exact hi
      · simp only [SharedState.call, if_pos husable, if_neg hself, Option.some.injEq] at hstep
        rw [← hstep]
        apply hi.beginAssign hidle husable.1
        intro c hctrl
        exact hi.counted.ref_pos_of_usable husable.2 hctrl
    · simp [SharedState.call, husable] at hstep
  | moveConstruct this other =>
    obtain ⟨⟨hthis, hother⟩, rfl⟩ : (this ∉ s.live ∧ s.Usable other) ∧
        (s.addHandle this (s.ctrl other)).setPc t (.moved this other) = s' := by
      simpa [SharedState.call] using hstep
    exact hi.moveConstruct hidle hthis hother
  | moveAssign this other =>
    by_cases husable : s.Usable this ∧ s.Usable other
    · by_cases hself : this = other
      · obtain rfl : s = s' := by simpa [SharedState.call, husable, hself] using hstep
        exact hi
      · simp only [SharedState.call, if_pos husable, if_neg hself, Option.some.injEq] at hstep
        rw [← hstep]
        apply hi.beginDrop hidle
        · simp [Next.handles, hself]
        · simp [Next.handles, husable]
        · rfl
    · simp [SharedState.call, husable] at hstep
  | swap this other =>
    obtain ⟨⟨hthis, hother⟩, rfl⟩ : (s.Usable this ∧ s.Usable other) ∧
        (s.setCtrl this (s.ctrl other)).setCtrl other (s.ctrl this) = s' := by
      simpa [SharedState.call] using hstep
    exact hi.swap hidle hthis hother
  | reset this =>
    obtain ⟨hthis, rfl⟩ : s.Usable this ∧ s.setPc t (.dropping this .reset) = s' := by
      simpa [SharedState.call] using hstep
    apply hi.beginDrop hidle
    · simp [Next.handles]
    · simpa [Next.handles] using hthis
    · rfl
  | release this =>
    obtain ⟨hthis, rfl⟩ : s.Usable this ∧ s.release t this = s' := by
      simpa [SharedState.call] using hstep
    exact hi.release hidle hthis
  | destroy this =>
    obtain ⟨hthis, rfl⟩ : s.Usable this ∧ s.setPc t (.dropping this .destroy) = s' := by
      simpa [SharedState.call] using hstep
    apply hi.beginDrop hidle
    · simp [Next.handles]
    · simpa [Next.handles] using hthis
    · rfl
  | proceed => simp [SharedState.call] at hstep

theorem inv_step (hi : s.Inv) {l : T × Op H D} (hstep : s.step l = some s') : s'.Inv := by
  obtain ⟨t, op⟩ := l
  by_cases hproceed : op = .proceed
  · rw [hproceed] at hstep
    exact hi.proceed hstep
  · have hcall : (if s.pc t = .idle then s.call t op else none) = some s' := by
      cases op <;> first | exact hstep | exact absurd rfl hproceed
    by_cases hidle : s.pc t = .idle
    · rw [if_pos hidle] at hcall
      exact hi.call hidle hcall
    · simp [hidle] at hcall

theorem inv_run {ls : List (T × Op H D)} (hrun : runFrom step init ls = some s) : s.Inv :=
  runFrom_invariant (fun _ _ _ hi hstep => inv_step hi hstep) inv_init hrun

omit [DecidableEq T] in
/-- A live handle's block is referenced, or a thread is deleting the block through this handle. -/
theorem Inv.referenced_or_deleting (hi : s.Inv) {h : H} {c : Nat} (hlive : h ∈ s.live)
    (hctrl : s.ctrl h = some c) :
    0 < (s.blocks c).ref ∨ ∃ t, (s.pc t).deleting = some h := by
  by_cases hgiven : s.GivenUp h
  · obtain ⟨t, ht⟩ := hgiven
    cases hpc : s.pc t with
    | idle => simp [hpc, Pc.givenUp] at ht
    | dropping k next => simp [hpc, Pc.givenUp] at ht
    | lastOwner k next =>
      rw [hpc] at ht
      exact .inr ⟨t, by rw [hpc]; exact ht⟩
    | releasing k =>
      rw [hpc] at ht
      exact .inr ⟨t, by rw [hpc]; exact ht⟩
    | moved k other =>
      -- the reference is already counted for the handle the pointer was stored in
      left
      rw [hpc, Pc.givenUp, Option.some.injEq] at ht
      have hnodup := hi.shape.nodup t
      have hne : other ≠ k := by
        rintro rfl
        simp [hpc, Pc.handles] at hnodup
      apply hi.ref_pos_of_mine (t := t) (h := k)
      · simp [hpc, Pc.handles]
      · simp [hpc, Pc.givenUp, hne]
      · rw [hi.shape.moved t k other hpc, ht]
        exact hctrl
  · exact .inl (hi.counted.ref_pos_of_handle hlive hgiven hctrl)

omit [DecidableEq T] in
/-- A thread about to delete a block is recorded in it as its last owner or as the one whose
`release()` took it. -/
theorem Inv.of_deleting (hi : s.Inv) {h : H} {c : Nat} (hdeleting : (s.pc t).deleting = some h)
    (hctrl : s.ctrl h = some c) :
    (s.blocks c).deleted = false ∧ c < s.next ∧
      ((s.blocks c).lastOwners = [t] ∨ s.pc t = .releasing h ∧ (s.blocks c).releasedBy = [t]) := by
  cases hpc : s.pc t with
  | idle => simp [hpc, Pc.deleting] at hdeleting
  | dropping k next => simp [hpc, Pc.deleting] at hdeleting
  | moved k other => simp [hpc, Pc.deleting] at hdeleting
  | lastOwner k next =>
    obtain rfl : k = h := by simpa [hpc, Pc.deleting] using hdeleting
    obtain ⟨d, hd, hlt, hdel, hown⟩ := hi.recorded.last t k next hpc
    obtain rfl : c = d := Option.some.inj (hctrl.symm.trans hd)
    exact ⟨hdel, hlt, .inl hown⟩
  | releasing k =>
    obtain rfl : k = h := by simpa [hpc, Pc.deleting] using hdeleting
    obtain ⟨d, hd, hlt, hdel, hown⟩ := hi.recorded.releasing t k hpc
    obtain rfl : c = d := Option.some.inj (hctrl.symm.trans hd)
    exact ⟨hdel, hlt, .inr ⟨rfl, hown⟩⟩

omit [DecidableEq T] in
theorem Inv.live_not_deleted (hi : s.Inv) {h : H} {c : Nat} (hlive : h ∈ s.live)
    (hctrl : s.ctrl h = some c) : (s.blocks c).deleted = false := by
  rcases hi.referenced_or_deleting hlive hctrl with hpos | ⟨t, ht⟩
  · exact (hi.of_ref_pos hpos).2.1
  · exact (hi.of_deleting ht hctrl).1

/-- What holds of the blocks and handles whatever the threads do. -/
structure Correct (s : SharedState H T D) : Prop where
  /-- No live handle refers to a deleted control block. -/
  live_not_deleted : ∀ h ∈ s.live, ∀ c, s.ctrl h = some c → (s.blocks c).deleted = false
  /-- The count is the number of references held by handles and calls in progress. -/
  ref_eq : ∀ c, (s.blocks c).ref = s.references c
  /-- The deleter is run at most once, by the thread that dropped the last reference. -/
  deleter_once : ∀ c, (s.blocks c).deleterRuns.length ≤ 1
  deleter_by : ∀ c, ∀ t ∈ (s.blocks c).deleterRuns, (s.blocks c).lastOwners = [t]
  last_reference : ∀ c, (s.blocks c).lastOwners ≠ [] → s.references c = 0
  /-- A deleted block was dropped by its last owner, which ran the deleter if there is one, or taken
  by `release()`, and then the deleter was not run. -/
  deleted_by : ∀ c, (s.blocks c).deleted = true →
    (∃ t, (s.blocks c).lastOwners = [t] ∧ (s.blocks c).releasedBy = [] ∧
      (s.blocks c).deleterRuns = if (s.blocks c).deleter.isSome then [t] else []) ∨
    ∃ t, (s.blocks c).releasedBy = [t] ∧ (s.blocks c).deleterRuns = []
  /-- A block without references is deleted, unless a thread is just about to delete it. -/
  collected : ∀ c, c < s.next → s.references c = 0 →
    (∀ t h, (s.pc t).deleting = some h → s.ctrl h ≠ some c) → (s.blocks c).deleted = true
  /-- `release()` succeeds for at most one caller, and then no reference and no other handle is
  left and the deleter is not run. -/
  release_once : ∀ c, (s.blocks c).releasedBy.length ≤ 1
  release_alone : ∀ c, (s.blocks c).releasedBy ≠ [] → s.references c = 0 ∧
    (s.blocks c).deleterRuns = [] ∧ (s.blocks c).lastOwners = [] ∧
    ∀ h ∈ s.live, s.ctrl h = some c → ∃ t ∈ (s.blocks c).releasedBy, s.pc t = .releasing h

omit [DecidableEq T] in
/-- The phase of a block, as far as its own record shows it. -/
theorem Inv.record (hi : s.Inv) (c : Nat) :
    ((s.blocks c).lastOwners = [] ∧ (s.blocks c).releasedBy = [] ∧
        (s.blocks c).deleterRuns = [] ∧ (s.blocks c).deleted = false) ∨
      (s.blocks c).ref = 0 ∧ ((∃ t, (s.blocks c).lastOwners = [t] ∧ (s.blocks c).releasedBy = [] ∧
        ((s.blocks c).deleterRuns = [] ∧ (s.blocks c).deleted = false ∨
          (s.blocks c).deleterRuns = if (s.blocks c).deleter.isSome then [t] else [])) ∨
      ∃ t, (s.blocks c).releasedBy = [t] ∧ (s.blocks c).lastOwners = [] ∧
        (s.blocks c).deleterRuns = []) := by
  by_cases hc : c < s.next
  · cases hi.recorded.phase c hc with
    | held href hdel hlast hruns hrel => exact .inl ⟨hlast, hrel, hruns, hdel⟩
    | dropping t h next hpc hctrl href hdel hlast hruns hrel =>
      exact .inr ⟨href, .inl ⟨t, hlast, hrel, .inl ⟨hruns, hdel⟩⟩⟩
    | releasing t h hpc hctrl href hdel hlast hruns hrel =>
      exact .inr ⟨href, .inr ⟨t, hrel, hlast, hruns⟩⟩
    | dropped t href hdel hlast hruns hrel =>
      exact .inr ⟨href, .inl ⟨t, hlast, hrel, .inr hruns⟩⟩
    | released t href hdel hlast hruns hrel =>
      exact .inr ⟨href, .inr ⟨t, hrel, hlast, hruns⟩⟩
  · rw [hi.recorded.unused c (by omega)]
    exact .inl ⟨rfl, rfl, rfl, rfl⟩

omit [DecidableEq T] in
theorem Inv.correct (hi : s.Inv) : s.Correct := by
  -- every field is read off the phase in which the block is
  refine ⟨?_, hi.counted, ?_, ?_, ?_, ?_, ?_, ?_, ?_⟩
  · intro h hlive c hctrl
    exact hi.live_not_deleted hlive hctrl
  · intro c
    rcases hi.record c with ⟨-, -, hruns, -⟩ | ⟨-, ⟨t, -, -, ⟨hruns, -⟩ | hruns⟩ | ⟨t, -, -, hruns⟩⟩
    · simp [hruns]
    · simp [hruns]
    · rw [hruns]
      split <;> simp
    · simp [hruns]
  · intro c u hu
    rcases hi.record c with
      ⟨-, -, hruns, -⟩ | ⟨-, ⟨t, hlast, -, ⟨hruns, -⟩ | hruns⟩ | ⟨t, -, -, hruns⟩⟩
    · simp [hruns] at hu
    · simp [hruns] at hu
    · rw [hruns] at hu
      have hut : u = t := by
        split at hu
        · exact List.mem_singleton.1 hu
        · exact absurd hu List.not_mem_nil
      rw [hut]
      exact hlast
    · simp [hruns] at hu
  -- the last owner found the count at one
  · intro c hlast
    rcases hi.record c with ⟨hnone, -, -, -⟩ | ⟨href, -⟩
    · exact absurd hnone hlast
    · rw [← hi.counted c]
      exact href
  · intro c hdeleted
    rcases hi.record c with
      ⟨-, -, -, hdel⟩ | ⟨-, ⟨t, hlast, hrel, ⟨-, hdel⟩ | hruns⟩ | ⟨t, hrel, -, hruns⟩⟩
    · simp [hdel] at hdeleted
    · simp [hdel] at hdeleted
    · exact .inl ⟨t, hlast, hrel, hruns⟩
    · exact .inr ⟨t, hrel, hruns⟩
  -- a block without references is in a phase of its deletion
  · intro c hc hnoref hnone
    rw [← hi.counted c] at hnoref
    cases hi.recorded.phase c hc with
    | held href hdel hlast hruns hrel => omega
    | dropping t h next hpc hctrl href hdel hlast hruns hrel =>
      exact absurd hctrl (hnone t h (by rw [hpc]; rfl))
    | releasing t h hpc hctrl href hdel hlast hruns hrel =>
      exact absurd hctrl (hnone t h (by rw [hpc]; rfl))
    | dropped t href hdel hlast hruns hrel => exact hdel
    | released t href hdel hlast hruns hrel => exact hdel
  · intro c
    rcases hi.record c with ⟨-, hrel, -, -⟩ | ⟨-, ⟨t, -, hrel, -⟩ | ⟨t, hrel, -, -⟩⟩
    · simp [hrel]
    · simp [hrel]
    · simp [hrel]
  -- the winner of `release()` has cleared the only handle, or is about to
  · intro c hreleased
    rcases hi.record c with ⟨-, hrel, -, -⟩ | ⟨href, ⟨t, -, hrel, -⟩ | ⟨t, hrel, hlast, hruns⟩⟩
    · exact absurd hrel hreleased
    · exact absurd hrel hreleased
    · refine ⟨by rw [← hi.counted c]; exact href, hruns, hlast, ?_⟩
      intro h hlive hctrl
      rcases hi.referenced_or_deleting hlive hctrl with hpos | ⟨u, hu⟩
      · omega
      · rcases (hi.of_deleting hu hctrl).2.2 with hown | ⟨hpc, hown⟩
        · simp [hlast] at hown
        · exact ⟨u, by simp [hown], hpc⟩

omit [DecidableEq T] in
/-- The count of a block never exceeds the number of live handles and threads. -/
theorem Inv.ref_le (hi : s.Inv) (c : Nat) : (s.blocks c).ref ≤ s.live.card + Fintype.card T := by
  rw [hi.counted c]
  apply (refCount_le_card _ _ c).trans
  rw [Finset.card_disjSum, Finset.card_univ]

/-- Whatever calls the threads make and however their steps interleave, every state is correct. -/
theorem run_correct {ls : List (T × Op H D)} (hrun : runFrom step init ls = some s) : s.Correct :=
  (inv_run hrun).correct

/-- Two threads give up the last two handles of a block at the same time. -/
def sampleRun : List (Fin 2 × Op Nat Unit) :=
  [(0, .construct 0 ⟨some 16, 4, some (), .Host⟩), (0, .copyConstruct 1 0), (0, .destroy 0),
    (1, .reset 1), (0, .proceed), (1, .proceed), (1, .proceed)]

theorem sampleRun_correct :
    ((runFrom step init sampleRun).get (by decide)).Correct :=
  run_correct (Option.some_get _).symm

end SharedState

end PipelineTools.Memory
