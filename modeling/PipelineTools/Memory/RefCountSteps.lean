import PipelineTools.Memory.RefCountInvariant

/-!
# The calls of `shared_buffer` keep the invariant

One lemma for each thing a step can do: a handle takes a reference, a call begins, `release_ctrl`
gives a reference up, the last owner deletes the block, a call ends. Each names the handles the step
touches and compares what they hold before and after.
-/

set_option autoImplicit false

namespace PipelineTools.Memory

open PipelineTools.Library

namespace SharedState

variable {H T D : Type} [DecidableEq H] [DecidableEq T] [Fintype T] {s s' : SharedState H T D}
  {t : T}

omit [DecidableEq H] [DecidableEq T] [Fintype T] in
/-- A reference is only added to a block that has one. -/
theorem fetchAdd_adjusts {v : Option Nat} (hv : ∀ c, v = some c → 0 < (s.blocks c).ref) (c : Nat) :
    (s.fetchAdd v).blocks c = s.blocks c ∨ ∃ n, 0 < n ∧ 0 < (s.blocks c).ref ∧
      (s.fetchAdd v).blocks c = { s.blocks c with ref := n } := by
  rw [fetchAdd_blocks]
  by_cases hvc : v = some c
  · rw [if_pos hvc]
    exact .inr ⟨(s.blocks c).ref + 1, Nat.succ_pos _, hv c hvc, rfl⟩
  · rw [if_neg hvc]
    exact .inl rfl

/-- A new handle takes a reference to the block `v`, or is empty. -/
theorem Inv.share (hi : s.Inv) (hidle : s.pc t = .idle) {this : H} (hthis : this ∉ s.live)
    {v : Option Nat} (hv : ∀ c, v = some c → 0 < (s.blocks c).ref) :
    ((s.fetchAdd v).addHandle this v).Inv := by
  have hloc : Local t [this] s ((s.fetchAdd v).addHandle this v) := by
    apply Local.of_idle hidle (List.nodup_singleton _)
    · intro h hh u hmem
      obtain rfl := List.mem_singleton.1 hh
      exact hthis (hi.shape.live u h hmem)
    · simp [hidle, Pc.handles]
    · simp
    · intro h hh
      simp [List.mem_singleton.not.1 hh]
    · intro h hh
      rw [addHandle_ctrl_of_ne _ (List.mem_singleton.not.1 hh), fetchAdd_ctrl]
  apply hi.adjust hloc
  · simp
  · intro c
    rw [addHandle_blocks]
    exact fetchAdd_adjusts hv c
  · simp [hidle, Pc.deleting]
  · simp [hidle, Pc.deleting]
  · simp [hidle, Pc.handles]
  · simp [hidle, Pc.handles]
  · simp [hidle]
  · intro c
    by_cases hvc : v = some c
    · simp [fetchAdd_blocks, held, hthis, hidle, Pc.givenUp, Pc.taken, hvc]
    · simp [fetchAdd_blocks, held, hthis, hidle, Pc.givenUp, Pc.taken, hvc]

/-- Copy assignment takes the new reference before it gives up the old one. -/
theorem Inv.beginAssign (hi : s.Inv) (hidle : s.pc t = .idle) {this : H} (hthis : s.Usable this)
    {v : Option Nat} (hv : ∀ c, v = some c → 0 < (s.blocks c).ref) :
    ((s.fetchAdd v).setPc t (.dropping this (.assign v))).Inv := by
  have hloc : Local t [this] s ((s.fetchAdd v).setPc t (.dropping this (.assign v))) := by
    apply Local.of_idle hidle (List.nodup_singleton _)
    · intro h hh u hmem
      obtain rfl := List.mem_singleton.1 hh
      exact hthis.2 u hmem
    · simp [Pc.handles, Next.handles]
    · intro u hu
      rw [setPc_pc_of_ne _ hu, fetchAdd_pc]
    · simp
    · simp
  apply hi.adjust hloc
  · simp
  · intro c
    rw [setPc_blocks]
    exact fetchAdd_adjusts hv c
  · simp [hidle, Pc.deleting]
  · simp [Pc.deleting]
  · simp [Pc.handles, Next.handles]
  · simpa [Pc.handles, Next.handles] using hthis.1
  · simp
  -- the call, not yet the handle, holds the new reference
  · intro c
    by_cases hvc : v = some c
    · simp [fetchAdd_blocks, held, hidle, Pc.givenUp, Pc.taken, Next.taken, hvc]
      omega
    · simp [fetchAdd_blocks, held, hidle, Pc.givenUp, Pc.taken, Next.taken, hvc]

/-- `reset`, the destructor and move assignment start by going to `release_ctrl`. -/
theorem Inv.beginDrop (hi : s.Inv) (hidle : s.pc t = .idle) {this : H} {next : Next H}
    (hnodup : (this :: next.handles).Nodup) (husable : ∀ h ∈ this :: next.handles, s.Usable h)
    (htaken : next.taken = none) : (s.setPc t (.dropping this next)).Inv := by
  have hloc : Local t (this :: next.handles) s (s.setPc t (.dropping this next)) := by
    apply Local.of_idle hidle hnodup
    · intro h hh u
      exact (husable h hh).2 u
    · simp [Pc.handles]
    · intro u hu
      exact setPc_pc_of_ne _ hu _
    · simp
    · simp
  apply hi.quiet hloc
  · rfl
  · rfl
  · simp [hidle, Pc.deleting]
  · simp [Pc.deleting]
  · simpa [Pc.handles] using hnodup
  · intro h hh
    rw [setPc_pc_self] at hh
    exact (husable h hh).1
  · simp
  · intro c
    simp [held, hidle, Pc.givenUp, Pc.taken, htaken]

theorem Inv.moveConstruct (hi : s.Inv) (hidle : s.pc t = .idle) {this other : H}
    (hthis : this ∉ s.live) (hother : s.Usable other) :
    ((s.addHandle this (s.ctrl other)).setPc t (.moved this other)).Inv := by
  have hne : other ≠ this := by
    rintro rfl
    exact hthis hother.1
  have hloc : Local t [this, other] s
      ((s.addHandle this (s.ctrl other)).setPc t (.moved this other)) := by
    apply Local.of_idle hidle
    · simp [hne.symm]
    · intro h hh u hmem
      simp only [List.mem_cons, List.not_mem_nil, or_false] at hh
      rcases hh with rfl | rfl
      · exact hthis (hi.shape.live u h hmem)
      · exact hother.2 u hmem
    · simp [Pc.handles]
    · intro u hu
      rw [setPc_pc_of_ne _ hu, addHandle_pc]
    · intro h hh
      simp only [List.mem_cons, List.not_mem_nil, or_false, not_or] at hh
      simp [hh.1]
    · intro h hh
      simp only [List.mem_cons, List.not_mem_nil, or_false, not_or] at hh
      rw [setPc_ctrl, addHandle_ctrl_of_ne _ hh.1]
  apply hi.quiet hloc
  · rfl
  · rfl
  · simp [hidle, Pc.deleting]
  · simp [Pc.deleting]
  · simp [Pc.handles, hne.symm]
  · simp [Pc.handles, hother.1]
  · intro h k hpc
    rw [setPc_pc_self, Pc.moved.injEq] at hpc
    obtain ⟨rfl, rfl⟩ := hpc
    rw [setPc_ctrl, addHandle_ctrl_self, addHandle_ctrl_of_ne _ hne]
  -- both pointers agree, and only the new handle is counted
  · intro c
    simp [held, hidle, hthis, hother.1, hne, Pc.givenUp, Pc.taken, List.countP_cons]

theorem Inv.swap (hi : s.Inv) (hidle : s.pc t = .idle) {this other : H} (hthis : s.Usable this)
    (hother : s.Usable other) :
    ((s.setCtrl this (s.ctrl other)).setCtrl other (s.ctrl this)).Inv := by
  -- a swap of a handle with itself stores back what was there
  by_cases hne : this = other
  · have hsame : (s.setCtrl this (s.ctrl other)).setCtrl other (s.ctrl this) = s := by
      rw [← hne]
      simp [setCtrl]
    rw [hsame]
    exact hi
  · have hloc : Local t [this, other] s
        ((s.setCtrl this (s.ctrl other)).setCtrl other (s.ctrl this)) := by
      apply Local.of_idle hidle
      · simp [hne]
      · intro h hh u
        simp only [List.mem_cons, List.not_mem_nil, or_false] at hh
        rcases hh with rfl | rfl
        · exact hthis.2 u
        · exact hother.2 u
      · simp [hidle, Pc.handles]
      · simp
      · simp
      · intro h hh
        simp only [List.mem_cons, List.not_mem_nil, or_false, not_or] at hh
        rw [setCtrl_ctrl_of_ne _ hh.2, setCtrl_ctrl_of_ne _ hh.1]
    apply hi.quiet hloc
    · rfl
    · rfl
    · simp [hidle, Pc.deleting]
    · simp [hidle, Pc.deleting]
    · simp [hidle, Pc.handles]
    · simp [hidle, Pc.handles]
    · simp [hidle]
    · intro c
      simp [held, hidle, hthis.1, hother.1, setCtrl_ctrl_of_ne _ hne, Pc.givenUp, Pc.taken,
        List.countP_cons]
      omega

section Finish

variable (s : SharedState H T D) (t : T) (h : H) (next : Next H)

omit [Fintype T] in
@[simp] theorem finish_blocks : (s.finish t h next).blocks = s.blocks := by
  cases next <;> rfl

omit [Fintype T] in
@[simp] theorem finish_next : (s.finish t h next).next = s.next := by
  cases next <;> rfl

omit [Fintype T] in
theorem finish_pc_of_ne {u : T} (hu : u ≠ t) : (s.finish t h next).pc u = s.pc u := by
  cases next <;> exact setPc_pc_of_ne _ hu _

omit [Fintype T] in
theorem finish_pc_self :
    (s.finish t h next).pc t = match next with
      | .moveFrom other => .moved h other
      | _ => .idle := by
  cases next <;> exact setPc_pc_self _ _ _

omit [Fintype T] in
theorem finish_ctrl_of_ne {k : H} (hk : k ≠ h) : (s.finish t h next).ctrl k = s.ctrl k := by
  cases next with
  | destroy => rfl
  | reset => exact setCtrl_ctrl_of_ne _ hk _
  | assign v => exact setCtrl_ctrl_of_ne _ hk _
  | moveFrom other => exact setCtrl_ctrl_of_ne _ hk _

omit [Fintype T] in
theorem finish_live_of_ne {k : H} (hk : k ≠ h) : k ∈ (s.finish t h next).live ↔ k ∈ s.live := by
  cases next with
  | destroy => simp [SharedState.finish, hk]
  | reset => rfl
  | assign v => rfl
  | moveFrom other => rfl

end Finish

theorem Inv.local_finish (hi : s.Inv) {h : H} {next : Next H} (hpc : s.pc t = .dropping h next) :
    Local t (s.pc t).handles s (s.finish t h next) := by
  have hne : ∀ k, k ∉ (s.pc t).handles → k ≠ h := by
    rintro k hk rfl
    exact hk (by simp [hpc, Pc.handles])
  apply Local.of_call hi.shape
  · rw [finish_pc_self, hpc]
    cases next <;> simp [Pc.handles, Next.handles]
  · intro u hu
    exact finish_pc_of_ne _ _ _ _ hu
  · intro k hk
    exact finish_live_of_ne _ _ _ _ (hne k hk)
  · intro k hk
    exact finish_ctrl_of_ne _ _ _ _ (hne k hk)

/-- After `release_ctrl` a call goes on with a null pointer in its handle. What the call had taken,
or the other handle's reference, passes to the handle. -/
theorem Inv.count_finish (hi : s.Inv) {h : H} {next : Next H} (hpc : s.pc t = .dropping h next)
    (hctrl : s.ctrl h = none) (c : Nat) :
    (s.pc t).handles.countP (fun k => s.held t k = some c) +
        (if (s.pc t).taken = some c then 1 else 0) =
      (s.pc t).handles.countP (fun k => (s.finish t h next).held t k = some c) +
        if ((s.finish t h next).pc t).taken = some c then 1 else 0 := by
  have hlive : h ∈ s.live := hi.shape.live t h (by simp [hpc, Pc.handles])
  cases next with
  | reset =>
    simp [SharedState.finish, hpc, held, hctrl, Pc.handles, Pc.givenUp, Pc.taken, Next.handles,
      Next.taken]
  | destroy =>
    simp [SharedState.finish, hpc, held, hctrl, Pc.handles, Pc.givenUp, Pc.taken, Next.handles,
      Next.taken]
  | assign v =>
    simp [SharedState.finish, hpc, held, hctrl, hlive, Pc.handles, Pc.givenUp, Pc.taken,
      Next.handles, Next.taken, List.countP_cons]
  | moveFrom other =>
    have hnodup := hi.shape.nodup t
    have hne : other ≠ h := by
      rintro rfl
      simp [hpc, Pc.handles, Next.handles] at hnodup
    have hother : other ∈ s.live :=
      hi.shape.live t other (by simp [hpc, Pc.handles, Next.handles])
    simp [SharedState.finish, hpc, held, hctrl, hlive, hother, hne, Pc.handles, Pc.givenUp,
      Pc.taken, Next.handles, Next.taken, List.countP_cons]

theorem Inv.finish (hi : s.Inv) {h : H} {next : Next H} (hpc : s.pc t = .dropping h next)
    (hctrl : s.ctrl h = none) : (s.finish t h next).Inv := by
  have hnodup : (h :: next.handles).Nodup := by
    have hall := hi.shape.nodup t
    rwa [hpc] at hall
  have hlive : ∀ k ∈ h :: next.handles, k ∈ s.live := by
    intro k hk
    exact hi.shape.live t k (by rwa [hpc])
  apply hi.quiet (hi.local_finish hpc)
  · exact finish_next _ _ _ _
  · exact finish_blocks _ _ _ _
  · simp [hpc, Pc.deleting]
  · rw [finish_pc_self]
    cases next <;> rfl
  · rw [finish_pc_self]
    cases next with
    | moveFrom other => exact hnodup
    | reset => exact List.nodup_nil
    | destroy => exact List.nodup_nil
    | assign v => exact List.nodup_nil
  · rw [finish_pc_self]
    cases next with
    | moveFrom other => exact hlive
    | reset => simp [Pc.handles]
    | destroy => simp [Pc.handles]
    | assign v => simp [Pc.handles]
  -- only move assignment goes on, with both pointers equal
  · intro d k hmoved
    rw [finish_pc_self] at hmoved
    cases next with
    | moveFrom other =>
      obtain ⟨rfl, rfl⟩ := Pc.moved.inj hmoved
      have hne : other ≠ h := by
        rintro rfl
        simp [Next.handles] at hnodup
      simp [SharedState.finish, setCtrl_ctrl_of_ne _ hne]
    | reset => simp at hmoved
    | destroy => simp at hmoved
    | assign v => simp at hmoved
  · exact hi.count_finish hpc hctrl

/-- A move ends by clearing the pointer of its source. -/
theorem Inv.finishMove (hi : s.Inv) {h other : H} (hpc : s.pc t = .moved h other) :
    ((s.setCtrl other none).setPc t .idle).Inv := by
  have hnodup := hi.shape.nodup t
  rw [hpc] at hnodup
  have hne : h ≠ other := by
    rintro rfl
    simp [Pc.handles] at hnodup
  have hlive : h ∈ s.live := hi.shape.live t h (by simp [hpc, Pc.handles])
  have hloc : Local t (s.pc t).handles s ((s.setCtrl other none).setPc t .idle) := by
    apply Local.of_call hi.shape
    · simp [Pc.handles]
    · intro u hu
      exact setPc_pc_of_ne _ hu _
    · simp
    · intro k hk
      apply setCtrl_ctrl_of_ne
      rintro rfl
      exact hk (by simp [hpc, Pc.handles])
  apply hi.quiet hloc rfl rfl
  · simp [hpc, Pc.deleting]
  · simp [Pc.deleting]
  · simp [Pc.handles]
  · simp [Pc.handles]
  · simp
  · intro c
    simp [hpc, held, hlive, hne.symm, setCtrl_ctrl_of_ne _ hne, Pc.handles, Pc.givenUp,
      Pc.taken, List.countP_cons]

omit [DecidableEq T] in
/-- The handles of a call are distinct. -/
theorem Inv.ne_of_mem_next (hi : s.Inv) {h : H} {next : Next H}
    (hpc : (s.pc t).handles = h :: next.handles) : ∀ k ∈ next.handles, k ≠ h := by
  have hnodup := hi.shape.nodup t
  rw [hpc] at hnodup
  rintro k hk rfl
  exact (List.nodup_cons.1 hnodup).1 hk

/-- `fetch_sub` on a block that has other references. -/
theorem Inv.dropShared (hi : s.Inv) {h : H} {next : Next H} (hpc : s.pc t = .dropping h next)
    {c : Nat} (hctrl : s.ctrl h = some c) (hshared : (s.blocks c).ref ≠ 1) :
    ((s.setBlock c { s.blocks c with ref := (s.blocks c).ref - 1 }).setCtrl h none).Inv := by
  have hpos : 0 < (s.blocks c).ref := by
    apply hi.ref_pos_of_mine (t := t) _ _ hctrl
    · simp [hpc, Pc.handles]
    · simp [hpc, Pc.givenUp]
  have hlive : h ∈ s.live := hi.shape.live t h (by simp [hpc, Pc.handles])
  have hnodup := hi.shape.nodup t
  have hloc : Local t (s.pc t).handles s
      ((s.setBlock c { s.blocks c with ref := (s.blocks c).ref - 1 }).setCtrl h none) := by
    apply Local.of_call hi.shape
    · simp
    · simp
    · simp
    · intro k hk
      apply setCtrl_ctrl_of_ne
      rintro rfl
      exact hk (by simp [hpc, Pc.handles])
  apply hi.adjust hloc
  · simp
  · intro d
    by_cases hd : d = c
    · rw [hd]
      refine .inr ⟨(s.blocks c).ref - 1, by omega, hpos, ?_⟩
      exact setBlock_blocks_self _ _ _
    · exact .inl (setBlock_blocks_of_ne _ hd _)
  · simp [hpc, Pc.deleting]
  · simp [hpc, Pc.deleting]
  · simpa using hnodup
  · intro k hk
    exact hi.shape.live t k (by simpa using hk)
  · simp [hpc]
  -- the reference of `h` is the only one that goes
  · intro d
    have hother := hi.ne_of_mem_next
      (show (s.pc t).handles = h :: next.handles by simp [hpc, Pc.handles])
    have hrest : ∀ k ∈ next.handles, ((s.setBlock c
        { s.blocks c with ref := (s.blocks c).ref - 1 }).setCtrl h none).held t k =
          s.held t k := by
      intro k hk
      simp [held, setCtrl_ctrl_of_ne _ (hother k hk)]
    have hbefore : s.held t h = some c := by
      simp [held, hlive, hpc, Pc.givenUp, hctrl]
    have hafter : ((s.setBlock c
        { s.blocks c with ref := (s.blocks c).ref - 1 }).setCtrl h none).held t h = none := by
      simp [held]
    rw [hpc]
    simp only [Pc.handles, List.countP_cons, countP_held hrest d, hbefore, hafter]
    by_cases hd : d = c
    · simp [hd, hpc]
      omega
    · simp [Ne.symm hd, setBlock_blocks_of_ne _ hd, hpc]

/-- `fetch_sub` on the last reference: the thread becomes the one that deletes the block. -/
theorem Inv.dropLast (hi : s.Inv) {h : H} {next : Next H} (hpc : s.pc t = .dropping h next)
    {c : Nat} (hctrl : s.ctrl h = some c) (hone : (s.blocks c).ref = 1) :
    ((s.setBlock c { s.blocks c with
        ref := (s.blocks c).ref - 1, lastOwners := (s.blocks c).lastOwners ++ [t] }).setPc t
      (.lastOwner h next)).Inv := by
  obtain ⟨hc, hdel, hlast, hruns, hrel⟩ := hi.of_ref_pos (c := c) (by omega)
  have hlive : ∀ k ∈ (s.pc t).handles, k ∈ s.live := hi.shape.live t
  have hnodup := hi.shape.nodup t
  generalize hs' : (s.setBlock c { s.blocks c with
    ref := (s.blocks c).ref - 1, lastOwners := (s.blocks c).lastOwners ++ [t] }).setPc t
      (.lastOwner h next) = s'
  have hpc' : s'.pc t = .lastOwner h next := by simp [← hs']
  have hblock : s'.blocks c = { s.blocks c with ref := 0, lastOwners := [t] } := by
    simp [← hs', hone, hlast]
  have hctrl' : s'.ctrl = s.ctrl := by simp [← hs']
  have hlive' : s'.live = s.live := by simp [← hs']
  have hsame : (s'.pc t).handles = (s.pc t).handles := by simp [hpc', hpc, Pc.handles]
  have hloc : Local t (s.pc t).handles s s' := by
    apply Local.of_call hi.shape
    · simp [hsame]
    · intro u hu
      rw [← hs', setPc_pc_of_ne _ hu, setBlock_pc]
    · simp [hlive']
    · simp [hctrl']
  apply hi.step hloc
  · apply hi.shape.step hloc
    · rw [hsame]
      exact hnodup
    · rw [hsame, hlive']
      exact hlive
    · simp [hpc']
  -- the block leaves the first phase with this thread as its last owner
  · apply hi.recorded.replace hloc hc (b := s'.blocks c)
    · simp [← hs']
    · rw [hblock, ← hs']
      simp [setBlock, hone, hlast]
    · apply Phase.dropping t h next hpc' (by rw [hctrl']; exact hctrl)
      · rw [hblock]
      · rw [hblock]
        exact hdel
      · rw [hblock]
      · rw [hblock]
        exact hruns
      · rw [hblock]
        exact hrel
    · simp [hpc, Pc.deleting]
    · simp [hlast, hrel]
    · intro k next' hk
      rw [hpc', Pc.lastOwner.injEq] at hk
      obtain ⟨rfl, rfl⟩ := hk
      rw [hctrl', hblock]
      exact ⟨hctrl, hdel, rfl⟩
    · simp [hpc']
  -- `h` keeps its pointer, but no reference
  · intro d
    have hother := hi.ne_of_mem_next
      (show (s.pc t).handles = h :: next.handles by simp [hpc, Pc.handles])
    have hrest : ∀ k ∈ next.handles, s'.held t k = s.held t k := by
      intro k hk
      simp [held, hlive', hctrl', hpc', hpc, Pc.givenUp, (hother k hk).symm]
    have hbefore : s.held t h = some c := by
      have hh : h ∈ s.live := hlive h (by simp [hpc, Pc.handles])
      simp [held, hh, hpc, Pc.givenUp, hctrl]
    have hafter : s'.held t h = none := by simp [held, hpc', Pc.givenUp]
    simp only [hpc, hpc', Pc.handles, Pc.taken, List.countP_cons, countP_held hrest d, hbefore,
      hafter]
    by_cases hd : d = c
    · simp [hd, hblock, hone]
      omega
    · have hold : s'.blocks d = s.blocks d := by
        rw [← hs']
        exact setBlock_blocks_of_ne _ hd _
      simp [Ne.symm hd, hold]

/-- The last owner has called the deleter, deleted the block and cleared its pointer. -/
theorem Inv.deleteLast (hi : s.Inv) {h : H} {next : Next H} (hpc : s.pc t = .lastOwner h next)
    {c : Nat} (hctrl : s.ctrl h = some c) {runs : List T}
    (hruns' : runs = if (s.blocks c).deleter.isSome then (s.blocks c).deleterRuns ++ [t]
      else (s.blocks c).deleterRuns) :
    (((s.setBlock c { s.blocks c with deleterRuns := runs, deleted := true }).setCtrl h
      none).setPc t (.dropping h next)).Inv := by
  obtain ⟨hc, href, hown, hruns, hrel⟩ := hi.of_lastOwner hpc hctrl
  rw [hruns, List.nil_append] at hruns'
  have hlive : ∀ k ∈ (s.pc t).handles, k ∈ s.live := hi.shape.live t
  have hnodup := hi.shape.nodup t
  generalize hs' : ((s.setBlock c { s.blocks c with
    deleterRuns := runs, deleted := true }).setCtrl h none).setPc t (.dropping h next) = s'
  have hpc' : s'.pc t = .dropping h next := by simp [← hs']
  have hblocks : s'.blocks = Function.update s.blocks c { s.blocks c with
    deleterRuns := runs, deleted := true } := by
    rw [← hs']
    rfl
  have hblock : s'.blocks c = { s.blocks c with deleterRuns := runs, deleted := true } := by
    simp [hblocks]
  have hctrl' : ∀ k, k ≠ h → s'.ctrl k = s.ctrl k := by
    intro k hk
    rw [← hs', setPc_ctrl, setCtrl_ctrl_of_ne _ hk, setBlock_ctrl]
  have hlive' : s'.live = s.live := by simp [← hs']
  have hsame : (s'.pc t).handles = (s.pc t).handles := by simp [hpc', hpc, Pc.handles]
  have hloc : Local t (s.pc t).handles s s' := by
    apply Local.of_call hi.shape
    · simp [hsame]
    · intro u hu
      rw [← hs', setPc_pc_of_ne _ hu, setCtrl_pc, setBlock_pc]
    · simp [hlive']
    · intro k hk
      apply hctrl'
      rintro rfl
      exact hk (by simp [hpc, Pc.handles])
  apply hi.step hloc
  · apply hi.shape.step hloc
    · rw [hsame]
      exact hnodup
    · rw [hsame, hlive']
      exact hlive
    · simp [hpc']
  · apply hi.recorded.replace hloc hc _ hblocks
    · apply Phase.dropped t
      · rw [hblock]
        exact href
      · rw [hblock]
      · rw [hblock]
        exact hown
      · rw [hblock]
        exact hruns'
      · rw [hblock]
        exact hrel
    -- the thread deletes the one block its handle points to
    · intro k e hk hke
      rw [hpc, Pc.deleting, Option.some.injEq] at hk
      rw [← hk, hctrl, Option.some.injEq] at hke
      exact hke.symm
    · intro u hu
      simp [hown, hrel, Ne.symm hu]
    · simp [hpc']
    · simp [hpc']
    · simp [← hs']
  -- no count changes: the reference went with `fetch_sub`
  · intro d
    have hother := hi.ne_of_mem_next
      (show (s.pc t).handles = h :: next.handles by simp [hpc, Pc.handles])
    have hrest : ∀ k ∈ next.handles, s'.held t k = s.held t k := by
      intro k hk
      simp [held, hlive', hctrl' k (hother k hk), hpc', hpc, Pc.givenUp, (hother k hk).symm]
    have hbefore : s.held t h = none := by simp [held, hpc, Pc.givenUp]
    have hafter : s'.held t h = none := by simp [held, ← hs']
    have href' : (s'.blocks d).ref = (s.blocks d).ref := by
      by_cases hd : d = c
      · rw [hd, hblock]
      · rw [hblocks, Function.update_of_ne hd]
    simp only [hpc, hpc', Pc.handles, Pc.taken, List.countP_cons, countP_held hrest d, hbefore,
      hafter, href']

/-- A `compare_exchange` that finds the count `1` makes the caller the one that takes the block. -/
theorem Inv.releaseWin (hi : s.Inv) (hidle : s.pc t = .idle) {this : H} (hthis : s.Usable this)
    {c : Nat} (hctrl : s.ctrl this = some c) (hone : (s.blocks c).ref = 1) :
    ((s.setBlock c { s.blocks c with
        ref := 0, releasedBy := (s.blocks c).releasedBy ++ [t] }).setPc t
      (.releasing this)).Inv := by
  obtain ⟨hc, hdel, hlast, hruns, hrel⟩ := hi.of_ref_pos (c := c) (by omega)
  generalize hs' : (s.setBlock c { s.blocks c with
    ref := 0, releasedBy := (s.blocks c).releasedBy ++ [t] }).setPc t (.releasing this) = s'
  have hpc' : s'.pc t = .releasing this := by simp [← hs']
  have hblocks : s'.blocks = Function.update s.blocks c { s.blocks c with
    ref := 0, releasedBy := [t] } := by
    rw [← hs', hrel]
    rfl
  have hblock : s'.blocks c = { s.blocks c with ref := 0, releasedBy := [t] } := by
    simp [hblocks]
  have hctrl' : s'.ctrl = s.ctrl := by simp [← hs']
  have hlive' : s'.live = s.live := by simp [← hs']
  have hloc : Local t [this] s s' := by
    apply Local.of_idle hidle (List.nodup_singleton _)
    · simpa using hthis.2
    · simp [hpc', Pc.handles]
    · intro u hu
      rw [← hs', setPc_pc_of_ne _ hu, setBlock_pc]
    · simp [hlive']
    · simp [hctrl']
  apply hi.step hloc
  · apply hi.shape.step hloc
    · simp [hpc', Pc.handles]
    · simpa [hpc', Pc.handles, hlive'] using hthis.1
    · simp [hpc']
  · apply hi.recorded.replace hloc hc _ hblocks
    · apply Phase.releasing t this hpc' (by rw [hctrl']; exact hctrl)
      · rw [hblock]
      · rw [hblock]
        exact hdel
      · rw [hblock]
        exact hlast
      · rw [hblock]
        exact hruns
      · rw [hblock]
    · simp [hidle, Pc.deleting]
    · simp [hlast, hrel]
    · simp [hpc']
    · intro k hk
      rw [hpc', Pc.releasing.injEq] at hk
      rw [← hk, hctrl']
      exact ⟨hctrl, hdel, rfl⟩
    · simp [← hs']
  -- the handle keeps its pointer, but no reference
  · intro d
    have hbefore : s.held t this = some c := by simp [held, hthis.1, hidle, Pc.givenUp, hctrl]
    have hafter : s'.held t this = none := by simp [held, hpc', Pc.givenUp]
    simp only [hidle, hpc', Pc.taken, List.countP_cons, List.countP_nil, hbefore, hafter]
    by_cases hd : d = c
    · simp [hd, hblock, hone]
    · rw [hblocks, Function.update_of_ne hd]
      simp [Ne.symm hd]

/-- The rest of a successful `release()`. -/
theorem Inv.takeOut (hi : s.Inv) {this : H} (hpc : s.pc t = .releasing this) {c : Nat}
    (hctrl : s.ctrl this = some c) :
    (((s.setBlock c { s.blocks c with deleted := true }).setCtrl this none).setPc t .idle).Inv := by
  obtain ⟨hc, href, hlast, hruns, hown⟩ := hi.of_releasing hpc hctrl
  generalize hs' : ((s.setBlock c { s.blocks c with deleted := true }).setCtrl this none).setPc t
    .idle = s'
  have hpc' : s'.pc t = .idle := by simp [← hs']
  have hblocks : s'.blocks = Function.update s.blocks c { s.blocks c with deleted := true } := by
    rw [← hs']
    rfl
  have hblock : s'.blocks c = { s.blocks c with deleted := true } := by simp [hblocks]
  have hloc : Local t (s.pc t).handles s s' := by
    apply Local.of_call hi.shape
    · simp [hpc', Pc.handles]
    · intro u hu
      rw [← hs', setPc_pc_of_ne _ hu, setCtrl_pc, setBlock_pc]
    · simp [← hs']
    · intro k hk
      rw [← hs', setPc_ctrl, setCtrl_ctrl_of_ne, setBlock_ctrl]
      rintro rfl
      exact hk (by simp [hpc, Pc.handles])
  apply hi.step hloc
  · apply hi.shape.step hloc
    · simp [hpc', Pc.handles]
    · simp [hpc', Pc.handles]
    · simp [hpc']
  · apply hi.recorded.replace hloc hc _ hblocks
    · apply Phase.released t
      · rw [hblock]
        exact href
      · rw [hblock]
      · rw [hblock]
        exact hlast
      · rw [hblock]
        exact hruns
      · rw [hblock]
        exact hown
    · intro k e hk hke
      rw [hpc, Pc.deleting, Option.some.injEq] at hk
      rw [← hk, hctrl, Option.some.injEq] at hke
      exact hke.symm
    · intro u hu
      simp [hown, hlast, Ne.symm hu]
    · simp [hpc']
    · simp [hpc']
    · simp [← hs']
  -- no count changes: the reference went with the `compare_exchange`
  · intro d
    have hbefore : s.held t this = none := by simp [held, hpc, Pc.givenUp]
    have hafter : s'.held t this = none := by simp [held, ← hs']
    have href' : (s'.blocks d).ref = (s.blocks d).ref := by
      by_cases hd : d = c
      · rw [hd, hblock]
      · rw [hblocks, Function.update_of_ne hd]
    simp only [hpc, hpc', Pc.handles, Pc.taken, List.countP_cons, List.countP_nil, hbefore,
      hafter, href']

/-- What `release()` returns is no part of the invariant. -/
theorem Inv.returnResult (hi : s.Inv) (hidle : s.pc t = .idle) (u : T)
    (r : Option (ReleasedBuffer D)) : (s.returnResult u r).Inv := by
  have hloc : Local t [] s (s.returnResult u r) := by
    apply Local.of_idle hidle List.nodup_nil
    · simp
    · simp [SharedState.returnResult, hidle, Pc.handles]
    · simp [SharedState.returnResult]
    · simp [SharedState.returnResult]
    · simp [SharedState.returnResult]
  apply hi.quiet hloc rfl rfl
  · simp [hidle, Pc.deleting]
  · simp [SharedState.returnResult, hidle, Pc.deleting]
  · simp [SharedState.returnResult, hidle, Pc.handles]
  · simp [SharedState.returnResult, hidle, Pc.handles]
  · simp [SharedState.returnResult, hidle]
  · simp [SharedState.returnResult, hidle, Pc.taken]

/-- A handle constructed from a buffer is the only reference to its new block. -/
theorem Inv.allocate (hi : s.Inv) (hidle : s.pc t = .idle) {this : H} (hthis : this ∉ s.live)
    {b : Block T D} (href : b.ref = 1) (hdel : b.deleted = false) (hlast : b.lastOwners = [])
    (hruns : b.deleterRuns = []) (hrel : b.releasedBy = []) :
    Inv { (s.setBlock s.next b).addHandle this (some s.next) with next := s.next + 1 } := by
  generalize hs' : ({ (s.setBlock s.next b).addHandle this (some s.next) with
    next := s.next + 1 } : SharedState H T D) = s'
  have hpc' : s'.pc = s.pc := by
    rw [← hs']
    rfl
  have hnext' : s'.next = s.next + 1 := by rw [← hs']
  have hblock : s'.blocks s.next = b := by
    rw [← hs']
    exact setBlock_blocks_self _ _ _
  have hold : ∀ c, c ≠ s.next → s'.blocks c = s.blocks c := by
    intro c hc
    rw [← hs']
    exact setBlock_blocks_of_ne _ hc _
  have hloc : Local t [this] s s' := by
    apply Local.of_idle hidle (List.nodup_singleton _)
    · intro h hh u hmem
      obtain rfl := List.mem_singleton.1 hh
      exact hthis (hi.shape.live u h hmem)
    · simp [hpc', hidle, Pc.handles]
    · simp [hpc']
    · intro h hh
      rw [← hs']
      have hmem := (s.setBlock s.next b).mem_addHandle_live this h (some s.next)
      exact hmem.trans (or_iff_right (List.mem_singleton.not.1 hh))
    · intro h hh
      rw [← hs']
      exact addHandle_ctrl_of_ne _ (List.mem_singleton.not.1 hh) _
  have hfresh : s.blocks s.next = Block.unused := hi.recorded.unused _ (Nat.le_refl _)
  apply hi.step hloc
  · apply hi.shape.step hloc
    · simp [hpc', hidle, Pc.handles]
    · simp [hpc', hidle, Pc.handles]
    · simp [hpc', hidle]
  · apply hi.recorded.step hloc
    · omega
    · intro c hc
      rw [hold c (by omega)]
      exact hi.recorded.unused c (by omega)
    -- the new block starts in the first phase
    · intro c hc
      by_cases hcn : c = s.next
      · left
        rw [hcn]
        rw [← hblock] at href hdel hlast hruns hrel
        exact .held (by omega) hdel hlast hruns hrel
      · right
        refine ⟨by omega, hold c hcn, ?_⟩
        simp [hidle, Pc.deleting]
    · intro c hc
      exact .inl (hold c (by omega))
    · simp [hpc', hidle]
    · simp [hpc', hidle]
  · intro c
    have hbefore : s.held t this = none := by simp [held, hthis]
    have hafter : s'.held t this = some s.next := by
      rw [← hs']
      simp [held, hidle, Pc.givenUp, addHandle, setBlock]
    simp only [hpc', hidle, Pc.taken, List.countP_cons, List.countP_nil, hbefore, hafter]
    by_cases hc : c = s.next
    · simp [hc, hblock, hfresh, href, Block.unused]
    · simp [hold c hc, Ne.symm hc]

end SharedState

end PipelineTools.Memory
