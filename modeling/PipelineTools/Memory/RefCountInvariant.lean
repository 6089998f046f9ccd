import PipelineTools.Memory.SharedBuffer

/-!
# The invariant of reference counting

The invariant has three parts. `Shape` says which handles the calls in progress use: each is live,
and no two calls use the same one. `Counted` says that the count of every block is the number of
references held to it. `Recorded` says in which phase of its life every allocated block is, and that
a thread about to delete a block is the one its record names.

A step of a thread touches at most two handles, which no other thread is using (`Local`). What the
step keeps of each part is read off these handles and the thread's own place: `Shape.step`,
`references_step`, `Recorded.step`.
-/

set_option autoImplicit false

namespace PipelineTools.Memory

open PipelineTools.Library

namespace SharedState

variable {H T D : Type} {s s' : SharedState H T D} {t : T}

/-- Thread `t` gets from `s` to `s'` by touching only handles that no other thread is using. -/
structure Local (t : T) (touched : List H) (s s' : SharedState H T D) : Prop where
  nodup : touched.Nodup
  mine : ∀ h ∈ (s.pc t).handles, h ∈ touched
  mine' : ∀ h ∈ (s'.pc t).handles, h ∈ touched
  others : ∀ u, u ≠ t → s'.pc u = s.pc u
  own : ∀ h ∈ touched, ∀ u, u ≠ t → h ∉ (s.pc u).handles
  live : ∀ h, h ∉ touched → (h ∈ s'.live ↔ h ∈ s.live)
  ctrl : ∀ h, h ∉ touched → s'.ctrl h = s.ctrl h

theorem mem_handles_of_givenUp {p : Pc H} {h : H} (hp : p.givenUp = some h) : h ∈ p.handles := by
  cases p with
  | idle => simp [Pc.givenUp] at hp
  | dropping d next => simp [Pc.givenUp] at hp
  | lastOwner d next => simp_all [Pc.givenUp, Pc.handles]
  | moved d other => simp_all [Pc.givenUp, Pc.handles]
  | releasing d => simp_all [Pc.givenUp, Pc.handles]

/-- The calls in progress use live handles, each its own. -/
structure Shape (s : SharedState H T D) : Prop where
  nodup : ∀ t, (s.pc t).handles.Nodup
  live : ∀ t, ∀ h ∈ (s.pc t).handles, h ∈ s.live
  own : ∀ t u h, h ∈ (s.pc t).handles → h ∈ (s.pc u).handles → t = u
  moved : ∀ t h other, s.pc t = .moved h other → s.ctrl h = s.ctrl other

/-- The first step of a call uses handles that no call is using. -/
theorem Local.of_idle {touched : List H} (hidle : s.pc t = .idle) (hnodup : touched.Nodup)
    (hfree : ∀ h ∈ touched, ∀ u, h ∉ (s.pc u).handles)
    (hmine' : ∀ h ∈ (s'.pc t).handles, h ∈ touched) (hothers : ∀ u, u ≠ t → s'.pc u = s.pc u)
    (hlive : ∀ h, h ∉ touched → (h ∈ s'.live ↔ h ∈ s.live))
    (hctrl : ∀ h, h ∉ touched → s'.ctrl h = s.ctrl h) : Local t touched s s' := by
  refine ⟨hnodup, ?_, hmine', hothers, ?_, hlive, hctrl⟩
  · simp [hidle, Pc.handles]
  · intro h hh u _
    exact hfree h hh u

/-- A later step uses the handles of the call it belongs to. -/
theorem Local.of_call (hs : s.Shape) (hmine' : ∀ h ∈ (s'.pc t).handles, h ∈ (s.pc t).handles)
    (hothers : ∀ u, u ≠ t → s'.pc u = s.pc u)
    (hlive : ∀ h, h ∉ (s.pc t).handles → (h ∈ s'.live ↔ h ∈ s.live))
    (hctrl : ∀ h, h ∉ (s.pc t).handles → s'.ctrl h = s.ctrl h) :
    Local t (s.pc t).handles s s' := by
  refine ⟨hs.nodup t, fun h hh => hh, hmine', hothers, ?_, hlive, hctrl⟩
  intro h hh u hu hmem
  exact hu (hs.own u t h hmem hh)

/-- The handles of other threads' calls keep their pointers. -/
theorem Local.ctrl_of_other {touched : List H} (hloc : Local t touched s s') {u : T} (hu : u ≠ t)
    {h : H} (hh : h ∈ (s.pc u).handles) : s'.ctrl h = s.ctrl h := by
  apply hloc.ctrl
  intro htouched
  exact hloc.own h htouched u hu hh

theorem Shape.step {touched : List H} (hs : s.Shape) (hloc : Local t touched s s')
    (hnodup : (s'.pc t).handles.Nodup) (hlive : ∀ h ∈ (s'.pc t).handles, h ∈ s'.live)
    (hmoved : ∀ h other, s'.pc t = .moved h other → s'.ctrl h = s'.ctrl other) : s'.Shape := by
  -- what another thread is using is not touched
  have hfar : ∀ u, u ≠ t → ∀ h ∈ (s.pc u).handles, h ∉ touched := by
    intro u hu h hh htouched
    exact hloc.own h htouched u hu hh
  refine ⟨?_, ?_, ?_, ?_⟩
  · intro u
    by_cases hu : u = t
    · rw [hu]
      exact hnodup
    · rw [hloc.others u hu]
      exact hs.nodup u
  · intro u h hh
    by_cases hu : u = t
    · rw [hu] at hh
      exact hlive h hh
    · rw [hloc.others u hu] at hh
      exact (hloc.live h (hfar u hu h hh)).2 (hs.live u h hh)
  · intro u v h hhu hhv
    by_cases hu : u = t <;> by_cases hv : v = t
    · rw [hu, hv]
    · rw [hu] at hhu
      rw [hloc.others v hv] at hhv
      exact absurd hhv (hloc.own h (hloc.mine' h hhu) v hv)
    · rw [hv] at hhv
      rw [hloc.others u hu] at hhu
      exact absurd hhu (hloc.own h (hloc.mine' h hhv) u hu)
    · rw [hloc.others u hu] at hhu
      rw [hloc.others v hv] at hhv
      exact hs.own u v h hhu hhv
  · intro u h other hpc
    by_cases hu : u = t
    · rw [hu] at hpc
      exact hmoved h other hpc
    · rw [hloc.others u hu] at hpc
      have hh : h ∉ touched := hfar u hu h (by simp [hpc, Pc.handles])
      have hother : other ∉ touched := hfar u hu other (by simp [hpc, Pc.handles])
      rw [hloc.ctrl h hh, hloc.ctrl other hother]
      exact hs.moved u h other hpc

section References

variable [DecidableEq H] [DecidableEq T]

/-- The reference of a handle that no thread but `t` is using. -/
def held (s : SharedState H T D) (t : T) (h : H) : Option Nat :=
  if h ∈ s.live ∧ (s.pc t).givenUp ≠ some h then s.ctrl h else none

omit [DecidableEq H] [DecidableEq T] in
theorem givenUp_iff {h : H} (hown : ∀ u, u ≠ t → h ∉ (s.pc u).handles) :
    s.GivenUp h ↔ (s.pc t).givenUp = some h := by
  constructor
  · rintro ⟨u, hu⟩
    by_cases hut : u = t
    · rw [← hut]
      exact hu
    · exact absurd (mem_handles_of_givenUp hu) (hown u hut)
  · intro ht
    exact ⟨t, ht⟩

omit [DecidableEq T] in
theorem countP_held {touched : List H} (hsame : ∀ k ∈ touched, s'.held t k = s.held t k) (c : Nat) :
    touched.countP (fun k => s'.held t k = some c) =
      touched.countP (fun k => s.held t k = some c) := by
  apply List.countP_congr
  intro k hk
  rw [hsame k hk]

variable [Fintype T]

omit [DecidableEq T] in
theorem holds_inl_of_own {h : H} (hown : ∀ u, u ≠ t → h ∉ (s.pc u).handles) :
    s.holds (.inl h) = s.held t h := by
  simp [holds, held, givenUp_iff hown]

omit [DecidableEq T] in
theorem holds_eq_none {x : H ⊕ T} (hx : x ∉ s.live.disjSum Finset.univ) : s.holds x = none := by
  cases x with
  | inl h =>
    have hh : h ∉ s.live := fun hlive => hx (Finset.inl_mem_disjSum.2 hlive)
    simp [holds, hh]
  | inr u => exact absurd (Finset.inr_mem_disjSum.2 (Finset.mem_univ u)) hx

omit [DecidableEq T] in
theorem holds_frame {touched : List H} (hloc : Local t touched s s') {x : H ⊕ T}
    (hx : x ∉ touched.map Sum.inl ++ [Sum.inr t]) : s'.holds x = s.holds x := by
  cases x with
  | inl h =>
    have hh : h ∉ touched := by
      intro htouched
      exact hx (List.mem_append_left _ (List.mem_map_of_mem htouched))
    have hsame : s'.GivenUp h ↔ s.GivenUp h := by
      constructor
      · rintro ⟨u, hu⟩
        by_cases hut : u = t
        · rw [hut] at hu
          exact absurd (hloc.mine' h (mem_handles_of_givenUp hu)) hh
        · rw [hloc.others u hut] at hu
          exact ⟨u, hu⟩
      · rintro ⟨u, hu⟩
        by_cases hut : u = t
        · rw [hut] at hu
          exact absurd (hloc.mine h (mem_handles_of_givenUp hu)) hh
        · rw [← hloc.others u hut] at hu
          exact ⟨u, hu⟩
    simp only [holds, hloc.live h hh, hsame, hloc.ctrl h hh]
  | inr u =>
    have hu : u ≠ t := by
      rintro rfl
      exact hx (List.mem_append_right _ (List.mem_singleton_self _))
    simp only [holds, hloc.others u hu]

omit [DecidableEq T] in
/-- The references that `t` and handles used by no other thread hold. -/
theorem countP_holds {touched : List H} (hown : ∀ h ∈ touched, ∀ u, u ≠ t → h ∉ (s.pc u).handles)
    (c : Nat) :
    (touched.map Sum.inl ++ [(Sum.inr t : H ⊕ T)]).countP (fun x => s.holds x = some c) =
      touched.countP (fun h => s.held t h = some c) +
        if (s.pc t).taken = some c then 1 else 0 := by
  rw [List.countP_append, List.countP_map]
  congr 1
  · apply List.countP_congr
    intro h hh
    simp [holds_inl_of_own (hown h hh)]
  · by_cases htaken : (s.pc t).taken = some c
    · simp [holds, htaken]
    · simp [holds, htaken]

/-- The references to a block change by what the touched handles and the thread itself hold. -/
theorem references_step {touched : List H} (hloc : Local t touched s s') (c : Nat) :
    s'.references c + (touched.countP (fun h => s.held t h = some c) +
        if (s.pc t).taken = some c then 1 else 0) =
      s.references c + (touched.countP (fun h => s'.held t h = some c) +
        if (s'.pc t).taken = some c then 1 else 0) := by
  have hown' : ∀ h ∈ touched, ∀ u, u ≠ t → h ∉ (s'.pc u).handles := by
    intro h hh u hu
    rw [hloc.others u hu]
    exact hloc.own h hh u hu
  have hnodup : (touched.map Sum.inl ++ [(Sum.inr t : H ⊕ T)]).Nodup := by
    apply List.Nodup.append
    · exact hloc.nodup.map Sum.inl_injective
    · exact List.nodup_singleton _
    · simp [List.Disjoint]
  rw [← countP_holds hloc.own, ← countP_holds hown']
  apply refCount_change hnodup
  · intro x
    exact holds_eq_none
  · intro x
    exact holds_eq_none
  · intro x
    exact holds_frame hloc

/-- The count of every block is the number of references held to it. -/
def Counted (s : SharedState H T D) : Prop :=
  ∀ c, (s.blocks c).ref = s.references c

end References

/-- The phase of its life in which the block `c` is. -/
inductive Phase (s : SharedState H T D) (c : Nat) : Prop where
  | held (href : 0 < (s.blocks c).ref) (hdel : (s.blocks c).deleted = false)
      (hlast : (s.blocks c).lastOwners = []) (hruns : (s.blocks c).deleterRuns = [])
      (hrel : (s.blocks c).releasedBy = [])
  | dropping (t : T) (h : H) (next : Next H) (hpc : s.pc t = .lastOwner h next)
      (hctrl : s.ctrl h = some c) (href : (s.blocks c).ref = 0)
      (hdel : (s.blocks c).deleted = false) (hlast : (s.blocks c).lastOwners = [t])
      (hruns : (s.blocks c).deleterRuns = []) (hrel : (s.blocks c).releasedBy = [])
  | releasing (t : T) (h : H) (hpc : s.pc t = .releasing h) (hctrl : s.ctrl h = some c)
      (href : (s.blocks c).ref = 0) (hdel : (s.blocks c).deleted = false)
      (hlast : (s.blocks c).lastOwners = []) (hruns : (s.blocks c).deleterRuns = [])
      (hrel : (s.blocks c).releasedBy = [t])
  | dropped (t : T) (href : (s.blocks c).ref = 0) (hdel : (s.blocks c).deleted = true)
      (hlast : (s.blocks c).lastOwners = [t])
      (hruns : (s.blocks c).deleterRuns = if (s.blocks c).deleter.isSome then [t] else [])
      (hrel : (s.blocks c).releasedBy = [])
  | released (t : T) (href : (s.blocks c).ref = 0) (hdel : (s.blocks c).deleted = true)
      (hlast : (s.blocks c).lastOwners = []) (hruns : (s.blocks c).deleterRuns = [])
      (hrel : (s.blocks c).releasedBy = [t])

/-- Every allocated block is in one phase, and a thread about to delete a block is recorded in
it. -/
structure Recorded (s : SharedState H T D) : Prop where
  unused : ∀ c, s.next ≤ c → s.blocks c = Block.unused
  phase : ∀ c, c < s.next → s.Phase c
  last : ∀ t h next, s.pc t = .lastOwner h next →
    ∃ c, s.ctrl h = some c ∧ c < s.next ∧ (s.blocks c).deleted = false ∧
      (s.blocks c).lastOwners = [t]
  releasing : ∀ t h, s.pc t = .releasing h →
    ∃ c, s.ctrl h = some c ∧ c < s.next ∧ (s.blocks c).deleted = false ∧
      (s.blocks c).releasedBy = [t]

/-- A phase that another thread's place or none's decides is kept. -/
theorem Phase.step {touched : List H} {c : Nat} (hphase : s.Phase c)
    (hloc : Local t touched s s') (hblock : s'.blocks c = s.blocks c)
    (hmine : ∀ h, (s.pc t).deleting = some h → s.ctrl h ≠ some c) : s'.Phase c := by
  cases hphase with
  | held href hdel hlast hruns hrel =>
    rw [← hblock] at href hdel hlast hruns hrel
    exact .held href hdel hlast hruns hrel
  | dropping u h next hpc hctrl href hdel hlast hruns hrel =>
    have hut : u ≠ t := by
      rintro rfl
      exact hmine h (by simp [hpc, Pc.deleting]) hctrl
    rw [← hblock] at href hdel hlast hruns hrel
    rw [← hloc.ctrl_of_other hut (h := h) (by simp [hpc, Pc.handles])] at hctrl
    rw [← hloc.others u hut] at hpc
    exact .dropping u h next hpc hctrl href hdel hlast hruns hrel
  | releasing u h hpc hctrl href hdel hlast hruns hrel =>
    have hut : u ≠ t := by
      rintro rfl
      exact hmine h (by simp [hpc, Pc.deleting]) hctrl
    rw [← hblock] at href hdel hlast hruns hrel
    rw [← hloc.ctrl_of_other hut (h := h) (by simp [hpc, Pc.handles])] at hctrl
    rw [← hloc.others u hut] at hpc
    exact .releasing u h hpc hctrl href hdel hlast hruns hrel
  | dropped u href hdel hlast hruns hrel =>
    rw [← hblock] at href hdel hlast hruns hrel
    exact .dropped u href hdel hlast hruns hrel
  | released u href hdel hlast hruns hrel =>
    rw [← hblock] at href hdel hlast hruns hrel
    exact .released u href hdel hlast hruns hrel

theorem Recorded.step {touched : List H} (hr : s.Recorded) (hloc : Local t touched s s')
    (hnext : s.next ≤ s'.next) (hunused : ∀ c, s'.next ≤ c → s'.blocks c = Block.unused)
    (hphase : ∀ c, c < s'.next → s'.Phase c ∨ (c < s.next ∧ s'.blocks c = s.blocks c ∧
      ∀ h, (s.pc t).deleting = some h → s.ctrl h ≠ some c))
    (hothers : ∀ c, c < s.next → s'.blocks c = s.blocks c ∨
      ∀ u, u ≠ t → (s.blocks c).lastOwners ≠ [u] ∧ (s.blocks c).releasedBy ≠ [u])
    (hlast : ∀ h next, s'.pc t = .lastOwner h next → ∃ c, s'.ctrl h = some c ∧ c < s'.next ∧
      (s'.blocks c).deleted = false ∧ (s'.blocks c).lastOwners = [t])
    (hreleasing : ∀ h, s'.pc t = .releasing h → ∃ c, s'.ctrl h = some c ∧ c < s'.next ∧
      (s'.blocks c).deleted = false ∧ (s'.blocks c).releasedBy = [t]) : s'.Recorded := by
  refine ⟨hunused, ?_, ?_, ?_⟩
  · intro c hc
    rcases hphase c hc with hnew | ⟨hold, hblock, hmine⟩
    · exact hnew
    · exact (hr.phase c hold).step hloc hblock hmine
  -- only a step on its own block could disturb another thread, and there is none
  · intro u h next hpc
    by_cases hu : u = t
    · rw [hu] at hpc ⊢
      exact hlast h next hpc
    · rw [hloc.others u hu] at hpc
      obtain ⟨c, hctrl, hc, hdel, hown⟩ := hr.last u h next hpc
      have hkept := hloc.ctrl_of_other hu (h := h) (by simp [hpc, Pc.handles])
      have hsame : s'.blocks c = s.blocks c := by
        rcases hothers c hc with hsame | hne
        · exact hsame
        · exact absurd hown (hne u hu).1
      rw [← hsame] at hdel hown
      exact ⟨c, hkept.trans hctrl, by omega, hdel, hown⟩
  · intro u h hpc
    by_cases hu : u = t
    · rw [hu] at hpc ⊢
      exact hreleasing h hpc
    · rw [hloc.others u hu] at hpc
      obtain ⟨c, hctrl, hc, hdel, hown⟩ := hr.releasing u h hpc
      have hkept := hloc.ctrl_of_other hu (h := h) (by simp [hpc, Pc.handles])
      have hsame : s'.blocks c = s.blocks c := by
        rcases hothers c hc with hsame | hne
        · exact hsame
        · exact absurd hown (hne u hu).2
      rw [← hsame] at hdel hown
      exact ⟨c, hkept.trans hctrl, by omega, hdel, hown⟩

/-- A step that replaces the record of one block, which no other thread is about to delete. -/
theorem Recorded.replace {touched : List H} (hr : s.Recorded) (hloc : Local t touched s s')
    {c : Nat} {b : Block T D} (hc : c < s.next) (hnext : s'.next = s.next)
    (hblocks : s'.blocks = Function.update s.blocks c b) (hphase : s'.Phase c)
    (hmine : ∀ h d, (s.pc t).deleting = some h → s.ctrl h = some d → d = c)
    (hothers : ∀ u, u ≠ t → (s.blocks c).lastOwners ≠ [u] ∧ (s.blocks c).releasedBy ≠ [u])
    (hlast : ∀ h next, s'.pc t = .lastOwner h next →
      s'.ctrl h = some c ∧ b.deleted = false ∧ b.lastOwners = [t])
    (hreleasing : ∀ h, s'.pc t = .releasing h →
      s'.ctrl h = some c ∧ b.deleted = false ∧ b.releasedBy = [t]) : s'.Recorded := by
  have hnew : s'.blocks c = b := by
    rw [hblocks]
    exact Function.update_self ..
  have hold : ∀ d, d ≠ c → s'.blocks d = s.blocks d := by
    intro d hd
    rw [hblocks]
    exact Function.update_of_ne hd ..
  apply hr.step hloc
  · omega
  · intro d hd
    rw [hold d (by omega)]
    exact hr.unused d (by omega)
  -- the other blocks keep their phases
  · intro d hd
    by_cases hdc : d = c
    · rw [hdc]
      exact .inl hphase
    · right
      refine ⟨by omega, hold d hdc, ?_⟩
      intro h hh hctrl
      exact hdc (hmine h d hh hctrl)
  · intro d hd
    by_cases hdc : d = c
    · rw [hdc]
      exact .inr hothers
    · exact .inl (hold d hdc)
  · intro h next hpc
    obtain ⟨hctrl, hdel, hown⟩ := hlast h next hpc
    rw [← hnew] at hdel hown
    exact ⟨c, hctrl, by omega, hdel, hown⟩
  · intro h hpc
    obtain ⟨hctrl, hdel, hown⟩ := hreleasing h hpc
    rw [← hnew] at hdel hown
    exact ⟨c, hctrl, by omega, hdel, hown⟩

section Invariant

variable [DecidableEq H] [DecidableEq T] [Fintype T]

structure Inv (s : SharedState H T D) : Prop where
  shape : s.Shape
  counted : s.Counted
  recorded : s.Recorded

/-- The general step lemma: the three parts of the invariant, each from what the step does. -/
theorem Inv.step {touched : List H} (hi : s.Inv) (hloc : Local t touched s s')
    (hshape : s'.Shape) (hrecorded : s'.Recorded)
    (hcount : ∀ c, (s'.blocks c).ref + (touched.countP (fun h => s.held t h = some c) +
        if (s.pc t).taken = some c then 1 else 0) =
      (s.blocks c).ref + (touched.countP (fun h => s'.held t h = some c) +
        if (s'.pc t).taken = some c then 1 else 0)) : s'.Inv := by
  refine ⟨hshape, ?_, hrecorded⟩
  intro c
  have hrefs := references_step hloc c
  have hbefore := hi.counted c
  have hafter := hcount c
  omega

omit [DecidableEq T] in
/-- A block with a reference is allocated, and nothing has happened to it. -/
theorem Inv.of_ref_pos (hi : s.Inv) {c : Nat} (hc : 0 < (s.blocks c).ref) :
    c < s.next ∧ (s.blocks c).deleted = false ∧ (s.blocks c).lastOwners = [] ∧
      (s.blocks c).deleterRuns = [] ∧ (s.blocks c).releasedBy = [] := by
  have hnext : c < s.next := by
    by_contra hge
    rw [hi.recorded.unused c (by omega)] at hc
    exact absurd hc (by simp [Block.unused])
  refine ⟨hnext, ?_⟩
  cases hi.recorded.phase c hnext with
  | held href hdel hlast hruns hrel => exact ⟨hdel, hlast, hruns, hrel⟩
  | dropping u h next hpc hctrl href hdel hlast hruns hrel => omega
  | releasing u h hpc hctrl href hdel hlast hruns hrel => omega
  | dropped u href hdel hlast hruns hrel => omega
  | released u href hdel hlast hruns hrel => omega

omit [DecidableEq T] in
/-- The block of the last owner has no reference left, and its deleter has not run. -/
theorem Inv.of_lastOwner (hi : s.Inv) {h : H} {next : Next H} (hpc : s.pc t = .lastOwner h next)
    {c : Nat} (hctrl : s.ctrl h = some c) :
    c < s.next ∧ (s.blocks c).ref = 0 ∧ (s.blocks c).lastOwners = [t] ∧
      (s.blocks c).deleterRuns = [] ∧ (s.blocks c).releasedBy = [] := by
  obtain ⟨d, hd, hc, hdel, hown⟩ := hi.recorded.last t h next hpc
  obtain rfl : c = d := Option.some.inj (hctrl.symm.trans hd)
  refine ⟨hc, ?_⟩
  -- only one phase has a last owner and an undeleted block
  cases hi.recorded.phase c hc with
  | held href hdel hlast hruns hrel => simp [hlast] at hown
  | dropping u k next' hpc hctrl href hdel hlast hruns hrel => exact ⟨href, hown, hruns, hrel⟩
  | releasing u k hpc hctrl href hdel hlast hruns hrel => simp [hlast] at hown
  | dropped u href hdel' hlast hruns hrel => simp [hdel] at hdel'
  | released u href hdel' hlast hruns hrel => simp [hdel] at hdel'

omit [DecidableEq T] in
/-- The block that a `release()` has won has no reference left, and nobody runs its deleter. -/
theorem Inv.of_releasing (hi : s.Inv) {h : H} (hpc : s.pc t = .releasing h) {c : Nat}
    (hctrl : s.ctrl h = some c) :
    c < s.next ∧ (s.blocks c).ref = 0 ∧ (s.blocks c).lastOwners = [] ∧
      (s.blocks c).deleterRuns = [] ∧ (s.blocks c).releasedBy = [t] := by
  obtain ⟨d, hd, hc, hdel, hown⟩ := hi.recorded.releasing t h hpc
  obtain rfl : c = d := Option.some.inj (hctrl.symm.trans hd)
  refine ⟨hc, ?_⟩
  -- only one phase has a thread that released it and an undeleted block
  cases hi.recorded.phase c hc with
  | held href hdel hlast hruns hrel => simp [hrel] at hown
  | dropping u k next' hpc hctrl href hdel hlast hruns hrel => simp [hrel] at hown
  | releasing u k hpc hctrl href hdel hlast hruns hrel => exact ⟨href, hlast, hruns, hown⟩
  | dropped u href hdel' hlast hruns hrel => simp [hdel] at hdel'
  | released u href hdel' hlast hruns hrel => simp [hdel] at hdel'

omit [DecidableEq T] in
/-- A live handle whose reference has not been given up keeps its block referenced. -/
theorem Counted.ref_pos_of_handle (hcounted : s.Counted) {h : H} {c : Nat} (hlive : h ∈ s.live)
    (hkept : ¬ s.GivenUp h) (hctrl : s.ctrl h = some c) : 0 < (s.blocks c).ref := by
  rw [hcounted c]
  apply refCount_pos_iff.2
  refine ⟨.inl h, Finset.inl_mem_disjSum.2 hlive, ?_⟩
  simp [holds, hlive, hkept, hctrl]

omit [DecidableEq T] in
theorem Counted.ref_pos_of_usable (hcounted : s.Counted) {h : H} {c : Nat} (hh : s.Usable h)
    (hctrl : s.ctrl h = some c) : 0 < (s.blocks c).ref := by
  apply hcounted.ref_pos_of_handle hh.1 _ hctrl
  rintro ⟨u, hu⟩
  exact hh.2 u (mem_handles_of_givenUp hu)

omit [DecidableEq T] in
/-- A handle of a call in progress keeps its block referenced until the call gives it up. -/
theorem Inv.ref_pos_of_mine (hi : s.Inv) {h : H} {c : Nat} (hh : h ∈ (s.pc t).handles)
    (hkept : (s.pc t).givenUp ≠ some h) (hctrl : s.ctrl h = some c) : 0 < (s.blocks c).ref := by
  apply hi.counted.ref_pos_of_handle (hi.shape.live t h hh) _ hctrl
  have hown : ∀ u, u ≠ t → h ∉ (s.pc u).handles := by
    intro u hu hmem
    exact hu (hi.shape.own u t h hmem hh)
  rw [givenUp_iff hown]
  exact hkept

/-- A step that changes blocks only in their counts, and only while these are positive. -/
theorem Inv.adjust {touched : List H} (hi : s.Inv) (hloc : Local t touched s s')
    (hnext : s'.next = s.next)
    (hblocks : ∀ c, s'.blocks c = s.blocks c ∨ ∃ n, 0 < n ∧ 0 < (s.blocks c).ref ∧
      s'.blocks c = { s.blocks c with ref := n })
    (hdel : (s.pc t).deleting = none) (hdel' : (s'.pc t).deleting = none)
    (hnodup : (s'.pc t).handles.Nodup) (hlive : ∀ h ∈ (s'.pc t).handles, h ∈ s'.live)
    (hmoved : ∀ h other, s'.pc t = .moved h other → s'.ctrl h = s'.ctrl other)
    (hcount : ∀ c, (s'.blocks c).ref + (touched.countP (fun h => s.held t h = some c) +
        if (s.pc t).taken = some c then 1 else 0) =
      (s.blocks c).ref + (touched.countP (fun h => s'.held t h = some c) +
        if (s'.pc t).taken = some c then 1 else 0)) : s'.Inv := by
  apply hi.step hloc (hi.shape.step hloc hnodup hlive hmoved) _ hcount
  apply hi.recorded.step hloc
  · omega
  · intro c hc
    rw [hnext] at hc
    rcases hblocks c with hsame | ⟨n, -, hpos, -⟩
    · rw [hsame]
      exact hi.recorded.unused c hc
    · have hlt := (hi.of_ref_pos hpos).1
      omega
  -- a block whose count stays positive stays in the first phase
  · intro c hc
    rw [hnext] at hc
    rcases hblocks c with hsame | ⟨n, hn, hpos, hnew⟩
    · refine .inr ⟨hc, hsame, ?_⟩
      intro h hh
      simp [hdel] at hh
    · obtain ⟨-, hd, hl, hr, hrel⟩ := hi.of_ref_pos hpos
      left
      apply Phase.held
      · rw [hnew]
        exact hn
      · rw [hnew]
        exact hd
      · rw [hnew]
        exact hl
      · rw [hnew]
        exact hr
      · rw [hnew]
        exact hrel
  · intro c hc
    rcases hblocks c with hsame | ⟨n, -, hpos, -⟩
    · exact .inl hsame
    · obtain ⟨-, -, hl, -, hrel⟩ := hi.of_ref_pos hpos
      right
      intro u _
      simp [hl, hrel]
  · intro h next hpc
    simp [hpc, Pc.deleting] at hdel'
  · intro h hpc
    simp [hpc, Pc.deleting] at hdel'

/-- A step that leaves all blocks as they are. -/
theorem Inv.quiet {touched : List H} (hi : s.Inv) (hloc : Local t touched s s')
    (hnext : s'.next = s.next) (hblocks : s'.blocks = s.blocks)
    (hdel : (s.pc t).deleting = none) (hdel' : (s'.pc t).deleting = none)
    (hnodup : (s'.pc t).handles.Nodup) (hlive : ∀ h ∈ (s'.pc t).handles, h ∈ s'.live)
    (hmoved : ∀ h other, s'.pc t = .moved h other → s'.ctrl h = s'.ctrl other)
    (hcount : ∀ c, touched.countP (fun h => s.held t h = some c) +
        (if (s.pc t).taken = some c then 1 else 0) =
      touched.countP (fun h => s'.held t h = some c) +
        if (s'.pc t).taken = some c then 1 else 0) : s'.Inv := by
  apply hi.adjust hloc hnext _ hdel hdel' hnodup hlive hmoved
  · intro c
    rw [hblocks, hcount c]
  · intro c
    rw [hblocks]
    exact .inl rfl

end Invariant

end SharedState

end PipelineTools.Memory
