import PipelineTools.Memory.Ownership

/-!
# The buffer operations conserve ownership

Each operation is put together from a few moves of memory: a `unique_buffer` is reset, one steals
from another, a released buffer is kept or claimed, a control block is allocated or loses a
reference. The lemmas below say what each of these does to what the objects own, and `step_settles`
assembles them to the law of every operation.
-/

set_option autoImplicit false

namespace PipelineTools.Memory

open PipelineTools.Library

namespace Objects

variable {U S R D : Type} [DecidableEq U] [DecidableEq R] {s s' : Objects U S R D}

section Unique

/-- A change of the members of `u` is seen by no other owner. -/
theorem contents_setUnique_of_ne {u : U} {b : UniqueBuffer D} {o : Owner U R}
    (ho : o ≠ .unique u) : (s.setUnique u b).contents o = s.contents o := by
  cases o with
  | unique v =>
    have hne : v ≠ u := fun h => ho (by rw [h])
    simp [contents, setUnique, hne]
  | block c => rfl
  | released r => rfl

theorem contents_setUnique_self {u : U} (hlive : u ∈ s.uniqueLive) (b : UniqueBuffer D) :
    (s.setUnique u b).contents (.unique u) = b.released := by
  simp [contents, setUnique, hlive]

theorem contents_addUnique_of_ne {u : U} {b : UniqueBuffer D} {o : Owner U R}
    (ho : o ≠ .unique u) : (s.addUnique u b).contents o = s.contents o := by
  cases o with
  | unique v =>
    have hne : v ≠ u := fun h => ho (by rw [h])
    simp [contents, addUnique, hne]
  | block c => rfl
  | released r => rfl

theorem contents_addUnique_self (u : U) (b : UniqueBuffer D) :
    (s.addUnique u b).contents (.unique u) = b.released := by
  simp [contents, addUnique]

theorem contents_unique {u : U} (hlive : u ∈ s.uniqueLive) :
    s.contents (.unique u) = (s.unique u).released := by
  simp [contents, hlive]

theorem settles_addUnique_empty {this : U} (hthis : this ∉ s.uniqueLive) :
    Settles s (s.addUnique this {}) [] := by
  apply Settles.of_same
  intro o
  left
  by_cases ho : o = .unique this
  · rw [ho, contents_addUnique_self]
    simp [contents, hthis, UniqueBuffer.released]
  · exact contents_addUnique_of_ne ho

theorem settles_resetUnique {this : U} (hthis : this ∈ s.uniqueLive) :
    Settles s (s.resetUnique this).1 (s.resetUnique this).2 := by
  have hcalls : (s.resetUnique this).2 = (s.contents (.unique this)).settle := by
    rw [contents_unique hthis]
    exact UniqueBuffer.reset_calls _
  rw [hcalls]
  apply Settles.giveUp
  · intro o ho
    exact .inl (contents_setUnique_of_ne ho)
  · rw [resetUnique, contents_setUnique_self hthis]
    exact UniqueBuffer.reset_data _

theorem settles_stealFrom {this other : U} (hne : this ≠ other) (hthis : this ∈ s.uniqueLive)
    (hother : other ∈ s.uniqueLive) (hempty : (s.unique this).data = none) :
    Settles s (s.stealFrom this other) [] := by
  have hlive : other ∈ (s.setUnique this (s.unique other)).uniqueLive := hother
  apply Settles.transfer (a := .unique other) (b := .unique this)
  · simpa using Ne.symm hne
  · rw [contents_unique hthis]
    exact hempty
  · rw [stealFrom, contents_setUnique_of_ne (by simpa using hne), contents_setUnique_self hthis,
      contents_unique hother]
  · rw [stealFrom, contents_setUnique_self hlive]
    rfl
  · intro o ho ho'
    left
    rw [stealFrom, contents_setUnique_of_ne ho, contents_setUnique_of_ne ho']

theorem settles_uniqueMove {this other : U} (hthis : this ∉ s.uniqueLive)
    (hother : other ∈ s.uniqueLive) :
    Settles s ((s.addUnique this {}).stealFrom this other) [] := by
  have hne : this ≠ other := by
    rintro rfl
    exact hthis hother
  have hsteal : Settles (s.addUnique this {}) ((s.addUnique this {}).stealFrom this other) [] := by
    apply settles_stealFrom hne
    · exact Finset.mem_insert_self _ _
    · exact Finset.mem_insert_of_mem hother
    · simp [addUnique]
  exact (settles_addUnique_empty hthis).trans hsteal

theorem settles_uniqueMoveAssign {this other : U} (hne : this ≠ other)
    (hthis : this ∈ s.uniqueLive) (hother : other ∈ s.uniqueLive) :
    Settles s ((s.resetUnique this).1.stealFrom this other) (s.resetUnique this).2 := by
  have hreset := settles_resetUnique hthis
  have hsteal :
      Settles (s.resetUnique this).1 ((s.resetUnique this).1.stealFrom this other) [] := by
    apply settles_stealFrom (s := (s.resetUnique this).1) hne hthis hother
    simp [resetUnique, setUnique, UniqueBuffer.reset_data]
  simpa using hreset.trans hsteal

theorem settles_uniqueSwap {this other : U} (hthis : this ∈ s.uniqueLive)
    (hother : other ∈ s.uniqueLive) :
    Settles s ((s.setUnique this (s.unique other)).setUnique other (s.unique this)) [] := by
  by_cases hne : this = other
  · apply Settles.of_same
    intro o
    left
    rw [← hne]
    simp [setUnique]
  · have hlive : other ∈ (s.setUnique this (s.unique other)).uniqueLive := hother
    apply Settles.exchange (a := .unique this) (b := .unique other)
    · simpa using hne
    · rw [contents_setUnique_of_ne (by simpa using hne), contents_setUnique_self hthis,
        contents_unique hother]
    · rw [contents_setUnique_self hlive, contents_unique hthis]
    · intro o ho ho'
      left
      rw [contents_setUnique_of_ne ho', contents_setUnique_of_ne ho]

theorem settles_uniqueDestroy {this : U} (hthis : this ∈ s.uniqueLive) :
    Settles s { (s.resetUnique this).1 with
      uniqueLive := (s.resetUnique this).1.uniqueLive.erase this } (s.resetUnique this).2 := by
  have hreset := settles_resetUnique hthis
  have herase : Settles (s.resetUnique this).1 { (s.resetUnique this).1 with
      uniqueLive := (s.resetUnique this).1.uniqueLive.erase this } [] := by
    apply Settles.of_same
    intro o
    cases o with
    | block c => exact .inl rfl
    | released r => exact .inl rfl
    | unique v =>
      by_cases hv : v = this
      · right
        rw [hv]
        constructor
        · simp [contents]
        · rw [resetUnique, contents_setUnique_self hthis]
          exact UniqueBuffer.reset_data _
      · left
        simp [contents, hv]
  simpa using hreset.trans herase

end Unique

section Released

theorem contents_keep_of_ne {r : R} {rb : ReleasedBuffer D} {o : Owner U R}
    (ho : o ≠ .released r) : (s.keep r rb).contents o = s.contents o := by
  cases o with
  | released q =>
    have hne : q ≠ r := fun h => ho (by rw [h])
    simp [contents, keep, hne]
  | block c => rfl
  | unique u => rfl

theorem contents_keep_self (r : R) (rb : ReleasedBuffer D) :
    (s.keep r rb).contents (.released r) = rb := by
  simp [contents, keep]

theorem contents_claim_of_ne {r : R} {o : Owner U R} (ho : o ≠ .released r) :
    (s.claim r).contents o = s.contents o := by
  cases o with
  | released q =>
    have hne : q ≠ r := fun h => ho (by rw [h])
    simp [contents, claim, hne]
  | block c => rfl
  | unique u => rfl

theorem contents_claim_self (r : R) : ((s.claim r).contents (.released r)).ptr = none := by
  simp [contents, claim]

theorem settles_uniqueFromReleased {this : U} {rb : R} (hthis : this ∉ s.uniqueLive)
    (hrb : rb ∈ s.unclaimed) :
    Settles s ((s.claim rb).addUnique this (.ofReleased (s.released rb))) [] := by
  apply Settles.transfer (a := .released rb) (b := .unique this)
  · simp
  · simp [contents, hthis]
  · rw [contents_addUnique_self]
    simp [contents, hrb, UniqueBuffer.ofReleased, UniqueBuffer.released]
  · rw [contents_addUnique_of_ne (by simp)]
    exact contents_claim_self rb
  · intro o ho ho'
    left
    rw [contents_addUnique_of_ne ho', contents_claim_of_ne ho]

theorem settles_uniqueRelease {this : U} {out : R} (hthis : this ∈ s.uniqueLive)
    (hout : out ∉ s.unclaimed) :
    Settles s ((s.setUnique this {}).keep out (s.unique this).released) [] := by
  apply Settles.transfer (a := .unique this) (b := .released out)
  · simp
  · simp [contents, hout]
  · rw [contents_keep_self, contents_unique hthis]
  · rw [contents_keep_of_ne (by simp), contents_setUnique_self hthis]
    rfl
  · intro o ho ho'
    left
    rw [contents_keep_of_ne ho', contents_setUnique_of_ne ho]

end Released

section Shared

variable [DecidableEq S]

omit [DecidableEq U] [DecidableEq R] in
/-- An empty source leaves the constructed handle without a control block. -/
theorem constructShared_eq_addShared (this : S) {rb : ReleasedBuffer D}
    (h : ¬ (rb.ptr.isSome ∧ rb.count ≠ 0)) :
    s.constructShared this rb = s.addShared this none := by
  cases hptr : rb.ptr with
  | none => simp [constructShared, hptr]
  | some p =>
    have hcount : rb.count = 0 := by
      by_contra hne
      exact h ⟨by rw [hptr]; rfl, hne⟩
    simp [constructShared, hptr, hcount]

/-- The new control block owns what it is constructed from. -/
theorem contents_constructShared_self (this : S) {rb : ReleasedBuffer D} {p : Nat}
    (hptr : rb.ptr = some p) (hcount : rb.count ≠ 0) :
    (s.constructShared this rb).contents (.block s.next) = rb := by
  cases rb
  simp_all [constructShared, contents, addShared, setBlock]

theorem contents_constructShared_of_ne (this : S) (rb : ReleasedBuffer D) {o : Owner U R}
    (ho : o ≠ .block s.next) : (s.constructShared this rb).contents o = s.contents o := by
  by_cases htaken : rb.ptr.isSome ∧ rb.count ≠ 0
  · obtain ⟨p, hptr⟩ := Option.isSome_iff_exists.1 htaken.1
    cases o with
    | unique u => simp [constructShared, hptr, htaken.2, contents, addShared, setBlock]
    | released r => simp [constructShared, hptr, htaken.2, contents, addShared, setBlock]
    | block c =>
      have hne : c ≠ s.next := fun h => ho (by rw [h])
      have hlt : c < s.next + 1 ↔ c < s.next := by omega
      simp [constructShared, hptr, htaken.2, contents, addShared, setBlock, hne, hlt]
  · rw [constructShared_eq_addShared this htaken]
    rfl

/-- The owner `a` has handed its contents over, and `constructShared` takes them or loses them. -/
theorem settles_constructShared {a : Owner U R} (ha : ∀ c, a ≠ .block c) {rb : ReleasedBuffer D}
    (hrb : s.contents a = rb) (hgone : (s'.contents a).ptr = none)
    (hframe : ∀ o, o ≠ a → s'.contents o = s.contents o) (hnext : s'.next = s.next) (this : S) :
    Settles s (s'.constructShared this rb) rb.lost := by
  by_cases htaken : rb.ptr.isSome ∧ rb.count ≠ 0
  · obtain ⟨p, hptr⟩ := Option.isSome_iff_exists.1 htaken.1
    have hcount := htaken.2
    have hlost : rb.lost = [] := if_neg hcount
    rw [hlost]
    apply Settles.transfer (a := a) (b := .block s.next)
    · exact ha s.next
    · simp [contents]
    · rw [← hnext, contents_constructShared_self this hptr hcount, hrb]
    · rw [contents_constructShared_of_ne this rb (by rw [hnext]; exact ha s.next)]
      exact hgone
    · intro o ho ho'
      left
      rw [contents_constructShared_of_ne this rb (by rw [hnext]; exact ho'), hframe o ho]
  · have hlost : rb.lost = (s.contents a).settle := by
      rw [hrb]
      exact ReleasedBuffer.lost_eq_settle htaken
    have hempty := constructShared_eq_addShared (s := s') this htaken
    rw [hlost, hempty]
    apply Settles.giveUp
    · intro o ho
      exact .inl (hframe o ho)
    · exact hgone

omit [DecidableEq S] in
theorem settles_addRef {v : Option Nat} (hv : ∀ c, v = some c → 0 < (s.blocks c).ref) :
    Settles s (s.addRef v) [] := by
  apply Settles.of_same
  intro o
  left
  cases v with
  | none => rfl
  | some d =>
    cases o with
    | unique u => rfl
    | released r => rfl
    | block c =>
      by_cases hc : c = d
      · subst hc
        simp [contents, addRef, setBlock, hv c rfl]
      · simp [contents, addRef, setBlock, hc]

/-- What a control block loses with a reference: nothing, or all it owns. -/
theorem settles_releaseCtrl {extra : Option Nat} (hcounted : s.Counted extra) {h : S}
    (hlive : h ∈ s.sharedLive) : Settles s (s.releaseCtrl h).1 (s.releaseCtrl h).2 := by
  cases hctrl : s.ctrl h with
  | none =>
    have hsame : s.releaseCtrl h = (s, []) := by simp [releaseCtrl, hctrl]
    rw [hsame]
    exact Settles.of_same fun o => .inl rfl
  | some c =>
    have hpos := hcounted.ref_pos hlive hctrl
    have hlt : c < s.next := by
      by_contra hge
      have hfresh := hcounted.fresh c (by omega)
      omega
    have hblock : s.contents (.block c) = ⟨some (s.blocks c).ptr, (s.blocks c).size,
        (s.blocks c).deleter, (s.blocks c).location⟩ := by
      simp [contents, hlt, hpos]
    have hframe : ∀ o, o ≠ .block c → (s.releaseCtrl h).1.contents o = s.contents o := by
      intro o ho
      cases o with
      | unique u => simp [releaseCtrl, hctrl, contents, setCtrl, setBlock]
      | released r => simp [releaseCtrl, hctrl, contents, setCtrl, setBlock]
      | block d =>
        have hd : d ≠ c := fun hdc => ho (by rw [hdc])
        simp [releaseCtrl, hctrl, contents, setCtrl, setBlock, hd]
    -- the last reference gives up all the block owns, any other gives up nothing
    by_cases hone : (s.blocks c).ref = 1
    · have hcalls : (s.releaseCtrl h).2 = (s.contents (.block c)).settle := by
        rw [hblock]
        simp [releaseCtrl, hctrl, hone, ReleasedBuffer.settle]
      rw [hcalls]
      apply Settles.giveUp
      · intro o ho
        exact .inl (hframe o ho)
      · simp [releaseCtrl, hctrl, contents, setCtrl, setBlock, hone]
    · have hcalls : (s.releaseCtrl h).2 = [] := by simp [releaseCtrl, hctrl, hone]
      rw [hcalls]
      apply Settles.of_same
      intro o
      left
      by_cases ho : o = .block c
      · have hstill : 0 < (s.blocks c).ref - 1 := by omega
        rw [ho, hblock]
        simp only [releaseCtrl, hctrl, contents, setCtrl, setBlock, Function.update_self, hlt,
          hstill, and_self, if_true]
      · exact hframe o ho

theorem settles_releaseShared (hcounted : s.Counted none) {this : S} {out : R}
    (hout : out ∉ s.unclaimed) :
    Settles s (s.releaseShared this out) [] := by
  cases hctrl : s.ctrl this with
  | none =>
    have hsame : s.releaseShared this out = s := by simp [releaseShared, hctrl]
    rw [hsame]
    exact Settles.of_same fun o => .inl rfl
  | some c =>
    -- only the holder of the last reference gets the memory out
    by_cases hone : (s.blocks c).ref = 1
    · have hlt : c < s.next := by
        by_contra hge
        have hfresh := hcounted.fresh c (by omega)
        omega
      have hblock : s.contents (.block c) = ⟨some (s.blocks c).ptr, (s.blocks c).size,
          (s.blocks c).deleter, (s.blocks c).location⟩ := by
        simp [contents, hlt, hone]
      have hrel : s.releaseShared this out =
          ((s.setBlock c { s.blocks c with ref := 0 }).setCtrl this none).keep out
            (s.contents (.block c)) := by
        rw [hblock]
        simp [releaseShared, hctrl, hone]
      rw [hrel]
      apply Settles.transfer (a := .block c) (b := .released out)
      · simp
      · simp [contents, hout]
      · exact contents_keep_self out _
      · rw [contents_keep_of_ne (by simp)]
        simp [contents, setCtrl, setBlock]
      · intro o ho ho'
        left
        rw [contents_keep_of_ne ho']
        cases o with
        | unique u => rfl
        | released r => rfl
        | block d =>
          have hd : d ≠ c := fun hdc => ho (by rw [hdc])
          simp [contents, setCtrl, setBlock, hd]
    · have hsame : s.releaseShared this out = s := by simp [releaseShared, hctrl, hone]
      rw [hsame]
      exact Settles.of_same fun o => .inl rfl

omit [DecidableEq S] in
/-- What an operation does to shared handles alone is no move of memory. -/
theorem settles_handles (hunique : s'.unique = s.unique) (hlive : s'.uniqueLive = s.uniqueLive)
    (hblocks : s'.blocks = s.blocks) (hnext : s'.next = s.next)
    (hreleased : s'.released = s.released) (hunclaimed : s'.unclaimed = s.unclaimed) :
    Settles s s' [] := by
  apply Settles.of_same
  intro o
  left
  cases o with
  | unique u => simp only [contents, hunique, hlive]
  | block c => simp only [contents, hblocks, hnext]
  | released r => simp only [contents, hreleased, hunclaimed]

end Shared

/-! ### The law of every operation -/

section Step

variable [DecidableEq S]

theorem settles_sharedCopyAssign (hcounted : s.Counted none) {this other : S}
    (hthis : this ∈ s.sharedLive) (hother : other ∈ s.sharedLive) :
    Settles s (((s.addRef (s.ctrl other)).releaseCtrl this).1.setCtrl this (s.ctrl other))
        ((s.addRef (s.ctrl other)).releaseCtrl this).2 ∧
      (((s.addRef (s.ctrl other)).releaseCtrl this).1.setCtrl this (s.ctrl other)).Counted
        none := by
  -- the reference of `other` is taken first, so the block cannot go away in between
  have hpos : ∀ c, s.ctrl other = some c → 0 < (s.blocks c).ref := by
    intro c hc
    exact hcounted.ref_pos hother hc
  have htaken := hcounted.addRef hpos
  have hadd : Settles s (s.addRef (s.ctrl other)) [] := settles_addRef hpos
  have hlive : this ∈ (s.addRef (s.ctrl other)).sharedLive := by
    cases s.ctrl other <;> exact hthis
  have hdrop := settles_releaseCtrl htaken hlive
  obtain ⟨hcounted', hempty, hlive', hframe⟩ := htaken.releaseCtrl hlive
  rw [← hlive'] at hlive
  generalize ((s.addRef (s.ctrl other)).releaseCtrl this) = r at *
  constructor
  · have hstore : Settles r.1 (r.1.setCtrl this (s.ctrl other)) [] :=
      settles_handles rfl rfl rfl rfl rfl rfl
    simpa using (hadd.trans hdrop).trans hstore
  · apply hcounted'.store (h := this)
    · simp [handle, hlive, hempty]
    · simp [handle, setCtrl, hlive]
    · intro k hk
      simp [handle, setCtrl, hk]
    · rfl
    · rfl

theorem settles_sharedMoveAssign (hcounted : s.Counted none) {this other : S}
    (hne : this ≠ other) (hthis : this ∈ s.sharedLive) (hother : other ∈ s.sharedLive) :
    Settles s (((s.releaseCtrl this).1.setCtrl this ((s.releaseCtrl this).1.ctrl other)).setCtrl
        other none) (s.releaseCtrl this).2 ∧
      (((s.releaseCtrl this).1.setCtrl this ((s.releaseCtrl this).1.ctrl other)).setCtrl
        other none).Counted none := by
  have hdrop := settles_releaseCtrl hcounted hthis
  obtain ⟨hcounted', hempty, hlive, hframe⟩ := hcounted.releaseCtrl hthis
  rw [← hlive] at hthis hother
  generalize s.releaseCtrl this = r at *
  constructor
  · have hstore : Settles r.1 ((r.1.setCtrl this (r.1.ctrl other)).setCtrl other none) [] :=
      settles_handles rfl rfl rfl rfl rfl rfl
    simpa using hdrop.trans hstore
  · apply hcounted'.moveHandle hne hother
    · simp [handle, hempty]
    · simp [handle, setCtrl, hthis, hne]
    · simp [handle, setCtrl]
    · intro k hk hko
      simp [handle, setCtrl, hk, hko]
    · rfl
    · rfl

/-- Construction takes the memory from its one owner, here a `released_buffer`. -/
theorem settles_sharedFromReleased (hcounted : s.Counted none) {this : S} {rb : R}
    (hthis : this ∉ s.sharedLive) (hrb : rb ∈ s.unclaimed) :
    Settles s ((s.claim rb).constructShared this (s.released rb)) (s.released rb).lost ∧
      ((s.claim rb).constructShared this (s.released rb)).Counted none := by
  constructor
  · apply settles_constructShared (a := .released rb)
    · simp
    · simp [contents, hrb]
    · exact contents_claim_self rb
    · intro o ho
      exact contents_claim_of_ne ho
    · rfl
  · have hclaimed : (s.claim rb).Counted none := hcounted.of_eq (fun h => rfl) rfl rfl
    exact hclaimed.constructShared hthis _

/-- Construction takes the memory from its one owner, here a `unique_buffer`. -/
theorem settles_sharedFromUnique (hcounted : s.Counted none) {this : S} {u_b : U}
    (hthis : this ∉ s.sharedLive) (hu : u_b ∈ s.uniqueLive) :
    Settles s ((s.setUnique u_b {}).constructShared this (s.unique u_b).released)
        (s.unique u_b).released.lost ∧
      ((s.setUnique u_b {}).constructShared this (s.unique u_b).released).Counted none := by
  constructor
  · apply settles_constructShared (a := .unique u_b)
    · simp
    · exact contents_unique hu
    · rw [contents_setUnique_self hu]
      rfl
    · intro o ho
      exact contents_setUnique_of_ne ho
    · rfl
  · have hemptied : (s.setUnique u_b {}).Counted none := hcounted.of_eq (fun h => rfl) rfl rfl
    exact hemptied.constructShared hthis _

theorem settles_sharedCopy (hcounted : s.Counted none) {this other : S}
    (hthis : this ∉ s.sharedLive) (hother : other ∈ s.sharedLive) :
    Settles s ((s.addRef (s.ctrl other)).addShared this (s.ctrl other)) [] ∧
      ((s.addRef (s.ctrl other)).addShared this (s.ctrl other)).Counted none := by
  have hpos : ∀ c, s.ctrl other = some c → 0 < (s.blocks c).ref := by
    intro c hc
    exact hcounted.ref_pos hother hc
  constructor
  · exact (settles_addRef hpos).trans (settles_handles rfl rfl rfl rfl rfl rfl)
  · apply (hcounted.addRef hpos).addShared
    cases s.ctrl other <;> exact hthis

/-- A null handle takes the reference over, so no count changes. -/
theorem settles_sharedMove (hcounted : s.Counted none) {this other : S}
    (hthis : this ∉ s.sharedLive) (hother : other ∈ s.sharedLive) :
    Settles s ((s.addShared this (s.ctrl other)).setCtrl other none) [] ∧
      ((s.addShared this (s.ctrl other)).setCtrl other none).Counted none := by
  have hne : this ≠ other := by
    rintro rfl
    exact hthis hother
  refine ⟨settles_handles rfl rfl rfl rfl rfl rfl, ?_⟩
  apply hcounted.moveHandle hne hother (handle_eq_none hthis)
  · simp [handle, setCtrl, addShared, hne]
  · simp [handle, setCtrl]
  · intro k hk hko
    simp [handle, setCtrl, addShared, hk, hko]
  · rfl
  · rfl

/-- The handle gives its reference up and is no longer live. -/
theorem settles_sharedDestroy (hcounted : s.Counted none) {this : S}
    (hthis : this ∈ s.sharedLive) :
    Settles s { (s.releaseCtrl this).1 with
        sharedLive := (s.releaseCtrl this).1.sharedLive.erase this } (s.releaseCtrl this).2 ∧
      Counted { (s.releaseCtrl this).1 with
        sharedLive := (s.releaseCtrl this).1.sharedLive.erase this } none := by
  have hsettles := settles_releaseCtrl hcounted hthis
  obtain ⟨hdropped, hempty, hlive, -⟩ := hcounted.releaseCtrl hthis
  constructor
  · have herase : Settles (s.releaseCtrl this).1 { (s.releaseCtrl this).1 with
        sharedLive := (s.releaseCtrl this).1.sharedLive.erase this } [] :=
      settles_handles rfl rfl rfl rfl rfl rfl
    have hall := hsettles.trans herase
    rw [List.append_nil] at hall
    exact hall
  · apply hdropped.of_eq
    · intro h
      by_cases hh : h = this
      · rw [hh]
        simp [handle, hempty]
      · simp [handle, hh]
    · rfl
    · rfl

/-- Every operation settles what it gives up, but for the calls it leaves out, and keeps the counts
of the control blocks right. -/
theorem step_settles (hcounted : s.Counted none) {op : BufferOp U S R} {calls : Calls D}
    (hstep : s.step op = some (s', calls)) :
    Settles s s' (s.lost op ++ calls) ∧ s'.Counted none := by
  -- only the operations on shared handles touch handles or control blocks
  have hunique : s'.ctrl = s.ctrl → s'.sharedLive = s.sharedLive → s'.blocks = s.blocks →
      s'.next = s.next → s'.Counted none := by
    intro hctrl hlive hblocks hnext
    exact hcounted.of_eq (fun h => by simp only [handle, hctrl, hlive]) hblocks hnext
  cases op with
  | uniqueDefault this =>
    obtain ⟨hthis, rfl, rfl⟩ : this ∉ s.uniqueLive ∧ s.addUnique this {} = s' ∧ [] = calls := by
      simpa [step] using hstep
    exact ⟨settles_addUnique_empty hthis, hunique rfl rfl rfl rfl⟩
  | uniqueFromReleased this rb =>
    obtain ⟨⟨hthis, hrb⟩, rfl, rfl⟩ : (this ∉ s.uniqueLive ∧ rb ∈ s.unclaimed) ∧
        (s.claim rb).addUnique this (.ofReleased (s.released rb)) = s' ∧ [] = calls := by
      simpa [step] using hstep
    exact ⟨settles_uniqueFromReleased hthis hrb, hunique rfl rfl rfl rfl⟩
  | uniqueMove this other =>
    obtain ⟨⟨hthis, hother⟩, rfl, rfl⟩ : (this ∉ s.uniqueLive ∧ other ∈ s.uniqueLive) ∧
        (s.addUnique this {}).stealFrom this other = s' ∧ [] = calls := by
      simpa [step] using hstep
    exact ⟨settles_uniqueMove hthis hother, hunique rfl rfl rfl rfl⟩
  -- self-assignment returns at once; else the memory of `this` is settled before the move
  | uniqueMoveAssign this other =>
    by_cases hlive : this ∈ s.uniqueLive ∧ other ∈ s.uniqueLive
    · by_cases hself : this = other
      · simp only [step, if_pos hlive, if_pos hself, Option.some.injEq, Prod.mk.injEq] at hstep
        obtain ⟨rfl, rfl⟩ := hstep
        exact ⟨Settles.of_same fun o => .inl rfl, hcounted⟩
      · simp only [step, if_pos hlive, if_neg hself, Option.some.injEq, Prod.mk.injEq] at hstep
        obtain ⟨rfl, rfl⟩ := hstep
        exact ⟨settles_uniqueMoveAssign hself hlive.1 hlive.2, hunique rfl rfl rfl rfl⟩
    · simp [step, hlive] at hstep
  | uniqueSwap this other =>
    obtain ⟨⟨hthis, hother⟩, rfl, rfl⟩ : (this ∈ s.uniqueLive ∧ other ∈ s.uniqueLive) ∧
        (s.setUnique this (s.unique other)).setUnique other (s.unique this) = s' ∧
          [] = calls := by
      simpa [step] using hstep
    exact ⟨settles_uniqueSwap hthis hother, hunique rfl rfl rfl rfl⟩
  | uniqueReset this =>
    obtain ⟨hthis, hreset⟩ : this ∈ s.uniqueLive ∧ s.resetUnique this = (s', calls) := by
      simpa [step] using hstep
    obtain ⟨rfl, rfl⟩ := Prod.mk.inj hreset
    exact ⟨settles_resetUnique hthis, hunique rfl rfl rfl rfl⟩
  | uniqueRelease this out =>
    obtain ⟨⟨hthis, hout⟩, rfl, rfl⟩ : (this ∈ s.uniqueLive ∧ out ∉ s.unclaimed) ∧
        (s.setUnique this {}).keep out (s.unique this).released = s' ∧ [] = calls := by
      simpa [step] using hstep
    exact ⟨settles_uniqueRelease hthis hout, hunique rfl rfl rfl rfl⟩
  | uniqueDestroy this =>
    by_cases hthis : this ∈ s.uniqueLive
    · simp only [step, if_pos hthis, Option.some.injEq, Prod.mk.injEq] at hstep
      obtain ⟨rfl, rfl⟩ := hstep
      exact ⟨settles_uniqueDestroy hthis, hunique rfl rfl rfl rfl⟩
    · simp [step, hthis] at hstep
  | sharedDefault this =>
    obtain ⟨hthis, rfl, rfl⟩ : this ∉ s.sharedLive ∧ s.addShared this none = s' ∧
        [] = calls := by
      simpa [step] using hstep
    exact ⟨settles_handles rfl rfl rfl rfl rfl rfl, hcounted.addShared hthis⟩
  | sharedFromReleased this rb =>
    obtain ⟨⟨hthis, hrb⟩, rfl, rfl⟩ : (this ∉ s.sharedLive ∧ rb ∈ s.unclaimed) ∧
        (s.claim rb).constructShared this (s.released rb) = s' ∧ [] = calls := by
      simpa [step] using hstep
    rw [List.append_nil]
    exact settles_sharedFromReleased hcounted hthis hrb
  | sharedFromUnique this u_b =>
    obtain ⟨⟨hthis, hu⟩, rfl, rfl⟩ : (this ∉ s.sharedLive ∧ u_b ∈ s.uniqueLive) ∧
        (s.setUnique u_b {}).constructShared this (s.unique u_b).released = s' ∧
          [] = calls := by
      simpa [step] using hstep
    rw [List.append_nil]
    exact settles_sharedFromUnique hcounted hthis hu
  | sharedCopy this other =>
    obtain ⟨⟨hthis, hother⟩, rfl, rfl⟩ : (this ∉ s.sharedLive ∧ other ∈ s.sharedLive) ∧
        (s.addRef (s.ctrl other)).addShared this (s.ctrl other) = s' ∧ [] = calls := by
      simpa [step] using hstep
    exact settles_sharedCopy hcounted hthis hother
  | sharedCopyAssign this other =>
    by_cases hlive : this ∈ s.sharedLive ∧ other ∈ s.sharedLive
    · by_cases hself : this = other
      · simp only [step, if_pos hlive, if_pos hself, Option.some.injEq, Prod.mk.injEq] at hstep
        obtain ⟨rfl, rfl⟩ := hstep
        exact ⟨Settles.of_same fun o => .inl rfl, hcounted⟩
      · simp only [step, if_pos hlive, if_neg hself, Option.some.injEq, Prod.mk.injEq] at hstep
        obtain ⟨rfl, rfl⟩ := hstep
        exact settles_sharedCopyAssign hcounted hlive.1 hlive.2
    · simp [step, hlive] at hstep
  | sharedMove this other =>
    obtain ⟨⟨hthis, hother⟩, rfl, rfl⟩ : (this ∉ s.sharedLive ∧ other ∈ s.sharedLive) ∧
        (s.addShared this (s.ctrl other)).setCtrl other none = s' ∧ [] = calls := by
      simpa [step] using hstep
    exact settles_sharedMove hcounted hthis hother
  | sharedMoveAssign this other =>
    by_cases hlive : this ∈ s.sharedLive ∧ other ∈ s.sharedLive
    · by_cases hself : this = other
      · simp only [step, if_pos hlive, if_pos hself, Option.some.injEq, Prod.mk.injEq] at hstep
        obtain ⟨rfl, rfl⟩ := hstep
        exact ⟨Settles.of_same fun o => .inl rfl, hcounted⟩
      · simp only [step, if_pos hlive, if_neg hself, Option.some.injEq, Prod.mk.injEq] at hstep
        obtain ⟨rfl, rfl⟩ := hstep
        exact settles_sharedMoveAssign hcounted hself hlive.1 hlive.2
    · simp [step, hlive] at hstep
  | sharedSwap this other =>
    obtain ⟨⟨hthis, hother⟩, rfl, rfl⟩ : (this ∈ s.sharedLive ∧ other ∈ s.sharedLive) ∧
        (s.setCtrl this (s.ctrl other)).setCtrl other (s.ctrl this) = s' ∧ [] = calls := by
      simpa [step] using hstep
    exact ⟨settles_handles rfl rfl rfl rfl rfl rfl, hcounted.swap hthis hother⟩
  | sharedReset this =>
    obtain ⟨hthis, hreset⟩ : this ∈ s.sharedLive ∧ s.releaseCtrl this = (s', calls) := by
      simpa [step] using hstep
    have hsettles := settles_releaseCtrl hcounted hthis
    have hnext := (hcounted.releaseCtrl hthis).1
    rw [hreset] at hsettles hnext
    exact ⟨hsettles, hnext⟩
  | sharedRelease this out =>
    obtain ⟨⟨hthis, hout⟩, rfl, rfl⟩ : (this ∈ s.sharedLive ∧ out ∉ s.unclaimed) ∧
        s.releaseShared this out = s' ∧ [] = calls := by
      simpa [step] using hstep
    exact ⟨settles_releaseShared hcounted hout, hcounted.releaseShared hthis out⟩
  | sharedDestroy this =>
    by_cases hthis : this ∈ s.sharedLive
    · simp only [step, if_pos hthis, Option.some.injEq, Prod.mk.injEq] at hstep
      obtain ⟨rfl, rfl⟩ := hstep
      exact settles_sharedDestroy hcounted hthis
    · simp [step, hthis] at hstep

/-- Where all that is owned has a size, no call is left out. -/
theorem Sound.lost_eq_nil (hs : s.Sound) {op : BufferOp U S R} {calls : Calls D}
    (hstep : s.step op = some (s', calls)) : s.lost op = [] := by
  have hlost : ∀ o rb, s.contents o = rb → rb.lost = [] := by
    rintro o rb rfl
    rw [ReleasedBuffer.lost]
    cases hptr : (s.contents o).ptr with
    | none => rw [ReleasedBuffer.settle_eq_nil_of_ptr hptr, ite_self]
    | some p => exact if_neg (hs o p hptr).1.ne'
  cases op with
  -- only construction from memory of size zero leaves a call out
  | sharedFromReleased this rb =>
    have hrb : rb ∈ s.unclaimed := by
      by_contra hnot
      simp [step, hnot] at hstep
    exact hlost (.released rb) _ (by simp [contents, hrb])
  | sharedFromUnique this u_b =>
    have hu : u_b ∈ s.uniqueLive := by
      by_contra hnot
      simp [step, hnot] at hstep
    exact hlost (.unique u_b) _ (contents_unique hu)
  | _ => rfl

/-- Where all that is owned has a size and a deleter, every operation conserves ownership. -/
theorem step_moves (hcounted : s.Counted none) (hsound : s.Sound) {op : BufferOp U S R}
    {calls : Calls D} (hstep : s.step op = some (s', calls)) :
    Moves s s' calls ∧ s'.Counted none := by
  obtain ⟨hsettles, hcounted'⟩ := step_settles hcounted hstep
  rw [hsound.lost_eq_nil hstep, List.nil_append] at hsettles
  exact ⟨hsettles.moves hsound, hcounted'⟩

end Step

end Objects

end PipelineTools.Memory
