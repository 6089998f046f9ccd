import PipelineTools.Memory.Objects

/-!
# Ownership of memory by buffer objects

Laws of the buffer operations. `Counted` says that the count of every control block is the number of
handles that refer to it; an operation in the middle of an assignment may hold one more reference,
the `extra` one. `Settles` says what an operation does to the memory that objects own together with
a deleter: each pointer keeps its owner or gets one other, or its deleter is called
(`Settles.count`), and what an owner has after the operation some owner had before it, with the same
size and deleter (`Settles.same`).

`Moves` is the same law about all that is owned. It holds of an operation as long as no owner holds
a pointer with an empty deleter; `Sound` excludes these, and operations keep it.
-/

set_option autoImplicit false

namespace PipelineTools.Memory

open PipelineTools.Library

namespace Objects

variable {U S R D : Type} {s s' s'' : Objects U S R D}

section Counted

variable [DecidableEq S]

/-- The control block a live handle refers to. -/
def handle (s : Objects U S R D) (h : S) : Option Nat :=
  if h ∈ s.sharedLive then s.ctrl h else none

/-- The counts of the control blocks, with one more reference to `extra`. -/
structure Counted (s : Objects U S R D) (extra : Option Nat) : Prop where
  ref : ∀ c, (s.blocks c).ref =
    refCount s.sharedLive s.handle c + if extra = some c then 1 else 0
  fresh : ∀ c, s.next ≤ c → (s.blocks c).ref = 0

theorem handle_eq_none {h : S} (hh : h ∉ s.sharedLive) : s.handle h = none := if_neg hh

theorem refCount_handle_change {touched : List S} (hnodup : touched.Nodup)
    (hframe : ∀ h, h ∉ touched → s'.handle h = s.handle h) (c : Nat) :
    refCount s'.sharedLive s'.handle c + touched.countP (fun h => s.handle h = some c) =
      refCount s.sharedLive s.handle c + touched.countP (fun h => s'.handle h = some c) := by
  apply refCount_change hnodup
  · intro h hh
    exact handle_eq_none hh
  · intro h hh
    exact handle_eq_none hh
  · exact hframe

theorem counted_init : (init : Objects U S R D).Counted none := by
  constructor
  · intro c
    have hempty : refCount ∅ (init : Objects U S R D).handle c = 0 := by
      rw [refCount, Finset.filter_empty, Finset.card_empty]
    exact hempty.symm
  · intro c _
    rfl

/-- A step that changes neither handles nor counts. -/
theorem Counted.of_eq {extra : Option Nat} (hs : s.Counted extra)
    (hhandle : ∀ h, s'.handle h = s.handle h) (hblocks : s'.blocks = s.blocks)
    (hnext : s'.next = s.next) : s'.Counted extra := by
  constructor
  · intro c
    have hsame := refCount_handle_change List.nodup_nil (fun h _ => hhandle h) c
    rw [hblocks, hs.ref c]
    simpa using hsame.symm
  · intro c hc
    rw [hblocks]
    exact hs.fresh c (by omega)

theorem Counted.ref_pos {extra : Option Nat} (hs : s.Counted extra) {h : S} {c : Nat}
    (hlive : h ∈ s.sharedLive) (hctrl : s.ctrl h = some c) : 0 < (s.blocks c).ref := by
  have hpos : 0 < refCount s.sharedLive s.handle c := by
    apply refCount_pos_iff.2
    refine ⟨h, hlive, ?_⟩
    rw [handle, if_pos hlive]
    exact hctrl
  rw [hs.ref c]
  omega

/-- One more reference is counted before it is stored. -/
theorem Counted.addRef (hs : s.Counted none) {v : Option Nat}
    (hv : ∀ c, v = some c → 0 < (s.blocks c).ref) : (s.addRef v).Counted v := by
  cases v with
  | none => exact hs
  | some d =>
    have hd := hv d rfl
    have hrefs : ∀ c, refCount (s.addRef (some d)).sharedLive (s.addRef (some d)).handle c =
        refCount s.sharedLive s.handle c := fun c => rfl
    constructor
    · intro c
      have hold := hs.ref c
      rw [hrefs c]
      by_cases hc : c = d
      · subst hc
        simp [Objects.addRef, setBlock]
        simpa using hold
      · simp [Objects.addRef, setBlock, hc, Ne.symm hc]
        simpa using hold
    · intro c hc
      have hne : c ≠ d := by
        rintro rfl
        have hfresh := hs.fresh c hc
        omega
      simp only [Objects.addRef, setBlock, Function.update_of_ne hne]
      exact hs.fresh c hc

/-- A live handle gives its reference up. -/
theorem Counted.drop {extra : Option Nat} (hs : s.Counted extra) {h : S} {c : Nat}
    (hlive : h ∈ s.sharedLive) (hctrl : s.ctrl h = some c) :
    ((s.setBlock c { s.blocks c with ref := (s.blocks c).ref - 1 }).setCtrl h none).Counted
      extra := by
  have hpos := hs.ref_pos hlive hctrl
  generalize hs' : (s.setBlock c { s.blocks c with
    ref := (s.blocks c).ref - 1 }).setCtrl h none = s'
  have hbefore : s.handle h = some c := by
    rw [handle, if_pos hlive]
    exact hctrl
  have hafter : s'.handle h = none := by simp [← hs', handle, setCtrl]
  have hframe : ∀ k, k ∉ [h] → s'.handle k = s.handle k := by
    intro k hk
    simp only [← hs', handle, setCtrl, setBlock,
      Function.update_of_ne (List.mem_singleton.not.1 hk)]
  constructor
  · intro d
    have hchange := refCount_handle_change (List.nodup_singleton h) hframe d
    have hold := hs.ref d
    simp only [List.countP_singleton, hbefore, hafter] at hchange
    by_cases hd : d = c
    · subst hd
      have hnew : (s'.blocks d).ref = (s.blocks d).ref - 1 := by simp [← hs', setCtrl, setBlock]
      simp at hchange
      omega
    · have hnew : s'.blocks d = s.blocks d := by simp [← hs', setCtrl, setBlock, hd]
      simp [Ne.symm hd] at hchange
      rw [hnew]
      omega
  · intro d hd
    have hne : d ≠ c := by
      rintro rfl
      have hfresh := hs.fresh d (by rw [← hs'] at hd; exact hd)
      omega
    have hnew : s'.blocks d = s.blocks d := by simp [← hs', setCtrl, setBlock, hne]
    rw [hnew]
    exact hs.fresh d (by rw [← hs'] at hd; exact hd)

/-- The reference counted in advance is stored in a handle that had none. -/
theorem Counted.store {v : Option Nat} (hs : s.Counted v) {h : S} (hempty : s.handle h = none)
    (hstored : s'.handle h = v) (hframe : ∀ k, k ≠ h → s'.handle k = s.handle k)
    (hblocks : s'.blocks = s.blocks) (hnext : s'.next = s.next) : s'.Counted none := by
  constructor
  · intro c
    have hchange := refCount_handle_change (s := s) (List.nodup_singleton h)
      (fun k hk => hframe k (List.mem_singleton.not.1 hk)) c
    have hold := hs.ref c
    rw [hblocks]
    simp only [List.countP_singleton, hempty, hstored] at hchange
    by_cases hv : v = some c
    · simp [hv] at hchange hold ⊢
      omega
    · simp [hv] at hchange hold ⊢
      omega
  · intro c hc
    rw [hblocks]
    exact hs.fresh c (by omega)

/-- A reference is lifted out of a handle. -/
theorem Counted.lift (hs : s.Counted none) {h : S} (hlive : h ∈ s.sharedLive) :
    (s.setCtrl h none).Counted (s.ctrl h) := by
  have hbefore : s.handle h = s.ctrl h := if_pos hlive
  have hafter : (s.setCtrl h none).handle h = none := by simp [handle, setCtrl]
  have hframe : ∀ k, k ∉ [h] → (s.setCtrl h none).handle k = s.handle k := by
    intro k hk
    simp only [handle, setCtrl, Function.update_of_ne (List.mem_singleton.not.1 hk)]
  constructor
  · intro c
    have hchange := refCount_handle_change (List.nodup_singleton h) hframe c
    have hold := hs.ref c
    have hblock : ((s.setCtrl h none).blocks c).ref = (s.blocks c).ref := rfl
    rw [hblock]
    simp only [List.countP_singleton, hbefore, hafter] at hchange
    by_cases hv : s.ctrl h = some c
    · simp [hv] at hchange hold ⊢
      omega
    · simp [hv] at hchange hold ⊢
      omega
  · exact hs.fresh

/-- A new control block has the one reference of its first handle. -/
theorem Counted.allocate (hs : s.Counted none) {h : S} (hnew : h ∉ s.sharedLive)
    {b : ControlBlock D} (hb : b.ref = 1) :
    Counted { (s.setBlock s.next b).addShared h (some s.next) with next := s.next + 1 } none := by
  generalize hs' : ({ (s.setBlock s.next b).addShared h (some s.next) with
    next := s.next + 1 } : Objects U S R D) = s'
  have hbefore : s.handle h = none := handle_eq_none hnew
  have hafter : s'.handle h = some s.next := by simp [← hs', handle, addShared]
  have hframe : ∀ k, k ∉ [h] → s'.handle k = s.handle k := by
    intro k hk
    have hne := List.mem_singleton.not.1 hk
    simp [← hs', handle, addShared, setBlock, hne]
  have hfresh := hs.fresh s.next (Nat.le_refl _)
  constructor
  · intro c
    have hchange := refCount_handle_change (List.nodup_singleton h) hframe c
    have hold := hs.ref c
    simp only [List.countP_singleton, hbefore, hafter] at hchange
    by_cases hc : c = s.next
    · have hblock : s'.blocks c = b := by simp [← hs', hc, addShared, setBlock]
      rw [hblock, hb]
      simp [hc] at hchange hold ⊢
      omega
    · have hblock : s'.blocks c = s.blocks c := by simp [← hs', hc, addShared, setBlock]
      rw [hblock]
      simp [Ne.symm hc] at hchange hold ⊢
      omega
  · intro c hc
    have hlt : s.next + 1 ≤ c := by
      rw [← hs'] at hc
      exact hc
    have hblock : s'.blocks c = s.blocks c := by
      have hne : c ≠ s.next := by omega
      simp [← hs', hne, addShared, setBlock]
    rw [hblock]
    exact hs.fresh c (by omega)

/-- Two handles exchange their pointers. -/
theorem Counted.swap (hs : s.Counted none) {a b : S} (ha : a ∈ s.sharedLive)
    (hb : b ∈ s.sharedLive) :
    ((s.setCtrl a (s.ctrl b)).setCtrl b (s.ctrl a)).Counted none := by
  by_cases hab : a = b
  · have hsame : (s.setCtrl a (s.ctrl b)).setCtrl b (s.ctrl a) = s := by
      rw [← hab]
      simp [setCtrl]
    rw [hsame]
    exact hs
  · generalize hs' : (s.setCtrl a (s.ctrl b)).setCtrl b (s.ctrl a) = s'
    have hnodup : [a, b].Nodup := by simp [hab]
    have hframe : ∀ k, k ∉ [a, b] → s'.handle k = s.handle k := by
      intro k hk
      simp only [List.mem_cons, List.not_mem_nil, or_false, not_or] at hk
      simp [← hs', handle, setCtrl, hk]
    constructor
    · intro c
      have hchange := refCount_handle_change hnodup hframe c
      have hold := hs.ref c
      have hblock : s'.blocks c = s.blocks c := by rw [← hs']; rfl
      have hha : s'.handle a = s.ctrl b := by simp [← hs', handle, setCtrl, ha, hab]
      have hhb : s'.handle b = s.ctrl a := by simp [← hs', handle, setCtrl, hb]
      have hga : s.handle a = s.ctrl a := if_pos ha
      have hgb : s.handle b = s.ctrl b := if_pos hb
      simp only [List.countP_cons, List.countP_nil, hha, hhb, hga, hgb] at hchange
      rw [hblock]
      omega
    · rw [← hs']
      exact hs.fresh

/-- A new handle stores the reference counted in advance. -/
theorem Counted.addShared {v : Option Nat} (hs : s.Counted v) {this : S}
    (hthis : this ∉ s.sharedLive) : (s.addShared this v).Counted none := by
  apply hs.store (handle_eq_none hthis)
  · simp [handle, Objects.addShared]
  · intro k hk
    simp [handle, Objects.addShared, hk]
  · rfl
  · rfl

theorem Counted.constructShared (hs : s.Counted none) {this : S} (hthis : this ∉ s.sharedLive)
    (rb : ReleasedBuffer D) : (s.constructShared this rb).Counted none := by
  have hempty : (s.addShared this none).Counted none := hs.addShared hthis
  rw [Objects.constructShared]
  cases hptr : rb.ptr with
  | none => exact hempty
  | some p =>
    dsimp only
    by_cases hcount : rb.count = 0
    · rw [if_pos hcount]
      exact hempty
    · rw [if_neg hcount]
      exact hs.allocate hthis rfl

theorem Counted.releaseCtrl {extra : Option Nat} (hs : s.Counted extra) {h : S}
    (hlive : h ∈ s.sharedLive) :
    (s.releaseCtrl h).1.Counted extra ∧ (s.releaseCtrl h).1.ctrl h = none ∧
      (s.releaseCtrl h).1.sharedLive = s.sharedLive ∧
      ∀ k, k ≠ h → (s.releaseCtrl h).1.ctrl k = s.ctrl k := by
  cases hctrl : s.ctrl h with
  | none =>
    have hsame : (s.releaseCtrl h).1 = s := by simp [Objects.releaseCtrl, hctrl]
    rw [hsame]
    exact ⟨hs, hctrl, rfl, fun k _ => rfl⟩
  | some c =>
    have hdrop : (s.releaseCtrl h).1 =
        (s.setBlock c { s.blocks c with ref := (s.blocks c).ref - 1 }).setCtrl h none := by
      simp [Objects.releaseCtrl, hctrl]
    rw [hdrop]
    refine ⟨hs.drop hlive hctrl, ?_, rfl, ?_⟩
    · simp [setCtrl]
    · intro k hk
      simp [setCtrl, setBlock, hk]

theorem Counted.releaseShared [DecidableEq R] (hs : s.Counted none) {this : S}
    (hlive : this ∈ s.sharedLive)
    (out : R) : (s.releaseShared this out).Counted none := by
  cases hctrl : s.ctrl this with
  | none =>
    have hsame : s.releaseShared this out = s := by simp [Objects.releaseShared, hctrl]
    rw [hsame]
    exact hs
  | some c =>
    by_cases hone : (s.blocks c).ref = 1
    · have hdrop := hs.drop hlive hctrl
      rw [hone] at hdrop
      have hrel : s.releaseShared this out = ((s.setBlock c { s.blocks c with ref := 0 }).setCtrl
          this none).keep out ⟨some (s.blocks c).ptr, (s.blocks c).size, (s.blocks c).deleter,
            (s.blocks c).location⟩ := by
        simp [Objects.releaseShared, hctrl, hone]
      rw [hrel]
      exact hdrop.of_eq (fun k => rfl) rfl rfl
    · have hsame : s.releaseShared this out = s := by simp [Objects.releaseShared, hctrl, hone]
      rw [hsame]
      exact hs

/-- A reference passes from one handle to another that has none. -/
theorem Counted.moveHandle (hs : s.Counted none) {this other : S} (hne : this ≠ other)
    (hother : other ∈ s.sharedLive) (hempty : s.handle this = none)
    (hthis : s'.handle this = s.ctrl other) (hother' : s'.handle other = none)
    (hframe : ∀ k, k ≠ this → k ≠ other → s'.handle k = s.handle k)
    (hblocks : s'.blocks = s.blocks) (hnext : s'.next = s.next) : s'.Counted none := by
  apply (hs.lift hother).store (h := this)
  · simpa [handle, setCtrl, hne] using hempty
  · exact hthis
  · intro k hk
    by_cases hko : k = other
    · rw [hko, hother']
      simp [handle, setCtrl]
    · rw [hframe k hk hko]
      simp [handle, setCtrl, hko]
  · exact hblocks
  · exact hnext

end Counted

section Moves

variable [DecidableEq U] [DecidableEq R]

theorem contents_ptr_eq_none {o : Owner U R} (ho : o ∉ s.owners) : (s.contents o).ptr = none := by
  cases o with
  | unique u =>
    have hu : u ∉ s.uniqueLive := by
      intro hlive
      exact ho (by simp [owners, hlive])
    simp [contents, hu]
  | block c =>
    have hc : ¬ c < s.next := by
      intro hlt
      exact ho (by simp [owners, hlt])
    simp [contents, hc]
  | released r =>
    have hr : r ∉ s.unclaimed := by
      intro hlive
      exact ho (by simp [owners, hlive])
    simp [contents, hr]

theorem mem_owners {o : Owner U R} {p : Nat} (hp : (s.contents o).ptr = some p) : o ∈ s.owners := by
  by_contra hnot
  rw [contents_ptr_eq_none hnot] at hp
  cases hp

theorem owned_pos {o : Owner U R} {p : Nat} (hp : (s.contents o).ptr = some p) : 0 < s.owned p :=
  refCount_pos_iff.2 ⟨o, mem_owners hp, hp⟩

theorem owned_change {touched : List (Owner U R)} (hnodup : touched.Nodup)
    (hframe : ∀ o, o ∉ touched → (s'.contents o).ptr = (s.contents o).ptr) (p : Nat) :
    s'.owned p + touched.countP (fun o => (s.contents o).ptr = some p) =
      s.owned p + touched.countP (fun o => (s'.contents o).ptr = some p) := by
  apply refCount_change hnodup
  · intro o ho
    exact contents_ptr_eq_none ho
  · intro o ho
    exact contents_ptr_eq_none ho
  · exact hframe

/-- The owner `o` owns the same memory before and after, or none. -/
def SameAt (s s' : Objects U S R D) (o : Owner U R) : Prop :=
  s'.contents o = s.contents o ∨ (s'.contents o).ptr = none ∧ (s.contents o).ptr = none

/-- Memory changes hands as a whole, and what is given up goes to its deleter. -/
structure Moves (s s' : Objects U S R D) (calls : Calls D) : Prop where
  count : ∀ p, s'.owned p + (calls.map Prod.snd).count p = s.owned p
  same : ∀ o p, (s'.contents o).ptr = some p → ∃ o', s.contents o' = s'.contents o
  called : ∀ d p, (d, p) ∈ calls →
    ∃ o, (s.contents o).ptr = some p ∧ (s.contents o).deleter = some d

theorem SameAt.exists_before {o : Owner U R} {p : Nat} (h : SameAt s s' o)
    (hp : (s'.contents o).ptr = some p) : ∃ o', s.contents o' = s'.contents o := by
  rcases h with heq | ⟨hnone, -⟩
  · exact ⟨o, heq.symm⟩
  · rw [hnone] at hp
    exact absurd hp (by simp)

theorem SameAt.secured_eq {o : Owner U R} (h : SameAt s s' o) :
    (s'.contents o).secured = (s.contents o).secured := by
  rcases h with heq | ⟨hafter, hbefore⟩
  · rw [heq]
  · rw [ReleasedBuffer.secured_of_ptr_eq_none hafter,
      ReleasedBuffer.secured_of_ptr_eq_none hbefore]

/-- The number of owners that hold the pointer `p` with a deleter. -/
def secured (s : Objects U S R D) (p : Nat) : Nat :=
  refCount s.owners (fun o => (s.contents o).secured) p

theorem secured_change {touched : List (Owner U R)} (hnodup : touched.Nodup)
    (hframe : ∀ o, o ∉ touched → SameAt s s' o) (p : Nat) :
    s'.secured p + touched.countP (fun o => (s.contents o).secured = some p) =
      s.secured p + touched.countP (fun o => (s'.contents o).secured = some p) := by
  apply refCount_change hnodup
  · intro o ho
    exact ReleasedBuffer.secured_of_ptr_eq_none (contents_ptr_eq_none ho)
  · intro o ho
    exact ReleasedBuffer.secured_of_ptr_eq_none (contents_ptr_eq_none ho)
  · intro o ho
    exact (hframe o ho).secured_eq

/-- What is owned is moved as a whole. -/
def Kept (s s' : Objects U S R D) : Prop :=
  ∀ o p, (s'.contents o).ptr = some p → ∃ o', s.contents o' = s'.contents o

/-- Memory with a deleter changes hands as a whole, and what is given up goes to its deleter. -/
structure Settles (s s' : Objects U S R D) (calls : Calls D) : Prop where
  count : ∀ p, s'.secured p + (calls.map Prod.snd).count p = s.secured p
  same : Kept s s'
  called : ∀ d p, (d, p) ∈ calls →
    ∃ o, (s.contents o).ptr = some p ∧ (s.contents o).deleter = some d

theorem Settles.of_same (h : ∀ o, SameAt s s' o) : Settles s s' [] := by
  refine ⟨?_, ?_, ?_⟩
  · intro p
    have hchange := secured_change List.nodup_nil (fun o _ => h o) p
    simpa using hchange
  · intro o p hp
    exact (h o).exists_before hp
  · intro d p hcall
    cases hcall

theorem Settles.trans {calls calls' : Calls D} (h : Settles s s' calls)
    (h' : Settles s' s'' calls') : Settles s s'' (calls ++ calls') := by
  refine ⟨?_, ?_, ?_⟩
  · intro p
    have hfirst := h.count p
    have hsecond := h'.count p
    rw [List.map_append, List.count_append]
    omega
  · intro o p hp
    obtain ⟨o', ho'⟩ := h'.same o p hp
    obtain ⟨o'', ho''⟩ := h.same o' p (by rw [ho']; exact hp)
    exact ⟨o'', ho''.trans ho'⟩
  · intro d p hcall
    rcases List.mem_append.1 hcall with hcall | hcall
    · exact h.called d p hcall
    · obtain ⟨o, hptr, hdel⟩ := h'.called d p hcall
      obtain ⟨o', ho'⟩ := h.same o p hptr
      rw [← ho'] at hptr hdel
      exact ⟨o', hptr, hdel⟩

theorem count_toList {v : Option Nat} (p : Nat) :
    v.toList.count p = if v = some p then 1 else 0 := by
  cases v with
  | none => rfl
  | some q =>
    rw [Option.toList_some, List.count_singleton, beq_eq_decide]
    by_cases hq : q = p
    · rw [hq]
      simp
    · simp [hq]

/-- One owner gives up what it owns, and its deleter is called, if it has one. -/
theorem Settles.giveUp {o : Owner U R} (hframe : ∀ k, k ≠ o → SameAt s s' k)
    (hgone : (s'.contents o).ptr = none) : Settles s s' (s.contents o).settle := by
  refine ⟨?_, ?_, ?_⟩
  · intro p
    have hchange := secured_change (List.nodup_singleton o)
      (fun k hk => hframe k (List.mem_singleton.not.1 hk)) p
    rw [ReleasedBuffer.settle_map_snd, count_toList]
    simp only [List.countP_singleton, ReleasedBuffer.secured_of_ptr_eq_none hgone] at hchange
    simpa using hchange
  · intro k p hp
    by_cases hk : k = o
    · rw [hk, hgone] at hp
      exact absurd hp (by simp)
    · exact (hframe k hk).exists_before hp
  · intro d p hcall
    exact ⟨o, ReleasedBuffer.mem_settle hcall⟩

theorem sameAt_of_not_mem_pair {a b : Owner U R} (hframe : ∀ k, k ≠ a → k ≠ b → SameAt s s' k) :
    ∀ k, k ∉ [a, b] → SameAt s s' k := by
  intro k hk
  simp only [List.mem_cons, List.not_mem_nil, or_false, not_or] at hk
  exact hframe k hk.1 hk.2

/-- What `a` owned passes to `b`, which owned nothing. -/
theorem Settles.transfer {a b : Owner U R} (hab : a ≠ b) (hb : (s.contents b).ptr = none)
    (hb' : s'.contents b = s.contents a) (ha' : (s'.contents a).ptr = none)
    (hframe : ∀ k, k ≠ a → k ≠ b → SameAt s s' k) : Settles s s' [] := by
  have hnodup : [a, b].Nodup := by simp [hab]
  refine ⟨?_, ?_, by simp⟩
  · intro p
    have hchange := secured_change hnodup (sameAt_of_not_mem_pair hframe) p
    simp only [List.countP_cons, List.countP_nil, ReleasedBuffer.secured_of_ptr_eq_none hb, hb',
      ReleasedBuffer.secured_of_ptr_eq_none ha'] at hchange
    simp at hchange ⊢
    omega
  · intro k p hp
    by_cases hka : k = a
    · rw [hka, ha'] at hp
      exact absurd hp (by simp)
    · by_cases hkb : k = b
      · rw [hkb]
        exact ⟨a, hb'.symm⟩
      · exact (hframe k hka hkb).exists_before hp

/-- Two owners exchange what they own. -/
theorem Settles.exchange {a b : Owner U R} (hab : a ≠ b) (ha' : s'.contents a = s.contents b)
    (hb' : s'.contents b = s.contents a) (hframe : ∀ k, k ≠ a → k ≠ b → SameAt s s' k) :
    Settles s s' [] := by
  have hnodup : [a, b].Nodup := by simp [hab]
  refine ⟨?_, ?_, by simp⟩
  · intro p
    have hchange := secured_change hnodup (sameAt_of_not_mem_pair hframe) p
    simp only [List.countP_cons, List.countP_nil, hb', ha'] at hchange
    simp only [List.map_nil, List.count_nil]
    omega
  · intro k p hp
    by_cases hka : k = a
    · rw [hka]
      exact ⟨b, ha'.symm⟩
    · by_cases hkb : k = b
      · rw [hkb]
        exact ⟨a, hb'.symm⟩
      · exact (hframe k hka hkb).exists_before hp

/-- Whatever is owned has a size and a deleter. -/
def Sound (s : Objects U S R D) : Prop :=
  ∀ o p, (s.contents o).ptr = some p →
    0 < (s.contents o).count ∧ (s.contents o).deleter.isSome = true

theorem Kept.sound (h : Kept s s') (hs : s.Sound) : s'.Sound := by
  intro o p hp
  obtain ⟨o', ho'⟩ := h o p hp
  rw [← ho'] at hp ⊢
  exact hs o' p hp

theorem Sound.secured_eq_owned (hs : s.Sound) (p : Nat) : s.secured p = s.owned p := by
  have hsame : (fun o => (s.contents o).secured) = fun o => (s.contents o).ptr := by
    funext o
    cases hptr : (s.contents o).ptr with
    | none => exact ReleasedBuffer.secured_of_ptr_eq_none hptr
    | some q => exact ReleasedBuffer.secured_eq_some_iff.2 ⟨hptr, (hs o q hptr).2⟩
  rw [secured, owned, hsame]

/-- Where everything that is owned has a deleter, all of it is settled. -/
theorem Settles.moves {calls : Calls D} (h : Settles s s' calls) (hs : s.Sound) :
    Moves s s' calls where
  count p := by
    rw [← (h.same.sound hs).secured_eq_owned, ← hs.secured_eq_owned]
    exact h.count p
  same := h.same
  called := h.called

end Moves

end Objects

end PipelineTools.Memory
