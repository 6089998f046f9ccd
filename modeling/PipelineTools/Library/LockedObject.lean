import PipelineTools.Library.Linearizability

/-!
# Objects behind a lock

Any number of threads call the operations of an object, and every operation runs under one mutex. A
`CriticalSection` says what an operation does there, one access after the other; in between the
object may be in any state. `Completes` is the outcome of a critical section that is not
interrupted, and `linearizable_of_locked` says that this is what the callers see, however the
threads interleave: an operation takes effect with the last access of its critical section.
-/

set_option autoImplicit false

namespace PipelineTools.Library

universe u v w x y z

variable {T : Type u} {Op : Type v} {Res : Type w} {S : Type x} {Pc : Type y} {I : Type z}

/-- What operations do under the lock. `next` is one access, with what it depends on besides the
object; it ends with a result or goes on. -/
structure CriticalSection (Op : Type v) (Res : Type w) (S : Type x) (Pc : Type y) (I : Type z) where
  enter : Op → Pc
  next : I → Pc → S → S × (Pc ⊕ Res)

/-- The rest of a critical section, if nobody interrupts it. -/
inductive CriticalSection.Ends (code : CriticalSection Op Res S Pc I) : Pc → S → Res → S → Prop
  | last {i : I} {pc : Pc} {s s' : S} {result : Res} (h : code.next i pc s = (s', .inr result)) :
      Ends code pc s result s'
  | more {i : I} {pc pc' : Pc} {s m s' : S} {result : Res} (h : code.next i pc s = (m, .inl pc'))
      (hrest : Ends code pc' m result s') : Ends code pc s result s'

/-- The whole critical section of `op`. -/
def CriticalSection.Completes (code : CriticalSection Op Res S Pc I) (op : Op) (s : S)
    (result : Res) (s' : S) : Prop :=
  code.Ends (code.enter op) s result s'

/-- Where a thread stands. -/
inductive LockedCall (Op : Type v) (Res : Type w) (Pc : Type y) where
  | idle
  | waiting (op : Op)
  | inside (op : Op) (pc : Pc)
  | unlocking (result : Res)
  | returning (result : Res)

/-- An object with its lock and the threads that call its operations. -/
structure LockedObject (T : Type u) (Op : Type v) (Res : Type w) (S : Type x) (Pc : Type y) where
  object : S
  owner : Option T
  call : T → LockedCall Op Res Pc

/-- What may happen next: a thread calls, takes the lock, makes an access, releases the lock, or
returns. -/
inductive LockedStep (T : Type u) (Op : Type v) (I : Type z) where
  | call (thread : T) (op : Op)
  | lock (thread : T)
  | access (thread : T) (i : I)
  | unlock (thread : T)
  | leave (thread : T)

def LockedStep.thread : LockedStep T Op I → T
  | .call thread _ | .lock thread | .access thread _ | .unlock thread | .leave thread => thread

namespace LockedObject

/-- Nobody has called. -/
def start (init : S) : LockedObject T Op Res S Pc := ⟨init, none, fun _ => .idle⟩

variable [DecidableEq T]

/-- The call of `thread` gets to another place. -/
def set (c : LockedObject T Op Res S Pc) (thread : T) (place : LockedCall Op Res Pc) :
    LockedObject T Op Res S Pc :=
  { c with call := Function.update c.call thread place }

@[simp] theorem call_set_self (c : LockedObject T Op Res S Pc) (t : T)
    (place : LockedCall Op Res Pc) : (c.set t place).call t = place := Function.update_self _ _ _

theorem call_set_of_ne (c : LockedObject T Op Res S Pc) {t u : T} (h : u ≠ t)
    (place : LockedCall Op Res Pc) : (c.set t place).call u = c.call u :=
  Function.update_of_ne h _ _

/-- One step of one of the threads, if it is there. -/
def step (code : CriticalSection Op Res S Pc I) (c : LockedObject T Op Res S Pc) :
    LockedStep T Op I → Option (LockedObject T Op Res S Pc)
  | .call thread op =>
      match c.call thread with
      | .idle => some (c.set thread (.waiting op))
      | _ => none
  | .lock thread =>
      match c.call thread, c.owner with
      | .waiting op, none =>
          some ({ c with owner := some thread }.set thread (.inside op (code.enter op)))
      | _, _ => none
  | .access thread i =>
      match c.call thread with
      | .inside op pc =>
          match code.next i pc c.object with
          | (s, .inl pc) => some ({ c with object := s }.set thread (.inside op pc))
          | (s, .inr result) => some ({ c with object := s }.set thread (.unlocking result))
      | _ => none
  | .unlock thread =>
      match c.call thread with
      | .unlocking result => some ({ c with owner := none }.set thread (.returning result))
      | _ => none
  | .leave thread =>
      match c.call thread with
      | .returning _ => some (c.set thread .idle)
      | _ => none

/-- What can be seen of a step. -/
def events (c : LockedObject T Op Res S Pc) : LockedStep T Op I → List (Event T Op Res)
  | .call thread op => [.call thread op]
  | .leave thread =>
      match c.call thread with
      | .returning result => [.ret thread result]
      | _ => []
  | _ => []

end LockedObject

/-! ## The simulation -/

/-- The call of a thread in the object whose operations take effect at once. What the owner of the
lock still does to `object` is what the whole operation does to `before`. -/
inductive LockedSeen (code : CriticalSection Op Res S Pc I) (object before : S) :
    LockedCall Op Res Pc → Pending Op Res S → Prop
  | idle : LockedSeen code object before .idle .idle
  | waiting {op : Op} {past : List S} :
      LockedSeen code object before (.waiting op) (.called op past)
  | inside {op : Op} {pc : Pc} {past : List S}
      (rest : ∀ result s, code.Ends pc object result s → code.Completes op before result s) :
      LockedSeen code object before (.inside op pc) (.called op past)
  | unlocking (result : Res) : LockedSeen code object before (.unlocking result) (.done result)
  | returning (result : Res) : LockedSeen code object before (.returning result) (.done result)

/-- The thread is in its critical section. -/
def LockedCall.holds : LockedCall Op Res Pc → Bool
  | .inside _ _ | .unlocking _ => true
  | _ => false

/-- An operation is under way. -/
def LockedCall.accesses : LockedCall Op Res Pc → Bool
  | .inside _ _ => true
  | _ => false

/-- The lock keeps the others out, and only its owner can have changed the object. -/
structure LockedRelated (code : CriticalSection Op Res S Pc I) (c : LockedObject T Op Res S Pc)
    (o : Observed T Op Res S) : Prop where
  owner : ∀ t, (c.call t).holds = true → c.owner = some t
  object : (∀ t, (c.call t).accesses = false) → o.object = c.object
  seen : ∀ t, LockedSeen code c.object o.object (c.call t) (o.status t)

section Simulation

variable {code : CriticalSection Op Res S Pc I} {object before object' before' : S}
  {place : LockedCall Op Res Pc} {st : Pending Op Res S}

/-- Outside the critical section the object does not matter. -/
theorem LockedSeen.of_not_accesses (h : LockedSeen code object before place st)
    (hplace : place.accesses = false) : LockedSeen code object' before' place st := by
  cases h with
  | idle => exact .idle
  | waiting => exact .waiting
  | inside rest => cases hplace
  | unlocking result => exact .unlocking result
  | returning result => exact .returning result

/-- The same while another thread changes the object for good. -/
theorem LockedSeen.pass (h : LockedSeen code object before place st)
    (hplace : place.accesses = false) (s : S) :
    LockedSeen code object' before' place (st.pass s) := by
  cases h with
  | idle => exact .idle
  | waiting => exact .waiting
  | inside rest => cases hplace
  | unlocking result => exact .unlocking result
  | returning result => exact .returning result

theorem LockedCall.accesses_of_not_holds (h : place.holds = false) : place.accesses = false := by
  cases place with
  | inside op pc => cases h
  | _ => rfl

variable {c c' : LockedObject T Op Res S Pc} {o o' : Observed T Op Res S} {t u : T}

/-- The owner of the lock keeps the other threads out. -/
theorem LockedRelated.others_out (h : LockedRelated code c o) (ht : (c.call t).holds = true)
    (hu : u ≠ t) : (c.call u).holds = false := by
  cases hholds : (c.call u).holds with
  | false => rfl
  | true =>
    have howner := h.owner u hholds
    rw [h.owner t ht] at howner
    exact absurd (Option.some.inj howner).symm hu

/-- Nobody is inside while the lock is free. -/
theorem LockedRelated.nobody_holds (h : LockedRelated code c o) (hfree : c.owner = none) (u : T) :
    (c.call u).holds = false := by
  cases hholds : (c.call u).holds with
  | false => rfl
  | true =>
    rw [h.owner u hholds] at hfree
    cases hfree

variable [DecidableEq T]

/-- What is to be shown when the call of `t` gets to `place`. -/
theorem lockedRelated_set (hself : place.holds = true → c.owner = some t)
    (howner : ∀ u, u ≠ t → (c.call u).holds = true → c.owner = some u)
    (hobject : place.accesses = false → (∀ u, u ≠ t → (c.call u).accesses = false) →
      o'.object = c.object)
    (hplace : LockedSeen code c.object o'.object place (o'.status t))
    (hseen : ∀ u, u ≠ t → LockedSeen code c.object o'.object (c.call u) (o'.status u)) :
    LockedRelated code (c.set t place) o' := by
  refine ⟨?_, ?_, ?_⟩
  · intro u hu
    by_cases hut : u = t
    · subst hut
      rw [LockedObject.call_set_self] at hu
      exact hself hu
    · rw [LockedObject.call_set_of_ne _ hut] at hu
      exact howner u hut hu
  · intro hnone
    apply hobject
    · have ht := hnone t
      rw [LockedObject.call_set_self] at ht
      exact ht
    · intro u hut
      have hu := hnone u
      rw [LockedObject.call_set_of_ne _ hut] at hu
      exact hu
  · intro u
    by_cases hut : u = t
    · subst hut
      rw [LockedObject.call_set_self]
      exact hplace
    · rw [LockedObject.call_set_of_ne _ hut]
      exact hseen u hut

theorem locked_call (h : LockedRelated code c o) {op : Op} (hidle : c.call t = .idle) :
    ∃ o', ObservedStep (.atOnce code.Completes) t o [.call t op] o' ∧
      LockedRelated code (c.set t (.waiting op)) o' := by
  have hseen := h.seen t
  rw [hidle] at hseen
  generalize hst : o.status t = st at hseen
  cases hseen with
  | idle =>
    refine ⟨_, .call op hst, lockedRelated_set (by rintro ⟨⟩) (fun u _ => h.owner u) ?_ ?_ ?_⟩
    · intro _ hothers
      apply h.object
      intro u
      by_cases hut : u = t
      · rw [hut, hidle]
        rfl
      · exact hothers u hut
    · rw [Observed.status_set_self]
      exact .waiting
    · intro u hut
      rw [Observed.status_set_of_ne _ hut]
      exact h.seen u

theorem locked_lock (h : LockedRelated code c o) {op : Op} (hwaiting : c.call t = .waiting op)
    (hfree : c.owner = none) :
    LockedRelated code ({ c with owner := some t }.set t (.inside op (code.enter op))) o := by
  have hnobody := h.nobody_holds hfree
  have hsame := h.object fun u => LockedCall.accesses_of_not_holds (hnobody u)
  have hseen := h.seen t
  rw [hwaiting] at hseen
  generalize hst : o.status t = st at hseen
  cases hseen with
  | waiting =>
    refine lockedRelated_set (fun _ => rfl) ?_ (by rintro ⟨⟩) ?_ fun u _ => h.seen u
    · intro u _ hu
      exact absurd ((hnobody u).symm.trans hu) Bool.false_ne_true
    · rw [hst, hsame]
      exact .inside fun result s hends => hends

theorem locked_access (h : LockedRelated code c o) {op : Op} {pc : Pc} {i : I}
    (hinside : c.call t = .inside op pc) {s : S} {place : LockedCall Op Res Pc}
    (hnext : ∃ next, code.next i pc c.object = (s, next) ∧
      place = next.elim (.inside op) .unlocking) :
    ∃ o', ObservedStep (.atOnce code.Completes) t o [] o' ∧
      LockedRelated code ({ c with object := s }.set t place) o' := by
  have hholds : (c.call t).holds = true := by
    rw [hinside]
    rfl
  have hout : ∀ u, u ≠ t → (c.call u).accesses = false :=
    fun u hut => LockedCall.accesses_of_not_holds (h.others_out hholds hut)
  have hseen := h.seen t
  rw [hinside] at hseen
  generalize hst : o.status t = st at hseen
  cases hseen with
  | @inside _ _ past rest =>
    obtain ⟨next, hcode, rfl⟩ := hnext
    cases next with
    | inl pc' =>
      refine ⟨o, .stay o, lockedRelated_set (fun _ => h.owner t hholds) (fun u _ => h.owner u)
        (by rintro ⟨⟩) ?_ ?_⟩
      · rw [hst]
        exact .inside fun result s' hends => rest result s' (.more hcode hends)
      · intro u hut
        exact (h.seen u).of_not_accesses (hout u hut)
    | inr result =>
      -- the last access: the whole operation takes effect
      refine ⟨_, .effect hst (rest result s (.last hcode)),
        lockedRelated_set (fun _ => h.owner t hholds) (fun u _ => h.owner u) (fun _ _ => rfl) ?_ ?_⟩
      · rw [Observed.status_pass_self]
        exact .unlocking result
      · intro u hut
        rw [Observed.status_pass_of_ne _ hut]
        exact (h.seen u).pass (hout u hut) s

theorem locked_unlock (h : LockedRelated code c o) {result : Res}
    (hunlocking : c.call t = .unlocking result) :
    LockedRelated code ({ c with owner := none }.set t (.returning result)) o := by
  have hholds : (c.call t).holds = true := by
    rw [hunlocking]
    rfl
  have hseen := h.seen t
  rw [hunlocking] at hseen
  generalize hst : o.status t = st at hseen
  cases hseen with
  | unlocking result =>
    refine lockedRelated_set (by rintro ⟨⟩) ?_ ?_ ?_ fun u _ => h.seen u
    · intro u hut hu
      exact absurd ((h.others_out hholds hut).symm.trans hu) Bool.false_ne_true
    · intro _ hothers
      apply h.object
      intro u
      by_cases hut : u = t
      · rw [hut, hunlocking]
        rfl
      · exact hothers u hut
    · rw [hst]
      exact .returning result

theorem locked_leave (h : LockedRelated code c o) {result : Res}
    (hreturning : c.call t = .returning result) :
    ∃ o', ObservedStep (.atOnce code.Completes) t o [.ret t result] o' ∧
      LockedRelated code (c.set t .idle) o' := by
  have hseen := h.seen t
  rw [hreturning] at hseen
  generalize hst : o.status t = st at hseen
  cases hseen with
  | returning result =>
    refine ⟨_, .ret hst, lockedRelated_set (by rintro ⟨⟩) (fun u _ => h.owner u) ?_ ?_ ?_⟩
    · intro _ hothers
      apply h.object
      intro u
      by_cases hut : u = t
      · rw [hut, hreturning]
        rfl
      · exact hothers u hut
    · rw [Observed.status_set_self]
      exact .idle
    · intro u hut
      rw [Observed.status_set_of_ne _ hut]
      exact h.seen u

/-- Every step is matched by the object whose operations take effect at once. -/
theorem locked_step (h : LockedRelated code c o) {l : LockedStep T Op I}
    (hstep : c.step code l = some c') :
    ∃ o', ObservedStep (.atOnce code.Completes) l.thread o (c.events l) o' ∧
      LockedRelated code c' o' := by
  cases l with
  | call t op =>
    cases hcall : c.call t with
    | idle =>
      simp only [LockedObject.step, hcall, Option.some.injEq] at hstep
      subst hstep
      exact locked_call h hcall
    | _ => simp [LockedObject.step, hcall] at hstep
  | lock t =>
    cases hcall : c.call t with
    | waiting op =>
      cases howner : c.owner with
      | none =>
        -- only a free lock is taken
        simp only [LockedObject.step, hcall, howner, Option.some.injEq] at hstep
        subst hstep
        exact ⟨o, .stay o, locked_lock h hcall howner⟩
      | some u => simp [LockedObject.step, hcall, howner] at hstep
    | _ => simp [LockedObject.step, hcall] at hstep
  | access t i =>
    cases hcall : c.call t with
    | inside op pc =>
      cases hnext : code.next i pc c.object with
      | mk s next =>
        cases next with
        | inl pc' =>
          simp only [LockedObject.step, hcall, hnext, Option.some.injEq] at hstep
          subst hstep
          exact locked_access h hcall ⟨_, hnext, rfl⟩
        | inr result =>
          simp only [LockedObject.step, hcall, hnext, Option.some.injEq] at hstep
          subst hstep
          exact locked_access h hcall ⟨_, hnext, rfl⟩
    | _ => simp [LockedObject.step, hcall] at hstep
  | unlock t =>
    cases hcall : c.call t with
    | unlocking result =>
      simp only [LockedObject.step, hcall, Option.some.injEq] at hstep
      subst hstep
      -- the call has taken effect already
      exact ⟨o, .stay o, locked_unlock h hcall⟩
    | _ => simp [LockedObject.step, hcall] at hstep
  | leave t =>
    cases hcall : c.call t with
    | returning result =>
      simp only [LockedObject.step, hcall, Option.some.injEq] at hstep
      subst hstep
      simp only [LockedObject.events, hcall]
      exact locked_leave h hcall
    | _ => simp [LockedObject.step, hcall] at hstep

omit [DecidableEq T] in
theorem locked_start (init : S) :
    LockedRelated code (.start init : LockedObject T Op Res S Pc) (.start init) :=
  ⟨by rintro t ⟨⟩, fun _ => rfl, fun _ => .idle⟩

/-- What the callers see is what they would see if every critical section were a single step. -/
theorem linearizable_of_locked {init : S} {ls : List (LockedStep T Op I)}
    {history : List (Event T Op Res)}
    (hrun : runFrom (withHistory (LockedObject.step code) LockedObject.events)
      (.start init, []) ls = some (c, history)) : Linearizable code.Completes init history := by
  have hstep : ∀ (c : LockedObject T Op Res S Pc) l c' (o : Observed T Op Res S),
      LockedRelated code c o → True → c.step code l = some c' →
      ∃ o', ObservedStep (.atOnce code.Completes) l.thread o (c.events l) o' ∧
        LockedRelated code c' o' :=
    fun c l c' o hrelated _ hstep => locked_step hrelated hstep
  exact linearizable_of_simulation (locked_start init) hstep (fun l _ => trivial) hrun

end Simulation

end PipelineTools.Library
