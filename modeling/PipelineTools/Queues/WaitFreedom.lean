import PipelineTools.Queues.LockFreeQueue

/-!
# The reader-writer queue is wait-free

No function of the queue has a loop that waits for the other thread: `EnqueuePc.stepsLeft` and
`DequeuePc.stepsLeft` bound what is left of a call, whatever the other thread does in the meantime.
-/

set_option autoImplicit false

namespace PipelineTools.Queues.Moodycamel

open PipelineTools.Library

variable {α : Type}

/-- The number of steps up to the return, at most. -/
def EnqueuePc.stepsLeft : EnqueuePc → Nat
  | .start => 7
  | .loadFront _ _ _ => 6
  | .compareNext _ => 5
  | .loadNextFront _ => 4
  | .constructNext _ _ => 3
  | .storeNextTail _ _ => 2
  | .makeBlock _ => 3
  | .link _ _ => 2
  | .storeTailBlock _ => 1
  | .construct _ _ _ => 2
  | .storeTail _ _ => 1

/-- The same for the consumer; `peek` stores nothing. -/
def DequeuePc.stepsLeft (op : DequeueOp) : DequeuePc α → Nat
  | .start => if op = .peek then 7 else 9
  | .loadTail _ _ => if op = .peek then 6 else 8
  | .loadTailBlock _ => if op = .peek then 5 else 7
  | .reloadTail => if op = .peek then 4 else 6
  | .loadNext _ => if op = .peek then 3 else 5
  | .loadNextTail _ _ => if op = .peek then 2 else 4
  | .storeFrontBlock _ _ => 3
  | .take _ _ => if op = .peek then 1 else 2
  | .storeFront _ _ _ => 1

theorem EnqueuePc.stepsLeft_pos (pc : EnqueuePc) : 0 < pc.stepsLeft := by
  cases pc <;> simp [EnqueuePc.stepsLeft]

theorem DequeuePc.stepsLeft_pos (op : DequeueOp) (pc : DequeuePc α) : 0 < pc.stepsLeft op := by
  cases pc <;> cases op <;> simp [DequeuePc.stepsLeft]

def Producer.stepsLeft : Producer α → Nat
  | .inside _ _ pc => pc.stepsLeft
  | _ => 0

def Consumer.stepsLeft : Consumer α → Nat
  | .inside op pc => pc.stepsLeft op
  | _ => 0

/-- The steps that the call of the thread `t` still needs. -/
def State.stepsLeft (s : State α) : Role → Nat
  | .producer => s.producer.stepsLeft
  | .consumer => s.consumer.stepsLeft

/-- The longest way through a function. -/
def Op.mostSteps : Op α → Nat
  | .enqueue _ _ => 7
  | .dequeue .peek => 7
  | .dequeue _ => 9

/-- A step of the thread inside its call. -/
def Role.step (malloc : Bool) : Role → Action α
  | .producer => .stepEnqueue malloc
  | .consumer => .stepDequeue

/-- The return of the thread. -/
def Role.return : Role → Action α
  | .producer => .returnEnqueue
  | .consumer => .returnDequeue

/-- The action is a step of the thread `t`. -/
def Action.isStep (t : Role) : Action α → Bool
  | .stepEnqueue _ => t = .producer
  | .stepDequeue => t = .consumer
  | _ => false

/-- The thread `t` is between a call and its return. -/
def State.Busy (s : State α) : Role → Prop
  | .producer => s.producer ≠ .idle
  | .consumer => s.consumer ≠ .idle

/-- The call of the thread `t` has come to its end. -/
def State.Returning (s : State α) : Role → Prop
  | .producer => ∃ success, s.producer = .returning success
  | .consumer => ∃ op front, s.consumer = .returning op front

/-! ## One step -/

/-- The producer has one step less to go. -/
theorem innerEnqueue_stepsLeft (maxBlockSize : Nat) (malloc : Bool) (mode : AllocationMode) (x : α)
    (q : ReaderWriterQueue α) (pc : EnqueuePc) :
    (q.innerEnqueue maxBlockSize malloc mode x pc).2.stepsLeft + 1 ≤ pc.stepsLeft ∧
      (q.innerEnqueue maxBlockSize malloc mode x pc).2 ≠ .idle := by
  cases pc with
  | start =>
    simp only [ReaderWriterQueue.innerEnqueue]
    split <;> simp [Producer.stepsLeft, EnqueuePc.stepsLeft]
  | loadFront b blockTail nextBlockTail =>
    simp only [ReaderWriterQueue.innerEnqueue]
    split <;> simp [Producer.stepsLeft, EnqueuePc.stepsLeft]
  | construct b blockTail nextBlockTail =>
    simp only [ReaderWriterQueue.innerEnqueue]
    split <;> simp [Producer.stepsLeft, EnqueuePc.stepsLeft]
  | compareNext b =>
    simp only [ReaderWriterQueue.innerEnqueue]
    split
    · simp [Producer.stepsLeft, EnqueuePc.stepsLeft]
    · cases mode <;> simp [Producer.stepsLeft, EnqueuePc.stepsLeft]
  | loadNextFront b =>
    simp only [ReaderWriterQueue.innerEnqueue]
    split <;> simp [Producer.stepsLeft, EnqueuePc.stepsLeft]
  | constructNext b nextBlockTail =>
    simp only [ReaderWriterQueue.innerEnqueue]
    split <;> simp [Producer.stepsLeft, EnqueuePc.stepsLeft]
  | makeBlock b =>
    cases malloc <;>
      simp [ReaderWriterQueue.innerEnqueue, Producer.stepsLeft, EnqueuePc.stepsLeft]
  | storeTail b nextBlockTail =>
    simp [ReaderWriterQueue.innerEnqueue, Producer.stepsLeft, EnqueuePc.stepsLeft]
  | storeNextTail b nextBlockTail =>
    simp [ReaderWriterQueue.innerEnqueue, Producer.stepsLeft, EnqueuePc.stepsLeft]
  | link b newBlock =>
    simp [ReaderWriterQueue.innerEnqueue, Producer.stepsLeft, EnqueuePc.stepsLeft]
  | storeTailBlock b =>
    simp [ReaderWriterQueue.innerEnqueue, Producer.stepsLeft, EnqueuePc.stepsLeft]

/-- The consumer has one step less to go. -/
theorem dequeue_stepsLeft (op : DequeueOp) (q : ReaderWriterQueue α) (pc : DequeuePc α) :
    (q.dequeue op pc).2.stepsLeft + 1 ≤ pc.stepsLeft op ∧ (q.dequeue op pc).2 ≠ .idle := by
  cases pc with
  | start =>
    simp only [ReaderWriterQueue.dequeue]
    split <;> cases op <;> simp [Consumer.stepsLeft, DequeuePc.stepsLeft]
  | loadTail b blockFront =>
    simp only [ReaderWriterQueue.dequeue]
    split <;> cases op <;> simp [Consumer.stepsLeft, DequeuePc.stepsLeft]
  | loadTailBlock b =>
    simp only [ReaderWriterQueue.dequeue]
    split <;> cases op <;> simp [Consumer.stepsLeft, DequeuePc.stepsLeft]
  | reloadTail =>
    simp only [ReaderWriterQueue.dequeue]
    split <;> cases op <;> simp [Consumer.stepsLeft, DequeuePc.stepsLeft]
  | loadNext b =>
    cases op <;> simp [ReaderWriterQueue.dequeue, Consumer.stepsLeft, DequeuePc.stepsLeft]
  | loadNextTail b nextBlockFront =>
    simp only [ReaderWriterQueue.dequeue]
    split <;> cases op <;> simp [Consumer.stepsLeft, DequeuePc.stepsLeft]
  | storeFrontBlock b nextBlockFront =>
    cases op <;> simp [ReaderWriterQueue.dequeue, Consumer.stepsLeft, DequeuePc.stepsLeft]
  | take b blockFront =>
    simp only [ReaderWriterQueue.dequeue]
    split <;> cases op <;> simp [Consumer.stepsLeft, DequeuePc.stepsLeft]
  | storeFront x b blockFront =>
    simp [ReaderWriterQueue.dequeue, Consumer.stepsLeft, DequeuePc.stepsLeft]

section

variable {maxBlockSize : Nat} {s s' : State α} {t : Role} {a : Action α}

/-- The other thread takes no steps for `t`. -/
theorem Action.isStep_eq_false (ha : a.role ≠ t) : a.isStep t = false := by
  cases a with
  | stepEnqueue malloc => exact decide_eq_false (Ne.symm ha)
  | stepDequeue => exact decide_eq_false (Ne.symm ha)
  | _ => rfl

/-- A step of `t` takes `t` nearer to its return, and no step of the other thread takes it back. -/
theorem stepsLeft_of_step (hbusy : s.Busy t) (hreturn : a ≠ t.return)
    (hstep : s.step maxBlockSize a = some s') :
    s'.Busy t ∧ (a.isStep t).toNat + s'.stepsLeft t ≤ s.stepsLeft t := by
  by_cases ha : a.role = t
  · -- a step of `t` itself
    obtain ⟨q, p, c⟩ := s
    cases a with
    | callEnqueue mode x =>
      obtain rfl := ha
      cases p with
      | idle => exact absurd rfl hbusy
      | _ => cases hstep
    | stepEnqueue malloc =>
      obtain rfl := ha
      cases p with
      | inside mode x pc =>
        obtain rfl := Option.some.inj hstep
        obtain ⟨hless, hinside⟩ := innerEnqueue_stepsLeft maxBlockSize malloc mode x q pc
        refine ⟨hinside, ?_⟩
        show 1 + _ ≤ pc.stepsLeft
        rw [Nat.add_comm]
        exact hless
      | _ => cases hstep
    | returnEnqueue =>
      obtain rfl := ha
      exact absurd rfl hreturn
    | callDequeue op =>
      obtain rfl := ha
      cases c with
      | idle => exact absurd rfl hbusy
      | _ => cases hstep
    | stepDequeue =>
      obtain rfl := ha
      cases c with
      | inside op pc =>
        obtain rfl := Option.some.inj hstep
        obtain ⟨hless, hinside⟩ := dequeue_stepsLeft op q pc
        refine ⟨hinside, ?_⟩
        show 1 + _ ≤ pc.stepsLeft op
        rw [Nat.add_comm]
        exact hless
      | _ => cases hstep
    | returnDequeue =>
      obtain rfl := ha
      exact absurd rfl hreturn
  · -- a step of the other thread leaves the place of `t` alone
    rw [Action.isStep_eq_false ha, Bool.toNat_false, Nat.zero_add]
    cases t with
    | producer =>
      have hrole : a.role = .consumer := by
        cases hr : a.role with
        | producer => exact absurd hr ha
        | consumer => rfl
      have hsame := State.step_producer hstep hrole
      exact ⟨by rw [State.Busy, hsame]; exact hbusy, by rw [State.stepsLeft, hsame]; rfl⟩
    | consumer =>
      have hrole : a.role = .producer := by
        cases hr : a.role with
        | producer => rfl
        | consumer => exact absurd hr ha
      have hsame := State.step_consumer hstep hrole
      exact ⟨by rw [State.Busy, hsame]; exact hbusy, by rw [State.stepsLeft, hsame]; rfl⟩

/-- A call begins at the start of its function. -/
theorem stepsLeft_of_call {op : Op α} (hcall : a.op? = some op)
    (hstep : s.step maxBlockSize a = some s') :
    s'.Busy op.role ∧ s'.stepsLeft op.role = op.mostSteps := by
  obtain ⟨q, p, c⟩ := s
  cases a with
  | callEnqueue mode x =>
    obtain rfl := Option.some.inj hcall
    cases p with
    | idle =>
      obtain rfl := Option.some.inj hstep
      exact ⟨by rintro ⟨⟩, rfl⟩
    | _ => cases hstep
  | callDequeue op =>
    obtain rfl := Option.some.inj hcall
    cases c with
    | idle =>
      obtain rfl := Option.some.inj hstep
      refine ⟨by rintro ⟨⟩, ?_⟩
      cases op <;> rfl
    | _ => cases hstep
  | _ => cases hcall

/-- A busy thread is at its return, or it has steps to go and can take the next one. -/
theorem State.Sound.returning_or_step (hsound : s.Sound) (maxBlockSize : Nat) (hbusy : s.Busy t) :
    s.Returning t ∨
      (0 < s.stepsLeft t ∧ ∀ malloc, ∃ s', s.step maxBlockSize (t.step malloc) = some s') := by
  obtain ⟨q, p, c⟩ := s
  cases t with
  | producer =>
    cases p with
    | idle => exact absurd rfl hbusy
    | inside mode x pc => exact Or.inr ⟨pc.stepsLeft_pos, fun malloc => ⟨_, rfl⟩⟩
    | returning success => exact Or.inl ⟨success, rfl⟩
    | failed => exact absurd rfl hsound.1
  | consumer =>
    cases c with
    | idle => exact absurd rfl hbusy
    | inside op pc => exact Or.inr ⟨pc.stepsLeft_pos op, fun malloc => ⟨_, rfl⟩⟩
    | returning op front => exact Or.inl ⟨op, front, rfl⟩
    | failed => exact absurd rfl hsound.2

end

/-! ## Every call -/

/-- The queue is wait-free. After its call a thread takes at most `mostSteps` steps, in whatever
order the steps of the other thread come between them; until it returns it can always take its next
step. -/
theorem waitFree {maxBlockSize k size : Nat} (hmax : maxBlockSize = 2 ^ k) (hk : 1 ≤ k)
    (hle : k ≤ 62) (hone : 1 ≤ size) (hsmall : size < 2 ^ 63) {as bs : List (Action α)}
    {call : Action α} {op : Op α} (hcall : call.op? = some op)
    (hreturn : ∀ a ∈ bs, a ≠ op.role.return) {s : State α}
    (hrun : runFrom (State.step maxBlockSize) (.start (.make maxBlockSize size))
      (as ++ call :: bs) = some s) :
    bs.countP (Action.isStep op.role) ≤ op.mostSteps ∧
      (s.Returning op.role ∨
        (bs.countP (Action.isStep op.role) < op.mostSteps ∧
          ∀ malloc, ∃ s', s.step maxBlockSize (op.role.step malloc) = some s')) := by
  have hsound : s.Sound :=
    everyState_sound hmax hk hle hone hsmall (as ++ call :: bs) _ [] s (List.append_nil _).symm hrun
  obtain ⟨m, -, hrest⟩ := runFrom_append.1 hrun
  obtain ⟨m', hfirst, hlast⟩ := runFrom_cons.1 hrest
  obtain ⟨hbusy, hleft⟩ := stepsLeft_of_call hcall hfirst
  have hstep : ∀ (s : State α) a s', s.Busy op.role → a ≠ op.role.return →
      s.step maxBlockSize a = some s' →
      s'.Busy op.role ∧ (a.isStep op.role).toNat + s'.stepsLeft op.role ≤ s.stepsLeft op.role :=
    fun s a s' h ha hs => stepsLeft_of_step h ha hs
  obtain ⟨hbusy', hcount⟩ := runFrom_countP_le hstep hbusy hreturn hlast
  rw [hleft] at hcount
  refine ⟨by omega, ?_⟩
  rcases hsound.returning_or_step maxBlockSize hbusy' with hret | ⟨hpos, hnext⟩
  · exact Or.inl hret
  · exact Or.inr ⟨by omega, hnext⟩

/-- One element fills the tail block. -/
def firstEnqueue : List (Action Nat) :=
  [.callEnqueue .CannotAlloc 7, .stepEnqueue true, .stepEnqueue true, .stepEnqueue true,
    .returnEnqueue]

/-- The longest way of `try_enqueue`, into the next block, while the consumer looks for an
element. -/
def longestEnqueue : List (Action Nat) :=
  [.stepEnqueue true, .stepEnqueue true, .callDequeue .peek, .stepEnqueue true, .stepDequeue,
    .stepEnqueue true, .stepEnqueue true, .stepDequeue, .stepEnqueue true]

theorem waitFree_longest : ∃ s,
    runFrom (State.step 2) (.start (.make 2 4))
        (firstEnqueue ++ .callEnqueue .CannotAlloc 8 :: longestEnqueue) = some s ∧
      longestEnqueue.countP (Action.isStep .producer) ≤ 7 ∧
      (s.Returning .producer ∨ (longestEnqueue.countP (Action.isStep .producer) < 7 ∧
        ∀ malloc, ∃ s', s.step 2 (.stepEnqueue malloc) = some s')) := by
  have hreturn : ∀ a ∈ longestEnqueue, a ≠ Role.return .producer := by
    simp [longestEnqueue, Role.return]
  obtain ⟨s, hrun⟩ : ∃ s, runFrom (State.step 2) (.start (.make 2 4))
      (firstEnqueue ++ .callEnqueue .CannotAlloc 8 :: longestEnqueue) = some s := ⟨_, rfl⟩
  have hcall : (Action.callEnqueue .CannotAlloc 8 : Action Nat).op? =
      some (.enqueue .CannotAlloc 8) := rfl
  exact ⟨s, hrun, waitFree (by decide : 2 = 2 ^ 1) (by decide) (by decide) (by decide) (by decide)
    hcall hreturn hrun⟩

end PipelineTools.Queues.Moodycamel
