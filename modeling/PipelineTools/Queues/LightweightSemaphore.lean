import Mathlib.Tactic.ByContra

/-!
# The lightweight semaphore

`LightweightSemaphore` counts in `m_count` how often it may still be acquired, and only if a thread
sleeps does it use the semaphore of the kernel, `m_sema`. There is one thread that waits and one
that signals. As in the queue, a step makes one access to a variable that both threads use.

The waiting thread takes one from `m_count` before it sleeps. `Counts` says what the two counters
are in terms of `available`, the number of signals that no wait has used up: a signal that finds a
negative count posts to the kernel, so that a sleeper has a token exactly if something is available.
A wait gives up only if nothing is available (`acquire_spec`).
-/

set_option autoImplicit false

namespace PipelineTools.Queues.Moodycamel

/-- `class LightweightSemaphore`; `mSema` is the value of the kernel's semaphore. -/
structure LightweightSemaphore where
  mCount : Int
  mSema : Nat

/-- What a function does next. -/
inductive Progress (Pc Res : Type) where
  | goesOn (pc : Pc)
  | returns (result : Res)
  | fails

/-- A function that is called by another one. -/
def Progress.map {Pc Pc' Res : Type} (f : Pc → Pc') : Progress Pc Res → Progress Pc' Res
  | .goesOn pc => .goesOn (f pc)
  | .returns result => .returns result
  | .fails => .fails

/-- Where a thread stands in `signal`. -/
inductive SignalPc where
  | fetchAdd
  | post
  deriving DecidableEq

/-- Where a thread stands in `tryWait`. -/
inductive TryWaitPc where
  | load
  | fetchAdd
  deriving DecidableEq

/-- Where a thread stands in `waitWithPartialSpinning`. -/
inductive SpinPc where
  | spin (turns : Nat)
  | spinAcquire
  | sleep
  | restore
  | retract
  | tryToken
  deriving DecidableEq

/-- Where a thread stands in `wait`. -/
inductive WaitPc where
  | tryWait (pc : TryWaitPc)
  | partialSpinning (pc : SpinPc)
  deriving DecidableEq

namespace LightweightSemaphore

/-- The constructor. -/
def make : LightweightSemaphore := ⟨0, 0⟩

/-- `signal(1)`. -/
def signal (sema : LightweightSemaphore) : SignalPc → LightweightSemaphore × Progress SignalPc Unit
  | .fetchAdd =>
      let oldCount := sema.mCount
      let sema := { sema with mCount := oldCount + 1 }
      if oldCount ≥ -1 then
        if oldCount < 0 then (sema, .goesOn .post) else (sema, .returns ())
      else (sema, .fails)
  | .post => ({ sema with mSema := sema.mSema + 1 }, .returns ())

/-- `tryWait`. -/
def tryWait (sema : LightweightSemaphore) :
    TryWaitPc → LightweightSemaphore × Progress TryWaitPc Bool
  | .load => if sema.mCount > 0 then (sema, .goesOn .fetchAdd) else (sema, .returns false)
  | .fetchAdd => ({ sema with mCount := sema.mCount - 1 }, .returns true)

/-- `waitWithPartialSpinning(timeout_usecs)`. At `sleep` the thread is in the kernel: it can be
woken up if there is a token, and its time can be over if it has a timeout. -/
def waitWithPartialSpinning (timeoutUsecs : Int) (wakes : Bool) (sema : LightweightSemaphore) :
    SpinPc → Option (LightweightSemaphore × Progress SpinPc Bool)
  | .spin (turns + 1) =>
      if sema.mCount > 0 then some (sema, .goesOn .spinAcquire)
      else some (sema, .goesOn (.spin turns))
  | .spinAcquire => some ({ sema with mCount := sema.mCount - 1 }, .returns true)
  | .spin 0 =>
      let oldCount := sema.mCount
      let sema := { sema with mCount := oldCount - 1 }
      if oldCount > 0 then some (sema, .returns true)
      else if timeoutUsecs = 0 then some (sema, .goesOn .restore)
      else some (sema, .goesOn .sleep)
  | .sleep =>
      if wakes then
        if sema.mSema > 0 then some ({ sema with mSema := sema.mSema - 1 }, .returns true) else none
      else if timeoutUsecs > 0 then some (sema, .goesOn .restore)
      else none
  | .restore =>
      let oldCount := sema.mCount
      let sema := { sema with mCount := oldCount + 1 }
      if oldCount < 0 then some (sema, .returns false) else some (sema, .goesOn .retract)
  | .retract =>
      let oldCount := sema.mCount
      let sema := { sema with mCount := oldCount - 1 }
      if oldCount > 0 then some (sema, .goesOn .tryToken) else some (sema, .goesOn .restore)
  | .tryToken =>
      if sema.mSema > 0 then some ({ sema with mSema := sema.mSema - 1 }, .returns true)
      else some (sema, .goesOn .restore)

/-- `wait(timeout_usecs)`; `wait()` is `wait(-1)`. -/
def wait (timeoutUsecs : Int) (wakes : Bool) (sema : LightweightSemaphore) :
    WaitPc → Option (LightweightSemaphore × Progress WaitPc Bool)
  | .tryWait pc =>
      match sema.tryWait pc with
      | (sema, .returns false) => some (sema, .goesOn (.partialSpinning (.spin 1024)))
      | (sema, next) => some (sema, next.map .tryWait)
  | .partialSpinning pc =>
      (sema.waitWithPartialSpinning timeoutUsecs wakes pc).map fun r =>
        (r.1, r.2.map .partialSpinning)

/-- `tryWait()`, or `wait(timeout_usecs)` if there is a timeout. -/
def acquire (timeoutUsecs : Option Int) (wakes : Bool) (sema : LightweightSemaphore)
    (pc : WaitPc) : Option (LightweightSemaphore × Progress WaitPc Bool) :=
  match timeoutUsecs, pc with
  | some timeoutUsecs, pc => sema.wait timeoutUsecs wakes pc
  | none, .tryWait pc => some ((sema.tryWait pc).1, (sema.tryWait pc).2.map .tryWait)
  | none, .partialSpinning _ => none

end LightweightSemaphore

/-! ## The two counters -/

/-- What the waiting thread has taken from `m_count` in advance. -/
def SpinPc.ahead : SpinPc → Int
  | .sleep | .restore | .tryToken => 1
  | _ => 0

/-- A signal may have to post to the kernel for a thread that is here. -/
def SpinPc.listens : SpinPc → Bool
  | .sleep | .restore | .retract | .tryToken => true
  | _ => false

/-- The thread has seen that something is available. -/
def SpinPc.certain : SpinPc → Bool
  | .spinAcquire | .retract => true
  | _ => false

/-- The functions stop waiting only after a timeout that they were given. -/
def SpinPc.patient : SpinPc → Bool
  | .restore | .retract | .tryToken => false
  | _ => true

def WaitPc.ahead : WaitPc → Int
  | .tryWait _ => 0
  | .partialSpinning pc => pc.ahead

def WaitPc.listens : WaitPc → Bool
  | .tryWait _ => false
  | .partialSpinning pc => pc.listens

def WaitPc.certain : WaitPc → Bool
  | .tryWait pc => pc = .fetchAdd
  | .partialSpinning pc => pc.certain

/-- `pc` is a place in the function that is called with this timeout. -/
def WaitPc.Fits (timeoutUsecs : Option Int) : WaitPc → Prop
  | .tryWait _ => True
  | .partialSpinning pc => ∃ t, timeoutUsecs = some t ∧ (t < 0 → pc.patient = true)

/-- The counters, while a signal may be `posting`, and a thread may be waiting. -/
structure Counts (sema : LightweightSemaphore) (posting : Bool) (available : Nat)
    (waiter : Option WaitPc) : Prop where
  count : sema.mCount = available - (waiter.map WaitPc.ahead).getD 0
  tokens : sema.mSema + posting.toNat =
    if waiter.any WaitPc.listens ∧ 0 < available then 1 else 0
  certain : waiter.any WaitPc.certain → 0 < available

theorem counts_make : Counts .make false 0 none := ⟨rfl, rfl, by simp⟩

/-- A thread that has taken from `m_count` listens; one that listens without it is certain. -/
theorem waiter_cases (waiter : Option WaitPc) :
    ((waiter.map WaitPc.ahead).getD 0 = 1 ∧ waiter.any WaitPc.listens = true) ∨
      ((waiter.map WaitPc.ahead).getD 0 = 0 ∧
        (waiter.any WaitPc.listens = true → waiter.any WaitPc.certain = true)) := by
  cases waiter with
  | none => exact Or.inr ⟨rfl, fun h => h⟩
  | some pc =>
    cases pc with
    | tryWait pc => exact Or.inr ⟨rfl, by rintro ⟨⟩⟩
    | partialSpinning pc =>
      cases pc with
      | sleep => exact Or.inl ⟨rfl, rfl⟩
      | restore => exact Or.inl ⟨rfl, rfl⟩
      | tryToken => exact Or.inl ⟨rfl, rfl⟩
      | retract => exact Or.inr ⟨rfl, fun h => h⟩
      | spin turns => exact Or.inr ⟨rfl, by rintro ⟨⟩⟩
      | spinAcquire => exact Or.inr ⟨rfl, by rintro ⟨⟩⟩

section Signal

variable {sema : LightweightSemaphore} {available : Nat} {waiter : Option WaitPc}

/-- The assertion of `signal` holds, and it posts to the kernel if a thread listens that nothing was
available for. -/
theorem signal_fetchAdd (h : Counts sema false available waiter) :
    ∃ posting, Counts { sema with mCount := sema.mCount + 1 } posting (available + 1) waiter ∧
      sema.signal .fetchAdd = ({ sema with mCount := sema.mCount + 1 },
        if posting then .goesOn .post else .returns ()) := by
  have hcount := h.count
  have htokens := h.tokens
  rw [Bool.toNat_false, Nat.add_zero] at htokens
  have hsucc : ((available + 1 : Nat) : Int) = available + 1 := rfl
  have hcertain : waiter.any WaitPc.certain = true → 0 < available + 1 := fun _ => by omega
  rcases waiter_cases waiter with ⟨hahead, hlistens⟩ | ⟨hahead, hlistens⟩
  · rw [hahead] at hcount
    -- the waiter has taken its unit in advance and listens
    by_cases hpos : 0 < available
    · rw [if_pos ⟨hlistens, hpos⟩] at htokens
      refine ⟨false, ⟨?_, ?_, hcertain⟩, ?_⟩
      · show sema.mCount + 1 = _
        rw [hahead]
        omega
      · rw [if_pos ⟨hlistens, Nat.succ_pos _⟩]
        exact htokens
      · simp only [LightweightSemaphore.signal]
        rw [if_pos (by omega), if_neg (by omega)]
        rfl
    · -- the count was negative: this signal owes the waiter a token
      rw [if_neg (fun hand => hpos hand.2)] at htokens
      refine ⟨true, ⟨?_, ?_, hcertain⟩, ?_⟩
      · show sema.mCount + 1 = _
        rw [hahead]
        omega
      · rw [if_pos ⟨hlistens, Nat.succ_pos _⟩]
        show sema.mSema + 1 = 1
        rw [htokens]
      · simp only [LightweightSemaphore.signal]
        rw [if_pos (by omega), if_pos (by omega)]
        rfl
  · rw [hahead] at hcount
    refine ⟨false, ⟨?_, ?_, hcertain⟩, ?_⟩
    · show sema.mCount + 1 = _
      rw [hahead]
      omega
    · show sema.mSema + 0 = _
      rw [htokens]
      by_cases hany : waiter.any WaitPc.listens = true
      · rw [if_pos ⟨hany, h.certain (hlistens hany)⟩, if_pos ⟨hany, Nat.succ_pos _⟩]
      · rw [if_neg (fun hand => hany hand.1), if_neg (fun hand => hany hand.1)]
    · simp only [LightweightSemaphore.signal]
      rw [if_pos (by omega), if_neg (by omega)]
      rfl

theorem signal_post (h : Counts sema true available waiter) :
    Counts { sema with mSema := sema.mSema + 1 } false available waiter :=
  ⟨h.count, h.tokens, h.certain⟩

end Signal

section Wait

variable {sema : LightweightSemaphore} {posting : Bool} {available : Nat}
  {timeoutUsecs : Option Int}

/-- How the wait may go on after a step. -/
inductive Waits (sema : LightweightSemaphore) (posting : Bool) (available : Nat)
    (timeoutUsecs : Option Int) : Progress WaitPc Bool → Prop
  | goesOn {pc : WaitPc} (fits : pc.Fits timeoutUsecs)
      (counts : Counts sema posting available (some pc)) :
      Waits sema posting available timeoutUsecs (.goesOn pc)
  | acquires {rest : Nat} (one : available = rest + 1) (counts : Counts sema posting rest none) :
      Waits sema posting available timeoutUsecs (.returns true)
  | givesUp (nothing : available = 0) (counts : Counts sema posting 0 none)
      (impatient : ∀ t, timeoutUsecs = some t → 0 ≤ t) :
      Waits sema posting available timeoutUsecs (.returns false)

/-- Away from the kernel the two counters say what is available. -/
theorem Counts.calm {pc : WaitPc} (h : Counts sema posting available (some pc))
    (hahead : pc.ahead = 0) (hlistens : pc.listens = false) :
    sema.mCount = available ∧ sema.mSema + posting.toNat = 0 := by
  have hcount : sema.mCount = available - pc.ahead := h.count
  have htokens := h.tokens
  rw [hahead] at hcount
  rw [if_neg (by rw [Option.any_some, hlistens]; simp)] at htokens
  exact ⟨by omega, htokens⟩

/-- A place where nothing has been taken in advance. -/
theorem counts_of_calm {waiter : Option WaitPc} (hcount : sema.mCount = available)
    (htokens : sema.mSema + posting.toNat = 0) (hahead : (waiter.map WaitPc.ahead).getD 0 = 0)
    (hlistens : waiter.any WaitPc.listens = false)
    (hcertain : waiter.any WaitPc.certain = true → 0 < available) :
    Counts sema posting available waiter := by
  refine ⟨?_, ?_, hcertain⟩
  · rw [hahead, hcount]
    omega
  · rw [htokens, hlistens, if_neg (by simp)]

/-- One of the available ones is taken from `m_count`. -/
theorem Counts.take {pc : WaitPc} (h : Counts sema posting available (some pc))
    (hahead : pc.ahead = 0) (hlistens : pc.listens = false) (hpos : 0 < available) :
    Waits { sema with mCount := sema.mCount - 1 } posting available timeoutUsecs
      (.returns true) := by
  obtain ⟨hcount, htokens⟩ := h.calm hahead hlistens
  obtain ⟨rest, rfl⟩ : ∃ n, available = n + 1 := ⟨available - 1, by omega⟩
  have hless : sema.mCount - 1 = rest := by omega
  exact .acquires rfl (counts_of_calm hless htokens rfl rfl (by simp))

/-- A sleeper takes its token. -/
theorem Counts.wake {pc : WaitPc} (h : Counts sema posting available (some pc))
    (hahead : pc.ahead = 1) (htoken : sema.mSema > 0) :
    Waits { sema with mSema := sema.mSema - 1 } posting available timeoutUsecs
      (.returns true) := by
  have hcount : sema.mCount = available - pc.ahead := h.count
  have htokens := h.tokens
  have hpos : 0 < available := by
    by_contra hnot
    rw [if_neg (fun hand => hnot hand.2)] at htokens
    omega
  obtain ⟨rest, rfl⟩ : ∃ n, available = n + 1 := ⟨available - 1, by omega⟩
  have hone : sema.mSema + posting.toNat ≤ 1 := by
    rw [htokens]
    split <;> omega
  have hnone : sema.mSema - 1 + posting.toNat = 0 := by omega
  have hless : sema.mCount = rest := by omega
  exact .acquires rfl (counts_of_calm hless hnone rfl rfl (by simp))

/-- A sleeper has a token exactly if something is available and no post is still to come. -/
theorem Counts.token_iff (h : Counts sema false available (some (.partialSpinning .sleep))) :
    0 < sema.mSema ↔ 0 < available := by
  have htokens := h.tokens
  rw [Bool.toNat_false, Nat.add_zero] at htokens
  by_cases hpos : 0 < available
  · rw [if_pos ⟨rfl, hpos⟩] at htokens
    omega
  · rw [if_neg (fun hand => hpos hand.2)] at htokens
    omega

/-- What a step of `tryWait` has found out. -/
theorem tryWait_spec {pc : TryWaitPc} (h : Counts sema posting available (some (.tryWait pc)))
    (hbounded : ∀ t, timeoutUsecs = some t → 0 ≤ t) :
    Waits (sema.tryWait pc).1 posting available timeoutUsecs
      ((sema.tryWait pc).2.map .tryWait) := by
  obtain ⟨hcount, htokens⟩ := h.calm rfl rfl
  cases pc with
  | load =>
    simp only [LightweightSemaphore.tryWait]
    by_cases hpos : sema.mCount > 0
    · rw [if_pos hpos]
      exact .goesOn trivial (counts_of_calm hcount htokens rfl rfl fun _ => by omega)
    · rw [if_neg hpos]
      obtain rfl : available = 0 := by omega
      exact .givesUp rfl (counts_of_calm hcount htokens rfl rfl (by simp)) hbounded
  | fetchAdd => exact h.take rfl rfl (h.certain rfl)

section Spinning

variable {t : Int} {wakes : Bool} {r : LightweightSemaphore × Progress SpinPc Bool}

/-- The last turn takes one from `m_count`, in advance if nothing is available. -/
theorem spin_zero_spec (h : Counts sema posting available (some (.partialSpinning (.spin 0))))
    (hstep : sema.waitWithPartialSpinning t wakes (.spin 0) = some r) :
    Waits r.1 posting available (some t) (r.2.map .partialSpinning) := by
  obtain ⟨hcount, htokens⟩ := h.calm rfl rfl
  simp only [LightweightSemaphore.waitWithPartialSpinning] at hstep
  by_cases hpos : sema.mCount > 0
  · rw [if_pos hpos] at hstep
    obtain rfl := Option.some.inj hstep
    exact h.take rfl rfl (by omega)
  · rw [if_neg hpos] at hstep
    obtain rfl : available = 0 := by omega
    have hahead : ∀ pc : SpinPc, pc.ahead = 1 → pc.certain = false →
        Counts { sema with mCount := sema.mCount - 1 } posting 0 (some (.partialSpinning pc)) := by
      intro pc hone hnot
      refine ⟨?_, htokens.trans (by simp), by simp [WaitPc.certain, hnot]⟩
      show sema.mCount - 1 = 0 - pc.ahead
      omega
    by_cases hzero : t = 0
    · rw [if_pos hzero] at hstep
      obtain rfl := Option.some.inj hstep
      exact .goesOn ⟨t, rfl, fun hneg => by omega⟩ (hahead .restore rfl rfl)
    · rw [if_neg hzero] at hstep
      obtain rfl := Option.some.inj hstep
      exact .goesOn ⟨t, rfl, fun _ => rfl⟩ (hahead .sleep rfl rfl)

/-- A turn only looks. -/
theorem spin_succ_spec {turns : Nat}
    (h : Counts sema posting available (some (.partialSpinning (.spin (turns + 1)))))
    (hstep : sema.waitWithPartialSpinning t wakes (.spin (turns + 1)) = some r) :
    Waits r.1 posting available (some t) (r.2.map .partialSpinning) := by
  obtain ⟨hcount, htokens⟩ := h.calm rfl rfl
  simp only [LightweightSemaphore.waitWithPartialSpinning] at hstep
  by_cases hpos : sema.mCount > 0
  · rw [if_pos hpos] at hstep
    obtain rfl := Option.some.inj hstep
    exact .goesOn ⟨t, rfl, fun _ => rfl⟩ (counts_of_calm hcount htokens rfl rfl fun _ => by omega)
  · rw [if_neg hpos] at hstep
    obtain rfl := Option.some.inj hstep
    exact .goesOn ⟨t, rfl, fun _ => rfl⟩ (counts_of_calm hcount htokens rfl rfl (by rintro ⟨⟩))

/-- A sleeper leaves the kernel with a token, or when its time is over. -/
theorem sleep_spec (h : Counts sema posting available (some (.partialSpinning .sleep)))
    (hstep : sema.waitWithPartialSpinning t wakes .sleep = some r) :
    Waits r.1 posting available (some t) (r.2.map .partialSpinning) := by
  simp only [LightweightSemaphore.waitWithPartialSpinning] at hstep
  cases wakes with
  | true =>
    by_cases htoken : sema.mSema > 0
    · rw [if_pos rfl, if_pos htoken] at hstep
      obtain rfl := Option.some.inj hstep
      exact h.wake rfl htoken
    · rw [if_pos rfl, if_neg htoken] at hstep
      cases hstep
  | false =>
    by_cases hlimit : t > 0
    · rw [if_neg (by decide), if_pos hlimit] at hstep
      obtain rfl := Option.some.inj hstep
      exact .goesOn ⟨t, rfl, fun hneg => by omega⟩ ⟨h.count, h.tokens, by rintro ⟨⟩⟩
    · rw [if_neg (by decide), if_neg hlimit] at hstep
      cases hstep

/-- What was taken in advance is given back, and the thread gives up if nobody has signalled. -/
theorem restore_spec (h : Counts sema posting available (some (.partialSpinning .restore)))
    (hbounded : 0 ≤ t) (hstep : sema.waitWithPartialSpinning t wakes .restore = some r) :
    Waits r.1 posting available (some t) (r.2.map .partialSpinning) := by
  have hcount : sema.mCount = available - 1 := h.count
  have htokens := h.tokens
  simp only [LightweightSemaphore.waitWithPartialSpinning] at hstep
  by_cases hnone : sema.mCount < 0
  · rw [if_pos hnone] at hstep
    obtain rfl := Option.some.inj hstep
    obtain rfl : available = 0 := by omega
    have hcalm : sema.mCount + 1 = (0 : Nat) := by omega
    refine .givesUp rfl (counts_of_calm hcalm (htokens.trans (by simp)) rfl rfl (by simp)) ?_
    rintro _ ⟨⟩
    exact hbounded
  · rw [if_neg hnone] at hstep
    obtain rfl := Option.some.inj hstep
    refine .goesOn ⟨t, rfl, fun hneg => by omega⟩ ⟨?_, htokens, fun _ => by omega⟩
    show sema.mCount + 1 = available - 0
    omega

/-- Somebody has signalled, so one is taken again. -/
theorem retract_spec (h : Counts sema posting available (some (.partialSpinning .retract)))
    (hbounded : 0 ≤ t) (hstep : sema.waitWithPartialSpinning t wakes .retract = some r) :
    Waits r.1 posting available (some t) (r.2.map .partialSpinning) := by
  have hcount : sema.mCount = available - 0 := h.count
  have hpos : 0 < available := h.certain rfl
  simp only [LightweightSemaphore.waitWithPartialSpinning] at hstep
  rw [if_pos (by omega)] at hstep
  obtain rfl := Option.some.inj hstep
  refine .goesOn ⟨t, rfl, fun hneg => by omega⟩ ⟨?_, h.tokens, by rintro ⟨⟩⟩
  show sema.mCount - 1 = available - 1
  omega

/-- The token may be late. -/
theorem tryToken_spec (h : Counts sema posting available (some (.partialSpinning .tryToken)))
    (hbounded : 0 ≤ t) (hstep : sema.waitWithPartialSpinning t wakes .tryToken = some r) :
    Waits r.1 posting available (some t) (r.2.map .partialSpinning) := by
  simp only [LightweightSemaphore.waitWithPartialSpinning] at hstep
  by_cases htoken : sema.mSema > 0
  · rw [if_pos htoken] at hstep
    obtain rfl := Option.some.inj hstep
    exact h.wake rfl htoken
  · rw [if_neg htoken] at hstep
    obtain rfl := Option.some.inj hstep
    exact .goesOn ⟨t, rfl, fun hneg => by omega⟩ ⟨h.count, h.tokens, by rintro ⟨⟩⟩

/-- What a step of `waitWithPartialSpinning` has found out. -/
theorem waitWithPartialSpinning_spec {pc : SpinPc}
    (h : Counts sema posting available (some (.partialSpinning pc)))
    (hpatient : t < 0 → pc.patient = true)
    (hstep : sema.waitWithPartialSpinning t wakes pc = some r) :
    Waits r.1 posting available (some t) (r.2.map .partialSpinning) := by
  -- a thread that stops waiting was given a timeout
  have hbounded : pc.patient = false → 0 ≤ t := by
    intro hnot
    by_contra hneg
    cases hnot.symm.trans (hpatient (by omega))
  cases pc with
  | spin turns =>
    cases turns with
    | zero => exact spin_zero_spec h hstep
    | succ turns => exact spin_succ_spec h hstep
  | spinAcquire =>
    obtain rfl := Option.some.inj hstep
    exact h.take rfl rfl (h.certain rfl)
  | sleep => exact sleep_spec h hstep
  | restore => exact restore_spec h (hbounded rfl) hstep
  | retract => exact retract_spec h (hbounded rfl) hstep
  | tryToken => exact tryToken_spec h (hbounded rfl) hstep

end Spinning

/-- A step of a wait: it goes on, takes one of the available ones, or gives up when there are
none. -/
theorem acquire_spec {wakes : Bool} {pc : WaitPc}
    {r : LightweightSemaphore × Progress WaitPc Bool}
    (h : Counts sema posting available (some pc)) (hfits : pc.Fits timeoutUsecs)
    (hstep : sema.acquire timeoutUsecs wakes pc = some r) :
    Waits r.1 posting available timeoutUsecs r.2 := by
  cases pc with
  | tryWait pc =>
    cases timeoutUsecs with
    | none =>
      obtain rfl := Option.some.inj hstep
      exact tryWait_spec h (by rintro t ⟨⟩)
    | some t =>
      -- the first try of `wait` is that of `tryWait`
      have hspec : Waits (sema.tryWait pc).1 posting available none
          ((sema.tryWait pc).2.map .tryWait) := tryWait_spec h (by rintro t ⟨⟩)
      simp only [LightweightSemaphore.acquire, LightweightSemaphore.wait] at hstep
      generalize sema.tryWait pc = next at hspec hstep
      obtain ⟨sema', next⟩ := next
      cases next with
      | goesOn pc =>
        obtain rfl := Option.some.inj hstep
        cases hspec with
        | goesOn fits counts => exact .goesOn trivial counts
      | returns success =>
        cases success with
        | true =>
          obtain rfl := Option.some.inj hstep
          cases hspec with
          | acquires one counts => exact .acquires one counts
        | false =>
          obtain rfl := Option.some.inj hstep
          cases hspec with
          | givesUp nothing counts impatient =>
            -- the try has failed: nothing was available, and `wait` goes on to spin
            subst nothing
            obtain ⟨hcount, htokens⟩ := counts
            exact .goesOn ⟨t, rfl, fun _ => rfl⟩
              (counts_of_calm (hcount.trans (by simp)) (htokens.trans (by simp)) rfl rfl
                (by rintro ⟨⟩))
      | fails => cases hspec
  | partialSpinning pc =>
    obtain ⟨t, rfl, hpatient⟩ := hfits
    obtain ⟨r', hr', rfl⟩ := Option.map_eq_some_iff.1 hstep
    exact waitWithPartialSpinning_spec h hpatient hr'

end Wait

end PipelineTools.Queues.Moodycamel
