import PipelineTools.Memory.OwnershipSteps
import PipelineTools.Library.Runs

/-!
# Memory that enters the buffers

Memory enters the buffer objects through the constructors that take a pointer and through the
self-allocating one of `unique_buffer`; from then on it is the business of the buffers to call its
deleter. A state records what has entered and the deleter calls that have been made. `Conserved`
says that the two and the owners add up for every pointer.

A `shared_buffer` constructed from a non-null pointer and a size of zero forgets both the pointer
and its deleter, where a `unique_buffer` keeps them. `run_conserved_iff` says that this is the only
way to lose memory: a run conserves it in every state if and only if none of its steps does that.
-/

set_option autoImplicit false

namespace PipelineTools.Memory

open PipelineTools.Library

/-- The deleter of the self-allocating constructor, `delete[]`, and those that clients provide. -/
inductive Deleter (D : Type) where
  | deleteArray
  | client (d : D)
deriving DecidableEq

/-- What clients do with buffers: hand memory to a constructor, or use the buffers they have. -/
inductive ClientOp (U S R D : Type) where
  /-- `unique_buffer(count, loc)`, where `new T[count]` returns `new`, or throws. -/
  | uniqueAllocate (this : U) (count : Nat) (loc : MemoryLocation) (new : Option Nat)
  | uniqueConstruct (this : U) (ptr : Option Nat) (count : Nat) (deleter : Option D)
      (loc : MemoryLocation)
  | sharedConstruct (this : S) (ptr : Option Nat) (size : Nat) (deleter : Option D)
      (loc : MemoryLocation)
  | releasedConstruct (out : R) (p : Option Nat) (c : Nat) (d : Option D) (loc : MemoryLocation)
  | buffer (op : BufferOp U S R)

/-- The memory that an operation hands to the buffers. -/
def ClientOp.enters {U S R D : Type} : ClientOp U S R D → List (ReleasedBuffer (Deleter D))
  | .uniqueAllocate _ count loc new =>
      new.toList.map fun ptr => ⟨some ptr, count, some .deleteArray, loc⟩
  | .uniqueConstruct _ ptr count deleter loc => [⟨ptr, count, deleter.map .client, loc⟩]
  | .sharedConstruct _ ptr size deleter loc => [⟨ptr, size, deleter.map .client, loc⟩]
  | .releasedConstruct _ p c d loc => [⟨p, c, d.map .client, loc⟩]
  | .buffer _ => []

/-- The buffer objects, the memory that has entered them, and the deleter calls made so far. -/
structure ClientState (U S R D : Type) where
  objects : Objects U S R (Deleter D)
  entered : List (ReleasedBuffer (Deleter D))
  calls : Calls (Deleter D)

namespace Objects

variable {U S R D : Type} [DecidableEq U] [DecidableEq S] [DecidableEq R]

/-- What an operation of a client does to the objects, with the deleter calls it makes. -/
def clientStep (s : Objects U S R (Deleter D)) :
    ClientOp U S R D → Option (Objects U S R (Deleter D) × Calls (Deleter D))
  | .uniqueAllocate this count loc new =>
      if this ∉ s.uniqueLive then
        match new with
        | none => some (s, [])
        | some ptr => some (s.addUnique this ⟨some ptr, count, loc, some .deleteArray⟩, [])
      else none
  | .uniqueConstruct this ptr count deleter loc =>
      if this ∉ s.uniqueLive then
        some (s.addUnique this ⟨ptr, count, loc, deleter.map .client⟩, [])
      else none
  | .sharedConstruct this ptr size deleter loc =>
      if this ∉ s.sharedLive then
        some (s.constructShared this ⟨ptr, size, deleter.map .client, loc⟩, [])
      else none
  | .releasedConstruct out p c d loc =>
      if out ∉ s.unclaimed then some (s.keep out ⟨p, c, d.map .client, loc⟩, []) else none
  | .buffer op => s.step op

/-- What an operation of a client constructs a `shared_buffer` from. -/
def clientSource (s : Objects U S R (Deleter D)) :
    ClientOp U S R D → Option (ReleasedBuffer (Deleter D))
  | .sharedConstruct _ ptr size deleter loc => some ⟨ptr, size, deleter.map .client, loc⟩
  | .buffer op => s.sharedSource op
  | _ => none

/-- The deleter calls that an operation of a client leaves out. -/
def clientLost (s : Objects U S R (Deleter D)) (op : ClientOp U S R D) : Calls (Deleter D) :=
  ((s.clientSource op).map ReleasedBuffer.lost).getD []

omit [DecidableEq S] in
/-- The law of an operation that also hands memory to the buffers: what is owned or given up was
owned before or enters. -/
structure Accounts (s s' : Objects U S R D) (entering : List (ReleasedBuffer D))
    (calls : Calls D) : Prop where
  count : ∀ p, s'.secured p + (calls.map Prod.snd).count p =
    s.secured p + entering.countP fun rb => rb.secured = some p
  same : ∀ o p, (s'.contents o).ptr = some p →
    s'.contents o ∈ entering ∨ ∃ o', s.contents o' = s'.contents o
  called : ∀ d p, (d, p) ∈ calls → ∃ rb, (rb ∈ entering ∨ ∃ o, s.contents o = rb) ∧
    rb.ptr = some p ∧ rb.deleter = some d

variable {s s' : Objects U S R D}

omit [DecidableEq S] in
theorem Settles.accounts {calls : Calls D} (h : Settles s s' calls) :
    Accounts s s' [] calls where
  count := h.count
  same o p hp := .inr (h.same o p hp)
  called d p hcall := by
    obtain ⟨o, hptr, hdel⟩ := h.called d p hcall
    exact ⟨s.contents o, .inr ⟨o, rfl⟩, hptr, hdel⟩

omit [DecidableEq S] in
/-- An owner that had nothing receives what enters. -/
theorem Accounts.receive {o : Owner U R} {rb : ReleasedBuffer D}
    (hbefore : (s.contents o).ptr = none) (hafter : s'.contents o = rb)
    (hframe : ∀ k, k ≠ o → s'.contents k = s.contents k) : Accounts s s' [rb] [] := by
  refine ⟨?_, ?_, by simp⟩
  · intro p
    have hchange := secured_change (List.nodup_singleton o)
      (fun k hk => .inl (hframe k (List.mem_singleton.not.1 hk))) p
    simp only [List.countP_singleton, ReleasedBuffer.secured_of_ptr_eq_none hbefore,
      hafter] at hchange
    simp only [List.map_nil, List.count_nil, List.countP_singleton]
    simpa using hchange
  · intro k p hp
    by_cases hk : k = o
    · left
      rw [hk, hafter]
      exact List.mem_singleton_self rb
    · exact .inr ⟨k, (hframe k hk).symm⟩

/-- A `shared_buffer` takes what enters, or loses it. -/
theorem accounts_constructShared (this : S) (rb : ReleasedBuffer D) :
    Accounts s (s.constructShared this rb) [rb] rb.lost := by
  by_cases htaken : rb.ptr.isSome ∧ rb.count ≠ 0
  · obtain ⟨p, hptr⟩ := Option.isSome_iff_exists.1 htaken.1
    have hlost : rb.lost = [] := if_neg htaken.2
    rw [hlost]
    apply Accounts.receive (o := .block s.next)
    · simp [contents]
    · exact contents_constructShared_self this hptr htaken.2
    · intro k hk
      exact contents_constructShared_of_ne this rb hk
  · rw [constructShared_eq_addShared this htaken, ReleasedBuffer.lost_eq_settle htaken]
    refine ⟨?_, ?_, ?_⟩
    · intro p
      rw [ReleasedBuffer.settle_map_snd, count_toList, List.countP_singleton]
      have hsame : (s.addShared this none).secured p = s.secured p := rfl
      simp [hsame]
    · intro o p _
      exact .inr ⟨o, rfl⟩
    · intro d p hcall
      exact ⟨rb, .inl (List.mem_singleton_self rb), ReleasedBuffer.mem_settle hcall⟩

/-- Every operation of a client accounts for all memory, but for the calls it leaves out. -/
theorem clientStep_accounts {s s' : Objects U S R (Deleter D)} (hcounted : s.Counted none)
    {op : ClientOp U S R D} {calls : Calls (Deleter D)}
    (hstep : s.clientStep op = some (s', calls)) :
    Accounts s s' op.enters (s.clientLost op ++ calls) ∧ s'.Counted none := by
  cases op with
  -- a failed `new` throws before the buffer exists
  | uniqueAllocate this count loc new =>
    by_cases hthis : this ∉ s.uniqueLive
    · cases new with
      | none =>
        rw [clientStep, if_pos hthis] at hstep
        obtain ⟨rfl, rfl⟩ := Prod.mk.inj (Option.some.inj hstep)
        exact ⟨(Settles.of_same fun o => .inl rfl).accounts, hcounted⟩
      | some ptr =>
        rw [clientStep, if_pos hthis] at hstep
        obtain ⟨rfl, rfl⟩ := Prod.mk.inj (Option.some.inj hstep)
        refine ⟨?_, hcounted.of_eq (fun h => rfl) rfl rfl⟩
        apply Accounts.receive (o := .unique this)
        · simp [contents, hthis]
        · exact contents_addUnique_self this _
        · intro k hk
          exact contents_addUnique_of_ne hk
    · simp [clientStep, hthis] at hstep
  | uniqueConstruct this ptr count deleter loc =>
    by_cases hthis : this ∉ s.uniqueLive
    · rw [clientStep, if_pos hthis] at hstep
      obtain ⟨rfl, rfl⟩ := Prod.mk.inj (Option.some.inj hstep)
      refine ⟨?_, hcounted.of_eq (fun h => rfl) rfl rfl⟩
      apply Accounts.receive (o := .unique this)
      · simp [contents, hthis]
      · exact contents_addUnique_self this _
      · intro k hk
        exact contents_addUnique_of_ne hk
    · simp [clientStep, hthis] at hstep
  | sharedConstruct this ptr size deleter loc =>
    by_cases hthis : this ∉ s.sharedLive
    · rw [clientStep, if_pos hthis] at hstep
      obtain ⟨rfl, rfl⟩ := Prod.mk.inj (Option.some.inj hstep)
      rw [List.append_nil]
      exact ⟨accounts_constructShared this _, hcounted.constructShared hthis _⟩
    · simp [clientStep, hthis] at hstep
  | releasedConstruct out p c d loc =>
    by_cases hout : out ∉ s.unclaimed
    · rw [clientStep, if_pos hout] at hstep
      obtain ⟨rfl, rfl⟩ := Prod.mk.inj (Option.some.inj hstep)
      refine ⟨?_, hcounted.of_eq (fun h => rfl) rfl rfl⟩
      apply Accounts.receive (o := .released out)
      · simp [contents, hout]
      · exact contents_keep_self out _
      · intro k hk
        exact contents_keep_of_ne hk
    · simp [clientStep, hout] at hstep
  | buffer op =>
    obtain ⟨hsettles, hcounted'⟩ := step_settles hcounted hstep
    exact ⟨hsettles.accounts, hcounted'⟩

end Objects

namespace ClientState

variable {U S R D : Type} [DecidableEq U] [DecidableEq S] [DecidableEq R]
  {s s' : ClientState U S R D}

def init : ClientState U S R D := ⟨Objects.init, [], []⟩

def step (s : ClientState U S R D) (op : ClientOp U S R D) : Option (ClientState U S R D) :=
  (s.objects.clientStep op).map fun r => ⟨r.1, s.entered ++ op.enters, s.calls ++ r.2⟩

/-- Memory with a deleter has an owner for each time it entered, unless its deleter was called.
Memory that entered once has one owner and no call, or no owner and one call of its deleter. -/
structure Conserved (s : ClientState U S R D) : Prop where
  balance : ∀ p, s.objects.secured p + (s.calls.map Prod.snd).count p =
    s.entered.countP fun rb => rb.secured = some p
  once : ∀ rb ∈ s.entered, ∀ p d, rb.ptr = some p → rb.deleter = some d →
    (s.entered.countP fun rb' => rb'.ptr = some p) = 1 →
    ((∃! o, (s.objects.contents o).ptr = some p) ∧ p ∉ s.calls.map Prod.snd) ∨
      ((∀ o, (s.objects.contents o).ptr ≠ some p) ∧
        (s.calls.filter fun call => call.2 = p) = [(d, p)])

/-- No `shared_buffer` is constructed from memory that has a deleter but a size of zero. -/
def KeepsDeleters (s : ClientState U S R D) (op : ClientOp U S R D) : Prop :=
  ∀ rb, s.objects.clientSource op = some rb → rb.ptr.isSome = true → rb.deleter.isSome = true →
    rb.count ≠ 0

/-- What the record of a run says about its objects, whether memory was lost or not. -/
structure Traced (s : ClientState U S R D) : Prop where
  counted : s.objects.Counted none
  contents : ∀ o p, (s.objects.contents o).ptr = some p → s.objects.contents o ∈ s.entered
  calls : ∀ d p, (d, p) ∈ s.calls → ∃ rb ∈ s.entered, rb.ptr = some p ∧ rb.deleter = some d

theorem traced_init : (init : ClientState U S R D).Traced where
  counted := Objects.counted_init
  contents o p hp := by
    cases o <;> simp [init, Objects.contents, Objects.init] at hp
  calls d p hcall := by cases hcall

theorem step_accounts (hs : s.Traced) {op : ClientOp U S R D} (hstep : s.step op = some s') :
    ∃ calls, s'.entered = s.entered ++ op.enters ∧ s'.calls = s.calls ++ calls ∧
      Objects.Accounts s.objects s'.objects op.enters (s.objects.clientLost op ++ calls) ∧
      s'.objects.Counted none := by
  obtain ⟨⟨objects, calls⟩, hop, rfl⟩ := Option.map_eq_some_iff.1 hstep
  obtain ⟨haccounts, hcounted⟩ := Objects.clientStep_accounts hs.counted hop
  exact ⟨calls, rfl, rfl, haccounts, hcounted⟩

theorem traced_step (hs : s.Traced) {op : ClientOp U S R D} (hstep : s.step op = some s') :
    s'.Traced := by
  obtain ⟨calls, hentered, hcalls, haccounts, hcounted⟩ := step_accounts hs hstep
  have hknown : ∀ rb p, (rb ∈ op.enters ∨ ∃ o, s.objects.contents o = rb) → rb.ptr = some p →
      rb ∈ s'.entered := by
    rintro rb p (henters | ⟨o, rfl⟩) hptr
    · rw [hentered]
      exact List.mem_append_right _ henters
    · rw [hentered]
      exact List.mem_append_left _ (hs.contents o p hptr)
  refine ⟨hcounted, ?_, ?_⟩
  · intro o p hp
    exact hknown _ p (haccounts.same o p hp) hp
  · intro d p hcall
    rw [hcalls] at hcall
    rcases List.mem_append.1 hcall with hold | hnew
    · obtain ⟨rb, hrb, hdue⟩ := hs.calls d p hold
      rw [hentered]
      exact ⟨rb, List.mem_append_left _ hrb, hdue⟩
    · obtain ⟨rb, hrb, hptr, hdel⟩ := haccounts.called d p (List.mem_append_right _ hnew)
      exact ⟨rb, hknown rb p hrb hptr, hptr, hdel⟩

omit [DecidableEq S] in
theorem secured_init (p : Nat) : (Objects.init : Objects U S R (Deleter D)).secured p = 0 := by
  have hnone : ¬ 0 < (Objects.init : Objects U S R (Deleter D)).secured p := by
    rw [Objects.secured, refCount_pos_iff]
    rintro ⟨o, -, ho⟩
    cases o <;> simp [Objects.contents, Objects.init, ReleasedBuffer.secured] at ho
  omega

/-- Two members of a list of which only one satisfies `P` are the same, if they do. -/
theorem eq_of_countP_eq_one {α : Type} {P : α → Bool} {l : List α} (h : l.countP P = 1) {x y : α}
    (hx : x ∈ l) (hPx : P x = true) (hy : y ∈ l) (hPy : P y = true) : x = y := by
  rw [List.countP_eq_length_filter, List.length_eq_one_iff] at h
  obtain ⟨z, hz⟩ := h
  have hxz : x ∈ l.filter P := List.mem_filter.2 ⟨hx, hPx⟩
  have hyz : y ∈ l.filter P := List.mem_filter.2 ⟨hy, hPy⟩
  rw [hz, List.mem_singleton] at hxz hyz
  rw [hxz, hyz]

theorem filter_calls_length (calls : Calls (Deleter D)) (p : Nat) :
    (calls.filter fun call => call.2 = p).length = (calls.map Prod.snd).count p := by
  rw [← List.countP_eq_length_filter, List.count, List.countP_map]
  apply List.countP_congr
  intro call _
  simp

/-- Memory that entered once with a deleter is counted once among what entered. -/
theorem countP_secured_eq_one {entered : List (ReleasedBuffer (Deleter D))}
    {rb : ReleasedBuffer (Deleter D)} (hrb : rb ∈ entered) {p : Nat}
    (hsecured : rb.secured = some p)
    (hone : (entered.countP fun rb' => rb'.ptr = some p) = 1) :
    (entered.countP fun rb' => rb'.secured = some p) = 1 := by
  have hle : (entered.countP fun rb' => rb'.secured = some p) ≤
      entered.countP fun rb' => rb'.ptr = some p := by
    apply List.countP_mono_left
    intro rb' _ h
    have h := of_decide_eq_true h
    exact decide_eq_true (ReleasedBuffer.secured_eq_some_iff.1 h).1
  have hpos : 0 < entered.countP fun rb' => rb'.secured = some p :=
    List.countP_pos_iff.2 ⟨rb, hrb, decide_eq_true hsecured⟩
  omega

/-- The balance decides the fate of memory that entered once. -/
theorem Traced.conserved (hs : s.Traced)
    (hbalance : ∀ p, s.objects.secured p + (s.calls.map Prod.snd).count p =
      s.entered.countP fun rb => rb.secured = some p) : s.Conserved := by
  refine ⟨hbalance, ?_⟩
  intro rb hrb p d hptr hdel hone
  have honly : ∀ rb' ∈ s.entered, rb'.ptr = some p → rb' = rb := by
    intro rb' hrb' hptr'
    exact eq_of_countP_eq_one hone hrb' (decide_eq_true hptr') hrb (decide_eq_true hptr)
  have hsecured : rb.secured = some p :=
    ReleasedBuffer.secured_eq_some_iff.2 ⟨hptr, by rw [hdel]; rfl⟩
  have howner : ∀ o, (s.objects.contents o).ptr = some p →
      o ∈ s.objects.owners ∧ (s.objects.contents o).secured = some p := by
    intro o ho
    refine ⟨Objects.mem_owners ho, ?_⟩
    rw [honly _ (hs.contents o p ho) ho]
    exact hsecured
  have hp := hbalance p
  rw [countP_secured_eq_one hrb hsecured hone] at hp
  -- the balance is one: a call of the deleter or an owner, and not both
  by_cases hcalled : p ∈ s.calls.map Prod.snd
  · right
    have hcount := List.count_pos_iff.2 hcalled
    constructor
    · intro o ho
      have hpos : 0 < s.objects.secured p := refCount_pos_iff.2 ⟨o, howner o ho⟩
      omega
    · have hlength : (s.calls.filter fun call => call.2 = p).length = 1 := by
        rw [filter_calls_length]
        omega
      obtain ⟨⟨e, q⟩, hcall⟩ := List.length_eq_one_iff.1 hlength
      have hmem : (e, q) ∈ s.calls.filter fun call => call.2 = p := by
        rw [hcall]
        exact List.mem_singleton_self _
      obtain ⟨hmade, hq⟩ := List.mem_filter.1 hmem
      have hq : q = p := of_decide_eq_true hq
      obtain ⟨rb', hrb', hptr', hdel'⟩ := hs.calls e q hmade
      rw [honly rb' hrb' (by rw [hptr', hq]), hdel, Option.some.injEq] at hdel'
      rw [hcall, hdel', hq]
  · left
    have hzero := List.count_eq_zero.2 hcalled
    have howned : s.objects.secured p = 1 := by omega
    obtain ⟨o, hlive, ho⟩ : ∃ o ∈ s.objects.owners, (s.objects.contents o).secured = some p := by
      apply refCount_pos_iff.1
      rw [← Objects.secured]
      omega
    refine ⟨⟨o, (ReleasedBuffer.secured_eq_some_iff.1 ho).1, ?_⟩, hcalled⟩
    intro o' ho'
    obtain ⟨hlive', hsec⟩ := howner o' ho'
    exact eq_of_refCount_le_one (Nat.le_of_eq howned) hlive' hsec hlive ho

theorem conserved_init : (init : ClientState U S R D).Conserved := by
  apply traced_init.conserved
  intro p
  rw [show (init : ClientState U S R D).objects = Objects.init from rfl, secured_init]
  rfl

omit [DecidableEq U] [DecidableEq S] [DecidableEq R] in
theorem keepsDeleters_iff {op : ClientOp U S R D} :
    s.KeepsDeleters op ↔ s.objects.clientLost op = [] := by
  unfold KeepsDeleters Objects.clientLost
  cases hsource : s.objects.clientSource op with
  | none => simp
  | some rb => simp [ReleasedBuffer.lost_eq_nil_iff]

/-- A step conserves memory exactly when it keeps all deleters. -/
theorem conserved_step_iff (hs : s.Traced) (hconserved : s.Conserved) {op : ClientOp U S R D}
    (hstep : s.step op = some s') : s'.Conserved ↔ s.KeepsDeleters op := by
  obtain ⟨calls, hentered, hcalls, haccounts, -⟩ := step_accounts hs hstep
  have hbalance : ∀ p, s'.objects.secured p + (s'.calls.map Prod.snd).count p +
      ((s.objects.clientLost op).map Prod.snd).count p =
        s'.entered.countP fun rb => rb.secured = some p := by
    intro p
    have hold := hconserved.balance p
    have hnew := haccounts.count p
    rw [List.map_append, List.count_append] at hnew
    rw [hentered, hcalls, List.map_append, List.count_append, List.countP_append]
    omega
  rw [keepsDeleters_iff]
  -- a call left out is missing from the balance of its memory
  constructor
  · intro h
    have hnone : (s.objects.clientLost op).map Prod.snd = [] := by
      apply List.eq_nil_iff_forall_not_mem.2
      intro p hp
      have hpos := List.count_pos_iff.2 hp
      have hp' := h.balance p
      have hall := hbalance p
      omega
    exact List.map_eq_nil_iff.1 hnone
  · intro h
    apply (traced_step hs hstep).conserved
    intro p
    have hall := hbalance p
    rw [h] at hall
    exact hall

/-- A run conserves memory in every state if and only if each of its steps keeps all deleters. -/
theorem run_conserved_iff {ops : List (ClientOp U S R D)} (hrun : runFrom step init ops = some s) :
    EveryState step Conserved init ops ↔ EveryStep step KeepsDeleters init ops := by
  apply everyState_iff_everyStep Traced _ traced_init conserved_init hrun
  intro s op s' hs hconserved hstep
  exact ⟨traced_step hs hstep, conserved_step_iff hs hconserved hstep⟩

/-- An array of no elements is allocated, and its buffer is converted to a `shared_buffer`. -/
def zeroOps : List (ClientOp Nat Nat Nat Unit) :=
  [.uniqueAllocate 0 0 .Host (some 7), .buffer (.sharedFromUnique 0 0)]

/-- The array of `zeroOps` has no owner, and nothing was called. -/
theorem zeroOps_not_conserved :
    ∃ s, runFrom step init zeroOps = some s ∧
      s.entered.countP (fun rb => rb.secured = some 7) = 1 ∧
      (∀ o, (s.objects.contents o).ptr ≠ some 7) ∧ s.calls = [] ∧ ¬ s.Conserved := by
  refine ⟨(runFrom step init zeroOps).get (by decide), (Option.some_get _).symm, by decide, ?_,
    by decide, ?_⟩
  · intro o ho
    have howned := Objects.owned_pos ho
    revert howned
    decide
  · intro h
    have hbalance := h.balance 7
    revert hbalance
    decide

/-- Memory of a client goes through all three kinds of buffers and is given up at last. -/
def keptOps : List (ClientOp Nat Nat Nat Unit) :=
  [.uniqueConstruct 0 (some 7) 3 (some ()) .Device, .buffer (.sharedFromUnique 0 0),
    .buffer (.sharedRelease 0 0), .buffer (.uniqueFromReleased 1 0), .buffer (.uniqueDestroy 1)]

theorem keptOps_conserved_iff :
    EveryState step Conserved init keptOps ↔ EveryStep step KeepsDeleters init keptOps :=
  run_conserved_iff (s := (runFrom step init keptOps).get (by decide)) (Option.some_get _).symm

end ClientState

end PipelineTools.Memory
