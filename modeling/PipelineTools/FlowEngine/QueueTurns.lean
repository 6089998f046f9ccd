import PipelineTools.FlowEngine.QueueAccesses

/-!
# The turns of queue blocks

A turn of a block of the user is the same whether the queues are next to its state or not
(`activate_withQueues`). A turn of a queue block in which the queue is called at once is what is
left of the turn when the queue has given the same answer (`activate_of_answer`), and there is
something left unless `push` threw (`finish_of_answer`).
-/

set_option autoImplicit false

namespace PipelineTools.FlowEngine

open PipelineTools.Library PipelineTools.Queues
open Moodycamel (Role)

variable {ι κ : Type} {β : κ → Type} {σ ε : Type}

/-! ## Turns on the two machines -/

theorem fst_pack_congr {σ' : Type} {args : List (Any β)} {out : Ty κ} {absent : Any β}
    {r : Except ε (Option (out.Val β)) × σ} {r' : Except ε (Option (out.Val β)) × σ'}
    (h : r'.1 = r.1) : (pack args out absent r').1 = (pack args out absent r).1 := by
  obtain ⟨result, u⟩ := r
  obtain ⟨result', u'⟩ := r'
  obtain rfl : result' = result := h
  cases result' with
  | error e => rfl
  | ok value =>
    cases value with
    | none => rfl
    | some v => rfl

theorem snd_pack (args : List (Any β)) (out : Ty κ) (absent : Any β)
    (r : Except ε (Option (out.Val β)) × σ) : (pack args out absent r).2 = r.2 := by
  obtain ⟨result, u⟩ := r
  cases result with
  | error e => rfl
  | ok value => cases value <;> rfl

section

variable [DecidableEq ι] [DecidableEq κ] {ends : ι → Option (AutoBlock κ)}

/-- The machine of the workers whose queue calls take one turn: its queues are part of the state
that the processes share, and its log is another one. -/
def Machine.withQueues (ends : ι → Option (AutoBlock κ)) (m : Machine ι β σ ε)
    (queues : (t : Ty κ) → Nat → IQueue (t.Val β)) (log : List (Event ι β ε)) :
    Machine ι β (Shared β σ) ε :=
  ⟨m.heap.withQueues ends, ⟨m.user, queues⟩, log⟩

omit [DecidableEq ι] in
theorem alike_withQueues {m : Machine ι β σ ε} {t : Task ι β} (hends : ends t.block = none)
    (queues : (t : Ty κ) → Nat → IQueue (t.Val β)) :
    (m.heap t.block).Alike t.input t.producerId m.user (m.heap.withQueues ends t.block)
      ⟨m.user, queues⟩ := by
  have hobj : (m.heap.withQueues ends t.block).obj = (m.heap t.block).obj.withQueues := by
    simp only [Heap.withQueues, hends]
  refine ⟨?_, ?_, ?_, rfl, ?_⟩
  · rw [hobj]
    cases (m.heap t.block).obj <;> rfl
  · rw [hobj]
    cases (m.heap t.block).obj <;> rfl
  · rw [hobj]
    cases (m.heap t.block).obj <;> rfl
  · rw [hobj, processAny_withQueues]

theorem called_withQueues {m : Machine ι β σ ε} {t : Task ι β} (hends : ends t.block = none)
    (queues : (t : Ty κ) → Nat → IQueue (t.Val β)) (log : List (Event ι β ε)) :
    (m.withQueues ends queues log).called t =
      (m.called t).withQueues ends queues
        (log ++ t.entries ((m.heap t.block).obj.processAny t.input t.producerId m.user).1) := by
  have hobj : (m.heap.withQueues ends t.block).obj = (m.heap t.block).obj.withQueues := by
    simp only [Heap.withQueues, hends]
  simp only [Machine.called, Machine.withQueues, hobj, processAny_withQueues, Machine.mk.injEq,
    and_true]
  funext x
  by_cases hx : x = t.block
  · subst hx
    simp only [Function.update_self, Heap.withQueues, hends]
  · simp only [Function.update_of_ne hx, Heap.withQueues]

/-- A turn of a block of the user is the same next to the queues. -/
theorem activate_withQueues {m m' : Machine ι β σ ε} {t : Task ι β} {ts : List (Task ι β)}
    (hends : ends t.block = none) (hact : activate t m = .ok ts m')
    (queues : (t : Ty κ) → Nat → IQueue (t.Val β)) (log : List (Event ι β ε)) :
    ∃ es, m'.log = m.log ++ es ∧ (∀ e ∈ es, e.block = t.block) ∧
      activate t (m.withQueues ends queues log) =
        .ok ts (m'.withQueues ends queues (log ++ es)) := by
  have halike := alike_withQueues (m := m) hends queues
  by_cases hskips : (m.heap t.block).obj.isSink = true ∧ t.skips = true
  · rw [activate_of_skips hskips.1 hskips.2] at hact
    cases hact
    refine ⟨[], (List.append_nil _).symm, by simp, ?_⟩
    rw [List.append_nil]
    exact activate_of_skips (halike.isSink.trans hskips.1) hskips.2
  · have hcalled : (m.heap t.block).obj.isSink = true → t.skips = false := by
      intro hsink
      cases hskip : t.skips with
      | false => rfl
      | true => exact absurd ⟨hsink, hskip⟩ hskips
    rw [activate_of_called hcalled] at hact
    have hcalled' : ((m.withQueues ends queues log).heap t.block).obj.isSink = true →
        t.skips = false := fun hsink => hcalled (halike.isSink.symm.trans hsink)
    rw [activate_of_called hcalled']
    have hafter := after_alike halike
    cases hnext : (m.heap t.block).after t
        ((m.heap t.block).obj.processAny t.input t.producerId m.user).1 with
    | error e =>
      rw [hnext] at hact
      cases hact
    | ok ts' =>
      rw [hnext] at hact hafter
      cases hact
      refine ⟨_, rfl, fun e he => block_of_mem_entries he, ?_⟩
      rw [called_withQueues hends]
      simp only [Machine.withQueues, hafter]

/-! ## Where a turn leads -/

theorem sameWiring_called (t : Task ι β) (s : Machine ι β σ ε) :
    SameWiring s.heap (s.called t).heap := by
  have hfinal : finalState (processAny t.depth t.block t.input t.producerId s) = s.called t := by
    rw [finalState_processAny]
    rfl
  rw [← hfinal]
  exact sameWiring_processAny t.depth t.block t.input t.producerId s

/-- What a turn logs is the call of its block. -/
theorem log_of_activate {t : Task ι β} {s m : Machine ι β σ ε} {ts : List (Task ι β)}
    (h : activate t s = .ok ts m) : ∃ es, m.log = s.log ++ es ∧ ∀ e ∈ es, e.block = t.block := by
  by_cases hskips : (s.heap t.block).obj.isSink = true ∧ t.skips = true
  · rw [activate_of_skips hskips.1 hskips.2] at h
    cases h
    exact ⟨[], (List.append_nil _).symm, by simp⟩
  · rw [activate_of_called fun hsink =>
      Bool.eq_false_of_not_eq_true fun hskip => hskips ⟨hsink, hskip⟩] at h
    cases hafter : (s.heap t.block).after t
        ((s.heap t.block).obj.processAny t.input t.producerId s.user).1 with
    | error e =>
      rw [hafter] at h
      cases h
    | ok ts' =>
      rw [hafter] at h
      cases h
      exact ⟨_, rfl, fun e he => block_of_mem_entries he⟩

/-- A turn leads to consumers of its block, and a turn of a sink leads nowhere. -/
theorem edge_of_activate {t : Task ι β} {s m : Machine ι β σ ε} {ts : List (Task ι β)}
    (h : activate t s = .ok ts m) :
    SameWiring s.heap m.heap ∧ ∀ t' ∈ ts, (s.heap t.block).obj.isSink = false ∧
      Edge s.heap t.block t'.block := by
  by_cases hskips : (s.heap t.block).obj.isSink = true ∧ t.skips = true
  · -- a sink that is not called does nothing
    rw [activate_of_skips hskips.1 hskips.2] at h
    cases h
    exact ⟨SameWiring.refl _, by simp⟩
  · rw [activate_of_called fun hsink =>
      Bool.eq_false_of_not_eq_true fun hskip => hskips ⟨hsink, hskip⟩] at h
    cases hafter : (s.heap t.block).after t
        ((s.heap t.block).obj.processAny t.input t.producerId s.user).1 with
    | error e =>
      rw [hafter] at h
      cases h
    | ok ts' =>
      rw [hafter] at h
      cases h
      refine ⟨sameWiring_called t s, ?_⟩
      intro t' ht'
      cases hresult : ((s.heap t.block).obj.processAny t.input t.producerId s.user).1.result with
      | error e =>
        simp only [Flow.after, hresult] at hafter
        cases hafter
      | ok output =>
        simp only [Flow.after, hresult] at hafter
        by_cases hsink : (s.heap t.block).obj.isSink = true
        · rw [if_pos hsink] at hafter
          cases hafter
          cases ht'
        · rw [if_neg hsink] at hafter
          refine ⟨Bool.eq_false_of_not_eq_true hsink, ?_⟩
          by_cases hgo : (output.hasValue && decide (t.input.type ≠ .nullopt)) = true
          · rw [if_pos hgo] at hafter
            -- new tasks come from what is handed on
            cases hhand : (s.heap t.block).hand output with
            | error e =>
              rw [hhand] at hafter
              cases hafter
            | ok ds =>
              rw [hhand] at hafter
              cases hafter
              obtain ⟨d, hd, rfl⟩ := List.mem_map.1 ht'
              have hdeliveries : (s.heap t.block).deliveries output = ds := by
                rw [deliveries_eq_hand, hhand]
                rfl
              rw [← hdeliveries] at hd
              exact ⟨d.2.2, mem_deliveries hd⟩
          · rw [if_neg hgo] at hafter
            cases hafter
            cases ht'

/-! ## Turns of queue blocks -/

omit [DecidableEq ι] in
theorem request_cases {t : Task ι β} {side : QueueSide κ} {call : QueueCall β}
    (h : request ends t = some (side, call)) :
    ∃ b, ends t.block = some b ∧
      ((b.kind = .source ∧ side = ((b.elem, b.queue), .consumer) ∧
          call = ⟨(b.elem, b.queue), .pop⟩) ∨
        ∃ value, b.kind = .sink ∧ t.input = .val b.elem value ∧
          side = ((b.elem, b.queue), .producer) ∧ call = ⟨(b.elem, b.queue), .push value⟩) := by
  obtain ⟨b, hb, hcall⟩ := Option.bind_eq_some_iff.1 h
  refine ⟨b, hb, ?_⟩
  cases hkind : b.kind with
  | source =>
    rw [hkind] at hcall
    obtain ⟨rfl, rfl⟩ := Prod.mk.inj (Option.some.inj hcall)
    exact .inl ⟨rfl, rfl, rfl⟩
  | sink =>
    rw [hkind] at hcall
    obtain ⟨value, hvalue, heq⟩ := Option.map_eq_some_iff.1 hcall
    obtain ⟨rfl, rfl⟩ := Prod.mk.inj heq
    exact .inr ⟨value, rfl, anyCast_eq_some_iff.1 hvalue, rfl, rfl⟩

/-- A turn that looks like the rest of a queue block's turn. -/
theorem activate_of_finish {t : Task ι β} {obj : Obj β Unit ε} {nextNodes : List (ι × Nat)}
    {s : Machine ι β σ ε} {ts : List (Task ι β)} {m : Machine ι β Unit ε}
    (halike : Flow.Alike t.input t.producerId (⟨obj, nextNodes⟩ : Flow ι β Unit ε) ()
      (s.heap t.block) s.user)
    (hcalled : obj.isSink = true → t.skips = false)
    (h : activate t ⟨fun _ => ⟨obj, nextNodes⟩, (), []⟩ = .ok ts m) :
    activate t s = .ok ts { s.called t with log := s.log ++ m.log } := by
  rw [activate_of_called hcalled] at h
  rw [activate_of_called fun hsink => hcalled (halike.isSink.symm.trans hsink)]
  have hafter := after_alike halike
  cases hnext : Flow.after (⟨obj, nextNodes⟩ : Flow ι β Unit ε) t
      (obj.processAny t.input t.producerId ()).1 with
  | error e =>
    simp only [hnext] at h
    cases h
  | ok ts' =>
    simp only [hnext] at h hafter
    cases h
    simp only [hafter]
    simp only [Machine.called, halike.outcome, List.nil_append]

/-- The queues after a call of one of them. -/
def setQueue (queues : (t : Ty κ) → Nat → IQueue (t.Val β)) (k : Ty κ × Nat)
    (queue : IQueue (k.1.Val β)) : (t : Ty κ) → Nat → IQueue (t.Val β) :=
  Function.update queues k.1 (Function.update (queues k.1) k.2 queue)

/-- A queue block stays as it is. -/
theorem called_queueBlock {m : Machine ι β σ ε} {t : Task ι β} {b : AutoBlock κ}
    (hb : ends t.block = some b) (queues : (t : Ty κ) → Nat → IQueue (t.Val β))
    (log log' : List (Event ι β ε)) :
    { (m.withQueues ends queues log).called t with log := log' } =
      { heap := m.heap.withQueues ends
        user := ((queueBlock b.elem b.queue b.kind : Obj β (Shared β σ) ε).processAny t.input
          t.producerId ⟨m.user, queues⟩).2.2
        log := log' } := by
  have hblock : (m.heap.withQueues ends t.block).obj = queueBlock b.elem b.queue b.kind := by
    simp only [Heap.withQueues, hb]
  have hsame : ((queueBlock b.elem b.queue b.kind : Obj β (Shared β σ) ε).processAny
      t.input t.producerId ⟨m.user, queues⟩).2.1 = (m.heap.withQueues ends t.block).obj := by
    rw [hblock]
    cases b.kind <;> rfl
  simp only [Machine.called, Machine.withQueues, hblock, hsame]
  rw [← hblock, Function.update_eq_self]

/-- The rest of a turn of a queue block leads to consumers of the block. -/
theorem edge_of_finish {nextNodes : ι → List (ι × Nat)} {t : Task ι β} {reply : QueueReply β}
    {ts : List (Task ι β)} {es : List (Event ι β ε)}
    (h : finish ends nextNodes t reply = some (ts, es)) :
    ∃ b, ends t.block = some b ∧ (∀ e ∈ es, e.block = t.block) ∧
      ∀ t' ∈ ts, b.kind = .source ∧ ∃ id, (t'.block, id) ∈ nextNodes t.block := by
  obtain ⟨b, hb, hanswer⟩ := Option.bind_eq_some_iff.1 h
  obtain ⟨obj, hobj, hrest⟩ := Option.bind_eq_some_iff.1 hanswer
  cases hact : activate t (⟨fun _ => ⟨obj, nextNodes t.block⟩, (), []⟩ : Machine ι β Unit ε) with
  | error e m => simp [hact] at hrest
  | ok ts' m =>
    simp only [hact, Option.some.injEq, Prod.mk.injEq] at hrest
    obtain ⟨rfl, rfl⟩ := hrest
    obtain ⟨es, hlog, hes⟩ := log_of_activate hact
    refine ⟨b, hb, ?_, ?_⟩
    · intro e he
      rw [hlog] at he
      exact hes e he
    · intro t' ht'
      obtain ⟨hsink, hedge⟩ := (edge_of_activate hact).2 t' ht'
      refine ⟨?_, hedge⟩
      -- the sink that a `push` leaves has no consumers
      cases hkind : b.kind with
      | source => rfl
      | sink =>
        obtain ⟨k, result⟩ := reply
        rw [hkind] at hobj
        cases result with
        | pushed success =>
          obtain rfl := Option.some.inj hobj
          cases hsink
        | popped item => cases hobj
        | badAlloc => cases hobj
        | undefined => cases hobj

section Answer

variable {m : Machine ι β σ ε} {t : Task ι β} {b : AutoBlock κ} {ts : List (Task ι β)}
  {m' : Machine ι β Unit ε}

/-- The rest of a turn behind a `pop`. -/
theorem activate_of_popped (hb : ends t.block = some b) (hkind : b.kind = .source)
    (queues : (t : Ty κ) → Nat → IQueue (t.Val β)) (log : List (Event ι β ε))
    (hact : activate t ⟨fun _ => ⟨.source b.elem .Fanout fun u =>
      (.ok (queues b.elem b.queue).pop.1, u), (m.heap t.block).nextNodes⟩, (), []⟩ = .ok ts m') :
    activate t (m.withQueues ends queues log) =
      .ok ts (m.withQueues ends (setQueue queues (b.elem, b.queue) (queues b.elem b.queue).pop.2)
        (log ++ m'.log)) := by
  have hblock : (m.heap.withQueues ends t.block).obj = queueBlock b.elem b.queue .source := by
    simp only [Heap.withQueues, hb, hkind]
  have halike : Flow.Alike t.input t.producerId
      (⟨.source b.elem .Fanout fun u => (.ok (queues b.elem b.queue).pop.1, u),
        (m.heap t.block).nextNodes⟩ : Flow ι β Unit ε) ()
      ((m.withQueues ends queues log).heap t.block) ⟨m.user, queues⟩ := by
    refine ⟨?_, ?_, ?_, rfl, ?_⟩
    · exact congrArg Obj.isSink hblock
    · exact congrArg Obj.policy hblock
    · exact congrArg Obj.outputType hblock
    · simp only [Machine.withQueues, hblock, queueBlock, Obj.processAny, Source.processAny]
      apply fst_pack_congr
      rfl
  refine (activate_of_finish (s := m.withQueues ends queues log) halike (by rintro ⟨⟩)
    hact).trans ?_
  have hqueues := called_queueBlock (m := m) hb queues log (log ++ m'.log)
  simp only [hkind, queueBlock, Obj.processAny, Source.processAny, snd_pack] at hqueues
  exact congrArg _ hqueues

/-- The rest of a turn behind a `push`. -/
theorem activate_of_pushed (hb : ends t.block = some b) (hkind : b.kind = .sink)
    {value : b.elem.Val β} (hinput : t.input = .val b.elem value)
    (queues : (t : Ty κ) → Nat → IQueue (t.Val β)) (log : List (Event ι β ε))
    (hact : activate t ⟨fun _ => ⟨.sink b.elem fun _ u => (.ok (), u),
      (m.heap t.block).nextNodes⟩, (), []⟩ = .ok ts m') :
    activate t (m.withQueues ends queues log) =
      .ok ts (m.withQueues ends (setQueue queues (b.elem, b.queue)
        ((queues b.elem b.queue).push value).2) (log ++ m'.log)) := by
  have hblock : (m.heap.withQueues ends t.block).obj = queueBlock b.elem b.queue .sink := by
    simp only [Heap.withQueues, hb, hkind]
  have hskips : t.skips = false := by
    rw [Task.skips, hinput]
    rfl
  have halike : Flow.Alike t.input t.producerId
      (⟨.sink b.elem fun _ u => (.ok (), u), (m.heap t.block).nextNodes⟩ : Flow ι β Unit ε) ()
      ((m.withQueues ends queues log).heap t.block) ⟨m.user, queues⟩ := by
    refine ⟨?_, ?_, ?_, rfl, ?_⟩
    · exact congrArg Obj.isSink hblock
    · exact congrArg Obj.policy hblock
    · exact congrArg Obj.outputType hblock
    · simp only [Machine.withQueues, hblock, queueBlock, Obj.processAny, Sink.processAny, hinput,
        anyCastWithInfo_val_self]
      rfl
  refine (activate_of_finish (s := m.withQueues ends queues log) halike (fun _ => hskips)
    hact).trans ?_
  have hqueues := called_queueBlock (m := m) hb queues log (log ++ m'.log)
  simp only [hkind, queueBlock, Obj.processAny, Sink.processAny, hinput,
    anyCastWithInfo_val_self] at hqueues
  exact congrArg _ hqueues

end Answer

section Calls

variable {m : Machine ι β σ ε} {t : Task ι β} {side : QueueSide κ} {call : QueueCall β}
  (queues : (t : Ty κ) → Nat → IQueue (t.Val β)) {queue : IQueue (call.1.1.Val β)}
  {result : QueueResult (call.1.1.Val β)}

/-- With the answer of the queue, a turn of a queue block comes to its end. -/
theorem activate_of_answer (hrequest : request ends t = some (side, call))
    (hdoes : QueueDoes call.2 (queues call.1.1 call.1.2) result queue) {ts : List (Task ι β)}
    {es : List (Event ι β ε)}
    (hfinish : finish ends (fun x => (m.heap x).nextNodes) t ⟨call.1, result⟩ = some (ts, es))
    (log : List (Event ι β ε)) :
    activate t (m.withQueues ends queues log) =
      .ok ts (m.withQueues ends (setQueue queues call.1 queue) (log ++ es)) := by
  obtain ⟨b, hb, hcases⟩ := request_cases hrequest
  obtain ⟨b', hb', hanswer⟩ := Option.bind_eq_some_iff.1 hfinish
  obtain rfl := Option.some.inj (hb.symm.trans hb')
  obtain ⟨obj, hobj, hrest⟩ := Option.bind_eq_some_iff.1 hanswer
  cases hact : activate t (⟨fun _ => ⟨obj, (m.heap t.block).nextNodes⟩, (), []⟩ :
      Machine ι β Unit ε) with
  | error e m' => simp [hact] at hrest
  | ok ts' m' =>
    simp only [hact, Option.some.injEq, Prod.mk.injEq] at hrest
    obtain ⟨rfl, rfl⟩ := hrest
    rcases hcases with ⟨hkind, -, rfl⟩ | ⟨value, hkind, hinput, -, rfl⟩
    · cases hdoes with
      | pop =>
        rw [hkind] at hobj
        obtain rfl := Option.some.inj hobj
        exact activate_of_popped hb hkind queues log hact
    · cases hdoes with
      | push =>
        rw [hkind] at hobj
        obtain rfl := Option.some.inj hobj
        exact activate_of_pushed hb hkind hinput queues log hact
      | throws =>
        rw [hkind] at hobj
        cases hobj

omit [DecidableEq ι] in
/-- A source whose process returns hands the value on if it has a consumer. -/
theorem after_source {b : AutoBlock κ} {nextNodes : List (ι × Nat)} (hnext : nextNodes ≠ [])
    (item : Option (b.elem.Val β)) :
    ∃ ts, Flow.after (⟨.source b.elem .Fanout fun u => (.ok item, u), nextNodes⟩ : Flow ι β Unit ε)
      t ((Obj.source b.elem .Fanout fun u => (.ok item, u) : Obj β Unit ε).processAny t.input
        t.producerId ()).1 = .ok ts := by
  have hhand : ∀ output : Any β, ∃ ds, Flow.hand (⟨.source b.elem .Fanout fun u => (.ok item, u),
      nextNodes⟩ : Flow ι β Unit ε) output = .ok ds := by
    intro output
    cases nextNodes with
    | nil => exact absurd rfl hnext
    | cons c cs => exact ⟨_, rfl⟩
  have hresult : ∃ output, ((Obj.source b.elem .Fanout fun u => (.ok item, u) :
      Obj β Unit ε).processAny t.input t.producerId ()).1.result = .ok output := by
    cases item with
    | none => exact ⟨_, rfl⟩
    | some v => exact ⟨_, rfl⟩
  obtain ⟨output, hresult⟩ := hresult
  obtain ⟨ds, hds⟩ := hhand output
  simp only [Flow.after, hresult, hds, Obj.isSink, Bool.false_eq_true, if_false]
  by_cases hgo : (output.hasValue && decide (t.input.type ≠ .nullopt)) = true
  · exact ⟨_, if_pos hgo⟩
  · exact ⟨_, if_neg hgo⟩

/-- The turn does come to its end, unless `push` threw; a source needs a consumer. -/
theorem finish_of_answer (hrequest : request ends t = some (side, call))
    (hdoes : QueueDoes call.2 (queues call.1.1 call.1.2) result queue)
    (nextNodes : ι → List (ι × Nat))
    (hnext : ∀ b, ends t.block = some b → b.kind = .source → nextNodes t.block ≠ []) :
    (finish (ε := ε) ends nextNodes t ⟨call.1, result⟩ = none ∧
        queue = queues call.1.1 call.1.2) ∨
      ∃ r : List (Task ι β) × List (Event ι β ε),
        finish ends nextNodes t ⟨call.1, result⟩ = some r := by
  obtain ⟨b, hb, hcases⟩ := request_cases hrequest
  rcases hcases with ⟨hkind, -, rfl⟩ | ⟨value, hkind, hinput, -, rfl⟩
  · cases hdoes with
    | pop =>
      refine .inr ?_
      -- the source returns what was popped, and it has a consumer to hand it to
      have hturn : ∃ ts m', activate t (⟨fun _ => ⟨.source b.elem .Fanout fun u =>
          (.ok (queues b.elem b.queue).pop.1, u), nextNodes t.block⟩, (), []⟩ :
          Machine ι β Unit ε) = .ok ts m' := by
        obtain ⟨ts, hafter⟩ := after_source (t := t) (ε := ε) (hnext b hb hkind)
          (queues b.elem b.queue).pop.1
        rw [activate_of_called (by rintro ⟨⟩)]
        simp only [hafter]
        exact ⟨ts, _, rfl⟩
      obtain ⟨ts, m', hact⟩ := hturn
      refine ⟨(ts, m'.log), ?_⟩
      simp only [finish, hb, Option.bind_some, hkind, answered, hact]
  · cases hdoes with
    | push =>
      refine .inr ?_
      have hskips : t.skips = false := by
        rw [Task.skips, hinput]
        rfl
      have hturn : ∃ m', activate t (⟨fun _ => ⟨.sink b.elem fun _ u => (.ok (), u),
          nextNodes t.block⟩, (), []⟩ : Machine ι β Unit ε) = .ok [] m' := by
        rw [activate_of_called fun _ => hskips]
        simp only [Flow.after, Obj.processAny, Sink.processAny, hinput, anyCastWithInfo_val_self,
          Obj.isSink, if_true]
        exact ⟨_, rfl⟩
      obtain ⟨m', hact⟩ := hturn
      refine ⟨([], m'.log), ?_⟩
      simp only [finish, hb, Option.bind_some, hkind, answered, hact]
    | throws =>
      -- `push` throws, and the sink has no answer
      refine .inl ⟨?_, rfl⟩
      simp only [finish, hb, Option.bind_some, hkind, answered, Option.bind_none]

end Calls

end

end PipelineTools.FlowEngine
