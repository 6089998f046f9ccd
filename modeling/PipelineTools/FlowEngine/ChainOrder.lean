import PipelineTools.FlowEngine.QueueChain

/-!
# What the last sinks of a chain receive

The invariant of a run over a `QueueChain`: every pipeline accounts for the values that have left
its source, and what has left a queue, followed by what is in it, was pushed in this order. A turn
touches the histories of its own pipeline and at most one queue, so the invariant is kept by one
case per kind of block; `chain_received` follows the values from one pipeline to the next.
-/

set_option autoImplicit false

namespace PipelineTools.FlowEngine

open PipelineTools.Library PipelineTools.Queues

variable {ι κ : Type} {β : κ → Type} {σ ε : Type} [DecidableEq ι] [DecidableEq κ]

/-! ## Queues in the shared state -/

/-- The state with another queue `q` of the type `t`. -/
def Shared.setQueue (u : Shared β σ) (t : Ty κ) (q : Nat) (queue : IQueue (t.Val β)) : Shared β σ :=
  { u with queues := Function.update u.queues t (Function.update (u.queues t) q queue) }

theorem Shared.queues_setQueue (u : Shared β σ) (t : Ty κ) (q : Nat) (queue : IQueue (t.Val β)) :
    (u.setQueue t q queue).queues t q = queue := by
  simp [setQueue]

theorem Shared.queues_setQueue_of_ne (u : Shared β σ) {t t' : Ty κ} {q q' : Nat}
    (queue : IQueue (t.Val β)) (h : (t, q) ≠ (t', q')) :
    (u.setQueue t q queue).queues t' q' = u.queues t' q' := by
  by_cases ht : t' = t
  · subst ht
    have hq : q' ≠ q := by
      rintro rfl
      exact h rfl
    simp [setQueue, hq]
  · simp [setQueue, ht]

omit [DecidableEq ι] in
/-- A call of a `QueueSource` pops. -/
theorem queueSource_eq {h : Heap ι β (Shared β σ) ε} {x : ι} {t out : Ty κ} {q : Nat}
    {process : Process (Shared β σ) ε (out.Val β)} {o : Option (out.Val β)} {u u' : Shared β σ}
    (hobj : (h x).obj = .source out .Fanout process)
    (hqueue : (h x).obj = queueBlock t q .source) (hprocess : process u = (.ok o, u')) :
    u' = u.setQueue t q (u.queues t q).pop.2 ∧
      returned ε out o = returned ε t (u.queues t q).pop.1 := by
  have heq := hobj.symm.trans hqueue
  simp only [queueBlock] at heq
  cases heq
  simp only [QueueSource.process, Prod.mk.injEq, Except.ok.injEq] at hprocess
  obtain ⟨rfl, rfl⟩ := hprocess
  exact ⟨rfl, rfl⟩

omit [DecidableEq ι] in
/-- A call of a `QueueSink` pushes. -/
theorem queueSink_eq {h : Heap ι β (Shared β σ) ε} {x : ι} {t inp : Ty κ} {q : Nat}
    {process : inp.Val β → Shared β σ → Except ε Unit × Shared β σ} {v : inp.Val β}
    {u u' : Shared β σ} (hobj : (h x).obj = .sink inp process)
    (hqueue : (h x).obj = queueBlock t q .sink) (hprocess : process v u = (.ok (), u')) :
    ∃ w : t.Val β, Any.val inp v = .val t w ∧ u' = u.setQueue t q ((u.queues t q).push w).2 := by
  have heq := hobj.symm.trans hqueue
  simp only [queueBlock] at heq
  cases heq
  simp only [QueueSink.process, Prod.mk.injEq, true_and] at hprocess
  exact ⟨v, rfl, hprocess.symm⟩

/-! ## The invariant -/

namespace QueueChain

variable {c : QueueChain ι β} {h : Heap ι β (Shared β σ) ε}

omit [DecidableEq ι] [DecidableEq κ] in
theorem segments_succ (k : Nat) : c.segments[k + 1]? = (c.rest[k]?).map Prod.snd := by
  rw [segments, List.getElem?_cons_succ, List.getElem?_map]

omit [DecidableEq ι] in
/-- The source of a pipeline is the first one, or reads the queue before it. -/
theorem InHeap.source_cases (hc : c.InHeap h) {k : Nat} {g : Segment ι β}
    (hk : c.segments[k]? = some g) :
    (k = 0 ∧ ∃ out process, (h g.source).obj = .source out .Fanout process ∧
        ∀ u, (process u).2.queues = u.queues) ∨
      ∃ j t q, k = j + 1 ∧ c.rest[j]? = some ((t, q), g) ∧
        (h g.source).obj = queueBlock t q .source := by
  cases k with
  | zero =>
    obtain rfl : c.first = g := Option.some.inj hk
    exact .inl ⟨rfl, hc.source⟩
  | succ j =>
    rw [segments_succ] at hk
    obtain ⟨⟨⟨t, q⟩, g'⟩, hrest, rfl⟩ := Option.map_eq_some_iff.1 hk
    have hj : j < c.segments.length := by
      have hlt := (List.getElem?_eq_some_iff.1 hrest).1
      simp only [segments, List.length_cons, List.length_map]
      omega
    obtain ⟨x, -, -, hobj⟩ := hc.link j _ g' t q (List.getElem?_eq_getElem hj) hrest
    exact .inr ⟨j, t, q, rfl, hrest, hobj⟩

omit [DecidableEq ι] in
/-- The sinks of a pipeline are the last ones, or the one that writes the queue behind it. -/
theorem InHeap.sink_cases (hc : c.InHeap h) {k : Nat} {g : Segment ι β}
    (hk : c.segments[k]? = some g) :
    (k = c.rest.length ∧ ∀ x ∈ g.sinks, ∃ inp process, (h x).obj = .sink inp process ∧
        ∀ v u, (process v u).2.queues = u.queues) ∨
      ∃ t q g' x, c.rest[k]? = some ((t, q), g') ∧ g.sinks = [x] ∧
        (h x).obj = queueBlock t q .sink := by
  have hlt := (List.getElem?_eq_some_iff.1 hk).1
  simp only [segments, List.length_cons, List.length_map] at hlt
  rcases Nat.lt_or_ge k c.rest.length with hlast | hlast
  · rcases hrest : c.rest[k] with ⟨⟨t, q⟩, g'⟩
    have hget : c.rest[k]? = some ((t, q), g') := by rw [List.getElem?_eq_getElem hlast, hrest]
    obtain ⟨x, hx, hobj, -⟩ := hc.link k g g' t q hk hget
    exact .inr ⟨t, q, g', x, hget, hx, hobj⟩
  · obtain rfl : k = c.rest.length := by omega
    exact .inl ⟨rfl, hc.sinks g hk⟩

omit [DecidableEq ι] in
theorem InHeap.placed (hc : c.InHeap h) {k : Nat} {g : Segment ι β}
    (hk : c.segments[k]? = some g) : g.Placed h where
  row := hc.rows g (List.mem_of_getElem? hk)
  nodup := hc.nodup g (List.mem_of_getElem? hk)
  source := by
    rcases hc.source_cases hk with ⟨-, out, process, hobj, -⟩ | ⟨j, t, q, -, -, hobj⟩
    · exact ⟨out, process, hobj⟩
    · exact ⟨_, _, hobj⟩
  sinks := by
    intro x hx
    rcases hc.sink_cases hk with ⟨-, hlast⟩ | ⟨t, q, g', y, -, hsinks, hobj⟩
    · obtain ⟨inp, process, hobj, -⟩ := hlast x hx
      exact ⟨inp, process, hobj⟩
    · rw [hsinks, List.mem_singleton] at hx
      rw [hx]
      exact ⟨_, _, hobj⟩

omit [DecidableEq ι] in
/-- The same block in two pipelines: they are one. -/
theorem InHeap.eq_of_mem_blocks (hc : c.InHeap h) {i j : Nat} {g g' : Segment ι β}
    (hi : c.segments[i]? = some g) (hj : c.segments[j]? = some g') {b b' : ι} (hb : b ∈ g.blocks)
    (hb' : b' ∈ g'.blocks) (heq : b = b') : i = j := by
  subst heq
  exact hc.disjoint i j g g' hi hj b hb hb'

omit [DecidableEq ι] in
/-- Two queues of a chain have different names. -/
theorem InHeap.key_ne (hc : c.InHeap h) {i j : Nat} {key key' : Ty κ × Nat}
    {g g' : Segment ι β} (hi : c.rest[i]? = some (key, g)) (hj : c.rest[j]? = some (key', g'))
    (hij : i ≠ j) : key ≠ key' := by
  rintro rfl
  have hkey : ∀ {n : Nat} {g : Segment ι β}, c.rest[n]? = some (key, g) →
      (c.rest.map Prod.fst)[n]? = some key := by
    intro n g hn
    rw [List.getElem?_map, hn]
    rfl
  have hlt : i < (c.rest.map Prod.fst).length := (List.getElem?_eq_some_iff.1 (hkey hi)).1
  exact hij ((List.getElem?_inj hlt hc.keys).1 ((hkey hi).trans (hkey hj).symm))

end QueueChain

/-- What every state of a run over a chain satisfies. -/
structure ChainInv (c : QueueChain ι β) (h : Heap ι β (Shared β σ) ε)
    (s : Threads ι β (Shared β σ) ε) : Prop where
  heap : s.machine.heap = h
  threads : ∀ (k : Nat) (g : Segment ι β), c.segments[k]? = some g →
    Accounted h g (s.tasks k) s.machine.log
  queues : ∀ (k : Nat) (g g' : Segment ι β) (t : Ty κ) (q : Nat) (x : ι),
    c.segments[k]? = some g → c.rest[k]? = some ((t, q), g') → g.sinks = [x] →
      (outputsOf g'.source s.machine.log ++
        (s.machine.user.queues t q).items.map (Any.val t)).Sublist (inputsOf x s.machine.log)

section Histories

omit [DecidableEq κ]

theorem Effect.histories_of_notMem {g : Segment ι β} {s m : Machine ι β σ ε} (he : Effect g s m)
    {b : ι} (hb : b ∉ g.blocks) :
    outputsOf b m.log = outputsOf b s.log ∧ inputsOf b m.log = inputsOf b s.log := by
  have hother : ∀ e : Event ι β ε, e.block ∈ g.blocks → m.log = s.log ++ [e] →
      outputsOf b m.log = outputsOf b s.log ∧ inputsOf b m.log = inputsOf b s.log := by
    intro e hmem hlog
    have hne : e.block ≠ b := by
      rintro rfl
      exact hb hmem
    rw [hlog]
    exact ⟨outputsOf_concat_of_ne hne, inputsOf_concat_of_ne hne⟩
  cases he with
  | source hobj hprocess hlog => exact hother _ List.mem_cons_self hlog
  | «module» hmem huser hlog =>
    exact hother _ (List.mem_cons_of_mem _ (List.mem_append_left _ hmem)) hlog
  | sink hx hobj hprocess hlog =>
    exact hother _ (List.mem_cons_of_mem _ (List.mem_append_right _ hx)) hlog
  | skipped hm =>
    rw [hm]
    exact ⟨rfl, rfl⟩

theorem Accounted.of_histories [DecidableEq κ] {h : Heap ι β σ ε} {g : Segment ι β}
    {tasks : List (Task ι β)} {log log' : List (Event ι β ε)} (ha : Accounted h g tasks log)
    (hsame : ∀ b ∈ g.blocks, outputsOf b log' = outputsOf b log ∧
      inputsOf b log' = inputsOf b log) :
    Accounted h g tasks log' := by
  obtain ⟨flight, hflight, hvalues⟩ := ha
  refine ⟨flight, hflight, ?_⟩
  intro x hx
  have hsink : x ∈ g.blocks := List.mem_cons_of_mem _ (List.mem_append_right _ hx)
  rw [(hsame x hsink).2, (hsame g.source List.mem_cons_self).1]
  exact hvalues x hx

/-- A pop moves the oldest value of the queue to what has left it. -/
theorem outputs_append_items_pop {src : ι} {t : Ty κ} {queue : IQueue (t.Val β)} {d : Nat}
    {log : List (Event ι β ε)} :
    outputsOf src (log ++ [⟨d, src, ⟨[], returned ε t queue.pop.1⟩⟩]) ++
        queue.pop.2.items.map (Any.val t) =
      outputsOf src log ++ queue.items.map (Any.val t) := by
  cases hitems : queue.items with
  | nil =>
    have hkept := outputsOf_concat_absent log
      (e := ⟨d, src, ⟨[], returned ε t none⟩⟩) rfl
    rw [IQueue.pop_nil hitems, hkept, hitems]
  | cons v rest =>
    obtain ⟨hpop, hrest, -⟩ := IQueue.pop_cons hitems
    have hgrown := outputsOf_concat_value log (a := .val t v)
      (e := ⟨d, src, ⟨[], returned ε t (some v)⟩⟩) rfl
    rw [hpop, hrest, hgrown, List.append_assoc]
    rfl

omit [DecidableEq ι] in
/-- A push adds its value at the end of the queue, or nothing. -/
theorem items_push_sublist {t : Ty κ} (queue : IQueue (t.Val β)) (v : t.Val β) :
    ((queue.push v).2.items.map (Any.val t)).Sublist
      (queue.items.map (Any.val t) ++ [Any.val t v]) := by
  -- a push into a full queue loses its value
  by_cases hroom : queue.HasRoom
  · rw [(IQueue.push_of_hasRoom hroom v).2.1, List.map_append]
    exact List.Sublist.refl _
  · rw [IQueue.push_of_full hroom v]
    exact List.sublist_append_left _ _

end Histories

/-! ## Steps -/

section Steps

variable {c : QueueChain ι β} {h : Heap ι β (Shared β σ) ε}
  {s m : Machine ι β (Shared β σ) ε}

/-- A turn of a source keeps the order of every queue: it pops from the queue it reads. -/
theorem queue_source (hc : c.InHeap h) {w k : Nat} {gw g g' : Segment ι β}
    {t : Ty κ} {q : Nat} {x : ι} (hw : c.segments[w]? = some gw) (hk : c.segments[k]? = some g)
    (hrest : c.rest[k]? = some ((t, q), g')) (hx : g.sinks = [x]) {out : Ty κ}
    {process : Process (Shared β σ) ε (out.Val β)} {o : Option (out.Val β)} {d : Nat}
    (hobj : (h gw.source).obj = .source out .Fanout process)
    (hprocess : process s.user = (.ok o, m.user))
    (hlog : m.log = s.log ++ [⟨d, gw.source, ⟨[], returned ε out o⟩⟩])
    (hqueue : (outputsOf g'.source s.log ++
      (s.user.queues t q).items.map (Any.val t)).Sublist (inputsOf x s.log)) :
    (outputsOf g'.source m.log ++ (m.user.queues t q).items.map (Any.val t)).Sublist
      (inputsOf x m.log) := by
  have hk' : c.segments[k + 1]? = some g' := by
    rw [QueueChain.segments_succ, hrest]
    rfl
  have hxmem : x ∈ g.sinks := by
    rw [hx]
    exact List.mem_singleton_self x
  have hinputs : inputsOf x m.log = inputsOf x s.log := by
    rw [hlog]
    apply inputsOf_concat_of_ne
    intro heq
    -- a source that is also the sink of its own pipeline would be used twice
    have hwk := hc.eq_of_mem_blocks hw hk List.mem_cons_self
      (List.mem_cons_of_mem _ (List.mem_append_right _ hxmem)) heq
    subst hwk
    obtain rfl := Option.some.inj (hw.symm.trans hk)
    have hsource : gw.source = x := heq
    rw [← hsource] at hxmem
    exact Segment.source_notMem_sinks (hc.placed hw).nodup hxmem
  rw [hinputs]
  have hother : w ≠ k + 1 → outputsOf g'.source m.log = outputsOf g'.source s.log := by
    intro hne
    rw [hlog]
    apply outputsOf_concat_of_ne
    intro heq
    exact hne (hc.eq_of_mem_blocks hw hk' List.mem_cons_self List.mem_cons_self heq)
  -- the first source reads no queue, every other one reads its own
  rcases hc.source_cases hw with ⟨rfl, out', process', hobj', hkeeps⟩ | ⟨j, t', q', rfl, hj, hobj'⟩
  · have heq := hobj.symm.trans hobj'
    cases heq
    have huser : m.user.queues = s.user.queues := by
      rw [← hkeeps s.user, hprocess]
    rw [hother (by omega), huser]
    exact hqueue
  · obtain ⟨huser, hreturned⟩ := queueSource_eq hobj hobj' hprocess
    -- only the queue that is read changes
    by_cases hjk : j = k
    · subst hjk
      obtain ⟨hkey, rfl⟩ := Prod.mk.inj (Option.some.inj (hj.symm.trans hrest))
      obtain ⟨rfl, rfl⟩ := Prod.mk.inj hkey
      rw [hlog, hreturned, huser, Shared.queues_setQueue, outputs_append_items_pop]
      exact hqueue
    · rw [hother (by omega), huser,
        Shared.queues_setQueue_of_ne s.user _ (hc.key_ne hj hrest hjk)]
      exact hqueue

/-- A turn of a sink keeps the order of every queue: it pushes to the queue it writes. -/
theorem queue_sink (hc : c.InHeap h) {w k : Nat} {gw g g' : Segment ι β}
    {t : Ty κ} {q : Nat} {x : ι} (hw : c.segments[w]? = some gw) (hk : c.segments[k]? = some g)
    (hrest : c.rest[k]? = some ((t, q), g')) (hx : g.sinks = [x]) {y : ι} {inp : Ty κ}
    {process : inp.Val β → Shared β σ → Except ε Unit × Shared β σ} {v : inp.Val β} {d : Nat}
    (hy : y ∈ gw.sinks) (hobj : (h y).obj = .sink inp process)
    (hprocess : process v s.user = (.ok (), m.user))
    (hlog : m.log = s.log ++ [⟨d, y, ⟨[.val inp v], .void⟩⟩])
    (hqueue : (outputsOf g'.source s.log ++
      (s.user.queues t q).items.map (Any.val t)).Sublist (inputsOf x s.log)) :
    (outputsOf g'.source m.log ++ (m.user.queues t q).items.map (Any.val t)).Sublist
      (inputsOf x m.log) := by
  have hk' : c.segments[k + 1]? = some g' := by
    rw [QueueChain.segments_succ, hrest]
    rfl
  have hymem : y ∈ gw.blocks := List.mem_cons_of_mem _ (List.mem_append_right _ hy)
  have houtputs : outputsOf g'.source m.log = outputsOf g'.source s.log := by
    rw [hlog]
    apply outputsOf_concat_of_ne
    intro heq
    have hwk := hc.eq_of_mem_blocks hw hk' hymem List.mem_cons_self heq
    subst hwk
    obtain rfl := Option.some.inj (hw.symm.trans hk')
    have hsource : y = gw.source := heq
    rw [hsource] at hy
    exact Segment.source_notMem_sinks (hc.placed hw).nodup hy
  rw [houtputs]
  have hxmem : x ∈ g.sinks := by
    rw [hx]
    exact List.mem_singleton_self x
  have hother : w ≠ k → inputsOf x m.log = inputsOf x s.log := by
    intro hne
    rw [hlog]
    apply inputsOf_concat_of_ne
    intro heq
    exact hne (hc.eq_of_mem_blocks hw hk hymem
      (List.mem_cons_of_mem _ (List.mem_append_right _ hxmem)) heq)
  -- the sinks of the last pipeline write no queue, every other one writes its own
  rcases hc.sink_cases hw with ⟨hlast, hsinks⟩ | ⟨t', q', g'', z, hw', hz, hobj'⟩
  · obtain ⟨inp', process', hobj', hkeeps⟩ := hsinks y hy
    have heq := hobj.symm.trans hobj'
    cases heq
    have huser : m.user.queues = s.user.queues := by
      rw [← hkeeps v s.user, hprocess]
    have hlt := (List.getElem?_eq_some_iff.1 hrest).1
    rw [hother (by omega), huser]
    exact hqueue
  · rw [hz, List.mem_singleton] at hy
    subst hy
    obtain ⟨value, hvalue, huser⟩ := queueSink_eq hobj hobj' hprocess
    by_cases hwk : w = k
    · subst hwk
      obtain rfl := Option.some.inj (hw.symm.trans hk)
      obtain ⟨hkey, rfl⟩ := Prod.mk.inj (Option.some.inj (hw'.symm.trans hrest))
      obtain ⟨rfl, rfl⟩ := Prod.mk.inj hkey
      obtain rfl : y = x := List.singleton_inj.1 (hz.symm.trans hx)
      have hgrown := inputsOf_concat s.log (a := .val inp v)
        (e := ⟨d, y, ⟨[.val inp v], .void⟩⟩) rfl
      rw [huser, Shared.queues_setQueue, hlog, hgrown, hvalue]
      calc (outputsOf g''.source s.log ++
            ((s.user.queues t' q').push value).2.items.map (Any.val t')).Sublist
            (outputsOf g''.source s.log ++
              ((s.user.queues t' q').items.map (Any.val t') ++ [.val t' value])) :=
            (items_push_sublist _ value).append_left _
        _ = (outputsOf g''.source s.log ++ (s.user.queues t' q').items.map (Any.val t')) ++
              [.val t' value] := (List.append_assoc _ _ _).symm
        List.Sublist _ (inputsOf y s.log ++ [.val t' value]) := hqueue.append_right _
    · rw [hother hwk, huser, Shared.queues_setQueue_of_ne s.user _ (hc.key_ne hw' hrest hwk)]
      exact hqueue

/-- A turn of a module is not seen at the ends of any pipeline. -/
theorem queue_module (hc : c.InHeap h) {w k : Nat} {gw g g' : Segment ι β}
    {t : Ty κ} {q : Nat} {x : ι} (hw : c.segments[w]? = some gw) (hk : c.segments[k]? = some g)
    (hrest : c.rest[k]? = some ((t, q), g')) (hx : g.sinks = [x]) {e : Event ι β ε}
    (he : e.block ∈ gw.modules.map Prod.fst) (hlog : m.log = s.log ++ [e]) :
    outputsOf g'.source m.log = outputsOf g'.source s.log ∧
      inputsOf x m.log = inputsOf x s.log := by
  have hk' : c.segments[k + 1]? = some g' := by
    rw [QueueChain.segments_succ, hrest]
    rfl
  have hemem : e.block ∈ gw.blocks := List.mem_cons_of_mem _ (List.mem_append_left _ he)
  obtain ⟨hsource, hsinks⟩ := Segment.ne_of_mem_modules (hc.placed hw).nodup he
  rw [hlog]
  constructor
  · apply outputsOf_concat_of_ne
    intro heq
    have hwk := hc.eq_of_mem_blocks hw hk' hemem List.mem_cons_self heq
    subst hwk
    obtain rfl := Option.some.inj (hw.symm.trans hk')
    exact hsource heq
  · apply inputsOf_concat_of_ne
    intro heq
    have hxmem : x ∈ g.sinks := by
      rw [hx]
      exact List.mem_singleton_self x
    have hwk := hc.eq_of_mem_blocks hw hk hemem
      (List.mem_cons_of_mem _ (List.mem_append_right _ hxmem)) heq
    subst hwk
    obtain rfl := Option.some.inj (hw.symm.trans hk)
    rw [← heq] at hxmem
    exact hsinks hxmem

/-- Every step of every worker keeps the invariant. -/
theorem chainInv_step (hc : c.InHeap h) {s s' : Threads ι β (Shared β σ) ε} (hs : ChainInv c h s)
    {w : Nat} (hstep : s.step c.pipelines w = some s') : ChainInv c h s' := by
  obtain ⟨p, hp, hcases⟩ := Threads.step_cases hstep
  rw [QueueChain.pipelines, List.getElem?_map] at hp
  obtain ⟨gw, hgw, rfl⟩ := Option.map_eq_some_iff.1 hp
  rcases hcases with ⟨htasks, rfl⟩ | ⟨t, rest, ts, m, htasks, hact, rfl⟩
  · -- The next execution begins with a call of the source.
    refine ⟨hs.heap, ?_, hs.queues⟩
    intro k g hk
    by_cases hkw : k = w
    · subst hkw
      obtain rfl := Option.some.inj (hgw.symm.trans hk)
      obtain ⟨flight, hflight, hvalues⟩ := hs.threads k gw hk
      rw [htasks] at hflight
      simp only [Function.update_self]
      refine ⟨_, .starting (t := ⟨0, gw.source, .empty, 0⟩) rfl rfl, ?_⟩
      intro x hx
      rw [← hvalues x hx]
      cases hflight <;> rfl
    · simp only [Function.update_of_ne hkw]
      exact hs.threads k g hk
  · have hacc := hs.threads w gw hgw
    have hheap := hs.heap
    subst hheap
    rw [htasks] at hacc
    obtain ⟨hheap, heffect, hacc'⟩ := accounted_turn (hc.placed hgw) hacc hact
    refine ⟨hheap, ?_, ?_⟩
    · intro k g hk
      by_cases hkw : k = w
      · subst hkw
        obtain rfl := Option.some.inj (hgw.symm.trans hk)
        simp only [Function.update_self]
        exact hacc'
      · simp only [Function.update_of_ne hkw]
        refine (hs.threads k g hk).of_histories ?_
        intro b hb
        apply heffect.histories_of_notMem
        intro hb'
        exact hkw (hc.eq_of_mem_blocks hk hgw hb hb' rfl)
    -- the queues, by what the turn was
    · intro k g g' u q x hk hrest hx
      have hqueue := hs.queues k g g' u q x hk hrest hx
      cases heffect with
      | source hobj hprocess hlog =>
        exact queue_source hc hgw hk hrest hx hobj hprocess hlog hqueue
      | «module» hmem huser hlog =>
        obtain ⟨houtputs, hinputs⟩ := queue_module hc hgw hk hrest hx hmem hlog
        simp only [houtputs, hinputs, huser]
        exact hqueue
      | sink hy hobj hprocess hlog =>
        exact queue_sink hc hgw hk hrest hx hy hobj hprocess hlog hqueue
      | skipped hm =>
        rw [hm]
        exact hqueue

end Steps

/-! ## From one end of the chain to the other -/

section Chain

variable {c : QueueChain ι β} {h : Heap ι β (Shared β σ) ε}

theorem chainInv_init {u : Shared β σ}
    (hu : ∀ (k : Nat) (t : Ty κ) (q : Nat) (g : Segment ι β), c.rest[k]? = some ((t, q), g) →
      ∃ capacity type, u.queues t q = makeQueue capacity type) :
    ChainInv c h (Threads.init ⟨h, u, []⟩) where
  heap := rfl
  threads k g _ := ⟨_, .idle, fun x _ => rfl⟩
  queues k g g' t q x _ hrest _ := by
    obtain ⟨capacity, type, hqueue⟩ := hu k t q g' hrest
    simp [Threads.init, outputsOf, inputsOf, hqueue]

/-- A sink has received a part of what has left the source of its pipeline. -/
theorem ChainInv.inputs_sublist {s : Threads ι β (Shared β σ) ε} (hs : ChainInv c h s) {k : Nat}
    {g : Segment ι β} (hk : c.segments[k]? = some g) {x : ι} (hx : x ∈ g.sinks) :
    (inputsOf x s.machine.log).Sublist
      ((outputsOf g.source s.machine.log).filterMap (compose (g.modules.map Prod.snd))) := by
  obtain ⟨flight, -, hvalues⟩ := hs.threads k g hk
  rw [← hvalues x hx]
  exact List.sublist_append_left _ _

/-- The modules of the first pipelines of the chain. -/
def QueueChain.modulesTo (c : QueueChain ι β) (k : Nat) : List (PureModule β) :=
  (c.segments.take k).flatMap fun g => g.modules.map Prod.snd

omit [DecidableEq ι] [DecidableEq κ] in
theorem QueueChain.modulesTo_succ {k : Nat} {g : Segment ι β} (hk : c.segments[k]? = some g) :
    c.modulesTo (k + 1) = c.modulesTo k ++ g.modules.map Prod.snd := by
  rw [modulesTo, List.take_add_one, hk, List.flatMap_append, modulesTo]
  simp

/-- What reaches the end of a pipeline is a part of what left the first source. By induction along
the chain, from each pipeline to the next one. -/
theorem ChainInv.outputs_sublist {s : Threads ι β (Shared β σ) ε} (hc : c.InHeap h)
    (hs : ChainInv c h s) {k : Nat} {g : Segment ι β} (hk : c.segments[k]? = some g) :
    ((outputsOf g.source s.machine.log).filterMap (compose (g.modules.map Prod.snd))).Sublist
      ((outputsOf c.first.source s.machine.log).filterMap (compose (c.modulesTo (k + 1)))) := by
  induction k generalizing g with
  | zero =>
    obtain rfl : c.first = g := Option.some.inj hk
    rw [QueueChain.modulesTo_succ hk]
    exact List.Sublist.refl _
  | succ k ih =>
    have hk' := hk
    rw [QueueChain.segments_succ] at hk'
    obtain ⟨⟨⟨t, q⟩, g'⟩, hrest, rfl⟩ := Option.map_eq_some_iff.1 hk'
    have hlt : k < c.segments.length := by
      have hlt := (List.getElem?_eq_some_iff.1 hk).1
      omega
    have hprev := List.getElem?_eq_getElem hlt
    obtain ⟨x, hx, -, -⟩ := hc.link k _ g' t q hprev hrest
    -- what was popped had been pushed, and what was pushed had passed the modules
    have hpopped : (outputsOf g'.source s.machine.log).Sublist (inputsOf x s.machine.log) :=
      (List.sublist_append_left _ _).trans (hs.queues k _ g' t q x hprev hrest hx)
    have hpushed := hs.inputs_sublist hprev (x := x) (by rw [hx]; exact List.mem_singleton_self x)
    have hpassed := (hpopped.trans (hpushed.trans (ih hprev))).filterMap
      (compose (g'.modules.map Prod.snd))
    rw [List.filterMap_filterMap] at hpassed
    rw [QueueChain.modulesTo_succ hk]
    have hcompose : (compose (c.modulesTo (k + 1) ++ g'.modules.map Prod.snd)) =
        fun a => (compose (c.modulesTo (k + 1)) a).bind (compose (g'.modules.map Prod.snd)) := by
      funext a
      exact compose_append _ _ a
    rw [hcompose]
    exact hpassed

/-- What a sink of the last pipeline has received is a part of what left the first source. -/
theorem ChainInv.received {s : Threads ι β (Shared β σ) ε} (hs : ChainInv c h s) (hc : c.InHeap h)
    {g : Segment ι β} (hg : c.segments[c.rest.length]? = some g) {x : ι} (hx : x ∈ g.sinks) :
    (inputsOf x s.machine.log).Sublist
      ((outputsOf c.first.source s.machine.log).filterMap (compose c.modules)) := by
  have hall : c.modulesTo (c.rest.length + 1) = c.modules := by
    have hlength : c.rest.length + 1 = c.segments.length := by
      rw [QueueChain.segments, List.length_cons, List.length_map]
    rw [QueueChain.modulesTo, hlength, List.take_length, QueueChain.modules]
  rw [← hall]
  exact (hs.inputs_sublist hg hx).trans (hs.outputs_sublist hc hg)

theorem chainInv_run (hc : c.InHeap h) {u : Shared β σ}
    (hu : ∀ (k : Nat) (t : Ty κ) (q : Nat) (g : Segment ι β), c.rest[k]? = some ((t, q), g) →
      ∃ capacity type, u.queues t q = makeQueue capacity type)
    {ws : List Nat} {s : Threads ι β (Shared β σ) ε}
    (hrun : runFrom (Threads.step c.pipelines) (Threads.init ⟨h, u, []⟩) ws = some s) :
    ChainInv c h s :=
  runFrom_invariant (fun _ _ _ hs hstep => chainInv_step hc hs hstep) (chainInv_init hu) hrun

/-- In every state of every run of the workers, what a sink of the last pipeline has received is a
subsequence of the composed functions of the modules applied to what the first source has
produced. -/
theorem chain_received (c : QueueChain ι β) (h : Heap ι β (Shared β σ) ε) (hc : c.InHeap h)
    (u : Shared β σ)
    (hu : ∀ (k : Nat) (t : Ty κ) (q : Nat) (g : Segment ι β), c.rest[k]? = some ((t, q), g) →
      ∃ capacity type, u.queues t q = makeQueue capacity type)
    (ws : List Nat) (s : Threads ι β (Shared β σ) ε)
    (hrun : runFrom (Threads.step c.pipelines) (Threads.init ⟨h, u, []⟩) ws = some s)
    (g : Segment ι β) (hg : c.segments[c.rest.length]? = some g) (x : ι) (hx : x ∈ g.sinks) :
    (inputsOf x s.machine.log).Sublist
      ((outputsOf c.first.source s.machine.log).filterMap (compose c.modules)) :=
  (chainInv_run hc hu hrun).received hc hg hx

end Chain

/-! ## Two pipelines -/

/-- Emits the numbers in turn. -/
def countingSource : Obj (fun _ : Unit => Nat) (Shared (fun _ : Unit => Nat) Nat) Unit :=
  .source (.base ()) .Fanout fun u => (.ok (some u.user), { u with user := u.user + 1 })

/-- Passes ten times each number but `1`. -/
def tenfold : PureModule (fun _ : Unit => Nat) where
  inp := .base ()
  out := .base ()
  f n := if n = 1 then none else some (10 * n)

/-- Swallows its input. -/
def swallowingSink : Obj (fun _ : Unit => Nat) (Shared (fun _ : Unit => Nat) Nat) Unit :=
  .sink (.base ()) fun _ u => (.ok (), u)

/-- A pipeline that feeds a queue, and one that reads it. -/
def twoPipelines : QueueChain Nat (fun _ : Unit => Nat) where
  first := ⟨0, [], [1]⟩
  rest := [((.base (), 0), ⟨2, [(3, tenfold)], [4]⟩)]

def twoPipelinesHeap : Heap Nat (fun _ : Unit => Nat) (Shared (fun _ : Unit => Nat) Nat) Unit
  | 0 => ⟨countingSource, [(1, 0)]⟩
  | 1 => ⟨queueBlock (.base ()) 0 .sink, []⟩
  | 2 => ⟨queueBlock (.base ()) 0 .source, [(3, 0)]⟩
  | 3 => ⟨tenfold.obj, [(4, 0)]⟩
  | _ => ⟨swallowingSink, []⟩

theorem twoPipelines_inHeap : twoPipelines.InHeap twoPipelinesHeap where
  rows g hg := by
    rcases List.mem_cons.1 hg with rfl | hg
    · rfl
    · obtain rfl := List.mem_singleton.1 hg
      exact ⟨rfl, rfl, rfl⟩
  nodup g hg := by
    rcases List.mem_cons.1 hg with rfl | hg
    · decide
    · obtain rfl := List.mem_singleton.1 hg
      decide
  disjoint i j g g' hi hj b hb hb' := by
    match i, j with
    | 0, 0 => rfl
    | 1, 1 => rfl
    | 0, 1 =>
      cases hi
      cases hj
      simp [Segment.blocks, twoPipelines] at hb hb'
      omega
    | 1, 0 =>
      cases hi
      cases hj
      simp [Segment.blocks, twoPipelines] at hb hb'
      omega
    | i + 2, _ => cases hi
    | _, j + 2 => cases hj
  keys := List.nodup_singleton _
  source := ⟨_, _, rfl, fun _ => rfl⟩
  link i g g' t q hi hrest := by
    match i with
    | 0 =>
      cases hi
      cases hrest
      exact ⟨1, rfl, rfl, rfl⟩
    | i + 1 => cases hrest
  sinks g hg x hx := by
    cases hg
    obtain rfl := List.mem_singleton.1 hx
    exact ⟨_, _, rfl, fun _ _ => rfl⟩

/-- The queue holds one number: the second one that is pushed into it is lost. -/
def twoPipelinesStart : Shared (fun _ : Unit => Nat) Nat := ⟨0, fun _ _ => makeQueue 1 .LOCK_FREE⟩

/-- The first pipeline runs twice before the second one reads, then each runs once more. -/
def twoPipelinesTurns : List Nat :=
  List.replicate 6 0 ++ List.replicate 4 1 ++ List.replicate 3 0 ++ List.replicate 4 1

theorem twoPipelines_received :
    ∃ s, runFrom (Threads.step twoPipelines.pipelines)
        (Threads.init ⟨twoPipelinesHeap, twoPipelinesStart, []⟩) twoPipelinesTurns = some s ∧
      outputsOf 0 s.machine.log = [.val (.base ()) 0, .val (.base ()) 1, .val (.base ()) 2] ∧
      inputsOf 4 s.machine.log = [.val (.base ()) 0, .val (.base ()) 20] ∧
      (inputsOf 4 s.machine.log).Sublist
        ((outputsOf 0 s.machine.log).filterMap (compose twoPipelines.modules)) :=
  ⟨_, rfl, rfl, rfl, chain_received twoPipelines twoPipelinesHeap twoPipelines_inHeap
    twoPipelinesStart (fun _ _ _ _ _ => ⟨1, .LOCK_FREE, rfl⟩) twoPipelinesTurns _ rfl
    ⟨2, [(3, tenfold)], [4]⟩ rfl 4 (List.mem_singleton_self 4)⟩

end PipelineTools.FlowEngine
