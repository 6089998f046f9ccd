import PipelineTools.FlowEngine.Any
import PipelineTools.Library.UnorderedMap

/-!
# The processing functions of the four kinds of blocks

Each block unpacks the type-erased input it is given, calls the `process` function that the user
wrote, and packs the result again. User functions are arbitrary state transformers over a user
state `σ` that may return a value, return `std::nullopt`, or throw. `Outcome` records what one
call of `process_any` did: the call of the user's function, if it was reached, and what was
returned to the engine.

The aggregator keeps a bit mask of the producers heard from in the current round and the value
each of them delivered. Its mask arithmetic is done in the machine types of the source: `int` has
32 bits, `size_t` has 64.
-/

set_option autoImplicit false

namespace PipelineTools.FlowEngine

open PipelineTools.Library

variable {κ : Type} {β : κ → Type} {σ ε : Type}

/-- How a call of the user's `process` ended. A sink's `process` returns `void`. -/
inductive Ret (β : κ → Type) (ε : Type) where
  | value (a : Any β)
  | absent
  | void
  | threw (e : ε)

/-- One call of a user's `process`. -/
structure Call (β : κ → Type) (ε : Type) where
  args : List (Any β)
  ret : Ret β ε

/-- What one call of `process_any` did. -/
structure Outcome (β : κ → Type) (ε : Type) where
  /-- The call of the user's `process`, if it was reached. -/
  call : Option (Call β ε)
  result : Except (Stop κ ε) (Any β)

/-- A user function that produces an optional value. -/
abbrev Process (σ ε α : Type) := σ → Except ε (Option α) × σ

/-- Pack what the user's `process` returned; `absent` is returned for `std::nullopt`. -/
def pack (args : List (Any β)) (out : Ty κ) (absent : Any β)
    (r : Except ε (Option (out.Val β)) × σ) : Outcome β ε × σ :=
  match r with
  | (.ok (some v), u) => (⟨some ⟨args, .value (.val out v)⟩, .ok (.val out v)⟩, u)
  | (.ok none, u) => (⟨some ⟨args, .absent⟩, .ok absent⟩, u)
  | (.error e, u) => (⟨some ⟨args, .threw e⟩, .error (.threw (.user e))⟩, u)

/-- `Source::process_any`. -/
def Source.processAny (out : Ty κ) (process : Process σ ε (out.Val β)) (u : σ) :
    Outcome β ε × σ :=
  pack [] out .nullopt (process u)

/-! ## Mask arithmetic of the aggregator -/

/-- `a << s` in `int`; undefined when `s` reaches the width. -/
def intShl (a : BitVec 32) (s : Nat) : Option (BitVec 32) :=
  if s < 32 then some (a <<< s) else none

/-- `static_cast<int>` of a nonnegative integral floating-point value; undefined when the value
does not fit. -/
def floatToInt (x : Nat) : Option Int :=
  if x < 2 ^ 31 then some x else none

/-- `size_t idx = 1 << producer_id`. -/
def producerMask (producerId : Nat) : Option (BitVec 64) :=
  (intShl 1 producerId).map (BitVec.signExtend 64)

/-- `static_cast<int>(std::pow(2, producer_count)) - 1`, as compared with `state`. -/
def fullMask (producerCount : Nat) : Option (BitVec 64) :=
  (floatToInt (2 ^ producerCount)).map fun i => BitVec.ofInt 64 (i - 1)

/-- The members of an `Aggregator`; `V` is its output type. -/
structure Aggregator (V : Type) where
  state : BitVec 64 := 0
  producerCount : Nat := 0
  latest : UnorderedMap V := {}

/-- `Aggregator::register_producer`. -/
def Aggregator.registerProducer {V : Type} (agg : Aggregator V) : Nat × Aggregator V :=
  (agg.producerCount, { agg with producerCount := agg.producerCount + 1 })

/-- `latest[producer_id] = value; state |= idx;` -/
def Aggregator.store {V : Type} (agg : Aggregator V) (producerId : Nat) (idx : BitVec 64)
    (value : V) : Aggregator V :=
  { agg with latest := agg.latest.insertOrAssign producerId value, state := agg.state ||| idx }

/-- `state = 0; … latest.clear();` -/
def Aggregator.reset {V : Type} (agg : Aggregator V) : Aggregator V :=
  { agg with latest := agg.latest.clear, state := 0 }

/-- The end of a round: the collected values go to the user's `process`, after mask and map have
been reset. -/
def Aggregator.complete (inp out : Ty κ) (toIn : out.Val β → inp.Val β)
    (process : List (inp.Val β) → Process σ ε (out.Val β)) (agg : Aggregator (out.Val β)) (u : σ) :
    Outcome β ε × Aggregator (out.Val β) × σ :=
  let collected := agg.latest.values.map toIn
  let r := pack (collected.map (.val inp)) out .empty (process collected u)
  (r.1, agg.reset, r.2)

variable [DecidableEq κ]

/-- `Module::process_any`. -/
def Module.processAny (inp out : Ty κ) (process : inp.Val β → Process σ ε (out.Val β))
    (a : Any β) (u : σ) : Outcome β ε × σ :=
  match anyCastWithInfo ε inp a with
  | .error e => (⟨none, .error e⟩, u)
  | .ok v => pack [.val inp v] out .nullopt (process v u)

/-- `Sink::process_any`. -/
def Sink.processAny (inp : Ty κ) (process : inp.Val β → σ → Except ε Unit × σ)
    (a : Any β) (u : σ) : Outcome β ε × σ :=
  match anyCastWithInfo ε inp a with
  | .error e => (⟨none, .error e⟩, u)
  | .ok v =>
    match process v u with
    | (.ok (), u) => (⟨some ⟨[.val inp v], .void⟩, .ok .empty⟩, u)
    | (.error e, u) => (⟨some ⟨[.val inp v], .threw e⟩, .error (.threw (.user e))⟩, u)

/-- `Aggregator::process_any`. The functions `toOut` and `toIn` are the implicit conversions
between the two template parameters, made when a value is stored and when it is collected. -/
def Aggregator.processAny (inp out : Ty κ) (toOut : inp.Val β → out.Val β)
    (toIn : out.Val β → inp.Val β) (process : List (inp.Val β) → Process σ ε (out.Val β))
    (agg : Aggregator (out.Val β)) (a : Any β) (producerId : Nat) (u : σ) :
    Outcome β ε × Aggregator (out.Val β) × σ :=
  match producerMask producerId with
  | none => (⟨none, .error (.undefined .shift)⟩, agg, u)
  | some idx =>
    if agg.state &&& idx ≠ 0 then
      -- a second delivery of one producer within a round
      (⟨none, .ok .empty⟩, agg, u)
    else
      match anyCastWithInfo ε inp a with
      | .error e => (⟨none, .error e⟩, agg, u)
      | .ok v =>
        match fullMask agg.producerCount with
        | none => (⟨none, .error (.undefined .floatToInt)⟩, agg.store producerId idx (toOut v), u)
        | some full =>
          if (agg.store producerId idx (toOut v)).state = full then
            (agg.store producerId idx (toOut v)).complete inp out toIn process u
          else (⟨none, .ok .empty⟩, agg.store producerId idx (toOut v), u)

/-- The calls of `process_any` on an aggregator, by the branch they take. -/
inductive Aggregator.Step (inp out : Ty κ) (toOut : inp.Val β → out.Val β)
    (toIn : out.Val β → inp.Val β) (process : List (inp.Val β) → Process σ ε (out.Val β))
    (agg : Aggregator (out.Val β)) (a : Any β) (producerId : Nat) (u : σ) :
    Outcome β ε × Aggregator (out.Val β) × σ → Prop
  | shift : producerMask producerId = none →
      Step inp out toOut toIn process agg a producerId u
        (⟨none, .error (.undefined .shift)⟩, agg, u)
  | repeated {idx : BitVec 64} : producerMask producerId = some idx → agg.state &&& idx ≠ 0 →
      Step inp out toOut toIn process agg a producerId u (⟨none, .ok .empty⟩, agg, u)
  | badCast {idx : BitVec 64} {e : Stop κ ε} : producerMask producerId = some idx →
      agg.state &&& idx = 0 → anyCastWithInfo ε inp a = .error e →
      Step inp out toOut toIn process agg a producerId u (⟨none, .error e⟩, agg, u)
  | overflow {idx : BitVec 64} {v : inp.Val β} : producerMask producerId = some idx →
      agg.state &&& idx = 0 → a = .val inp v → fullMask agg.producerCount = none →
      Step inp out toOut toIn process agg a producerId u
        (⟨none, .error (.undefined .floatToInt)⟩, agg.store producerId idx (toOut v), u)
  | stored {idx full : BitVec 64} {v : inp.Val β} : producerMask producerId = some idx →
      agg.state &&& idx = 0 → a = .val inp v → fullMask agg.producerCount = some full →
      (agg.store producerId idx (toOut v)).state ≠ full →
      Step inp out toOut toIn process agg a producerId u
        (⟨none, .ok .empty⟩, agg.store producerId idx (toOut v), u)
  | completed {idx full : BitVec 64} {v : inp.Val β} : producerMask producerId = some idx →
      agg.state &&& idx = 0 → a = .val inp v → fullMask agg.producerCount = some full →
      (agg.store producerId idx (toOut v)).state = full →
      Step inp out toOut toIn process agg a producerId u
        ((agg.store producerId idx (toOut v)).complete inp out toIn process u)

/-- Every call of `process_any` takes one of the branches. -/
theorem Aggregator.step_processAny (inp out : Ty κ) (toOut : inp.Val β → out.Val β)
    (toIn : out.Val β → inp.Val β) (process : List (inp.Val β) → Process σ ε (out.Val β))
    (agg : Aggregator (out.Val β)) (a : Any β) (producerId : Nat) (u : σ) :
    Step inp out toOut toIn process agg a producerId u
      (agg.processAny inp out toOut toIn process a producerId u) := by
  rw [Aggregator.processAny]
  cases hmask : producerMask producerId with
  | none => exact .shift hmask
  | some idx =>
    simp only
    by_cases hbit : agg.state &&& idx ≠ 0
    · rw [if_pos hbit]
      exact .repeated hmask hbit
    · rw [if_neg hbit]
      have hbit' := not_not.1 hbit
      cases hcast : anyCastWithInfo ε inp a with
      | error e => exact .badCast hmask hbit' hcast
      | ok v =>
        have ha := anyCastWithInfo_eq_ok_iff.1 hcast
        cases hfull : fullMask agg.producerCount with
        | none => exact .overflow hmask hbit' ha hfull
        | some full =>
          simp only
          by_cases hst : (agg.store producerId idx (toOut v)).state = full
          · rw [if_pos hst]
            exact .completed hmask hbit' ha hfull hst
          · rw [if_neg hst]
            exact .stored hmask hbit' ha hfull hst

end PipelineTools.FlowEngine
