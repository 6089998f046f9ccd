import Mathlib.Algebra.Order.Ring.Int

/-!
# Type-erased values

Blocks of the flow framework exchange `nstd::any` values. The types a block can name are `bool`,
user classes, and vectors of such types (`Ty`); a type-erased value is empty, holds the absence
marker `std::nullopt`, holds a value of one of these types, or holds what the vector of `bool` has
in the place of an element (`Any`).

The library of `nstd::any` is not part of the repository. It is taken to be what `std::any` is: an
any holds a copy of the value it has been made of, together with the type of this value, and gives
it back to a cast to exactly this type. So `anyCast` succeeds exactly when the stored type is the
requested one, and `anyCastWithInfo` turns its failure into the framework's exception. `nstd::any`
itself is not a `Ty`: an any made of an any is a copy of it and not one that holds it, so that a
block whose output type is `nstd::any` does not produce a value of its output type.
-/

set_option autoImplicit false

namespace PipelineTools.FlowEngine

/-- The C++ types of the values that travel between blocks: user classes, `bool` and vectors. -/
inductive Ty (κ : Type) where
  | base (k : κ)
  | bool
  | vector (t : Ty κ)
  deriving DecidableEq

variable {κ : Type} {β : κ → Type} {ε : Type}

/-- The values of a type. -/
@[reducible] def Ty.Val (β : κ → Type) : Ty κ → Type
  | .base k => β k
  | .bool => Bool
  | .vector t => List (t.Val β)

/-- `std::type_info` of the content of an `Any`. -/
inductive TypeInfo (κ : Type) where
  | void
  | nullopt
  | bitReference
  | ty (t : Ty κ)
  deriving DecidableEq

/-- `nstd::any`. A `std::_Bit_reference` stands for a bit of a vector of `bool`; it is none of the
types that blocks name. -/
inductive Any (β : κ → Type) where
  | empty
  | nullopt
  | bitReference (bit : Bool)
  | val (t : Ty κ) (v : t.Val β)

namespace Any

/-- `any::type()`. -/
def type : Any β → TypeInfo κ
  | .empty => .void
  | .nullopt => .nullopt
  | .bitReference _ => .bitReference
  | .val t _ => .ty t

/-- `any::has_value()`; an any that holds `std::nullopt` has a value. -/
def hasValue : Any β → Bool
  | .empty => false
  | .nullopt => true
  | .bitReference _ => true
  | .val _ _ => true

/-- `nstd::any` of `std::move(outputs.at(i))`, an element of a vector. For `std::vector<bool>`, `at`
returns a `std::_Bit_reference`. -/
def element : (t : Ty κ) → t.Val β → Any β
  | .base k, v => .val (.base k) v
  | .bool, bit => .bitReference bit
  | .vector t, v => .val (.vector t) v

/-- An element is a value of its type, unless the vector is one of bits. -/
theorem element_eq {t : Ty κ} (h : t ≠ .bool) (v : t.Val β) : element t v = .val t v := by
  cases t with
  | base k => rfl
  | bool => exact absurd rfl h
  | vector t => rfl

@[simp] theorem element_bool (bit : Bool) :
    (element .bool bit : Any β) = .bitReference bit := rfl

/-- What is handed on is there, and is not the absence marker. -/
theorem element_present (t : Ty κ) (v : t.Val β) :
    (element t v).hasValue = true ∧ (element t v).type ≠ .nullopt := by
  cases t with
  | base k => exact ⟨rfl, nofun⟩
  | bool => exact ⟨rfl, nofun⟩
  | vector t => exact ⟨rfl, nofun⟩

end Any

/-- Exceptions that leave a block. -/
inductive Exn (κ ε : Type) where
  | badAnyCastWithInfo (source target : TypeInfo κ)
  | runtimeError (what : String)
  | outOfRange
  | user (e : ε)
  deriving DecidableEq

/-- Undefined behaviour the framework itself can run into. -/
inductive Fault where
  /-- `next_nodes[i]` with `i` past the end. -/
  | nextNodes
  /-- `1 << producer_id` with a shift count of at least the width of `int`. -/
  | shift
  /-- Conversion to `int` of a floating-point value that does not fit. -/
  | floatToInt
  deriving DecidableEq

/-- Why a call of the engine did not return. -/
inductive Stop (κ ε : Type) where
  | threw (e : Exn κ ε)
  | undefined (f : Fault)
  | outOfFuel
  deriving DecidableEq

/-- The text of `what()`, given the demangled type names. -/
def Exn.what (demangle : TypeInfo κ → String) (userWhat : ε → String) : Exn κ ε → String
  | .badAnyCastWithInfo s t =>
      "bad_any_cast: Cannot cast from type [" ++ demangle s ++ "] to type [" ++ demangle t ++ "]"
  | .runtimeError what => what
  | .outOfRange => "vector::_M_range_check"
  | .user e => userWhat e

variable [DecidableEq κ]

/-- `nstd::any_cast<T>`. -/
def anyCast (t : Ty κ) : Any β → Option (t.Val β)
  | .val s v => if h : s = t then some (h ▸ v) else none
  | _ => none

/-- `utils::any_cast_with_info<T>`. -/
def anyCastWithInfo (ε : Type) (t : Ty κ) (a : Any β) : Except (Stop κ ε) (t.Val β) :=
  match anyCast t a with
  | some v => .ok v
  | none => .error (.threw (.badAnyCastWithInfo a.type (.ty t)))

@[simp] theorem anyCast_val_self (t : Ty κ) (v : t.Val β) : anyCast t (.val t v) = some v := by
  simp [anyCast]

@[simp] theorem anyCast_empty (t : Ty κ) : anyCast t (.empty : Any β) = none := rfl

@[simp] theorem anyCast_nullopt (t : Ty κ) : anyCast t (.nullopt : Any β) = none := rfl

@[simp] theorem anyCast_bitReference (t : Ty κ) (bit : Bool) :
    anyCast t (.bitReference bit : Any β) = none := rfl

/-- A cast succeeds exactly when the stored type is the requested one. -/
theorem anyCast_eq_some_iff {t : Ty κ} {a : Any β} {v : t.Val β} :
    anyCast t a = some v ↔ a = .val t v := by
  cases a with
  | empty => simp
  | nullopt => simp
  | bitReference bit => simp
  | val s w =>
    constructor
    · intro h
      by_cases hst : s = t
      · subst hst
        rw [anyCast_val_self] at h
        rw [Option.some.inj h]
      · simp [anyCast, hst] at h
    · rintro h
      rw [h, anyCast_val_self]

@[simp] theorem anyCastWithInfo_val_self (t : Ty κ) (v : t.Val β) :
    anyCastWithInfo ε t (.val t v) = .ok v := by
  simp [anyCastWithInfo]

@[simp] theorem anyCastWithInfo_empty (t : Ty κ) :
    anyCastWithInfo ε t (.empty : Any β) =
      .error (.threw (.badAnyCastWithInfo .void (.ty t))) := rfl

@[simp] theorem anyCastWithInfo_nullopt (t : Ty κ) :
    anyCastWithInfo ε t (.nullopt : Any β) =
      .error (.threw (.badAnyCastWithInfo .nullopt (.ty t))) := rfl

theorem anyCastWithInfo_eq_ok_iff {t : Ty κ} {a : Any β} {v : t.Val β} :
    anyCastWithInfo ε t a = .ok v ↔ a = .val t v := by
  rw [anyCastWithInfo]
  cases h : anyCast t a with
  | none =>
    simp only [reduceCtorEq, false_iff]
    intro ha
    rw [anyCast_eq_some_iff.2 ha] at h
    cases h
  | some w =>
    simp only [Except.ok.injEq]
    rw [← anyCast_eq_some_iff, h, Option.some.injEq]

theorem anyCastWithInfo_eq_error_iff {t : Ty κ} {a : Any β} {e : Stop κ ε} :
    anyCastWithInfo ε t a = .error e ↔
      anyCast t a = none ∧ e = .threw (.badAnyCastWithInfo a.type (.ty t)) := by
  rw [anyCastWithInfo]
  cases h : anyCast t a with
  | none => simp [eq_comm]
  | some v => simp

/-- A failed cast throws the framework's exception. -/
theorem anyCastWithInfo_error {t : Ty κ} {a : Any β} {e : Stop κ ε}
    (h : anyCastWithInfo ε t a = .error e) : ∃ x, e = .threw x :=
  ⟨_, (anyCastWithInfo_eq_error_iff.1 h).2⟩

end PipelineTools.FlowEngine
