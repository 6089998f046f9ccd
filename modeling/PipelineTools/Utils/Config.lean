import PipelineTools.Library.Text
import Mathlib.Data.Int.Basic

/-!
# Configuration integers

`pt::config::get<OutT>` reads an environment variable and converts its text: unsigned types go
through `std::stoull`, signed ones through `std::stoll`, and a `static_cast` makes an `OutT` of the
number that is read. `convert_of_signedNumeral` is the law for the texts that are the notation of a
value of `OutT`.
-/

set_option autoImplicit false

namespace PipelineTools.Utils

open PipelineTools.Library

/-- An integral type of 8 to 64 bits. -/
structure IntegralType where
  width : Nat
  signed : Bool
  le_width : 8 ≤ width
  width_le : width ≤ 64

namespace IntegralType

/-- The least value of the type. -/
def low (T : IntegralType) : Int := if T.signed then -(2 ^ (T.width - 1) : Nat) else 0

/-- The least integer above all values of the type. -/
def high (T : IntegralType) : Int :=
  if T.signed then (2 ^ (T.width - 1) : Nat) else (2 ^ T.width : Nat)

/-- The integers that the type has. -/
def InRange (T : IntegralType) (v : Int) : Prop := T.low ≤ v ∧ v < T.high

instance (T : IntegralType) (v : Int) : Decidable (T.InRange v) :=
  inferInstanceAs (Decidable (_ ∧ _))

/-- The values of the type. -/
def Value (T : IntegralType) : Type := { v : Int // T.InRange v }

/-- The integer of the type that is congruent to `v`. -/
def wrap (T : IntegralType) (v : Int) : Int :=
  if T.signed then v.bmod (2 ^ T.width) else v % (2 ^ T.width : Nat)

theorem two_pow_width (T : IntegralType) : 2 ^ T.width = 2 * 2 ^ (T.width - 1) := by
  have hwidth : T.width = T.width - 1 + 1 := by
    have hle := T.le_width
    omega
  conv => lhs; rw [hwidth, Nat.pow_succ, Nat.mul_comm]

theorem wrap_inRange (T : IntegralType) (v : Int) : T.InRange (T.wrap v) := by
  have hpow := T.two_pow_width
  have hpos : 0 < 2 ^ T.width := Nat.two_pow_pos T.width
  cases hsigned : T.signed with
  | true =>
    have hlow := Int.le_bmod (x := v) hpos
    have hhigh := Int.bmod_lt (x := v) hpos
    rw [InRange, low, high, wrap, hsigned]
    simp only [if_true]
    omega
  | false =>
    have hne : ((2 ^ T.width : Nat) : Int) ≠ 0 := by omega
    have hlow := Int.emod_nonneg v hne
    have hhigh := Int.emod_lt_of_pos v (by omega : (0 : Int) < (2 ^ T.width : Nat))
    rw [InRange, low, high, wrap, hsigned]
    simp only [Bool.false_eq_true, if_false]
    exact ⟨hlow, hhigh⟩

theorem wrap_of_inRange {T : IntegralType} {v : Int} (h : T.InRange v) : T.wrap v = v := by
  have hpow := T.two_pow_width
  rw [InRange, low, high] at h
  rw [wrap]
  cases hsigned : T.signed with
  | true =>
    rw [hsigned] at h
    simp only [if_true] at h ⊢
    apply Int.bmod_eq_of_le <;> omega
  | false =>
    rw [hsigned] at h
    simp only [Bool.false_eq_true, if_false] at h ⊢
    exact Int.emod_eq_of_lt h.1 h.2

end IntegralType

/-- `static_cast<OutT>`. -/
def staticCast (T : IntegralType) (v : Int) : T.Value := ⟨T.wrap v, T.wrap_inRange v⟩

/-- `pt::config::convert<OutT>` for integral types. -/
def convert (T : IntegralType) (value : List Char) : Except ReadError T.Value :=
  if T.signed then (stoll value).map (staticCast T)
  else (stoull value).map fun n : Nat => staticCast T n

/-- What `getenv` finds. -/
abbrev Environment := String → Option (List Char)

/-- `pt::config::get_env<OutT>(key)`. -/
def getEnv (T : IntegralType) (env : Environment) (key : String) :
    Except ReadError (Option T.Value) :=
  match env key with
  | none => .ok none
  | some value => (convert T value).map some

/-- `pt::config::get<OutT>(key)`. -/
def get (T : IntegralType) (env : Environment) (key : String) :
    Except ReadError (Option T.Value) :=
  getEnv T env key

/-- The numbers that the reader for the type accepts. -/
def readerFits (T : IntegralType) : Bool → Nat → Prop :=
  if T.signed then FitsLongLong else FitsUnsignedLongLong

theorem map_throws_iff {α β : Type} (f : α → β) (r : Except ReadError α) :
    (∃ e, r.map f = .error e) ↔ ∃ e, r = .error e := by
  cases r with
  | ok a =>
    constructor <;> rintro ⟨e, he⟩ <;> cases he
  | error e => exact ⟨fun _ => ⟨e, rfl⟩, fun _ => ⟨e, rfl⟩⟩

/-- The conversion throws exactly when its reader does. -/
theorem convert_throws_iff (T : IntegralType) (value : List Char) :
    (∃ e, convert T value = .error e) ↔ NoNumber (readerFits T) value := by
  rw [convert, readerFits]
  cases hsigned : T.signed with
  | true =>
    simp only [if_true]
    rw [map_throws_iff]
    exact stoll_throws_iff value
  | false =>
    simp only [Bool.false_eq_true, if_false]
    rw [map_throws_iff]
    exact stoull_throws_iff value

/-- All values of the types are values of `long long` or of `unsigned long long`. -/
theorem IntegralType.InRange.widest {T : IntegralType} {v : Int} (h : T.InRange v) :
    if T.signed then -2 ^ 63 ≤ v ∧ v < 2 ^ 63 else 0 ≤ v ∧ v < 2 ^ 64 := by
  have hwidth := T.width_le
  have hhalf : 2 ^ (T.width - 1) ≤ 2 ^ 63 := Nat.pow_le_pow_right (by decide) (by omega)
  have hfull : 2 ^ T.width ≤ 2 ^ 64 := Nat.pow_le_pow_right (by decide) hwidth
  rw [InRange, low, high] at h
  cases hsigned : T.signed with
  | true =>
    rw [hsigned] at h
    simp only [if_true] at h ⊢
    omega
  | false =>
    rw [hsigned] at h
    simp only [Bool.false_eq_true, if_false] at h ⊢
    omega

/-- The notation of a value of the type is converted to this value. -/
theorem convert_of_signedNumeral {T : IntegralType} {value : List Char} {v : T.Value}
    (h : SignedNumeral value v.val) : convert T value = .ok v := by
  obtain ⟨v, hv⟩ := v
  have hcast : staticCast T v = ⟨v, hv⟩ := Subtype.ext (IntegralType.wrap_of_inRange hv)
  have hwidest := hv.widest
  rw [convert]
  cases hsigned : T.signed with
  | true =>
    rw [hsigned] at hwidest
    simp only [if_true] at hwidest ⊢
    rw [stoll_of_signedNumeral h hwidest.1 hwidest.2]
    exact congrArg Except.ok hcast
  | false =>
    rw [hsigned] at hwidest
    simp only [Bool.false_eq_true, if_false] at hwidest ⊢
    obtain ⟨n, rfl⟩ := Int.eq_ofNat_of_zero_le hwidest.1
    rw [stoull_of_signedNumeral h (by omega)]
    exact congrArg Except.ok hcast

/-- The variable is rejected, or what is returned is the value whose notation the whole text is. -/
def ExactOrRejected (T : IntegralType) (env : Environment) (key : String) (value : List Char) :
    Prop :=
  (∃ e, get T env key = .error e) ∨
    ∃ v, get T env key = .ok (some v) ∧ SignedNumeral value v.val

/-- Texts are read exactly or rejected when the reader of the type finds no number at their front,
and when they are the notation of a value of the type; and every value is read back. -/
theorem get_exact_iff (T : IntegralType) (env : Environment) (key : String) (value : List Char)
    (hvalue : env key = some value) :
    (ExactOrRejected T env key value ↔
      NoNumber (readerFits T) value ∨ ∃ v, T.InRange v ∧ SignedNumeral value v) ∧
    ∀ v : T.Value, value = decimal v.val → get T env key = .ok (some v) := by
  have hget : get T env key = (convert T value).map some := by
    rw [get, getEnv, hvalue]
  refine ⟨⟨?_, ?_⟩, ?_⟩
  · rintro (hthrow | ⟨v, -, hnotation⟩)
    · rw [hget, map_throws_iff, convert_throws_iff] at hthrow
      exact .inl hthrow
    · exact .inr ⟨v.val, v.property, hnotation⟩
  · rintro (hno | ⟨v, hrange, hnotation⟩)
    · left
      rw [hget, map_throws_iff, convert_throws_iff]
      exact hno
    · right
      refine ⟨⟨v, hrange⟩, ?_, hnotation⟩
      rw [hget, convert_of_signedNumeral (v := ⟨v, hrange⟩) hnotation]
      rfl
  · rintro v rfl
    rw [hget, convert_of_signedNumeral (signedNumeral_decimal v.val)]
    rfl

/-- `uint16_t`. -/
def uint16 : IntegralType := ⟨16, false, by decide, by decide⟩

theorem get_exact_uint16 :
    (ExactOrRejected uint16 (fun _ => some ['8', '0', '8', '1']) "PT_API_PORT"
        ['8', '0', '8', '1'] ↔
      NoNumber (readerFits uint16) ['8', '0', '8', '1'] ∨
        ∃ v, uint16.InRange v ∧ SignedNumeral ['8', '0', '8', '1'] v) ∧
    ∀ v : uint16.Value, ['8', '0', '8', '1'] = decimal v.val →
      get uint16 (fun _ => some ['8', '0', '8', '1']) "PT_API_PORT" = .ok (some v) :=
  get_exact_iff uint16 (fun _ => some ['8', '0', '8', '1']) "PT_API_PORT" ['8', '0', '8', '1'] rfl

/-- A negative number is wrapped to one of the unsigned type. -/
theorem get_minus_one :
    ¬ExactOrRejected uint16 (fun _ => some ['-', '1']) "PT_API_PORT" ['-', '1'] := by
  have hget : get uint16 (fun _ => some ['-', '1']) "PT_API_PORT" =
      .ok (some ⟨65535, by decide⟩) := rfl
  rintro (⟨e, he⟩ | ⟨v, hv, hnotation⟩)
  · rw [hget] at he
    cases he
  · rw [hget] at hv
    obtain rfl := Option.some.inj (Except.ok.inj hv)
    obtain ⟨minus, n, hlead, hvalue⟩ := leadingNumber_of_signedNumeral hnotation
    have hone : leadingNumber ['-', '1'] = some (true, 1) := by decide
    rw [hone] at hlead
    cases hlead
    cases hvalue

end PipelineTools.Utils
