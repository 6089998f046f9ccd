import Mathlib.Data.List.TakeWhile
import Mathlib.Algebra.Order.Ring.Int

/-!
# Reading numbers from text

A string is the list of its characters. `getline` takes what stands before the next delimiter from a
stream; `tokens` are all the pieces that a loop over `getline` sees. `stoll` and `stoull` are the
number readers of the standard library at base 10: they skip white space, take one sign, read the
digits that follow and ignore the rest. `Numeral` and `SignedNumeral` say what a whole text is the
decimal notation of.
-/

set_option autoImplicit false

namespace PipelineTools.Library

/-! ## Lines and tokens -/

/-- `std::getline(ss, token, delim)` with `ss` left in the stream: the token and what is left after
its delimiter. It fails at the end of the stream. -/
def getline (delim : Char) (ss : List Char) : Option (List Char × List Char) :=
  if ss = [] then none
  else some (ss.takeWhile (· ≠ delim), (ss.dropWhile (· ≠ delim)).tail)

/-- The tokens that `while (std::getline(ss, token, delim))` reads: the pieces between delimiters,
without an empty piece at the end. -/
def tokens (delim : Char) (ss : List Char) : List (List Char) :=
  if (ss.splitOn delim).getLast? = some [] then (ss.splitOn delim).dropLast
  else ss.splitOn delim

theorem tokens_of_not_mem {delim : Char} {t : List Char} (hdelim : delim ∉ t) (hne : t ≠ []) :
    tokens delim t = [t] := by
  rw [tokens, List.splitOn_eq_singleton hdelim, if_neg]
  intro hlast
  exact hne (Option.some.inj hlast)

/-- A delimiter ends a token, also an empty one. -/
theorem tokens_append_cons {delim : Char} {t : List Char} (hdelim : delim ∉ t)
    (rest : List Char) : tokens delim (t ++ delim :: rest) = t :: tokens delim rest := by
  have hne : rest.splitOn delim ≠ [] := List.splitOn_ne_nil delim rest
  have hlast : (t :: rest.splitOn delim).getLast? = (rest.splitOn delim).getLast? := by
    rw [List.getLast?_cons, List.getLast?_eq_some_getLast hne]
    rfl
  rw [tokens, List.splitOn_append_cons_self_of_not_mem hdelim, hlast,
    List.dropLast_cons_of_ne_nil hne, tokens]
  split <;> rfl

/-- `tokens` is the loop over `getline`. -/
theorem tokens_eq_getline (delim : Char) (ss : List Char) :
    tokens delim ss =
      match getline delim ss with
      | none => []
      | some (token, rest) => token :: tokens delim rest := by
  by_cases hnil : ss = []
  · subst hnil
    rfl
  · have hdelim : delim ∉ ss.takeWhile (· ≠ delim) := by
      intro hmem
      simpa only [ne_eq, not_true_eq_false, decide_false, Bool.false_eq_true] using
        List.mem_takeWhile_imp hmem
    have hsplit := List.takeWhile_append_dropWhile (p := (· ≠ delim)) (l := ss)
    rw [getline, if_neg hnil]
    cases hdrop : ss.dropWhile (· ≠ delim) with
    | nil =>
      rw [hdrop, List.append_nil] at hsplit
      rw [hsplit] at hdelim ⊢
      exact tokens_of_not_mem hdelim hnil
    | cons c rest =>
      have hc : c = delim := by
        have hhead := List.head?_dropWhile_not (· ≠ delim) ss
        rw [hdrop] at hhead
        simpa using hhead
      subst hc
      have htokens := tokens_append_cons hdelim rest
      rw [← hdrop, hsplit] at htokens
      exact htokens

/-- Joined pieces are read back. -/
theorem tokens_intercalate {delim : Char} {pieces : List (List Char)}
    (hdelim : ∀ p ∈ pieces, delim ∉ p) (hne : ∀ p ∈ pieces, p ≠ []) :
    tokens delim ([delim].intercalate pieces) = pieces := by
  induction pieces with
  | nil => rfl
  | cons p pieces ih =>
    have hp := hdelim p List.mem_cons_self
    cases pieces with
    | nil =>
      rw [List.intercalate_singleton]
      exact tokens_of_not_mem hp (hne p List.mem_cons_self)
    | cons q pieces =>
      rw [List.intercalate_cons_cons, List.append_assoc, List.singleton_append,
        tokens_append_cons hp, ih (fun r hr => hdelim r (List.mem_cons_of_mem p hr))
          (fun r hr => hne r (List.mem_cons_of_mem p hr))]

/-! ## Decimal notation -/

/-- `s` is the decimal notation of `n`; leading zeros are allowed. -/
structure Numeral (s : List Char) (n : Nat) : Prop where
  ne_nil : s ≠ []
  digits : ∀ c ∈ s, c.isDigit = true
  value : Nat.ofDigitChars 10 s 0 = n

/-- `s` is the decimal notation of the integer `v`, with a minus sign in front or none. -/
inductive SignedNumeral : List Char → Int → Prop where
  | plain {s : List Char} {n : Nat} (h : Numeral s n) : SignedNumeral s n
  | minus {s : List Char} {n : Nat} (h : Numeral s n) : SignedNumeral ('-' :: s) (-n)

/-- The text that `v` is printed as. -/
def decimal : Int → List Char
  | .ofNat n => Nat.toDigits 10 n
  | .negSucc n => '-' :: Nat.toDigits 10 (n + 1)

theorem numeral_toDigits (n : Nat) : Numeral (Nat.toDigits 10 n) n where
  ne_nil := Nat.toDigits_ne_nil
  digits := fun _ hc => Nat.isDigit_of_mem_toDigits (by decide) (by decide) hc
  value := Nat.ofDigitChars_ten_toDigits

theorem signedNumeral_decimal (v : Int) : SignedNumeral (decimal v) v := by
  cases v with
  | ofNat n => exact .plain (numeral_toDigits n)
  | negSucc n => exact .minus (numeral_toDigits (n + 1))

theorem Numeral.not_mem {s : List Char} {n : Nat} (h : Numeral s n) {c : Char}
    (hc : c.isDigit = false) : c ∉ s := by
  intro hmem
  rw [h.digits c hmem] at hc
  cases hc

/-! ## Number readers -/

/-- What `isspace` accepts. -/
def isspace (c : Char) : Bool := c = ' ' || ('\t' ≤ c && c ≤ '\r')

/-- Take one sign off the front; the flag says that it is a minus sign. -/
def takeSign : List Char → Bool × List Char
  | '-' :: s => (true, s)
  | '+' :: s => (false, s)
  | s => (false, s)

/-- The number at the front of a text, as `strtoll` and `strtoull` find it: whether it has a minus
sign, and the value of its digits. What follows the digits is not looked at. -/
def leadingNumber (s : List Char) : Option (Bool × Nat) :=
  let signed := takeSign (s.dropWhile isspace)
  let digits := signed.2.takeWhile Char.isDigit
  if digits = [] then none else some (signed.1, Nat.ofDigitChars 10 digits 0)

/-- The number with the sign `minus` and the value `n` of its digits. -/
def withSign (minus : Bool) (n : Nat) : Int := if minus then -n else n

/-- The exceptions of the number readers. -/
inductive ReadError where
  | invalidArgument (what : String)
  | outOfRange (what : String)
  deriving DecidableEq

/-- What the readers share: find the number at the front, throw when there is none or it does not
fit, and return its value. -/
def readNumber {α : Type} (name : String) (fits : Bool → Nat → Prop)
    [∀ minus n, Decidable (fits minus n)] (value : Bool → Nat → α) (s : List Char) :
    Except ReadError α :=
  match leadingNumber s with
  | none => .error (.invalidArgument name)
  | some (minus, n) =>
    if fits minus n then .ok (value minus n) else .error (.outOfRange name)

/-- The numbers of type `long long`. -/
def FitsLongLong (minus : Bool) (n : Nat) : Prop :=
  -2 ^ 63 ≤ withSign minus n ∧ withSign minus n < 2 ^ 63

instance (minus : Bool) (n : Nat) : Decidable (FitsLongLong minus n) :=
  inferInstanceAs (Decidable (_ ∧ _))

/-- The numbers whose digits fit in `unsigned long long`; the sign is not looked at. -/
def FitsUnsignedLongLong (_minus : Bool) (n : Nat) : Prop := n < 2 ^ 64

instance (minus : Bool) (n : Nat) : Decidable (FitsUnsignedLongLong minus n) :=
  inferInstanceAs (Decidable (_ < _))

/-- A number with a minus sign is negated in `unsigned long long`. -/
def unsignedValue (minus : Bool) (n : Nat) : Nat := if minus then (2 ^ 64 - n) % 2 ^ 64 else n

/-- `std::stoll`. -/
def stoll : List Char → Except ReadError Int := readNumber "stoll" FitsLongLong withSign

/-- `std::stoull`. -/
def stoull : List Char → Except ReadError Nat :=
  readNumber "stoull" FitsUnsignedLongLong unsignedValue

/-- No number that fits stands at the front of `s`. -/
def NoNumber (fits : Bool → Nat → Prop) (s : List Char) : Prop :=
  ∀ minus n, leadingNumber s = some (minus, n) → ¬fits minus n

theorem not_noNumber_iff {fits : Bool → Nat → Prop} {s : List Char} :
    ¬NoNumber fits s ↔ ∃ minus n, leadingNumber s = some (minus, n) ∧ fits minus n := by
  simp only [NoNumber, Classical.not_forall, Classical.not_not, exists_prop]

theorem takeSign_of_isDigit {c : Char} (hc : c.isDigit = true) (s : List Char) :
    takeSign (c :: s) = (false, c :: s) := by
  unfold takeSign
  split
  · next heq =>
    obtain ⟨rfl, -⟩ := List.cons.inj heq
    cases hc
  · next heq =>
    obtain ⟨rfl, -⟩ := List.cons.inj heq
    cases hc
  · rfl

theorem isspace_of_isDigit {c : Char} (hc : c.isDigit = true) : isspace c = false := by
  by_contra hspace
  rw [Bool.not_eq_false, isspace, Bool.or_eq_true, Bool.and_eq_true, decide_eq_true_eq,
    decide_eq_true_eq, decide_eq_true_eq] at hspace
  rcases hspace with rfl | ⟨-, hle⟩
  · cases hc
  · have hle' : c.toNat ≤ 13 := hle
    have hge : 48 ≤ c.toNat := (Char.isDigit_iff_toNat.1 hc).1
    omega

theorem leadingNumber_of_numeral {s : List Char} {n : Nat} (h : Numeral s n) :
    leadingNumber s = some (false, n) := by
  obtain ⟨c, t, rfl⟩ := List.exists_cons_of_ne_nil h.ne_nil
  have hc := h.digits c List.mem_cons_self
  have hdigits : (c :: t).takeWhile Char.isDigit = c :: t := List.takeWhile_eq_self_iff.2 h.digits
  rw [leadingNumber, List.dropWhile_cons_of_neg (by rw [isspace_of_isDigit hc]; decide),
    takeSign_of_isDigit hc]
  rw [hdigits, if_neg (List.cons_ne_nil c t), h.value]

theorem leadingNumber_of_minus {s : List Char} {n : Nat} (h : Numeral s n) :
    leadingNumber ('-' :: s) = some (true, n) := by
  have hdigits : s.takeWhile Char.isDigit = s := List.takeWhile_eq_self_iff.2 h.digits
  rw [leadingNumber, List.dropWhile_cons_of_neg (by decide), takeSign]
  rw [hdigits, if_neg h.ne_nil, h.value]

/-- The readers find the number that a whole text is the notation of. -/
theorem leadingNumber_of_signedNumeral {s : List Char} {v : Int} (h : SignedNumeral s v) :
    ∃ minus n, leadingNumber s = some (minus, n) ∧ withSign minus n = v := by
  cases h with
  | plain h => exact ⟨false, _, leadingNumber_of_numeral h, rfl⟩
  | minus h => exact ⟨true, _, leadingNumber_of_minus h, rfl⟩

section Readers

variable {α : Type} {name : String} {fits : Bool → Nat → Prop}
  [∀ minus n, Decidable (fits minus n)] {value : Bool → Nat → α}

/-- The number at the front is returned, if it fits. -/
theorem readNumber_of_leadingNumber {s : List Char} {minus : Bool} {n : Nat}
    (hlead : leadingNumber s = some (minus, n)) (hfits : fits minus n) :
    readNumber name fits value s = .ok (value minus n) := by
  rw [readNumber, hlead]
  exact if_pos hfits

theorem readNumber_of_noNumber {s : List Char} (hno : NoNumber fits s) :
    ∃ e, readNumber name fits value s = .error e := by
  cases hlead : leadingNumber s with
  | none => exact ⟨.invalidArgument name, by rw [readNumber, hlead]⟩
  | some p =>
    refine ⟨.outOfRange name, ?_⟩
    rw [readNumber, hlead]
    exact if_neg (hno p.1 p.2 hlead)

/-- A reader throws exactly at the texts without a number for it. -/
theorem readNumber_throws_iff (s : List Char) :
    (∃ e, readNumber name fits value s = .error e) ↔ NoNumber fits s := by
  constructor
  · rintro ⟨e, he⟩ minus n hlead hfits
    rw [readNumber_of_leadingNumber hlead hfits] at he
    cases he
  · exact readNumber_of_noNumber

end Readers

theorem stoll_throws_iff (s : List Char) :
    (∃ e, stoll s = .error e) ↔ NoNumber FitsLongLong s := by
  rw [stoll]
  exact readNumber_throws_iff s

theorem stoull_throws_iff (s : List Char) :
    (∃ e, stoull s = .error e) ↔ NoNumber FitsUnsignedLongLong s := by
  rw [stoull]
  exact readNumber_throws_iff s

/-- Every number of type `long long` is read back. -/
theorem stoll_of_signedNumeral {s : List Char} {v : Int} (h : SignedNumeral s v)
    (hlow : -2 ^ 63 ≤ v) (hhigh : v < 2 ^ 63) : stoll s = .ok v := by
  obtain ⟨minus, n, hlead, rfl⟩ := leadingNumber_of_signedNumeral h
  exact readNumber_of_leadingNumber hlead ⟨hlow, hhigh⟩

/-- Every number of type `unsigned long long` is read back. -/
theorem stoull_of_signedNumeral {s : List Char} {n : Nat} (h : SignedNumeral s n)
    (hn : n < 2 ^ 64) : stoull s = .ok n := by
  obtain ⟨minus, m, hlead, hm⟩ := leadingNumber_of_signedNumeral h
  cases minus with
  | false =>
    obtain rfl : m = n := Int.ofNat.inj hm
    exact readNumber_of_leadingNumber hlead hn
  | true =>
    -- the notation of 0 with a minus sign
    have hm' : -(m : Int) = n := hm
    obtain rfl : m = 0 := by omega
    obtain rfl : n = 0 := by omega
    exact readNumber_of_leadingNumber hlead hn

end PipelineTools.Library
