import PipelineTools.Library.Text
import Mathlib.Data.List.Basic

/-!
# Numeric ranges

`parse_numeric_ranges` splits a text at its commas, each token at its first dash, reads the parts
with `std::stoll` and narrows what it reads to `int`. `token_cases` says what one token does: a part
of it cannot be read, its range ends at the greatest `int` and the counter overflows, or it adds
numbers. `parseNumericRanges_of_means` is the law for the texts that the function is for, and
`parseNumericRanges_print` the round trip.
-/

set_option autoImplicit false

namespace PipelineTools.Utils

open PipelineTools.Library

/-- The greatest `int`. -/
def intMax : Int := 2 ^ 31 - 1

/-- The conversion of a `long long` to `int`. -/
def narrow (v : Int) : Int := v.bmod (2 ^ 32)

theorem narrow_of_nat {n : Nat} (hn : (n : Int) ≤ intMax) : narrow n = n := by
  rw [intMax] at hn
  apply Int.bmod_eq_of_le <;> omega

theorem narrow_le (v : Int) : narrow v ≤ intMax := by
  have hlt : narrow v < ((2 ^ 32 : Nat) + 1) / 2 := Int.bmod_lt (by decide)
  rw [intMax]
  omega

/-- The integers from `start` to `last`, both included. -/
def ints (start last : Int) : List Int :=
  (List.range (last + 1 - start).toNat).map fun k : Nat => start + k

theorem ints_of_lt {start last : Int} (h : last < start) : ints start last = [] := by
  rw [ints, Int.toNat_of_nonpos (by omega)]
  rfl

theorem ints_of_le {start last : Int} (h : start ≤ last) :
    ints start last = start :: ints (start + 1) last := by
  have hcount : (last + 1 - start).toNat = (last + 1 - (start + 1)).toNat + 1 := by omega
  rw [ints, ints, hcount, List.range_succ_eq_map, List.map_cons, List.map_map]
  congr 1
  · omega
  · apply List.map_congr_left
    intro k _
    simp only [Function.comp_apply]
    omega

theorem mem_ints {start last v : Int} : v ∈ ints start last ↔ start ≤ v ∧ v ≤ last := by
  rw [ints, List.mem_map]
  constructor
  · rintro ⟨k, hk, rfl⟩
    have hk' := List.mem_range.1 hk
    omega
  · rintro ⟨hlow, hhigh⟩
    refine ⟨(v - start).toNat, List.mem_range.2 (by omega), by omega⟩

theorem ints_pairwise (start last : Int) : (ints start last).Pairwise (· < ·) := by
  rw [ints, List.pairwise_map]
  apply List.pairwise_lt_range.imp
  intro i j hij
  omega

/-! ## The parser -/

/-- Why `parse_numeric_ranges` does not return: a number reader throws, or an `int` with the
greatest value is incremented, which is undefined. -/
inductive RangesStop where
  | readError (e : ReadError)
  | intOverflow
  deriving DecidableEq

/-- `std::stoll(part)` where an `int` is wanted. -/
def readInt (part : List Char) : Except RangesStop Int :=
  match stoll part with
  | .ok v => .ok (narrow v)
  | .error e => .error (.readError e)

/-- `for (int i = start; i <= end; ++i) numerics.push_back(i)`, from `i` on with `left` turns to
go. -/
def countingLoop (last : Int) : Nat → Int → List Int → Except RangesStop (List Int)
  | 0, _, numerics => .ok numerics
  | left + 1, i, numerics =>
    if i ≤ last then
      if i = intMax then .error .intOverflow
      else countingLoop last left (i + 1) (numerics ++ [i])
    else .ok numerics

/-- The turns that the loop makes from `i` on. -/
def turns (last i : Int) : Nat := (last + 1 - i).toNat

/-- One turn of the loop in `parse_numeric_ranges`. -/
def parseToken (numerics : List Int) (token : List Char) : Except RangesStop (List Int) :=
  match token.findIdx? (· == '-') with
  | none => do
    let number ← readInt token
    .ok (numerics ++ [number])
  | some dashPos => do
    let start ← readInt (token.take dashPos)
    let last ← readInt (token.drop (dashPos + 1))
    countingLoop last (turns last start) start numerics

/-- `pt::utils::parse_numeric_ranges`. -/
def parseNumericRanges (input : List Char) : Except RangesStop (List Int) :=
  (tokens ',' input).foldlM parseToken []

/-- The loop stops at its own test. -/
theorem countingLoop_eq (last i : Int) (numerics : List Int) :
    countingLoop last (turns last i) i numerics =
      if i ≤ last then
        if i = intMax then .error .intOverflow
        else countingLoop last (turns last (i + 1)) (i + 1) (numerics ++ [i])
      else .ok numerics := by
  by_cases hi : i ≤ last
  · have hturns : turns last i = turns last (i + 1) + 1 := by
      rw [turns, turns]
      omega
    rw [hturns, countingLoop]
  · have hturns : turns last i = 0 := Int.toNat_of_nonpos (by omega)
    rw [hturns, countingLoop, if_neg hi]

/-- Below the greatest `int` the loop appends the range. -/
theorem countingLoop_of_lt {last : Int} (hlast : last < intMax) (i : Int) (numerics : List Int) :
    countingLoop last (turns last i) i numerics = .ok (numerics ++ ints i last) := by
  induction hn : turns last i generalizing i numerics with
  | zero =>
    have hi : last < i := by
      rw [turns] at hn
      omega
    rw [countingLoop, ints_of_lt hi, List.append_nil]
  | succ n ih =>
    have hi : i ≤ last := by
      rw [turns] at hn
      omega
    have hn' : turns last (i + 1) = n := by
      rw [turns] at hn ⊢
      omega
    rw [countingLoop, if_pos hi, if_neg (by omega), ih (i + 1) _ hn', ints_of_le hi,
      List.append_assoc, List.singleton_append]

/-- A range that ends at the greatest `int` overflows. -/
theorem countingLoop_intMax {i : Int} (hi : i ≤ intMax) (numerics : List Int) :
    countingLoop intMax (turns intMax i) i numerics = .error .intOverflow := by
  induction hn : turns intMax i generalizing i numerics with
  | zero =>
    rw [turns] at hn
    omega
  | succ n ih =>
    rw [countingLoop, if_pos hi]
    by_cases hmax : i = intMax
    · rw [if_pos hmax]
    · rw [if_neg hmax]
      apply ih (by omega)
      rw [turns] at hn ⊢
      omega

/-! ## One token -/

/-- A part of the token where a number must stand has none of type `long long` at its front. -/
inductive Unreadable : List Char → Prop where
  | number {token : List Char} (hdash : '-' ∉ token) (h : NoNumber FitsLongLong token) :
      Unreadable token
  | start {s t : List Char} (hdash : '-' ∉ s) (h : NoNumber FitsLongLong s) :
      Unreadable (s ++ '-' :: t)
  | last {s t : List Char} (hdash : '-' ∉ s) (h : NoNumber FitsLongLong t) :
      Unreadable (s ++ '-' :: t)

/-- Both ends of the range can be read, and the second one becomes the greatest `int`. -/
inductive ReachesIntMax : List Char → Prop where
  | range {s t : List Char} {minus : Bool} {n : Nat} (hdash : '-' ∉ s)
      (hs : ¬NoNumber FitsLongLong s) (ht : leadingNumber t = some (minus, n))
      (hfits : FitsLongLong minus n) (hmax : narrow (withSign minus n) = intMax) :
      ReachesIntMax (s ++ '-' :: t)

theorem readInt_throws {part : List Char} (h : NoNumber FitsLongLong part) :
    ∃ e, readInt part = .error (.readError e) := by
  obtain ⟨e, he⟩ := (stoll_throws_iff part).2 h
  refine ⟨e, ?_⟩
  rw [readInt, he]

theorem readInt_of_leadingNumber {part : List Char} {minus : Bool} {n : Nat}
    (hlead : leadingNumber part = some (minus, n)) (hfits : FitsLongLong minus n) :
    readInt part = .ok (narrow (withSign minus n)) := by
  rw [readInt, stoll, readNumber_of_leadingNumber hlead hfits]

theorem findIdx?_dash_eq_none {s : List Char} (hdash : '-' ∉ s) :
    s.findIdx? (· == '-') = none := by
  rw [List.findIdx?_eq_none_iff]
  intro c hc
  exact beq_eq_false_iff_ne.2 fun heq => hdash (heq ▸ hc)

theorem parseToken_number {token : List Char} (hdash : '-' ∉ token) (numerics : List Int) :
    parseToken numerics token = (readInt token).bind fun number => .ok (numerics ++ [number]) := by
  rw [parseToken, findIdx?_dash_eq_none hdash]
  rfl

/-- The token is split at its first dash. -/
theorem parseToken_range {s : List Char} (hdash : '-' ∉ s) (t : List Char) (numerics : List Int) :
    parseToken numerics (s ++ '-' :: t) =
      (readInt s).bind fun start => (readInt t).bind fun last =>
        countingLoop last (turns last start) start numerics := by
  have hfind : (s ++ '-' :: t).findIdx? (· == '-') = some s.length := by
    rw [List.findIdx?_append, findIdx?_dash_eq_none hdash, List.findIdx?_cons]
    simp
  have htake : (s ++ '-' :: t).take s.length = s := List.take_left
  have hdrop : (s ++ '-' :: t).drop (s.length + 1) = t := by
    rw [List.drop_append, List.drop_of_length_le (by omega), List.nil_append,
      Nat.add_sub_cancel_left]
    rfl
  rw [parseToken, hfind]
  simp only [htake, hdrop]
  rfl

theorem parseToken_unreadable {token : List Char} (h : Unreadable token) (numerics : List Int) :
    ∃ e, parseToken numerics token = .error (.readError e) := by
  cases h with
  | number hdash h =>
    obtain ⟨e, he⟩ := readInt_throws h
    refine ⟨e, ?_⟩
    rw [parseToken_number hdash, he]
    rfl
  | start hdash h =>
    obtain ⟨e, he⟩ := readInt_throws h
    refine ⟨e, ?_⟩
    rw [parseToken_range hdash, he]
    rfl
  | @last s t hdash h =>
    obtain ⟨e, he⟩ := readInt_throws h
    by_cases hs : NoNumber FitsLongLong s
    · obtain ⟨e', he'⟩ := readInt_throws hs
      refine ⟨e', ?_⟩
      rw [parseToken_range hdash, he']
      rfl
    · obtain ⟨minus, n, hlead, hfits⟩ := not_noNumber_iff.1 hs
      refine ⟨e, ?_⟩
      rw [parseToken_range hdash, readInt_of_leadingNumber hlead hfits, he]
      rfl

theorem parseToken_reachesIntMax {token : List Char} (h : ReachesIntMax token)
    (numerics : List Int) : parseToken numerics token = .error .intOverflow := by
  cases h with
  | range hdash hs ht hfits hmax =>
    obtain ⟨minus, n, hlead, hfits'⟩ := not_noNumber_iff.1 hs
    rw [parseToken_range hdash, readInt_of_leadingNumber hlead hfits',
      readInt_of_leadingNumber ht hfits, hmax]
    exact countingLoop_intMax (narrow_le _) numerics

theorem not_unreadable_of_ok {token : List Char} {numerics ns : List Int}
    (h : parseToken numerics token = .ok ns) : ¬Unreadable token := by
  intro hunreadable
  obtain ⟨e, he⟩ := parseToken_unreadable hunreadable numerics
  rw [h] at he
  cases he

theorem not_reachesIntMax_of_ok {token : List Char} {numerics ns : List Int}
    (h : parseToken numerics token = .ok ns) : ¬ReachesIntMax token := by
  intro hmax
  have hoverflow := parseToken_reachesIntMax hmax numerics
  rw [h] at hoverflow
  cases hoverflow

/-- What one token does. -/
theorem token_cases (token : List Char) :
    Unreadable token ∨ ReachesIntMax token ∨
      ∃ ns, ∀ numerics, parseToken numerics token = .ok (numerics ++ ns) := by
  by_cases hdash : '-' ∈ token
  · obtain ⟨s, t, rfl, hs⟩ := List.eq_append_cons_of_mem hdash
    by_cases hstart : NoNumber FitsLongLong s
    · exact .inl (.start hs hstart)
    by_cases hlast : NoNumber FitsLongLong t
    · exact .inl (.last hs hlast)
    obtain ⟨minus, n, hlead, hfits⟩ := not_noNumber_iff.1 hlast
    by_cases hmax : narrow (withSign minus n) = intMax
    · exact .inr (.inl (.range hs hstart hlead hfits hmax))
    · obtain ⟨minus', n', hlead', hfits'⟩ := not_noNumber_iff.1 hstart
      have hlt : narrow (withSign minus n) < intMax := by
        have hle := narrow_le (withSign minus n)
        omega
      refine .inr (.inr ⟨ints (narrow (withSign minus' n')) (narrow (withSign minus n)), ?_⟩)
      intro numerics
      rw [parseToken_range hs, readInt_of_leadingNumber hlead' hfits',
        readInt_of_leadingNumber hlead hfits]
      exact countingLoop_of_lt hlt _ numerics
  · by_cases hnumber : NoNumber FitsLongLong token
    · exact .inl (.number hdash hnumber)
    · obtain ⟨minus, n, hlead, hfits⟩ := not_noNumber_iff.1 hnumber
      refine .inr (.inr ⟨[narrow (withSign minus n)], ?_⟩)
      intro numerics
      rw [parseToken_number hdash, readInt_of_leadingNumber hlead hfits]
      rfl

/-! ## All tokens -/

/-- A token cannot be read, and no range before it reaches the greatest `int`. -/
inductive ThrowsAt : List (List Char) → Prop where
  | here {token : List Char} {rest : List (List Char)} (h : Unreadable token) :
      ThrowsAt (token :: rest)
  | later {token : List Char} {rest : List (List Char)} (htoken : ¬ReachesIntMax token)
      (h : ThrowsAt rest) : ThrowsAt (token :: rest)

/-- A reader's exception leaves the loop exactly when some token gives it. -/
theorem run_throws_iff (ts : List (List Char)) (numerics : List Int) :
    (∃ e, ts.foldlM parseToken numerics = .error (.readError e)) ↔ ThrowsAt ts := by
  induction ts generalizing numerics with
  | nil =>
    constructor
    · rintro ⟨e, he⟩
      cases he
    · intro h
      cases h
  | cons token ts ih =>
    rw [List.foldlM_cons]
    rcases token_cases token with hunreadable | hmax | ⟨ns, hns⟩
    · obtain ⟨e, he⟩ := parseToken_unreadable hunreadable numerics
      rw [he]
      exact ⟨fun _ => .here hunreadable, fun _ => ⟨e, rfl⟩⟩
    · rw [parseToken_reachesIntMax hmax]
      constructor
      · rintro ⟨e, he⟩
        cases he
      · intro h
        cases h with
        | here hunreadable =>
          obtain ⟨e, he⟩ := parseToken_unreadable hunreadable numerics
          rw [parseToken_reachesIntMax hmax] at he
          cases he
        | later hnot _ => exact absurd hmax hnot
    · rw [hns]
      apply (ih (numerics ++ ns)).trans
      constructor
      · apply ThrowsAt.later
        exact not_reachesIntMax_of_ok (hns numerics)
      · intro h
        cases h with
        | here hunreadable => exact absurd hunreadable (not_unreadable_of_ok (hns numerics))
        | later _ h => exact h

/-- A loop that returns has met no range that reaches the greatest `int`. -/
theorem run_ok {ts : List (List Char)} {numerics ns : List Int}
    (hrun : ts.foldlM parseToken numerics = .ok ns) : ∀ token ∈ ts, ¬ReachesIntMax token := by
  induction ts generalizing numerics with
  | nil =>
    intro token htoken
    cases htoken
  | cons token ts ih =>
    rw [List.foldlM_cons] at hrun
    rcases token_cases token with hunreadable | hmax | ⟨ns', hns'⟩
    · obtain ⟨e, he⟩ := parseToken_unreadable hunreadable numerics
      rw [he] at hrun
      cases hrun
    · rw [parseToken_reachesIntMax hmax] at hrun
      cases hrun
    · rw [hns'] at hrun
      rw [List.forall_mem_cons]
      exact ⟨not_reachesIntMax_of_ok (hns' numerics), ih hrun⟩

/-! ## What texts mean -/

/-- The numbers a token stands for: itself, or the range between its bounds, which are of type
`int`. -/
inductive TokenMeans : List Char → List Int → Prop where
  | number {s : List Char} {n : Nat} (h : Numeral s n) (hn : (n : Int) ≤ intMax) :
      TokenMeans s [(n : Int)]
  | range {s t : List Char} {a b : Nat} (ha : Numeral s a) (hb : Numeral t b)
      (hamax : (a : Int) ≤ intMax) (hbmax : (b : Int) ≤ intMax) :
      TokenMeans (s ++ '-' :: t) (ints a b)

/-- `text` is a list, separated by commas, of tokens that stand for `ns`. -/
def TextMeans (text : List Char) (ns : List Int) : Prop :=
  ∃ items : List (List Char × List Int), text = [','].intercalate (items.map Prod.fst) ∧
    (∀ item ∈ items, TokenMeans item.1 item.2) ∧ ns = items.flatMap Prod.snd

theorem TextMeans.nonneg {text : List Char} {ns : List Int} (h : TextMeans text ns) :
    ∀ n ∈ ns, 0 ≤ n := by
  obtain ⟨items, -, hmeans, rfl⟩ := h
  intro n hn
  obtain ⟨⟨token, numbers⟩, hitem, hn⟩ := List.mem_flatMap.1 hn
  cases hmeans (token, numbers) hitem with
  | number _ _ =>
    rw [List.mem_singleton.1 hn]
    omega
  | range _ _ _ _ =>
    have hlow := (mem_ints.1 hn).1
    omega

theorem TokenMeans.ne_nil {token : List Char} {ns : List Int} (h : TokenMeans token ns) :
    token ≠ [] := by
  cases h with
  | number h _ => exact h.ne_nil
  | range ha _ _ _ => simp

theorem TokenMeans.comma_not_mem {token : List Char} {ns : List Int} (h : TokenMeans token ns) :
    ',' ∉ token := by
  cases h with
  | number h _ => exact h.not_mem (by decide)
  | range ha hb _ _ =>
    rw [List.mem_append, List.mem_cons, not_or, not_or]
    exact ⟨ha.not_mem (by decide), by decide, hb.not_mem (by decide)⟩

theorem fitsLongLong_of_le {n : Nat} (hn : (n : Int) ≤ intMax) : FitsLongLong false n := by
  rw [intMax] at hn
  have hsign : withSign false n = n := rfl
  rw [FitsLongLong, hsign]
  omega

theorem readInt_of_numeral {s : List Char} {n : Nat} (h : Numeral s n) (hn : (n : Int) ≤ intMax) :
    readInt s = .ok (n : Int) := by
  rw [readInt_of_leadingNumber (leadingNumber_of_numeral h) (fitsLongLong_of_le hn)]
  exact congrArg Except.ok (narrow_of_nat hn)

/-- A token that stands for numbers adds them, unless it is a range up to the greatest `int`. -/
theorem parseToken_of_means {token : List Char} {ns : List Int} (h : TokenMeans token ns)
    (hmax : ¬ReachesIntMax token) (numerics : List Int) :
    parseToken numerics token = .ok (numerics ++ ns) := by
  cases h with
  | number h hn =>
    rw [parseToken_number (h.not_mem (by decide)), readInt_of_numeral h hn]
    rfl
  | @range s t a b ha hb hamax hbmax =>
    have hdash : '-' ∉ s := ha.not_mem (by decide)
    by_cases hb' : (b : Int) = intMax
    · refine absurd (ReachesIntMax.range hdash ?_ (leadingNumber_of_numeral hb)
        (fitsLongLong_of_le hbmax) ((narrow_of_nat hbmax).trans hb')) hmax
      exact fun hno => hno false a (leadingNumber_of_numeral ha) (fitsLongLong_of_le hamax)
    · rw [parseToken_range hdash, readInt_of_numeral ha hamax, readInt_of_numeral hb hbmax]
      exact countingLoop_of_lt (by omega) a numerics

/-- A list of tokens that stand for numbers is read as these numbers, unless one of them is a range
up to the greatest `int`. -/
theorem run_of_means {items : List (List Char × List Int)}
    (hmeans : ∀ item ∈ items, TokenMeans item.1 item.2)
    (hmax : ∀ item ∈ items, ¬ReachesIntMax item.1) (numerics : List Int) :
    (items.map Prod.fst).foldlM parseToken numerics =
      .ok (numerics ++ items.flatMap Prod.snd) := by
  induction items generalizing numerics with
  | nil => exact congrArg Except.ok (List.append_nil numerics).symm
  | cons item items ih =>
    rw [List.forall_mem_cons] at hmeans hmax
    rw [List.map_cons, List.foldlM_cons, parseToken_of_means hmeans.1 hmax.1]
    have hrest := ih hmeans.2 hmax.2 (numerics ++ item.2)
    rw [List.append_assoc] at hrest
    exact hrest

theorem tokens_of_means {items : List (List Char × List Int)}
    (hmeans : ∀ item ∈ items, TokenMeans item.1 item.2) :
    tokens ',' ([','].intercalate (items.map Prod.fst)) = items.map Prod.fst := by
  apply tokens_intercalate
  · intro p hp
    obtain ⟨item, hitem, rfl⟩ := List.mem_map.1 hp
    exact (hmeans item hitem).comma_not_mem
  · intro p hp
    obtain ⟨item, hitem, rfl⟩ := List.mem_map.1 hp
    exact (hmeans item hitem).ne_nil

/-- The function reads the texts it is for, except for ranges up to the greatest `int`. -/
theorem parseNumericRanges_of_means (items : List (List Char × List Int))
    (hmeans : ∀ item ∈ items, TokenMeans item.1 item.2)
    (hmax : ∀ item ∈ items, ¬ReachesIntMax item.1) :
    parseNumericRanges ([','].intercalate (items.map Prod.fst)) =
      .ok (items.flatMap Prod.snd) := by
  rw [parseNumericRanges, tokens_of_means hmeans]
  exact run_of_means hmeans hmax []

/-! ## Printing -/

/-- A number or a range of a printed list. All of them are below the greatest `int`. -/
inductive RangeItem where
  | number (n : Nat) (hn : n < 2 ^ 31 - 1)
  | range (a b : Nat) (hab : a ≤ b) (hb : b < 2 ^ 31 - 1)

namespace RangeItem

/-- The item in decimal. -/
def print : RangeItem → List Char
  | number n _ => Nat.toDigits 10 n
  | range a b _ _ => Nat.toDigits 10 a ++ '-' :: Nat.toDigits 10 b

/-- The numbers of the item. -/
def expand : RangeItem → List Int
  | number n _ => [(n : Int)]
  | range a b _ _ => ints a b

/-- The least number of the item. -/
def first : RangeItem → Nat
  | number n _ => n
  | range a _ _ _ => a

/-- The greatest number of the item. -/
def last : RangeItem → Nat
  | number n _ => n
  | range _ b _ _ => b

theorem means (item : RangeItem) : TokenMeans item.print item.expand := by
  cases item with
  | number n hn =>
    apply TokenMeans.number (numeral_toDigits n)
    rw [intMax]
    omega
  | range a b hab hb =>
    apply TokenMeans.range (numeral_toDigits a) (numeral_toDigits b) <;> rw [intMax] <;> omega

theorem not_reachesIntMax (item : RangeItem) : ¬ReachesIntMax item.print := by
  intro h
  generalize htoken : item.print = token at h
  cases h with
  | @range s t minus n hdash _ ht _ hmax =>
    cases item with
    | number m hm =>
      have hnot : '-' ∉ Nat.toDigits 10 m := (numeral_toDigits m).not_mem (by decide)
      rw [print] at htoken
      rw [htoken, List.mem_append] at hnot
      exact hnot (.inr List.mem_cons_self)
    | range a b hab hb =>
      -- the token has one dash, so `t` is what is printed for `b`
      have hnot : '-' ∉ Nat.toDigits 10 a := (numeral_toDigits a).not_mem (by decide)
      have hb' : (b : Int) ≤ intMax := by
        rw [intMax]
        omega
      have hnot' : '-' ∉ Nat.toDigits 10 b := (numeral_toDigits b).not_mem (by decide)
      obtain ⟨rfl, -, rfl⟩ := (List.append_cons_inj_of_notMem hnot hnot').1 htoken
      rw [leadingNumber_of_numeral (numeral_toDigits b)] at ht
      cases ht
      rw [withSign, if_neg (by decide), narrow_of_nat hb', intMax] at hmax
      omega

theorem mem_expand {item : RangeItem} {v : Int} :
    v ∈ item.expand ↔ item.first ≤ v ∧ v ≤ item.last := by
  cases item with
  | number n hn =>
    rw [expand, first, last, List.mem_singleton]
    omega
  | range a b hab hb => exact mem_ints

theorem expand_pairwise (item : RangeItem) : item.expand.Pairwise (· < ·) := by
  cases item with
  | number n hn => exact List.pairwise_singleton _ _
  | range a b hab hb => exact ints_pairwise a b

end RangeItem

/-- The items in decimal, joined by commas. -/
def printItems (items : List RangeItem) : List Char := [','].intercalate (items.map RangeItem.print)

/-- Each item ends before the next one starts. -/
def Increasing (items : List RangeItem) : Prop := items.Pairwise fun i j => i.last < j.first

theorem expand_increasing {items : List RangeItem} (h : Increasing items) :
    (items.flatMap RangeItem.expand).Pairwise (· < ·) := by
  rw [List.pairwise_flatMap]
  refine ⟨fun item _ => item.expand_pairwise, h.imp ?_⟩
  intro i j hij v hv w hw
  rw [RangeItem.mem_expand] at hv hw
  omega

/-- No item is printed with a character that is neither a digit nor a dash. -/
theorem RangeItem.not_mem_print (item : RangeItem) {c : Char} (hdigit : c.isDigit = false)
    (hdash : c ≠ '-') : c ∉ item.print := by
  cases item with
  | number n hn => exact (numeral_toDigits n).not_mem hdigit
  | range a b hab hb =>
    rw [print, List.mem_append, List.mem_cons, not_or, not_or]
    exact ⟨(numeral_toDigits a).not_mem hdigit, hdash, (numeral_toDigits b).not_mem hdigit⟩

theorem not_mem_printItems (items : List RangeItem) {c : Char} (hdigit : c.isDigit = false)
    (hdash : c ≠ '-') (hcomma : c ≠ ',') : c ∉ printItems items := by
  induction items with
  | nil => exact List.not_mem_nil
  | cons item items ih =>
    have hitem := item.not_mem_print hdigit hdash
    cases items with
    | nil =>
      rw [printItems, List.map_singleton, List.intercalate_singleton]
      exact hitem
    | cons next items =>
      rw [printItems, List.map_cons] at ih ⊢
      rw [List.map_cons, List.intercalate_cons_cons, List.append_assoc, List.singleton_append,
        List.mem_append, List.mem_cons, not_or, not_or]
      exact ⟨hitem, hcomma, ih⟩

/-- Printed items are parsed as their numbers. -/
theorem parseNumericRanges_items (items : List RangeItem) :
    parseNumericRanges (printItems items) = .ok (items.flatMap RangeItem.expand) := by
  have hread := parseNumericRanges_of_means
    (items.map fun item => (item.print, item.expand)) ?_ ?_
  · rw [List.map_map, List.flatMap_map] at hread
    exact hread
  · rw [List.forall_mem_map]
    exact fun item _ => item.means
  · rw [List.forall_mem_map]
    exact fun item _ => item.not_reachesIntMax

/-- Parsing undoes printing, and an increasing list of items is parsed as increasing numbers. -/
theorem parseNumericRanges_print (items : List RangeItem) :
    parseNumericRanges (printItems items) = .ok (items.flatMap RangeItem.expand) ∧
      (Increasing items → (items.flatMap RangeItem.expand).Pairwise (· < ·)) :=
  ⟨parseNumericRanges_items items, expand_increasing⟩

/-! ## What is accepted -/

/-- The text is a list of numbers and ranges with bounds of type `int`. -/
def IsRangeList (text : List Char) : Prop := ∃ ns, TextMeans text ns

/-- The function throws, or the text is a list of numbers and ranges and what is returned are the
numbers it stands for. -/
def OnlyRepresentable (input : List Char) : Prop :=
  (∃ e, parseNumericRanges input = .error (.readError e)) ∨
    ∃ ns, parseNumericRanges input = .ok ns ∧ TextMeans input ns

/-- Exactly the texts with a token that makes a reader throw, before any range that reaches the
greatest `int`, and the lists of numbers and ranges without such a range are treated as they should
be. -/
theorem onlyRepresentable_iff (input : List Char) :
    OnlyRepresentable input ↔
      ThrowsAt (tokens ',' input) ∨
        IsRangeList input ∧ ∀ token ∈ tokens ',' input, ¬ReachesIntMax token := by
  constructor
  · rintro (hthrow | ⟨ns, hok, hmeans⟩)
    · exact .inl ((run_throws_iff _ []).1 hthrow)
    · exact .inr ⟨⟨ns, hmeans⟩, run_ok hok⟩
  · rintro (hthrow | ⟨⟨ns, items, rfl, hmeans, rfl⟩, hmax⟩)
    · exact .inl ((run_throws_iff _ []).2 hthrow)
    · rw [tokens_of_means hmeans, List.forall_mem_map] at hmax
      exact .inr ⟨_, parseNumericRanges_of_means items hmeans hmax, items, rfl, hmeans, rfl⟩

/-- A number that does not fit in `int` is returned as another one. -/
theorem parseNumericRanges_wraps :
    ¬OnlyRepresentable ['3', '0', '0', '0', '0', '0', '0', '0', '0', '0'] := by
  have hparse : parseNumericRanges ['3', '0', '0', '0', '0', '0', '0', '0', '0', '0'] =
      .ok [-1294967296] := by decide
  rintro (⟨e, he⟩ | ⟨ns, hns, hmeans⟩)
  · rw [hparse] at he
    cases he
  · rw [hparse] at hns
    obtain rfl := Except.ok.inj hns
    have hnonneg := hmeans.nonneg (-1294967296) (List.mem_singleton.2 rfl)
    omega

end PipelineTools.Utils
