import Mathlib.Tactic.Common
import QueryPlan.Decimal.Meaning
import QueryPlan.Json.Number

/-!
# Numerals survive writing

A numeral that follows the grammar of JSON numbers is read back as it was written, if what stands
behind it cannot be taken for more of the numeral.  The numerals of integers follow the grammar, and
they stand for these integers.

Main results:

- Definition `Decimal.Numeral.Proper`: the grammar of JSON numbers.
- Theorem `scanNumber_chars`: a proper numeral is read back.
- Theorems `Decimal.Numeral.proper_ofNat` and `Decimal.Numeral.proper_ofInt`: integers have proper
  numerals.
- Theorems `Decimal.Numeral.word?_ofNat` and `Decimal.Numeral.int64?_ofInt`: these numerals stand for
  the integers.
-/

namespace QueryPlan

/-! ## The grammar -/

namespace Decimal.Numeral

/-- The numeral follows the grammar of JSON numbers. -/
structure Proper (n : Numeral) : Prop where
  whole_ne_nil : n.whole ≠ []
  whole_digits : ∀ c ∈ n.whole, c.isDigit = true
  /-- A zero in front is the only digit in front of the decimal point. -/
  no_leading_zero : ∀ c rest, n.whole ≠ '0' :: c :: rest
  fraction_digits : ∀ c ∈ n.fraction, c.isDigit = true
  exponent_ne_nil : ∀ e, n.exponent = some e → e.digits ≠ []
  exponent_digits : ∀ e, n.exponent = some e → ∀ c ∈ e.digits, c.isDigit = true

/-- The decimal point and the digits behind it, as they are written. -/
def fractionChars (n : Numeral) : List Char :=
  if n.fraction.isEmpty then [] else '.' :: n.fraction

/-- The power of ten, as it is written. -/
def exponentChars (n : Numeral) : List Char :=
  (n.exponent.map Exponent.chars).getD []

/-- The characters of a numeral are its sign, its digits, its fraction and its power of ten. -/
theorem chars_append (n : Numeral) (rest : List Char) :
    n.chars ++ rest =
      sign n.negative ++ (n.whole ++ (n.fractionChars ++ (n.exponentChars ++ rest))) := by
  simp [chars, fractionChars, exponentChars]

/-- A proper numeral begins with a minus sign or a digit. -/
theorem Proper.chars_eq_cons {n : Numeral} (h : n.Proper) :
    ∃ c s, n.chars = c :: s ∧ (c = '-' ∨ c.isDigit = true) := by
  obtain ⟨d, digits, hd⟩ := List.exists_cons_of_ne_nil h.whole_ne_nil
  have hdigit : d.isDigit = true := h.whole_digits d (by simp [hd])
  cases hneg : n.negative with
  | true => exact ⟨'-', _, by rw [chars, hneg]; rfl, .inl rfl⟩
  | false => exact ⟨d, _, by rw [chars, hneg, hd]; rfl, .inr hdigit⟩

end Decimal.Numeral

namespace Json

/-- The text does not begin with a character that a numeral might go on with. -/
structure EndsNumeral (rest : List Char) : Prop where
  no_digit : ∀ c ∈ rest.head?, c.isDigit = false
  no_point : rest.head? ≠ some '.'
  no_power : rest.head? ≠ some 'e' ∧ rest.head? ≠ some 'E'

/-- A numeral ends at the end of the text. -/
theorem endsNumeral_nil : EndsNumeral [] :=
  ⟨by simp, by simp, by simp⟩

/-- A numeral ends in front of a character that is neither a digit nor a decimal point nor the letter
of a power of ten. -/
theorem endsNumeral_cons {c : Char} (rest : List Char) (hdigit : c.isDigit = false)
    (hpoint : c ≠ '.') (hpower : c ≠ 'e' ∧ c ≠ 'E') : EndsNumeral (c :: rest) :=
  ⟨by simpa using hdigit, by simpa using hpoint, by simpa using hpower⟩

/-! ## Reading a numeral back -/

/-- Digits are read up to the first character that is none. -/
theorem scanDigits_append {digits rest : List Char} (hdigits : ∀ c ∈ digits, c.isDigit = true)
    (hrest : ∀ c ∈ rest.head?, c.isDigit = false) : scanDigits (digits ++ rest) = (digits, rest) := by
  have hstop : rest.takeWhile Char.isDigit = [] ∧ rest.dropWhile Char.isDigit = rest := by
    cases rest with
    | nil => exact ⟨rfl, rfl⟩
    | cons c rest =>
      have hc : ¬c.isDigit = true := by simpa using hrest c
      exact ⟨List.takeWhile_cons_of_neg hc, List.dropWhile_cons_of_neg hc⟩
  rw [scanDigits, List.takeWhile_append_of_pos hdigits, List.dropWhile_append_of_pos hdigits, hstop.1,
    hstop.2, List.append_nil]

section Parts

variable {n : Decimal.Numeral} {rest : List Char}

/-- A power of ten is read back from where it is written. -/
theorem scanExponent_chars (h : n.Proper) (hrest : EndsNumeral rest) :
    scanExponent (n.exponentChars ++ rest) = some (n.exponent, rest) := by
  rw [Decimal.Numeral.exponentChars]
  cases he : n.exponent with
  | none =>
    obtain ⟨he, hE⟩ := hrest.no_power
    cases rest with
    | nil => rfl
    | cons c rest =>
      have hc : c ≠ 'e' ∧ c ≠ 'E' := ⟨by simpa using he, by simpa using hE⟩
      simp [scanExponent, hc]
  | some e =>
    have hdigits := scanDigits_append (h.exponent_digits e he) hrest.no_digit
    have hpower : scanPower ((if e.negative then '-' else '+') :: (e.digits ++ rest)) =
        some (some e, rest) := by
      obtain ⟨d, digits, hd⟩ := List.exists_cons_of_ne_nil (h.exponent_ne_nil e he)
      obtain ⟨negative, _⟩ := e
      cases negative <;> simp_all [scanPower, scanSign]
    simpa [Decimal.Exponent.chars, scanExponent] using hpower

/-- A fraction is read back from where it is written. -/
theorem scanFraction_chars (h : n.Proper) (hdigit : ∀ c ∈ rest.head?, c.isDigit = false)
    (hpoint : rest.head? ≠ some '.') :
    scanFraction (n.fractionChars ++ rest) = some (n.fraction, rest) := by
  rw [Decimal.Numeral.fractionChars]
  cases hf : n.fraction with
  | nil =>
    cases rest with
    | nil => rfl
    | cons c rest =>
      have hc : c ≠ '.' := by simpa using hpoint
      simp [scanFraction, hc]
  | cons d digits =>
    have hdigits := scanDigits_append h.fraction_digits hdigit
    rw [hf, List.cons_append] at hdigits
    simp [scanFraction, hdigits]

/-- The digits in front of the decimal point are read back from where they are written. -/
theorem scanWhole_chars (h : n.Proper) (hdigit : ∀ c ∈ rest.head?, c.isDigit = false) :
    scanWhole (n.whole ++ rest) = some (n.whole, rest) := by
  rw [scanWhole, scanDigits_append h.whole_digits hdigit]
  split
  · rename_i hw
    exact absurd (Prod.mk.inj hw).1 h.whole_ne_nil
  · rename_i hw
    exact absurd (Prod.mk.inj hw).1 (h.no_leading_zero _ _)
  · rfl

end Parts

/-- What is written behind the digits does not begin with a digit, nor does the power of ten begin with
a decimal point. -/
theorem head?_exponentChars (n : Decimal.Numeral) {rest : List Char} (hrest : EndsNumeral rest) :
    (∀ c ∈ (n.exponentChars ++ rest).head?, c.isDigit = false) ∧
      (n.exponentChars ++ rest).head? ≠ some '.' := by
  rw [Decimal.Numeral.exponentChars]
  cases n.exponent with
  | none => exact ⟨hrest.no_digit, hrest.no_point⟩
  | some e => exact ⟨by simp [Decimal.Exponent.chars], by simp [Decimal.Exponent.chars]⟩

/-- What is written behind the digits in front of the decimal point does not begin with a digit. -/
theorem head?_fractionChars (n : Decimal.Numeral) {rest : List Char}
    (hrest : ∀ c ∈ rest.head?, c.isDigit = false) :
    ∀ c ∈ (n.fractionChars ++ rest).head?, c.isDigit = false := by
  rw [Decimal.Numeral.fractionChars]
  cases n.fraction with
  | nil => exact hrest
  | cons d digits => simp

/-- A numeral without its sign is read back. -/
theorem scanMagnitude_chars {n : Decimal.Numeral} {rest : List Char} (h : n.Proper)
    (hrest : EndsNumeral rest) :
    scanMagnitude n.negative (n.whole ++ (n.fractionChars ++ (n.exponentChars ++ rest))) =
      some (n, rest) := by
  obtain ⟨hdigit, hpoint⟩ := head?_exponentChars n hrest
  have hwhole := scanWhole_chars h (head?_fractionChars n hdigit)
  have hfraction := scanFraction_chars h hdigit hpoint
  have hexponent := scanExponent_chars h hrest
  simp [scanMagnitude, hwhole, hfraction, hexponent]

/-- A proper numeral is read back. -/
theorem scanNumber_chars {n : Decimal.Numeral} {rest : List Char} (h : n.Proper)
    (hrest : EndsNumeral rest) : scanNumber (n.chars ++ rest) = some (n, rest) := by
  have hmagnitude := scanMagnitude_chars h hrest
  rw [Decimal.Numeral.chars_append, Decimal.Numeral.sign]
  cases hneg : n.negative with
  | true =>
    rw [hneg] at hmagnitude
    simpa [scanNumber] using hmagnitude
  | false =>
    rw [hneg] at hmagnitude
    obtain ⟨d, digits, hd⟩ := List.exists_cons_of_ne_nil h.whole_ne_nil
    have hminus : d ≠ '-' := by
      rintro rfl
      exact absurd (h.whole_digits '-' (by simp [hd])) (by decide)
    rw [hd] at hmagnitude ⊢
    simpa [scanNumber, hminus] using hmagnitude

end Json

/-! ## Integers -/

namespace Decimal.Numeral

/-- The digits of a natural number do not begin with a zero that other digits follow. -/
theorem toDigits_ne_zero_cons (n : Nat) (c : Char) (rest : List Char) :
    Nat.toDigits 10 n ≠ '0' :: c :: rest := by
  induction n using Nat.strongRecOn generalizing c rest with
  | _ n ih =>
    by_cases hn : n < 10
    · rw [Nat.toDigits_of_lt_base hn]
      simp
    · have hdiv : 0 < n / 10 := by omega
      rw [Nat.toDigits_of_base_le (by decide) (by omega)]
      intro h
      obtain ⟨d, digits, hd⟩ := List.exists_cons_of_ne_nil (Nat.toDigits_ne_nil (b := 10) (n := n / 10))
      rw [hd, List.cons_append, List.cons.injEq] at h
      obtain ⟨rfl, -⟩ := h
      cases digits with
      | cons d' digits => exact ih (n / 10) (by omega) d' digits hd
      | nil =>
        have hvalue : n / 10 = 0 := by
          rw [← Nat.ofDigitChars_ten_toDigits (n := n / 10), hd]
          rfl
        omega

/-- A numeral that is nothing but the digits of a number is proper. -/
theorem proper_of_toDigits {n : Numeral} {k : Nat} (hwhole : n.whole = Nat.toDigits 10 k)
    (hfraction : n.fraction = []) (hexponent : n.exponent = none) : n.Proper where
  whole_ne_nil := hwhole ▸ Nat.toDigits_ne_nil
  whole_digits c hc := Nat.isDigit_of_mem_toDigits (by decide) (by decide) (hwhole ▸ hc)
  no_leading_zero c rest := hwhole ▸ toDigits_ne_zero_cons k c rest
  fraction_digits c hc := absurd hc (by simp [hfraction])
  exponent_ne_nil e he := absurd he (by simp [hexponent])
  exponent_digits e he := absurd he (by simp [hexponent])

/-- The numeral of a natural number is proper. -/
theorem proper_ofNat (n : Nat) : (ofNat n).Proper :=
  proper_of_toDigits rfl rfl rfl

/-- The numeral of an integer is proper. -/
theorem proper_ofInt (i : Int) : (ofInt i).Proper :=
  proper_of_toDigits rfl rfl rfl

/-- The numeral of a natural number stands for that number. -/
theorem int?_ofNat (n : Nat) : (ofNat n).int? = some (n : Int) := by
  simp [int?, ofNat]

/-- The numeral of an integer stands for that integer. -/
theorem int?_ofInt (i : Int) : (ofInt i).int? = some i := by
  simp only [int?, ofInt, List.isEmpty_nil, Option.isNone_none, Bool.and_self, if_true,
    Nat.ofDigitChars_ten_toDigits, decide_eq_true_eq]
  by_cases hi : i < 0
  · rw [if_pos hi, if_neg (by omega)]
    congr 1
    omega
  · rw [if_neg hi]
    congr 1
    omega

/-- A natural number below `2 ^ 64` is what its numeral stands for. -/
theorem word?_ofNat {n : Nat} (h : n < UInt64.size) : (ofNat n).word? = some n := by
  rw [word?, int?_ofNat]
  exact if_pos ⟨Int.natCast_nonneg n, h⟩

/-- A 64-bit integer is what its numeral stands for. -/
theorem int64?_ofInt (n : Int64) : (ofInt n.toInt).int64? = some n := by
  have hmin := n.minValue_le_toInt
  have hmax := n.toInt_le
  rw [int64?, int?_ofInt]
  refine (if_pos ⟨hmin, hmax⟩).trans ?_
  rw [Int64.ofInt_toInt]

end Decimal.Numeral

end QueryPlan
