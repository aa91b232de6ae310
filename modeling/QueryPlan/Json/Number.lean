import QueryPlan.Json.Basic

/-!
# JSON numbers

The grammar of JSON numbers.  Each scanner reads one part of a number from the beginning of a text
and returns the rest of the text.
-/

namespace QueryPlan.Json

/-- The digits at the beginning of a text, and the rest. -/
def scanDigits (s : List Char) : List Char × List Char :=
  (s.takeWhile Char.isDigit, s.dropWhile Char.isDigit)

/-- Reads the digits in front of the decimal point.  A zero is not followed by other digits. -/
def scanWhole (s : List Char) : Option (List Char × List Char) :=
  match scanDigits s with
  | ([], _) => none
  | ('0' :: _ :: _, _) => none
  | found => some found

/-- Reads the decimal point and the digits behind it, if there are any. -/
def scanFraction : List Char → Option (List Char × List Char)
  | '.' :: rest =>
    match scanDigits rest with
    | ([], _) => none
    | found => some found
  | s => some ([], s)

/-- Reads a sign. -/
def scanSign : List Char → Bool × List Char
  | '-' :: rest => (true, rest)
  | '+' :: rest => (false, rest)
  | s => (false, s)

/-- Reads the digits of a power of ten with a sign in front of them. -/
def scanPower (s : List Char) : Option (Option Decimal.Exponent × List Char) :=
  let (negative, rest) := scanSign s
  match scanDigits rest with
  | ([], _) => none
  | (digits, rest) => some (some ⟨negative, digits⟩, rest)

/-- Reads a power of ten, if there is one. -/
def scanExponent : List Char → Option (Option Decimal.Exponent × List Char)
  | 'e' :: rest => scanPower rest
  | 'E' :: rest => scanPower rest
  | s => some (none, s)

/-- Reads a number without its sign. -/
def scanMagnitude (negative : Bool) (s : List Char) : Option (Decimal.Numeral × List Char) := do
  let (whole, s) ← scanWhole s
  let (fraction, s) ← scanFraction s
  let (exponent, s) ← scanExponent s
  return (⟨negative, whole, fraction, exponent⟩, s)

/-- Reads a number. -/
def scanNumber : List Char → Option (Decimal.Numeral × List Char)
  | '-' :: rest => scanMagnitude true rest
  | s => scanMagnitude false s

/-! ## What is left is shorter -/

/-- A text does not get longer when characters are dropped from its beginning. -/
theorem length_dropWhile_le (p : Char → Bool) (s : List Char) :
    (s.dropWhile p).length ≤ s.length :=
  (List.dropWhile_sublist p).length_le

/-- Reading the digits in front of the decimal point uses up at least one character. -/
theorem scanWhole_length {s : List Char} {r : List Char × List Char} (h : scanWhole s = some r) :
    r.2.length < s.length := by
  have happ := List.takeWhile_append_dropWhile (p := Char.isDigit) (l := s)
  unfold scanWhole scanDigits at h
  split at h
  · simp at h
  · simp at h
  · rename_i hne _
    cases h
    have hlen := congrArg List.length happ
    rw [List.length_append] at hlen
    have hpos : 0 < (s.takeWhile Char.isDigit).length := by
      cases htw : s.takeWhile Char.isDigit with
      | nil => exact absurd (by rw [htw]) (hne (s.dropWhile Char.isDigit))
      | cons a l => simp
    show (s.dropWhile Char.isDigit).length < s.length
    omega

/-- Reading a fraction does not make the text longer. -/
theorem scanFraction_length {s : List Char} {r : List Char × List Char}
    (h : scanFraction s = some r) : r.2.length ≤ s.length := by
  unfold scanFraction at h
  split at h
  · rename_i rest
    have hle := length_dropWhile_le Char.isDigit rest
    unfold scanDigits at h
    split at h
    · simp at h
    · cases h
      simp only [List.length_cons]
      omega
  · cases h
    exact Nat.le_refl _

/-- Reading a sign does not make the text longer. -/
theorem scanSign_length (s : List Char) : (scanSign s).2.length ≤ s.length := by
  unfold scanSign
  split <;> simp

/-- Reading the digits of a power of ten does not make the text longer. -/
theorem scanPower_length {s : List Char} {r : Option Decimal.Exponent × List Char}
    (h : scanPower s = some r) : r.2.length ≤ s.length := by
  have hsign := scanSign_length s
  unfold scanPower scanDigits at h
  have hle := length_dropWhile_le Char.isDigit (scanSign s).2
  grind

/-- Reading a power of ten does not make the text longer. -/
theorem scanExponent_length {s : List Char} {r : Option Decimal.Exponent × List Char}
    (h : scanExponent s = some r) : r.2.length ≤ s.length := by
  unfold scanExponent at h
  split at h
  · exact Nat.le_succ_of_le (scanPower_length h)
  · exact Nat.le_succ_of_le (scanPower_length h)
  · cases h
    exact Nat.le_refl _

/-- Reading a number without its sign uses up at least one character. -/
theorem scanMagnitude_length {negative : Bool} {s : List Char} {r : Decimal.Numeral × List Char}
    (h : scanMagnitude negative s = some r) : r.2.length < s.length := by
  obtain ⟨⟨whole, s₁⟩, hw, h⟩ := Option.bind_eq_some_iff.1 h
  obtain ⟨⟨fraction, s₂⟩, hf, h⟩ := Option.bind_eq_some_iff.1 h
  obtain ⟨⟨exponent, s₃⟩, he, h⟩ := Option.bind_eq_some_iff.1 h
  cases h
  have h₁ := scanWhole_length hw
  have h₂ := scanFraction_length hf
  have h₃ := scanExponent_length he
  exact Nat.lt_of_le_of_lt (Nat.le_trans h₃ h₂) h₁

/-- Reading a number uses up at least one character. -/
theorem scanNumber_length {s : List Char} {r : Decimal.Numeral × List Char}
    (h : scanNumber s = some r) : r.2.length < s.length := by
  unfold scanNumber at h
  split at h
  · exact Nat.lt_succ_of_lt (scanMagnitude_length h)
  · exact scanMagnitude_length h

end QueryPlan.Json
