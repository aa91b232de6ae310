import Mathlib.Algebra.Group.Nat.Defs
import Mathlib.Data.List.Basic
import Mathlib.Logic.Function.Basic
import Mathlib.Tactic.Common
import QueryPlan.Column.Literal

/-!
# Column literals are read as they are written

The grammar of column literals is stated apart from the function that reads them: a literal is an
alias that is not empty, a dot, and a numeral.  The numeral contains no dot, so the dot is the last one
of the text, whatever characters the alias is made of.

Main results:

- Theorem `splitLastDot_eq_some_iff`: the text before the last dot and the text after it.
- Theorem `readDigits_eq_ok_iff`: which digits are read, and as which number.
- Theorem `readIndex_eq_ok_iff`: the positions that are read are the numerals in range.
- Theorem `ofLiteral_exact`: the literals that are read are those of the grammar, and columns are read
  back from their text.
-/

namespace QueryPlan.Column

/-! ## The grammar -/

/-- The text writes a number in digits, and it writes at least one. -/
def Digits (s : List Char) (n : Nat) : Prop :=
  s ≠ [] ∧ (∀ c ∈ s, c.isDigit = true) ∧ Nat.ofDigitChars 10 s 0 = n

/-- The text writes a number in digits, with at most one plus sign in front of them. -/
inductive Numeral : List Char → Nat → Prop
  | plain {s : List Char} {n : Nat} : Digits s n → Numeral s n
  | signed {s : List Char} {n : Nat} : Digits s n → Numeral ('+' :: s) n

/-! ## The last dot -/

/-- A text without a dot cannot be split. -/
theorem splitLastDot_eq_none_iff {s : List Char} : splitLastDot s = none ↔ '.' ∉ s := by
  induction s with
  | nil => simp [splitLastDot]
  | cons c rest ih =>
    rw [splitLastDot, List.mem_cons, not_or, ← ih]
    cases splitLastDot rest with
    | none => simp [eq_comm]
    | some parts => simp

/-- A text is split at a dot behind which there is no other one. -/
theorem splitLastDot_append {front back : List Char} (h : '.' ∉ back) :
    splitLastDot (front ++ '.' :: back) = some (front, back) := by
  induction front with
  | nil => rw [List.nil_append, splitLastDot, splitLastDot_eq_none_iff.2 h, if_pos rfl]
  | cons c front ih => rw [List.cons_append, splitLastDot, ih]

/-- A text is split at its last dot. -/
theorem splitLastDot_eq_some_iff {s front back : List Char} :
    splitLastDot s = some (front, back) ↔ s = front ++ '.' :: back ∧ '.' ∉ back := by
  constructor
  · intro h
    induction s generalizing front with
    | nil => simp [splitLastDot] at h
    | cons c rest ih =>
      rw [splitLastDot] at h
      cases hrest : splitLastDot rest with
      | none =>
        simp only [hrest, Option.ite_none_right_eq_some, Option.some.injEq, Prod.mk.injEq] at h
        obtain ⟨rfl, rfl, rfl⟩ := h
        exact ⟨rfl, splitLastDot_eq_none_iff.1 hrest⟩
      | some parts =>
        simp only [hrest, Option.some.injEq, Prod.mk.injEq] at h
        obtain ⟨rfl, rfl⟩ := h
        obtain ⟨hsplit, hback⟩ := ih hrest
        exact ⟨congrArg (c :: ·) hsplit, hback⟩
  · rintro ⟨rfl, h⟩
    exact splitLastDot_append h

/-! ## Numbers -/

/-- A digit has its distance from zero as its value. -/
theorem digit?_eq_some_iff {c : Char} {d : Nat} :
    digit? c = some d ↔ c.isDigit = true ∧ c.toNat - '0'.toNat = d := by
  simp [digit?]

/-- A number does not get smaller when digits are appended to it. -/
theorem le_ofDigitChars (digits : List Char) (n : Nat) : n ≤ Nat.ofDigitChars 10 digits n := by
  induction digits generalizing n with
  | nil => exact Nat.le_refl n
  | cons c digits ih =>
    rw [Nat.ofDigitChars_cons]
    exact Nat.le_trans (by omega) (ih _)

/-- The digits behind a number that is in range are read if there is nothing but digits and the whole
number is in range. -/
theorem readDigits_eq_ok_iff {n m : Nat} {s : List Char} (hn : n < UInt64.size) :
    readDigits n s = .ok m ↔
      (∀ c ∈ s, c.isDigit = true) ∧ Nat.ofDigitChars 10 s n = m ∧ m < UInt64.size := by
  induction s generalizing n with
  | nil =>
    simp only [readDigits, Nat.ofDigitChars_nil, Except.ok.injEq]
    constructor
    · rintro rfl
      exact ⟨by simp, rfl, hn⟩
    · exact fun h => h.2.1
  | cons c s ih =>
    rw [readDigits, List.forall_mem_cons, Nat.ofDigitChars_cons]
    cases hc : digit? c with
    | none =>
      have hdigit : ¬ c.isDigit = true := fun h => by simp [digit?, h] at hc
      simp [hdigit]
    | some d =>
      obtain ⟨hdigit, rfl⟩ := digit?_eq_some_iff.1 hc
      simp only [hdigit, Nat.mul_comm 10 n, true_and]
      split
      · rename_i hlt
        exact ih hlt
      · rename_i hlt
        -- A number out of range stays out of range.
        have hle := le_ofDigitChars s (n * 10 + (c.toNat - '0'.toNat))
        simp only [reduceCtorEq, false_iff, not_and]
        omega

/-- A plus sign is no digit. -/
theorem numeral_plus_iff {s : List Char} {n : Nat} : Numeral ('+' :: s) n ↔ Digits s n := by
  constructor
  · intro h
    cases h with
    | plain h => exact absurd (h.2.1 '+' List.mem_cons_self) (by decide)
    | signed h => exact h
  · exact .signed

/-- A numeral that does not begin with a plus sign consists of digits. -/
theorem numeral_iff_of_ne {s : List Char} {n : Nat} (hs : ∀ digits, s ≠ '+' :: digits) :
    Numeral s n ↔ Digits s n := by
  constructor
  · intro h
    cases h with
    | plain h => exact h
    | signed h => exact absurd rfl (hs _)
  · exact .plain

/-- The positions that are read are the numerals of numbers in range. -/
theorem readIndex_eq_ok_iff {s : List Char} {n : Nat} :
    readIndex s = .ok n ↔ Numeral s n ∧ n < UInt64.size := by
  have hdigits : ∀ {s : List Char}, s ≠ [] →
      (readDigits 0 s = .ok n ↔ Digits s n ∧ n < UInt64.size) := fun hs => by
    rw [readDigits_eq_ok_iff (by decide), Digits, and_assoc, and_assoc, and_iff_right hs]
  unfold readIndex
  split
  · simp [numeral_iff_of_ne, Digits]
  · simp [numeral_plus_iff, Digits]
  · rename_i digits hsign
    rw [hdigits hsign, numeral_plus_iff]
  · rename_i hnil _ hplus
    rw [hdigits hnil, numeral_iff_of_ne hplus]

/-- A number is written as a numeral without a dot. -/
theorem digits_toDigits (n : Nat) : Digits (Nat.toDigits 10 n) n ∧ '.' ∉ Nat.toDigits 10 n := by
  have hall : ∀ c ∈ Nat.toDigits 10 n, c.isDigit = true := fun c hc =>
    Nat.isDigit_of_mem_toDigits (by decide) (by decide) hc
  exact ⟨⟨Nat.toDigits_ne_nil, hall, Nat.ofDigitChars_ten_toDigits⟩,
    fun hdot => absurd (hall '.' hdot) (by decide)⟩

/-! ## Literals -/

/-- The text is a literal of the column with the given alias and position: the alias, which is not
empty, a dot, and behind this last dot a numeral of the position. -/
def Literal (s table : String) (n : Nat) : Prop :=
  ∃ d, s = table ++ "." ++ d ∧ '.' ∉ d.toList ∧ table ≠ "" ∧ Numeral d.toList n

/-- The characters of a column's text are those of its alias, a dot and the digits of its position.
-/
theorem toList_text (c : Column) :
    c.text.toList = c.table.toList ++ '.' :: Nat.toDigits 10 c.index.toNat := by
  simp [text]

/-- The text of a column is split into its alias and the digits of its position. -/
theorem splitLastDot_text (c : Column) :
    splitLastDot c.text.toList = some (c.table.toList, Nat.toDigits 10 c.index.toNat) := by
  rw [toList_text]
  exact splitLastDot_append (digits_toDigits _).2

/-- The text of a column determines the column. -/
theorem text_injective : Function.Injective text := by
  intro c c' h
  have hsplit := congrArg (fun s => splitLastDot s.toList) h
  simp only [splitLastDot_text, Option.some.injEq, Prod.mk.injEq, String.toList_inj] at hsplit
  have hindex : c.index.toNat = c'.index.toNat := by
    rw [← Nat.ofDigitChars_ten_toDigits (n := c.index.toNat), hsplit.2, Nat.ofDigitChars_ten_toDigits]
  cases c
  cases c'
  simp_all [UInt64.toNat_inj]

/-- The alias of a literal comes before its last dot, the numeral comes after it. -/
theorem literal_iff_of_splitLastDot {s table : String} {n : Nat} {front back : List Char}
    (h : splitLastDot s.toList = some (front, back)) :
    Literal s table n ↔ table.toList = front ∧ front ≠ [] ∧ Numeral back n := by
  constructor
  · rintro ⟨d, rfl, hdot, htable, hd⟩
    have hchars : (table ++ "." ++ d).toList = table.toList ++ '.' :: d.toList := by simp
    rw [hchars, splitLastDot_append hdot, Option.some.injEq, Prod.mk.injEq] at h
    obtain ⟨rfl, rfl⟩ := h
    exact ⟨rfl, fun hnil => htable (String.toList_eq_nil_iff.1 hnil), hd⟩
  · rintro ⟨rfl, hfront, hback⟩
    obtain ⟨hs, hdot⟩ := splitLastDot_eq_some_iff.1 h
    refine ⟨String.ofList back, String.toList_inj.1 (by simp [hs]), by simpa using hdot,
      fun htable => hfront (String.toList_eq_nil_iff.2 htable), by simpa using hback⟩

/-- A text is read as the column that it is a literal of. -/
theorem ofLiteral_eq_ok_iff {s : String} {c : Column} :
    ofLiteral s = .ok c ↔ Literal s c.table c.index.toNat := by
  obtain ⟨table, index⟩ := c
  unfold ofLiteral
  cases h : splitLastDot s.toList with
  | none =>
    have hdot := splitLastDot_eq_none_iff.1 h
    simp only [reduceCtorEq, false_iff]
    rintro ⟨d, rfl, -⟩
    simp at hdot
  | some parts =>
    obtain ⟨front, back⟩ := parts
    have hindex : Numeral back index.toNat ↔ readIndex back = .ok index.toNat := by
      rw [readIndex_eq_ok_iff, and_iff_left index.toNat_lt]
    rw [literal_iff_of_splitLastDot h, hindex]
    by_cases hfront : front = []
    · simp [hfront]
    · simp only [List.isEmpty_iff, hfront, if_false]
      cases hback : readIndex back with
      | error cause => simp
      | ok n =>
        have hn : n < UInt64.size := (readIndex_eq_ok_iff.1 hback).2
        have hword : UInt64.ofNat n = index ↔ n = index.toNat := by
          rw [← UInt64.toNat_inj, UInt64.toNat_ofNat_of_lt' hn]
        have htable : String.ofList front = table ↔ table.toList = front := by
          rw [← String.toList_inj, String.toList_ofList, eq_comm]
        simp [hword, htable, hfront]

/-- The literals that are read are those of the grammar, with a position below `2 ^ 64`, and each is
read as the alias and the position that it is made of.  A column with an alias that is not empty is
read back from its text, and different columns have different texts. -/
theorem ofLiteral_exact :
    (∀ s, (∃ c, ofLiteral s = .ok c) ↔ ∃ table n, Literal s table n ∧ n < 2 ^ 64) ∧
    (∀ s table n, Literal s table n → n < 2 ^ 64 →
      ∃ c, ofLiteral s = .ok c ∧ c.table = table ∧ c.index.toNat = n) ∧
    (∀ c : Column, c.table ≠ "" → ofLiteral c.text = .ok c) ∧
    Function.Injective text := by
  have hread : ∀ s table n, Literal s table n → n < 2 ^ 64 →
      ∃ c, ofLiteral s = .ok c ∧ c.table = table ∧ c.index.toNat = n := by
    intro s table n hs hn
    have hindex : (UInt64.ofNat n).toNat = n := UInt64.toNat_ofNat_of_lt' hn
    refine ⟨⟨table, .ofNat n⟩, ofLiteral_eq_ok_iff.2 ?_, rfl, hindex⟩
    rwa [hindex]
  refine ⟨fun s => ⟨?_, ?_⟩, hread, fun c hc => ?_, text_injective⟩
  · rintro ⟨c, hc⟩
    exact ⟨c.table, c.index.toNat, ofLiteral_eq_ok_iff.1 hc, c.index.toNat_lt⟩
  · rintro ⟨table, n, hs, hn⟩
    obtain ⟨c, hc, -⟩ := hread s table n hs hn
    exact ⟨c, hc⟩
  · rw [ofLiteral_eq_ok_iff, literal_iff_of_splitLastDot c.splitLastDot_text]
    exact ⟨rfl, fun hnil => hc (String.toList_eq_nil_iff.1 hnil), .plain (digits_toDigits _).1⟩

/-- An alias with a dot, and a position with a sign and a zero in front. -/
theorem ofLiteral_exact_dotted :
    (∃ c, ofLiteral "db.v2.+010" = .ok c ∧ c.table = "db.v2" ∧ c.index.toNat = 10) ∧
    ofLiteral (text ⟨"db.v2", 10⟩) = .ok ⟨"db.v2", 10⟩ := by
  obtain ⟨-, hread, hback, -⟩ := ofLiteral_exact
  have hdigits : Digits ['0', '1', '0'] 10 := ⟨by simp, by simp, rfl⟩
  have hliteral : Literal "db.v2.+010" "db.v2" 10 :=
    ⟨"+010", by decide, by decide, by decide, .signed hdigits⟩
  exact ⟨hread _ _ _ hliteral (by decide), hback ⟨"db.v2", 10⟩ (by decide)⟩

end QueryPlan.Column
