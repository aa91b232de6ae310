import Mathlib.Data.List.Forall2
import QueryPlan.Json.Escape

/-!
# Strings survive escaping

A string that is written is read back as the same text.  Every character is written so that it is read
as one part of the string, and the parts are the characters again: an escape sequence of four digits is
only written for a control character, so two of them are never taken for a surrogate pair.

Main results:

- Theorem `scanPieces_escape`: a character is read as one part.
- Theorem `joinPieces_means`: the parts are put together to the characters they were written for.
- Theorem `scanString_quote`: a string is read back.
-/

namespace QueryPlan.Json

/-- A part of a string was written for a character. -/
def Piece.Means : Piece → Char → Prop
  | .char c, d => c = d
  | .code n, d => n = d.toNat ∧ n < 0x20

/-- The escape sequence of a control character stands for its code. -/
theorem hexCode?_control {n : Nat} (h : n < 0x20) :
    hexCode? '0' '0' (hexDigit (n / 16)) (hexDigit (n % 16)) = some n := by
  have hall : ∀ k < 0x20, hexCode? '0' '0' (hexDigit (k / 16)) (hexDigit (k % 16)) = some k := by
    decide
  exact hall n h

/-- A character that is written as it stands is read as it stands. -/
theorem scanPieces_plain {c : Char} (hquote : c ≠ '"') (hslash : c ≠ '\\') (hplain : 0x20 ≤ c.toNat)
    (found : List Piece) (rest : List Char) :
    scanPieces found (c :: rest) = scanPieces (.char c :: found) rest := by
  simp [scanPieces, hslash, hplain]

/-- Every character is read as one part of the string. -/
theorem scanPieces_escape (c : Char) (found : List Piece) (rest : List Char) :
    ∃ piece : Piece, piece.Means c ∧
      scanPieces found (escape c ++ rest) = scanPieces (piece :: found) rest := by
  unfold escape
  split
  · rename_i h
    exact ⟨.char '"', h.symm, rfl⟩
  split
  · rename_i h
    exact ⟨.char '\\', h.symm, rfl⟩
  split
  · rename_i hquote hslash hplain
    exact ⟨.char c, rfl, scanPieces_plain hquote hslash hplain found rest⟩
  split
  · rename_i h
    exact ⟨.char (Char.ofNat 0x08), h ▸ Char.ofNat_toNat c, rfl⟩
  split
  · rename_i h
    exact ⟨.char (Char.ofNat 0x0c), h ▸ Char.ofNat_toNat c, rfl⟩
  split
  · rename_i h
    exact ⟨.char '\n', h.symm, rfl⟩
  split
  · rename_i h
    exact ⟨.char '\r', h.symm, rfl⟩
  split
  · rename_i h
    exact ⟨.char '\t', h.symm, rfl⟩
  · rename_i hplain _ _ _ _ _
    have hcontrol : c.toNat < 0x20 := Nat.lt_of_not_le hplain
    refine ⟨.code c.toNat, ⟨rfl, hcontrol⟩, ?_⟩
    simp only [List.cons_append, List.nil_append]
    rw [scanPieces, hexCode?_control hcontrol]

/-- The parts read up to the closing quotation mark were written for the characters of the string. -/
theorem scanPieces_chars (s : List Char) (found : List Piece) (rest : List Char) :
    ∃ pieces : List Piece, List.Forall₂ Piece.Means pieces s ∧
      scanPieces found (s.flatMap escape ++ '"' :: rest) = some (found.reverse ++ pieces, rest) := by
  induction s generalizing found with
  | nil => exact ⟨[], .nil, by simp [scanPieces]⟩
  | cons c s ih =>
    obtain ⟨piece, hpiece, hscan⟩ := scanPieces_escape c found (s.flatMap escape ++ '"' :: rest)
    obtain ⟨pieces, hpieces, hrest⟩ := ih (piece :: found)
    refine ⟨piece :: pieces, .cons hpiece hpieces, ?_⟩
    rw [List.flatMap_cons, List.append_assoc, hscan, hrest, List.reverse_cons, List.append_assoc]
    rfl

/-- A code that belongs to no surrogate pair stands for a character of its own. -/
theorem joinPieces_code {n : Nat} (h : n < 0xD800) (rest : List Piece) :
    joinPieces (.code n :: rest) = (Char.ofNat n :: ·) <$> joinPieces rest := by
  have hhigh : isHighSurrogate n = false := by simp [isHighSurrogate]; omega
  have hlow : isLowSurrogate n = false := by simp [isLowSurrogate]; omega
  rw [joinPieces.eq_def]
  split <;> simp_all

/-- The parts of a string are put together to the characters they were written for. -/
theorem joinPieces_means {pieces : List Piece} {s : List Char}
    (h : List.Forall₂ Piece.Means pieces s) : joinPieces pieces = some s := by
  induction h with
  | nil => rfl
  | @cons piece c pieces s hpiece _ ih =>
    cases piece with
    | char d =>
      obtain rfl : d = c := hpiece
      rw [joinPieces, ih]
      rfl
    | code n =>
      obtain ⟨rfl, hn⟩ := hpiece
      rw [joinPieces_code (by omega), ih, Char.ofNat_toNat]
      rfl

/-- A string is read back from behind its opening quotation mark. -/
theorem scanString_quote (text : Text) (rest : List Char) :
    scanString ((quote text).tail ++ rest) = some (text, rest) := by
  cases text with
  | none =>
    have hcode : hexCode? 'd' '8' '0' '0' = some 0xD800 := by decide
    have hjoin : joinPieces [.code 0xD800] = none := by decide
    simp [quote, scanString, scanPieces, hcode, hjoin]
  | some s =>
    obtain ⟨pieces, hpieces, hscan⟩ := scanPieces_chars s.toList [] rest
    have htail : (quote (some s)).tail ++ rest = s.toList.flatMap escape ++ '"' :: rest := by
      simp [quote]
    rw [htail, scanString, hscan, Option.map_some, List.reverse_nil, List.nil_append,
      joinPieces_means hpieces, Option.map_eq_map, Option.map_some, String.ofList_toList]

/-- A quoted string begins with a quotation mark. -/
theorem quote_eq (text : Text) : quote text = '"' :: (quote text).tail := by
  cases text <;> rfl

end QueryPlan.Json
