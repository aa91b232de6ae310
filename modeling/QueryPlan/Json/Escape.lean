import QueryPlan.Json.Basic

/-!
# JSON strings

In a JSON string a quotation mark, a backslash and every control character is written as an escape
sequence.  An escape sequence of four hexadecimal digits stands for a 16-bit code, and two of them
may form a surrogate pair.
-/

namespace QueryPlan.Json

/-! ## Writing -/

/-- A hexadecimal digit in lower case. -/
def hexDigit (n : Nat) : Char :=
  if n < 10 then Char.ofNat ('0'.toNat + n) else Char.ofNat ('a'.toNat + (n - 10))

/-- A character as it stands in a JSON string. -/
def escape (c : Char) : List Char :=
  if c = '"' then ['\\', '"']
  else if c = '\\' then ['\\', '\\']
  else if 0x20 ≤ c.toNat then [c]
  else if c.toNat = 0x08 then ['\\', 'b']
  else if c.toNat = 0x0c then ['\\', 'f']
  else if c = '\n' then ['\\', 'n']
  else if c = '\r' then ['\\', 'r']
  else if c = '\t' then ['\\', 't']
  else ['\\', 'u', '0', '0', hexDigit (c.toNat / 16), hexDigit (c.toNat % 16)]

/-- The characters of a JSON string.  A string without text is written as half a surrogate pair. -/
def quote : Text → List Char
  | some s => '"' :: (s.toList.flatMap escape ++ ['"'])
  | none => ['"', '\\', 'u', 'd', '8', '0', '0', '"']

/-! ## Reading -/

/-- A part of a JSON string: a character, or the 16-bit code of an escape sequence. -/
inductive Piece where
  | char (c : Char)
  | code (n : Nat)

/-- The value of a hexadecimal digit. -/
def hexValue? (c : Char) : Option Nat :=
  if '0' ≤ c ∧ c ≤ '9' then some (c.toNat - '0'.toNat)
  else if 'a' ≤ c ∧ c ≤ 'f' then some (c.toNat - 'a'.toNat + 10)
  else if 'A' ≤ c ∧ c ≤ 'F' then some (c.toNat - 'A'.toNat + 10)
  else none

/-- The value of four hexadecimal digits. -/
def hexCode? (a b c d : Char) : Option Nat := do
  return ((← hexValue? a) * 16 + (← hexValue? b)) * 256 + (← hexValue? c) * 16 + (← hexValue? d)

/-- The character that an escape sequence of one letter stands for. -/
def unescape? : Char → Option Char
  | '"' => some '"'
  | '\\' => some '\\'
  | '/' => some '/'
  | 'b' => some (Char.ofNat 0x08)
  | 'f' => some (Char.ofNat 0x0c)
  | 'n' => some '\n'
  | 'r' => some '\r'
  | 't' => some '\t'
  | _ => none

/-- Reads the parts of a string up to its closing quotation mark; `found` holds, backwards, the
parts read before. -/
def scanPieces (found : List Piece) : List Char → Option (List Piece × List Char)
  | [] => none
  | '"' :: rest => some (found.reverse, rest)
  | '\\' :: 'u' :: a :: b :: c :: d :: rest =>
    match hexCode? a b c d with
    | some n => scanPieces (.code n :: found) rest
    | none => none
  | '\\' :: e :: rest =>
    match unescape? e with
    | some c => scanPieces (.char c :: found) rest
    | none => none
  | '\\' :: [] => none
  | c :: rest => if 0x20 ≤ c.toNat then scanPieces (.char c :: found) rest else none

/-- Whether a code is the first half of a surrogate pair. -/
def isHighSurrogate (n : Nat) : Bool :=
  0xD800 ≤ n && n < 0xDC00

/-- Whether a code is the second half of a surrogate pair. -/
def isLowSurrogate (n : Nat) : Bool :=
  0xDC00 ≤ n && n < 0xE000

/-- The character that a surrogate pair stands for. -/
def pairedChar (high low : Nat) : Char :=
  Char.ofNat (0x10000 + (high - 0xD800) * 0x400 + (low - 0xDC00))

/-- The characters that the parts of a string stand for. -/
def joinPieces : List Piece → Option (List Char)
  | [] => some []
  | .char c :: rest => (c :: ·) <$> joinPieces rest
  | .code high :: .code low :: rest =>
    if isHighSurrogate high then
      if isLowSurrogate low then (pairedChar high low :: ·) <$> joinPieces rest else none
    else if isLowSurrogate high then none
    else (Char.ofNat high :: ·) <$> joinPieces (.code low :: rest)
  | .code n :: rest =>
    if isHighSurrogate n || isLowSurrogate n then none
    else (Char.ofNat n :: ·) <$> joinPieces rest

/-- Reads a string of which the opening quotation mark is read already. -/
def scanString (s : List Char) : Option (Text × List Char) :=
  (scanPieces [] s).map fun found => (String.ofList <$> joinPieces found.1, found.2)

/-- Reading the parts of a string does not make the text longer. -/
theorem scanPieces_length {found : List Piece} {s : List Char} {r : List Piece × List Char}
    (h : scanPieces found s = some r) : r.2.length ≤ s.length := by
  fun_induction scanPieces found s <;> grind

/-- Reading a string does not make the text longer. -/
theorem scanString_length {s : List Char} {r : Text × List Char} (h : scanString s = some r) :
    r.2.length ≤ s.length := by
  obtain ⟨found, hf, rfl⟩ := Option.map_eq_some_iff.1 h
  exact scanPieces_length hf

end QueryPlan.Json
