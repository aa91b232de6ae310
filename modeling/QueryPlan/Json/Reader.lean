import QueryPlan.Json.Escape
import QueryPlan.Json.Number

/-!
# Reading JSON

JSON text is read token by token by a machine that keeps the arrays and objects which are still open
on a stack.  Values may be nested to any depth.
-/

namespace QueryPlan.Json

/-! ## Tokens -/

/-- The smallest parts of a JSON text. -/
inductive Token where
  | openBracket
  | closeBracket
  | openBrace
  | closeBrace
  | comma
  | colon
  | null
  | bool (b : Bool)
  | number (n : Decimal.Numeral)
  | string (s : Text)

/-- Whether a character may stand between tokens. -/
def isBlank (c : Char) : Bool :=
  c == ' ' || c == '\t' || c == '\n' || c == '\r'

/-- Reads a token that begins with the given character. -/
def scanToken (c : Char) (s : List Char) : Option (Token × List Char) :=
  match c, s with
  | '[', s => some (.openBracket, s)
  | ']', s => some (.closeBracket, s)
  | '\x7b', s => some (.openBrace, s)
  | '\x7d', s => some (.closeBrace, s)
  | ',', s => some (.comma, s)
  | ':', s => some (.colon, s)
  | 'n', 'u' :: 'l' :: 'l' :: s => some (.null, s)
  | 't', 'r' :: 'u' :: 'e' :: s => some (.bool true, s)
  | 'f', 'a' :: 'l' :: 's' :: 'e' :: s => some (.bool false, s)
  | '"', s => (scanString s).map fun found => (.string found.1, found.2)
  | c, s => (scanNumber (c :: s)).map fun found => (.number found.1, found.2)

/-- Reading a token, whose first character is taken off already, does not make the text longer. -/
theorem scanToken_length {c : Char} {s : List Char} {r : Token × List Char}
    (h : scanToken c s = some r) : r.2.length ≤ s.length := by
  unfold scanToken at h
  split at h
  case h_10 =>
    obtain ⟨found, hf, rfl⟩ := Option.map_eq_some_iff.1 h
    exact scanString_length hf
  case h_11 =>
    obtain ⟨found, hf, rfl⟩ := Option.map_eq_some_iff.1 h
    exact Nat.le_of_lt_succ (scanNumber_length hf)
  all_goals
    cases h
    simp
  all_goals omega

/-! ## The machine -/

/-- An array or object that is still open, with what it holds so far, the last item first. -/
inductive Frame where
  | items (done : List Json)
  | fields (done : List (Text × Json)) (name : Text)

/-- What the machine has read last, and the open arrays and objects around it. -/
inductive State where
  /-- A value must follow. -/
  | value (stack : List Frame)
  /-- An array was opened. -/
  | openArray (stack : List Frame)
  /-- An object was opened. -/
  | openObject (stack : List Frame)
  /-- A field of an object must follow. -/
  | key (done : List (Text × Json)) (stack : List Frame)
  /-- A colon must follow. -/
  | colon (done : List (Text × Json)) (name : Text) (stack : List Frame)
  /-- A value is complete. -/
  | after (v : Json) (stack : List Frame)

namespace State

/-- Reads a token where a value must follow. -/
def stepValue (stack : List Frame) : Token → Option State
  | .openBracket => some (.openArray stack)
  | .openBrace => some (.openObject stack)
  | .null => some (.after .null stack)
  | .bool b => some (.after (.bool b) stack)
  | .number n => some (.after (.number n) stack)
  | .string s => some (.after (.string s) stack)
  | _ => none

/-- Reads a token behind a complete value. -/
def stepAfter (v : Json) : List Frame → Token → Option State
  | .items done :: stack, .comma => some (.value (.items (v :: done) :: stack))
  | .items done :: stack, .closeBracket => some (.after (.array (v :: done).reverse) stack)
  | .fields done name :: stack, .comma => some (.key ((name, v) :: done) stack)
  | .fields done name :: stack, .closeBrace =>
    some (.after (.object ((name, v) :: done).reverse) stack)
  | _, _ => none

/-- Reads a token. -/
def step : State → Token → Option State
  | .value stack, t => stepValue stack t
  | .openArray stack, .closeBracket => some (.after (.array []) stack)
  | .openArray stack, t => stepValue (.items [] :: stack) t
  | .openObject stack, .closeBrace => some (.after (.object []) stack)
  | .openObject stack, .string name => some (.colon [] name stack)
  | .key done stack, .string name => some (.colon done name stack)
  | .colon done name stack, .colon => some (.value (.fields done name :: stack))
  | .after v stack, t => stepAfter v stack t
  | _, _ => none

/-- The value that was read, if nothing is open any more. -/
def result? : State → Option Json
  | .after v [] => some v
  | _ => none

/-- Reads a text to its end. -/
def run (state : State) : List Char → Option Json
  | [] => state.result?
  | c :: rest =>
    if isBlank c then run state rest
    else
      match h : scanToken c rest with
      | none => none
      | some (t, left) =>
        have : left.length ≤ rest.length := scanToken_length h
        match state.step t with
        | none => none
        | some next => run next left
termination_by s => s.length

end State

/-- Reads a JSON text, which may have blanks around it. -/
def ofText? (s : String) : Option Json :=
  State.run (.value []) s.toList

end QueryPlan.Json
