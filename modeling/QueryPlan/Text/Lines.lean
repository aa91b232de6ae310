/-!
# Lines of a text

A line ends at a line feed, and one carriage return directly before that line feed belongs to the
line end.  Text after the last line feed is a line of its own unless it is empty.
-/

namespace QueryPlan.Text

/-- A line, given backwards, without a carriage return at its end. -/
def dropReturn : List Char → List Char
  | '\r' :: line => line
  | line => line

/-- The lines of a text; `line` holds, backwards, what is already read of the current line. -/
def splitLines (line : List Char) : List Char → List (List Char)
  | [] => if line.isEmpty then [] else [line.reverse]
  | '\n' :: rest => (dropReturn line).reverse :: splitLines [] rest
  | c :: rest => splitLines (c :: line) rest

/-- The lines of a text, without their line ends. -/
def lines (s : String) : List String :=
  (splitLines [] s.toList).map String.ofList

/-- Writes `lead` in front of every line and joins the lines by line feeds. -/
def indent (lead s : String) : String :=
  "\n".intercalate ((lines s).map (lead ++ ·))

end QueryPlan.Text
