/-!
# Outlines

An outline is a finite ordered tree of labelled entries.  It is drawn with one entry a line, each
child connected to its parent by box-drawing strokes.
-/

namespace QueryPlan.Text

/-- An entry with its label, an optional remark, and the entries below it in order. -/
inductive Outline where
  | entry (label : String) (remark : Option String) (children : List Outline)
deriving Inhabited

namespace Outline

/-- What is written for an entry itself: its label, then its remark in parentheses. -/
def caption (label : String) : Option String → String
  | none => label
  | some remark => label ++ " (" ++ remark ++ ")"

mutual

/-- The lines of an entry: its own behind `lead`, those of its children behind `below`. -/
def rows (lead below : String) : Outline → List String
  | .entry label remark children => (lead ++ caption label remark) :: branchRows below children

/-- The lines of entries that share a parent.  The strokes of the last one turn the corner. -/
def branchRows (lead : String) : List Outline → List String
  | [] => []
  | [last] => rows (lead ++ "└─ ") (lead ++ "   ") last
  | first :: rest => rows (lead ++ "├─ ") (lead ++ "│  ") first ++ branchRows lead rest

end

/-- The outline as text, every line closed by a line feed. -/
def render (outline : Outline) : String :=
  String.join ((outline.rows "" "").map (· ++ "\n"))

end Outline

end QueryPlan.Text
