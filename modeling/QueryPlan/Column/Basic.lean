/-!
# Columns

A column is named by the alias of the table it belongs to and its position in that table.
-/

namespace QueryPlan

/-- A column of an aliased table. -/
structure Column where
  /-- Alias of the table the column belongs to. -/
  table : String
  /-- Position of the column in its table. -/
  index : UInt64
deriving DecidableEq, Inhabited

namespace Column

/-- Whether the column belongs to the table with the given alias. -/
def isOf (c : Column) (table : String) : Bool :=
  c.table == table

/-- Columns are ordered by alias, code point by code point, and then by position. -/
def order (a b : Column) : Ordering :=
  (compare a.table b.table).then (compare a.index b.index)

/-- A column is written as its alias, a dot, and its position. -/
def text (c : Column) : String :=
  c.table ++ "." ++ c.index.toNat.repr

end Column

end QueryPlan
