import QueryPlan.AliasSet
import QueryPlan.Column.Literal

/-!
# Lists of columns used as sets

A column set keeps its columns in the order in which they came.  Inserting never repeats a column,
and every operation that builds a new set inserts one column after the other; only a set written out
in full, as when it is read from a document, may hold a column twice.
-/

namespace QueryPlan

/-- An ordered set of columns. -/
structure ColumnSet where
  /-- The columns in order. -/
  columns : List Column
deriving DecidableEq, Inhabited

namespace ColumnSet

/-- The set without columns. -/
def empty : ColumnSet :=
  ⟨[]⟩

/-- The number of columns listed. -/
def size (s : ColumnSet) : Nat :=
  s.columns.length

/-- Whether no column is listed. -/
def isEmpty (s : ColumnSet) : Bool :=
  s.columns.isEmpty

/-- Whether a column is listed. -/
def contains (s : ColumnSet) (c : Column) : Bool :=
  s.columns.contains c

instance : Membership Column ColumnSet :=
  ⟨fun s c => c ∈ s.columns⟩

instance (c : Column) (s : ColumnSet) : Decidable (c ∈ s) :=
  inferInstanceAs (Decidable (c ∈ s.columns))

/-- Adds a column at the end, unless it is listed already. -/
def insert (s : ColumnSet) (c : Column) : ColumnSet :=
  if s.contains c then s else ⟨s.columns ++ [c]⟩

/-- Adds a column and tells whether it is new. -/
def insertNew (s : ColumnSet) (c : Column) : Bool × ColumnSet :=
  (!s.contains c, s.insert c)

/-- Adds every column of a list. -/
def insertAll (s : ColumnSet) (columns : List Column) : ColumnSet :=
  columns.foldl insert s

/-- The set of the columns in a list. -/
def ofList (columns : List Column) : ColumnSet :=
  empty.insertAll columns

/-- Reads a list of column literals; the first bad one decides the error. -/
def ofLiterals (literals : List String) : Except Column.LiteralError ColumnSet :=
  ofList <$> literals.mapM Column.ofLiteral

/-- The columns of the first set, then those of the second one that are new. -/
def union (s t : ColumnSet) : ColumnSet :=
  s.insertAll t.columns

/-- The set of the columns that satisfy a condition. -/
def select (s : ColumnSet) (p : Column → Bool) : ColumnSet :=
  ofList (s.columns.filter p)

/-- The columns of the first set that the second one lists too. -/
def inter (s t : ColumnSet) : ColumnSet :=
  s.select (t.contains ·)

/-- The columns of the first set that the second one does not list. -/
def diff (s t : ColumnSet) : ColumnSet :=
  s.select (!t.contains ·)

/-- The columns that belong to one of the given tables. -/
def inTables (s : ColumnSet) (tables : AliasSet) : ColumnSet :=
  s.select (tables.contains ·.table)

/-- The tables the columns belong to. -/
def tables (s : ColumnSet) : AliasSet :=
  AliasSet.ofList (s.columns.map Column.table)

/-- Whether every column of the first set is listed in the second one. -/
def subset (s t : ColumnSet) : Bool :=
  s.columns.all (t.contains ·)

/-- Whether two sets list the same columns, in any order. -/
def sameMembers (s t : ColumnSet) : Bool :=
  s.size == t.size && s.subset t

/-- The columns in brackets, in order. -/
def text (s : ColumnSet) : String :=
  "[" ++ ", ".intercalate (s.columns.map Column.text) ++ "]"

/-! ## Membership -/

/-- A column is found in a set exactly if it is listed. -/
@[simp]
theorem contains_iff {s : ColumnSet} {c : Column} : s.contains c = true ↔ c ∈ s := by
  simp [contains, Membership.mem]

/-- The empty set lists no column. -/
@[simp]
theorem not_mem_empty (c : Column) : c ∉ empty :=
  List.not_mem_nil

/-- A set that is not empty lists a column. -/
theorem isEmpty_eq_false_iff {s : ColumnSet} : s.isEmpty = false ↔ ∃ c, c ∈ s := by
  rw [isEmpty, List.isEmpty_eq_false_iff_exists_mem]
  rfl

/-- The columns after an insertion are the new one and those before. -/
@[simp]
theorem mem_insert {s : ColumnSet} {c x : Column} : x ∈ s.insert c ↔ x = c ∨ x ∈ s := by
  unfold insert
  split
  · rename_i h
    rw [contains_iff] at h
    exact ⟨Or.inr, fun hx => hx.elim (fun e => e ▸ h) id⟩
  · show x ∈ s.columns ++ [c] ↔ _
    rw [List.mem_append, List.mem_singleton, or_comm]
    rfl

/-- Inserting a list adds its columns to those of the set. -/
@[simp]
theorem mem_insertAll {s : ColumnSet} {l : List Column} {x : Column} :
    x ∈ s.insertAll l ↔ x ∈ s ∨ x ∈ l := by
  induction l generalizing s with
  | nil => simp [insertAll]
  | cons a l ih =>
    have h : s.insertAll (a :: l) = (s.insert a).insertAll l := rfl
    rw [h, ih, mem_insert, List.mem_cons]
    simp only [or_assoc, or_left_comm]

/-- The set of a list has the columns of the list. -/
@[simp]
theorem mem_ofList {l : List Column} {x : Column} : x ∈ ofList l ↔ x ∈ l := by
  simp [ofList]

/-- A union has the columns of both sets. -/
@[simp]
theorem mem_union {s t : ColumnSet} {x : Column} : x ∈ s.union t ↔ x ∈ s ∨ x ∈ t :=
  mem_insertAll

/-- A selection has the columns that satisfy the condition. -/
@[simp]
theorem mem_select {s : ColumnSet} {p : Column → Bool} {x : Column} :
    x ∈ s.select p ↔ x ∈ s ∧ p x = true := by
  rw [select, mem_ofList, List.mem_filter]
  rfl

/-- An intersection has the columns that both sets list. -/
@[simp]
theorem mem_inter {s t : ColumnSet} {x : Column} : x ∈ s.inter t ↔ x ∈ s ∧ x ∈ t := by
  simp [inter]

/-- A difference has the columns of the first set that the second one lacks. -/
@[simp]
theorem mem_diff {s t : ColumnSet} {x : Column} : x ∈ s.diff t ↔ x ∈ s ∧ x ∉ t := by
  rw [diff, mem_select, Bool.not_eq_true', ← Bool.not_eq_true, contains_iff]

/-- The restriction to some tables has the columns that belong to one of them. -/
@[simp]
theorem mem_inTables {s : ColumnSet} {tables : AliasSet} {x : Column} :
    x ∈ s.inTables tables ↔ x ∈ s ∧ x.table ∈ tables := by
  simp [inTables]

/-- The tables of a set are those that one of its columns belongs to. -/
@[simp]
theorem mem_tables {s : ColumnSet} {a : String} : a ∈ s.tables ↔ ∃ c ∈ s, c.table = a := by
  rw [tables, AliasSet.mem_ofList, List.mem_map]
  rfl

/-- Inclusion is decided column by column. -/
@[simp]
theorem subset_iff {s t : ColumnSet} : s.subset t = true ↔ ∀ x ∈ s, x ∈ t := by
  simp only [subset, List.all_eq_true, contains_iff]
  rfl

end ColumnSet

end QueryPlan
