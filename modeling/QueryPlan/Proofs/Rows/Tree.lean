import QueryPlan.Proofs.Edit
import QueryPlan.Proofs.Rows.Table
import QueryPlan.Proofs.Rows.Truth
import QueryPlan.Proofs.Value

/-!
# The rows of a plan

A scan gives the rows of its table, a filter the rows that pass its predicate, a projection all rows
with fewer columns, and a join the combinations of rows that meet its condition.

Main results:

- Definition `Plan.rows`: the rows that a plan produces, with multiplicity.
- Theorem `Plan.Has.rowsAt_eq`: they are the rows of the tree that the plan is.
- Theorem `Branch.within_tables`: a branch produces columns of the tables it scans.
- Theorem `Context.rows_plug_congr`: what a plan produces depends on the rows of a branch alone.
-/

namespace QueryPlan

/-- The conditions of joins, which depend on the columns of the join alone. -/
structure JoinConditions where
  /-- Whether a combined row meets the condition of the join at a position. -/
  holds : NodeId → Join → Row → Bool
  dependsOn : ∀ id j, Row.DependsOn (holds id j) (· ∈ j.columns)

/-- Joins keep the combinations in which all columns of the join are equal. -/
def JoinConditions.allEqual : JoinConditions where
  holds _ j r := j.columns.columns.all fun c => j.columns.columns.all fun d =>
    c == d || (r.value c).equals (r.value d)
  dependsOn id j r s h := by
    have hvalue : ∀ c ∈ j.columns.columns, r.value c = s.value c :=
      fun c hc => congrArg (Option.getD · Value.null) (h c hc)
    rw [Bool.eq_iff_iff, List.all_eq_true, List.all_eq_true]
    refine forall_congr' fun c => forall_congr' fun hc => ?_
    rw [List.all_eq_true, List.all_eq_true]
    refine forall_congr' fun d => forall_congr' fun hd => ?_
    rw [hvalue c hc, hvalue d hd]

/-- What filters and joins let pass. -/
structure Semantics where
  /-- Whether a row passes a predicate. -/
  passes : Expr → Row → Bool
  passes_dependsOn : ∀ e, Row.DependsOn (passes e) (· ∈ e.columnList)
  joins : JoinConditions

/-- A row passes a predicate if the predicate is true on it. -/
def Semantics.kleene (undecided : Undecided) (joins : JoinConditions) : Semantics where
  passes e r := e.eval undecided r.value == .bool true
  passes_dependsOn e r s h := by
    have heval : e.eval undecided r.value = e.eval undecided s.value :=
      Expr.eval_congr fun c hc => congrArg (Option.getD · Value.null) (h c hc)
    exact congrArg (· == Value.bool true) heval
  joins := joins

/-- The rows of a table. -/
def Database.scan (db : Database) (table : String) : Multiset Row :=
  (db table : Multiset (UInt64 → Option Value)).map fun row c =>
    if c.isOf table then row c.index else none

/-- What an operator makes of the combined rows of its branches. -/
def Operator.output (sem : Semantics) (db : Database) (id : NodeId) (op : Operator)
    (input : Multiset Row) : Multiset Row :=
  match op with
  | .scan table => db.scan table
  | .filter f => input.filter (sem.passes f.predicate · = true)
  | .projection columns => input.map (Row.keep columns.contains)
  | .join j => input.filter (sem.joins.holds id j · = true)

namespace Plan

/-- The rows of the branch at `id`, down to a limited depth. -/
def rowsWithin (sem : Semantics) (db : Database) (p : Plan) :
    Nat → NodeId → Except Fault (Multiset Row)
  | 0, id => .error (.endless id)
  | depth + 1, id => do
    let n ← p.node id
    let below ← n.children.mapM (rowsWithin sem db p depth)
    return n.op.output sem db id (Row.combine below)

/-- The rows of the branch at `id`. -/
def rowsAt (sem : Semantics) (db : Database) (p : Plan) (id : NodeId) :
    Except Fault (Multiset Row) :=
  rowsWithin sem db p p.walkLimit id

/-- The rows that a plan produces; none if it has no root. -/
def rows (sem : Semantics) (db : Database) (p : Plan) : Except Fault (Multiset Row) :=
  match p.root with
  | none => .ok 0
  | some root => rowsAt sem db p root

end Plan

namespace Branch

variable (sem : Semantics) (db : Database)

/-- The rows of a branch. -/
def rows : Branch → Multiset Row
  | .node id l branches => l.op.output sem db id (Row.combine (branches.map rows))

/-- A node puts out what its operator makes of the combined rows of its branches. -/
@[simp]
theorem rows_node (id : NodeId) (l : Label) (bs : List Branch) :
    (node id l bs).rows sem db = l.op.output sem db id (Row.combine (bs.map (rows sem db))) := by
  rw [rows]

/-- The rows of a node with one branch. -/
theorem rows_single (id : NodeId) (l : Label) (b : Branch) :
    (node id l [b]).rows sem db = l.op.output sem db id (b.rows sem db) := by
  rw [rows_node, List.map_singleton, Row.combine_singleton]

/-- Marking a branch does not change its rows. -/
theorem rows_mark (b : Branch) : b.mark.rows sem db = b.rows sem db := by
  induction b with
  | node id l bs ih =>
    rw [mark_node, rows_node, rows_node, List.map_map]
    exact congrArg _ (congrArg _ (List.map_congr_left ih))

variable {sem db}

/-- Operators add no column. -/
theorem output_eq_none {id : NodeId} {op : Operator} {input : Multiset Row} {c : Column}
    (hscan : op.scannedTable? ≠ some c.table) (h : ∀ r ∈ input, r c = none) :
    ∀ r ∈ op.output sem db id input, r c = none := by
  intro r hr
  cases op with
  | scan table =>
    rw [Operator.output, Database.scan] at hr
    obtain ⟨row, -, rfl⟩ := Multiset.mem_map.1 hr
    have hne : c.isOf table = false := by
      rw [Column.isOf, beq_eq_false_iff_ne]
      exact fun e => hscan (congrArg some e.symm)
    simp [hne]
  | filter f => exact h r (Multiset.mem_of_mem_filter hr)
  | projection columns =>
    obtain ⟨s, hs, rfl⟩ := Multiset.mem_map.1 hr
    simp [Row.keep, h s hs]
  | join j => exact h r (Multiset.mem_of_mem_filter hr)

/-- A branch produces columns of the tables it scans. -/
theorem within_tables {b : Branch} {r : Row} (hr : r ∈ b.rows sem db) : r.Within b.tables := by
  induction b generalizing r with
  | node id l bs ih =>
    intro c hc
    rw [mem_tables_node, not_or, not_exists] at hc
    rw [rows_node] at hr
    refine output_eq_none hc.1 (fun s hs => ?_) r hr
    refine Row.combine_eq_none (fun m hm t ht => ?_) hs
    obtain ⟨b, hb, rfl⟩ := List.mem_map.1 hm
    exact ih b hb ht c fun ha => hc.2 b ⟨hb, ha⟩

end Branch

namespace Context

variable (sem : Semantics) (db : Database)

/-- What a context makes of the rows of the branch in it. -/
def above : Context → Multiset Row → Multiset Row
  | [], m => m
  | f :: c, m =>
    above c (f.label.op.output sem db f.id
      (Row.combine (f.left.map (Branch.rows sem db) ++ m :: f.right.map (Branch.rows sem db))))

variable {sem db}

/-- The rows of a branch in context. -/
theorem rows_plug (c : Context) (s : Branch) :
    (c.plug s).rows sem db = c.above sem db (s.rows sem db) := by
  induction c generalizing s with
  | nil => rfl
  | cons f c ih =>
    rw [plug_cons, ih, above, Frame.fill, Branch.rows_node, List.map_append, List.map_cons]

/-- What a branch in context produces depends on the rows of the branch alone. -/
theorem rows_plug_congr {s s' : Branch} (h : s'.rows sem db = s.rows sem db) (c : Context) :
    (c.plug s').rows sem db = (c.plug s).rows sem db := by
  rw [rows_plug, rows_plug, h]

/-- Scopes have no influence on rows. -/
theorem rows_plug_refresh (c : Context) (s t : Branch) :
    ((c.refresh s).plug t).rows sem db = (c.plug t).rows sem db := by
  induction c generalizing s t with
  | nil => rfl
  | cons f c ih =>
    rw [refresh_cons, plug_cons, plug_cons, ih]
    apply rows_plug_congr
    rw [Frame.fill, Frame.fill, Branch.rows_node, Branch.rows_node]
    rfl

end Context

namespace Plan

variable {sem : Semantics} {db : Database} {p : Plan}

/-- The plan computes the rows of a branch if it may go down far enough. -/
theorem Has.rowsWithin_eq {parent : Option NodeId} {b : Branch} (h : p.Has parent b) {depth : Nat}
    (hd : b.height ≤ depth) : rowsWithin sem db p depth b.top = .ok (b.rows sem db) := by
  induction b generalizing parent depth with
  | node id l bs ih =>
    obtain ⟨depth, rfl⟩ : ∃ d, depth = d + 1 :=
      Nat.exists_eq_add_one.2 (Nat.lt_of_lt_of_le (Branch.height_pos _) hd)
    have hbelow : (bs.map Branch.top).mapM (rowsWithin sem db p depth) =
        .ok (bs.map (Branch.rows sem db)) := by
      apply mapM_map_ok
      intro b hb
      have hlt := Branch.height_lt_of_mem id l hb
      exact ih b hb (h.branch hb) (by omega)
    rw [rowsWithin, h.node_top]
    simp only [ok_bind, Branch.label_node, Branch.branches_node, Label.node_children, hbelow,
      pure_eq_ok, Label.node_op, Branch.top_node, Branch.rows_node]

/-- The rows of a branch are those of its tree. -/
theorem Has.rowsAt_eq {parent : Option NodeId} {b : Branch} (h : p.Has parent b) :
    rowsAt sem db p b.top = .ok (b.rows sem db) :=
  h.rowsWithin_eq (Nat.le_trans h.height_le (Nat.le_succ _))

/-- The rows of a plan are those of its tree. -/
theorem Shows.rows_eq {b : Branch} {rest : NodeId → Option Node} (h : p.Shows b rest) :
    rows sem db p = .ok (b.rows sem db) := by
  rw [rows, h.root_eq]
  exact h.has.rowsAt_eq

end Plan

end QueryPlan
