import Mathlib.Data.Multiset.Count
import QueryPlan.Proofs.Rows.Tree
import QueryPlan.Proofs.Rule.JoinElimination

/-!
# Partners

A row of one branch of a join has partners in the other branch: the rows with which it meets the
condition of the join.  If no row has more than one, the join only takes away the rows without a
partner and adds the columns of the other branch, which are lost again where nothing above reads them
and some projection is passed.

Main results:

- Theorem `Row.map_without_filter_combine_eq_filter`: up to the columns of the other branch, a join
  leaves the rows that have a partner.
- Theorem `Context.above_without`: what a plan makes of the rows of a branch does not depend on the
  columns of a table that nothing above reads.
- Theorem `Context.above_add`: a plan makes of the rows of a branch what it makes of each.
- Theorem `Plan.Shows.rowsAbove_eq`: the way up in a plan follows the context of the branch.
-/

namespace QueryPlan

namespace Row

/-- The row without the columns of a table. -/
def without (table : String) : Row → Row :=
  keep fun c => !c.isOf table

/-- A row without columns of a table has none to lose. -/
theorem without_eq_self {r : Row} {table : String} (h : ∀ c, c.table = table → r c = none) :
    r.without table = r := by
  apply keep_eq_self
  intro c hc
  rw [Bool.not_eq_false', Column.isOf, beq_iff_eq] at hc
  exact h c hc

/-- Columns that were merged in from a table are gone when the columns of the table are dropped. -/
theorem without_merge_of_within {r s : Row} {table : String}
    (hr : ∀ c, c.table = table → r c = none) (hs : s.Within (.singleton table)) :
    (r.merge s).without table = r := by
  have hempty : s.without table = empty := by
    funext c
    by_cases hc : c.table = table
    · simp [without, keep, empty, Column.isOf, hc]
    · have hnone : s c = none := hs c (mt AliasSet.mem_singleton.1 hc)
      simp [without, keep, empty, hnone]
  calc
    (r.merge s).without table = (r.without table).merge (s.without table) := keep_merge _ r s
    _ = r := by rw [hempty, merge_empty, without_eq_self hr]

/-! ## Two branches -/

section Pair

variable {m m' : Multiset Row}

/-- The combinations of the rows of two branches. -/
theorem combine_pair : combine [m, m'] = m.bind fun r => m'.map (merge r) := by
  rw [combine, combine_singleton]

/-- The order of two branches without a common column does not matter. -/
theorem combine_pair_comm (h : ∀ r ∈ m, ∀ s ∈ m', ∀ c, r c = none ∨ s c = none) :
    combine [m', m] = combine [m, m'] := by
  rw [combine_pair, combine_pair, Multiset.bind_map_comm]
  apply Multiset.bind_congr
  intro r hr
  apply Multiset.map_congr rfl
  intro s hs
  exact (merge_comm (h r hr s hs)).symm

/-- Each row repeated at most once: the rows that are not left out. -/
theorem bind_replicate_eq_filter {k : Row → Nat} (h : ∀ r ∈ m, k r ≤ 1) :
    (m.bind fun r => Multiset.replicate (k r) r) = m.filter (k · ≠ 0) := by
  induction m using Multiset.induction_on with
  | empty => rfl
  | cons r m ih =>
    rw [Multiset.cons_bind, ih fun s hs => h s (Multiset.mem_cons_of_mem hs)]
    have hle := h r (Multiset.mem_cons_self r m)
    by_cases hr : k r = 0
    · rw [Multiset.filter_cons_of_neg (p := fun r => k r ≠ 0) _ (not_not.2 hr), hr,
        Multiset.replicate_zero, Multiset.zero_add]
    · have hone : k r = 1 := by omega
      rw [Multiset.filter_cons_of_pos (p := fun r => k r ≠ 0) _ hr, hone,
        Multiset.replicate_one, Multiset.singleton_add]

variable {P : Row → Bool} {table : String}

/-- Up to the columns of a table, the combinations that meet a condition are the rows of one branch,
each repeated as often as it has partners in the other branch. -/
theorem map_without_filter_combine (hm : ∀ r ∈ m, ∀ c, c.table = table → r c = none)
    (hm' : ∀ s ∈ m', s.Within (.singleton table)) :
    ((combine [m, m']).filter (P · = true)).map (without table) =
      m.bind fun r => Multiset.replicate (m'.countP fun s => P (r.merge s) = true) r := by
  rw [combine_pair, Multiset.filter_bind, Multiset.map_bind]
  apply Multiset.bind_congr
  intro r hr
  rw [Multiset.filter_map, Multiset.map_map, Multiset.countP_eq_card_filter]
  have hconst : ∀ s ∈ m'.filter ((P · = true) ∘ merge r), (without table ∘ merge r) s = r :=
    fun s hs => without_merge_of_within (hm r hr) (hm' s (Multiset.mem_of_mem_filter hs))
  rw [Multiset.map_congr rfl hconst, Multiset.map_const']
  rfl

/-- If no row has more than one partner, the combinations are the rows that have one. -/
theorem map_without_filter_combine_eq_filter (hm : ∀ r ∈ m, ∀ c, c.table = table → r c = none)
    (hm' : ∀ s ∈ m', s.Within (.singleton table))
    (hle : ∀ r ∈ m, m'.countP (fun s => P (r.merge s) = true) ≤ 1) :
    ((combine [m, m']).filter (P · = true)).map (without table) =
      m.filter fun r => m'.countP (fun s => P (r.merge s) = true) ≠ 0 := by
  rw [map_without_filter_combine hm hm']
  exact bind_replicate_eq_filter hle

end Pair

end Row

/-! ## Columns that nothing reads -/

namespace Operator

variable {op : Operator} {table : String}

/-- An operator that does not read a table lets the same rows pass whatever their columns of that
table, and a projection drops those columns. -/
theorem output_without (hreads : op.columnsRead.any (·.isOf table) = false) (sem : Semantics)
    (db : Database) (id : NodeId) {m m' : Multiset Row}
    (h : m'.map (Row.without table) = m.map (Row.without table)) :
    (op.output sem db id m').map (Row.without table) =
        (op.output sem db id m).map (Row.without table) ∧
      (op.kind = .projection → op.output sem db id m' = op.output sem db id m) := by
  have hunread : ∀ c ∈ op.columnsRead, (!c.isOf table) = true := by
    intro c hc
    rw [Bool.not_eq_true', ← Bool.not_eq_true]
    exact List.any_eq_false.1 hreads c hc
  cases op with
  | scan t => exact ⟨rfl, nofun⟩
  | filter f =>
    refine ⟨Row.map_filter_congr ?_ (fun _ hc => hc) h, nofun⟩
    exact (sem.passes_dependsOn f.predicate).mono fun c hc =>
      hunread c (List.mem_append_right _ hc)
  | join j =>
    refine ⟨Row.map_filter_congr ?_ (fun _ hc => hc) h, nofun⟩
    exact (sem.joins.dependsOn id j).mono fun c hc => hunread c (List.mem_append_left _ hc)
  | projection columns =>
    -- The projection keeps none of the columns in which the rows may differ.
    have hkeep : ∀ m : Multiset Row, m.map (Row.keep columns.contains) =
        (m.map (Row.without table)).map (Row.keep columns.contains) := by
      intro m
      rw [Multiset.map_map]
      apply Multiset.map_congr rfl
      intro r _
      refine (Row.keep_keep (fun c hc => ?_) r).symm
      exact hunread c (List.mem_append_left _ (ColumnSet.contains_iff.1 hc))
    have heq : (Operator.projection columns).output sem db id m' =
        (Operator.projection columns).output sem db id m := by
      simp only [Operator.output]
      rw [hkeep m', h, ← hkeep m]
    exact ⟨congrArg _ heq, fun _ => heq⟩

/-- What an operator makes of some rows and of some more; a scan takes no rows. -/
theorem output_add (hscan : op.scannedTable? = none) (sem : Semantics) (db : Database) (id : NodeId)
    (m m' : Multiset Row) :
    op.output sem db id (m + m') = op.output sem db id m + op.output sem db id m' := by
  cases op with
  | scan t => exact absurd hscan (Option.some_ne_none t)
  | filter f => exact Multiset.filter_add _ _ _
  | projection columns => exact Multiset.map_add _ _ _
  | join j => exact Multiset.filter_add _ _ _

end Operator

namespace Context

variable {sem : Semantics} {db : Database}

/-- A context makes the same of rows up to the columns of a table that it does not read, if it
projects. -/
theorem above_without {c : Context} {table : String} (hreads : c.reads table = false)
    (hprojects : c.projects = true) {m m' : Multiset Row}
    (h : m'.map (Row.without table) = m.map (Row.without table)) :
    c.above sem db m' = c.above sem db m := by
  induction c generalizing m m' with
  | nil => exact absurd hprojects Bool.false_ne_true
  | cons f c ih =>
    rw [reads, List.any_cons, Bool.or_eq_false_iff] at hreads
    rw [projects, List.any_cons, Bool.or_eq_true, beq_iff_eq] at hprojects
    have hcombine := Row.combine_map_keep_congr h (f.left.map (Branch.rows sem db))
      (f.right.map (Branch.rows sem db))
    obtain ⟨houtput, hprojection⟩ := Operator.output_without hreads.1 sem db f.id hcombine
    rw [above, above]
    rcases hprojects with hkind | hprojects
    · rw [hprojection hkind]
    · exact ih hreads.2 hprojects houtput

/-- What a context makes of some rows and of some more. -/
theorem above_add {c : Context} (hscan : ∀ f ∈ c, f.label.op.scannedTable? = none)
    (m m' : Multiset Row) :
    c.above sem db (m + m') = c.above sem db m + c.above sem db m' := by
  induction c generalizing m m' with
  | nil => rfl
  | cons f c ih =>
    rw [List.forall_mem_cons] at hscan
    rw [above, above, above, Row.combine_add, Operator.output_add hscan.1, ih hscan.2]

/-- A context makes no rows of no rows. -/
theorem above_zero {c : Context} (hscan : ∀ f ∈ c, f.label.op.scannedTable? = none) :
    c.above sem db 0 = 0 := by
  have hadd : c.above sem db (0 + 0) = c.above sem db 0 + c.above sem db 0 := above_add hscan 0 0
  rw [Multiset.zero_add] at hadd
  exact left_eq_add.1 hadd

end Context

/-! ## The way up in a plan -/

namespace Plan

variable (sem : Semantics) (db : Database)

/-- What the plan makes of some rows in the place of those of the branch at `x`, on a way up with at
most so many steps. -/
def rowsAboveWithin (p : Plan) : Nat → NodeId → Multiset Row → Except Fault (Multiset Row)
  | 0, x, _ => .error (.endless x)
  | steps + 1, x, m => do
    match (← p.node x).parent with
    | none => return m
    | some parent =>
      let n ← p.node parent
      let below ← n.children.mapM fun child =>
        if child = x then .ok m else p.rowsAt sem db child
      p.rowsAboveWithin steps parent (n.op.output sem db parent (Row.combine below))

/-- What the plan makes of some rows in the place of those of the branch at `x`. -/
def rowsAbove (p : Plan) (x : NodeId) (m : Multiset Row) : Except Fault (Multiset Row) :=
  p.rowsAboveWithin sem db p.walkLimit x m

variable {sem db} {p : Plan} {rest : NodeId → Option Node}

/-- The way up from a branch ends, given more steps than nodes are above, with what the context
makes of the rows. -/
theorem Shows.rowsAboveWithin_eq {c : Context} {s : Branch} (h : p.Shows (c.plug s) rest)
    {steps : Nat} (hsteps : c.length < steps) (m : Multiset Row) :
    p.rowsAboveWithin sem db steps s.top m = .ok (c.above sem db m) := by
  induction c generalizing s steps m with
  | nil =>
    obtain ⟨steps, rfl⟩ := Nat.exists_eq_add_one.2 (Nat.zero_lt_of_lt hsteps)
    rw [rowsAboveWithin, h.has_plug.node_top]
    rfl
  | cons f c ih =>
    obtain ⟨steps, rfl⟩ := Nat.exists_eq_add_one.2 (Nat.zero_lt_of_lt hsteps)
    have hf : p.Has (Context.parent? c) (f.fill s) := Shows.has_plug (b := f.fill s) h
    have hnode := hf.node_top
    rw [Frame.top_fill] at hnode
    -- The branch is met among the children once, the others are its siblings.
    have hmiddle : ∀ b ∈ f.left ++ s :: f.right, (if b.top = s.top then .ok m else
        p.rowsAt sem db b.top) = .ok (if b.top = s.top then m else b.rows sem db) := by
      intro b hb
      split
      · rfl
      · exact (hf.branch hb).rowsAt_eq
    have hsplits := h.splits
    rw [← List.append_nil ((Context.plug (f :: c) s).entries none)] at hsplits
    obtain ⟨hleft, hright⟩ := hsplits.top_not_mem_siblings
    have hsiblings : ∀ bs : List Branch, s.top ∉ bs.map Branch.top →
        (bs.map fun b => if b.top = s.top then m else b.rows sem db) =
          bs.map (Branch.rows sem db) := by
      intro bs hbs
      apply List.map_congr_left
      intro b hb
      exact if_neg fun htop : b.top = s.top => hbs (htop ▸ List.mem_map_of_mem hb)
    have hbelow := mapM_map_ok (f := fun child => if child = s.top then .ok m else
      p.rowsAt sem db child) hmiddle
    rw [List.map_append (f := fun b : Branch => if b.top = s.top then m else b.rows sem db),
      List.map_cons, hsiblings f.left hleft, hsiblings f.right hright, if_pos rfl] at hbelow
    rw [rowsAboveWithin, h.has_plug.node_top]
    simp only [ok_bind, Label.node_parent, Context.parent?_cons, hnode, Label.node_children,
      Frame.fill, Branch.branches_node, Branch.label_node, hbelow, Label.node_op]
    exact ih (s := f.fill s) h (Nat.lt_of_succ_lt_succ hsteps) _

/-- What a plan makes of some rows in the place of a branch is what the context of the branch makes
of them. -/
theorem Shows.rowsAbove_eq {c : Context} {s : Branch} (h : p.Shows (c.plug s) rest)
    (m : Multiset Row) : p.rowsAbove sem db s.top m = .ok (c.above sem db m) :=
  h.rowsAboveWithin_eq h.length_lt_walkLimit m

end Plan

end QueryPlan
