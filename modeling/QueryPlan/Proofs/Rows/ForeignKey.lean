import QueryPlan.Proofs.Rows.Elimination

/-!
# Foreign keys

A filter above a join that equates a foreign column with a key refers each row of one branch to one
row of a table.  Join elimination drops the filter and the join, although the join may have refused
that row.  What is refused comes back with the elimination, and nothing else changes.

Main results:

- Theorem `Branch.rows_of_soleTable`: the rows of a scan below projections.
- Theorem `JoinElimination.passes_foreignKey`: the filter passes the rows in which the foreign column
  and the key are equal.
- Theorem `JoinElimination.foreignKey_rows`: what the elimination of a join below a filter adds to the
  rows of a plan, and when it adds nothing.
-/

namespace QueryPlan

variable {sem : Semantics} {db : Database}

/-! ## The table of a key -/

namespace Branch

/-- Whether a column gets through the projections on top of a branch. -/
def passesColumn : Branch → Column → Bool
  | .node _ ⟨.projection columns, _, _⟩ (b :: _), c => columns.contains c && b.passesColumn c
  | .node _ _ _, _ => true

/-- What a scan below projections makes of a row of its table. -/
def project (b : Branch) (table : String) (row : UInt64 → Option Value) : Row :=
  Row.keep b.passesColumn fun c => if c.isOf table then row c.index else none

/-- The value of a column in a row that is projected. -/
theorem value_project (b : Branch) (c : Column) (row : UInt64 → Option Value) :
    (b.project c.table row).value c =
      if b.passesColumn c then (row c.index).getD .null else .null := by
  have hof : c.isOf c.table = true := beq_iff_eq.2 rfl
  rw [Row.value, project, Row.keep, if_pos hof]
  split <;> rfl

/-- A scan below projections gives the rows of its table, without the columns that the projections
drop. -/
theorem rows_of_soleTable {b : Branch} {table : String} (h : b.soleTable? = some table)
    (hb : b.Valid) :
    b.rows sem db = (db table : Multiset (UInt64 → Option Value)).map (b.project table) := by
  induction b with
  | node id l bs ih =>
    obtain ⟨op, scope, vacuous⟩ := l
    cases op with
    | scan t =>
      obtain rfl := Option.some.inj h
      rw [rows_node, Operator.output, Database.scan]
      apply Multiset.map_congr rfl
      intro row _
      exact (Row.keep_eq_self fun c hc => absurd hc (by simp [passesColumn])).symm
    | projection columns =>
      obtain ⟨b, rfl⟩ := hb.branches_filter (.inr rfl)
      rw [soleTable?] at h
      have hbelow := ih b (List.mem_singleton.2 rfl) h (hb.branch (List.mem_singleton.2 rfl))
      rw [rows_single, hbelow]
      simp only [Operator.output, Multiset.map_map]
      apply Multiset.map_congr rfl
      intro row _
      funext c
      by_cases hc : columns.contains c = true <;> simp [project, Row.keep, passesColumn, hc]
    | filter | join => simp [soleTable?] at h

/-- A column gets through if all projections keep it. -/
theorem passesColumn_of_forall {b : Branch} {c : Column}
    (h : ∀ columns, Operator.projection columns ∈ b.ops → c ∈ columns) :
    b.passesColumn c = true := by
  induction b with
  | node id l bs ih =>
    obtain ⟨op, scope, vacuous⟩ := l
    cases op with
    | projection columns =>
      cases bs with
      | nil => rfl
      | cons b bs =>
        rw [passesColumn, Bool.and_eq_true]
        refine ⟨ColumnSet.contains_iff.2 (h columns ?_), ih b List.mem_cons_self fun cs hcs => ?_⟩
        · rw [ops_node]
          exact List.mem_cons_self
        · exact h cs (ops_subset_of_mem List.mem_cons_self hcs)
    | scan | filter | join => rfl

end Branch

/-! ## Equality of two columns -/

section Equality

variable {undecided : Undecided} (hundecided : ∀ a b, undecided .eq a b ≠ some true)
include hundecided

/-- Provided that values that cannot be compared are not taken for equal, an equality is true if and
only if the values are equal. -/
theorem BinaryOp.compareValues_eq_iff {a b : Value} :
    BinaryOp.eq.compareValues undecided a b = some true ↔ a.equals b = true := by
  rw [compareValues]
  by_cases hnull : (a.isNull || b.isNull) = true
  · rw [if_pos hnull]
    constructor
    · exact fun h => absurd h.symm (Option.some_ne_none true)
    · intro h
      have hb := Value.isNull_eq_false_of_equals (Value.equals_comm a b ▸ h)
      rw [Value.isNull_eq_false_of_equals h, hb] at hnull
      exact absurd hnull Bool.false_ne_true
  · rw [if_neg hnull, Value.equals, beq_iff_eq]
    cases a.compare? b with
    | none => simp [hundecided a b]
    | some order => cases order <;> simp [holds?]

/-- A row passes an equation of columns if their values in the row are equal. -/
theorem Semantics.passes_equality {joins : JoinConditions} (c d : Column) (r : Row) :
    (Semantics.kleene undecided joins).passes (.binary (.column c) .eq (.column d)) r =
      (r.value c).equals (r.value d) := by
  have htruth : ∀ t : Option Bool, Value.ofTruth t = .bool true ↔ t = some true := by
    rintro (_ | _ | _) <;> simp [Value.ofTruth]
  rw [Bool.eq_iff_iff, ← BinaryOp.compareValues_eq_iff hundecided, ← htruth]
  exact beq_iff_eq

/-- The condition of a filter that equates a foreign column with a key. -/
theorem JoinElimination.passes_foreignKey {f : Filter} {foreign key : Column}
    (hkey : foreignKey? f = some (foreign, key)) {joins : JoinConditions} (r : Row) :
    (Semantics.kleene undecided joins).passes f.predicate r =
      (r.value foreign).equals (r.value key) := by
  unfold foreignKey? at hkey
  unfold Expr.equatedColumns? at hkey
  split at hkey
  · rename_i left right hequated
    split at hequated
    · rename_i l r' hpredicate
      obtain ⟨rfl, rfl⟩ := Prod.mk.inj (Option.some.inj hequated)
      rw [hpredicate, Semantics.passes_equality hundecided]
      split at hkey
      · obtain ⟨rfl, rfl⟩ := Prod.mk.inj (Option.some.inj hkey)
        rfl
      · split at hkey
        · obtain ⟨rfl, rfl⟩ := Prod.mk.inj (Option.some.inj hkey)
          exact Value.equals_comm _ _
        · exact absurd hkey.symm (Option.some_ne_none _)
    · exact absurd hequated.symm (Option.some_ne_none _)
  · exact absurd hkey.symm (Option.some_ne_none _)

end Equality

/-- Two columns with equal values meet the condition of a join that compares no others. -/
theorem JoinConditions.allEqual_of_two (id : NodeId) {j : Join} {c d : Column} {r : Row}
    (hcolumns : ∀ x ∈ j.columns, x = c ∨ x = d) (hequal : (r.value c).equals (r.value d) = true) :
    allEqual.holds id j r = true := by
  refine List.all_eq_true.2 fun x hx => List.all_eq_true.2 fun y hy => ?_
  rw [Bool.or_eq_true, beq_iff_eq]
  rcases hcolumns x hx with rfl | rfl <;> rcases hcolumns y hy with rfl | rfl
  · exact .inl rfl
  · exact .inr hequal
  · exact .inr (Value.equals_comm _ _ ▸ hequal)
  · exact .inl rfl

/-! ## The row referred to -/

namespace JoinElimination.Drops

variable {left right kept other : Branch} {foreign key : Column}

/-- The column a kept row is referred by and the key keep their values in a combination. -/
theorem value_merge (h : Drops left right kept other key.table) (hin : foreign.table ∈ kept.tables)
    {r s : Row} (hr : r ∈ kept.rows sem db) (hs : s ∈ other.rows sem db) :
    (r.merge s).value foreign = r.value foreign ∧ (r.merge s).value key = s.value key := by
  have hforeign : s foreign = none := by
    apply h.within_of_other hs
    intro hmem
    rw [AliasSet.mem_singleton] at hmem
    refine h.tables_disjoint key.table ((mem_tables_of_soleTable h.soleTable h.valid).2 rfl) ?_
    exact hmem ▸ hin
  have hkey : r key = none := h.eq_none_of_kept hr rfl
  constructor
  · rw [Row.value, Row.merge, hforeign, Option.or_none, Row.value]
  · rw [Row.value, Row.merge, hkey, Option.none_or, Row.value]

/-- A kept row passes the filter together with a row of the other branch if the value of the key,
as far as it gets through the projections, is the one the row refers to. -/
theorem passes_iff (h : Drops left right kept other key.table) (hin : foreign.table ∈ kept.tables)
    {f : Filter} (hkey : foreignKey? f = some (foreign, key)) {undecided : Undecided}
    (hundecided : ∀ a b, undecided .eq a b ≠ some true) {joins : JoinConditions} {r : Row}
    (hr : r ∈ kept.rows (.kleene undecided joins) db) {row : UInt64 → Option Value}
    (hrow : row ∈ db key.table) :
    (Semantics.kleene undecided joins).passes f.predicate
        (r.merge (other.project key.table row)) = true ↔
      other.passesColumn key = true ∧
        (r.value foreign).equals ((row key.index).getD .null) = true := by
  have hs : other.project key.table row ∈ other.rows (.kleene undecided joins) db := by
    rw [Branch.rows_of_soleTable h.soleTable h.valid]
    exact Multiset.mem_map_of_mem _ hrow
  obtain ⟨hforeign, hvalue⟩ := h.value_merge hin hr hs
  rw [passes_foreignKey hundecided hkey, hforeign, hvalue, Branch.value_project]
  by_cases hc : other.passesColumn key = true
  · simp [hc]
  · simp [hc, Value.equals_null]

section Partners

variable (h : Drops left right kept other key.table) (hin : foreign.table ∈ kept.tables) {f : Filter}
  (hkey : foreignKey? f = some (foreign, key)) {undecided : Undecided}
  (hundecided : ∀ a b, undecided .eq a b ≠ some true) {joins : JoinConditions} {r : Row}
  (hr : r ∈ kept.rows (.kleene undecided joins) db)
  (hrefers : (db key.table).countP
    (fun row => (r.value foreign).equals ((row key.index).getD .null)) = 1)
include h hin hkey hundecided hr hrefers

/-- No row has more than one partner. -/
theorem countP_le_one (Q : Row → Bool) :
    (other.rows (.kleene undecided joins) db).countP (fun s =>
      ((Semantics.kleene undecided joins).passes f.predicate (r.merge s) && Q (r.merge s)) = true) ≤
        1 := by
  rw [Branch.rows_of_soleTable h.soleTable h.valid, Multiset.countP_map,
    ← Multiset.countP_eq_card_filter, Multiset.coe_countP, ← hrefers]
  apply List.countP_mono_left
  intro row hrow hpasses
  rw [decide_eq_true_iff, Bool.and_eq_true, h.passes_iff hin hkey hundecided hr hrow] at hpasses
  exact hpasses.1.2

/-- A row that refers to some row passes the filter with that one, if the key gets through the
projections. -/
theorem exists_partner (hkeeps : other.passesColumn key = true) :
    ∃ s ∈ other.rows (.kleene undecided joins) db,
      (Semantics.kleene undecided joins).passes f.predicate (r.merge s) = true := by
  obtain ⟨row, hrow, hequal⟩ := List.countP_pos_iff.1 (Nat.lt_of_lt_of_eq Nat.one_pos hrefers.symm)
  refine ⟨other.project key.table row, ?_, ?_⟩
  · rw [Branch.rows_of_soleTable h.soleTable h.valid]
    exact Multiset.mem_map_of_mem _ hrow
  · exact (h.passes_iff hin hkey hundecided hr hrow).2 ⟨hkeeps, hequal⟩

end Partners

/-- A filter above a join leaves the rows that have a partner, up to the columns that are dropped. -/
theorem map_without_rows (h : Drops left right kept other key.table)
    (hin : foreign.table ∈ kept.tables) (id join : NodeId) {l m : Label} {f : Filter} {j : Join}
    (hl : l.op = .filter f) (hm : m.op = .join j) (hkey : foreignKey? f = some (foreign, key))
    {undecided : Undecided} (hundecided : ∀ a b, undecided .eq a b ≠ some true)
    {joins : JoinConditions}
    (hrefers : ∀ r ∈ kept.rows (.kleene undecided joins) db, (db key.table).countP
      (fun row => (r.value foreign).equals ((row key.index).getD .null)) = 1) :
    ((Branch.node id l [.node join m [left, right]]).rows (.kleene undecided joins) db).map
        (Row.without key.table) =
      (kept.rows (.kleene undecided joins) db).filter fun r =>
        (other.rows (.kleene undecided joins) db).countP (fun s =>
          ((Semantics.kleene undecided joins).passes f.predicate (r.merge s) &&
            joins.holds join j (r.merge s)) = true) ≠ 0 := by
  rw [Branch.rows_single, Branch.rows_node, hl, hm]
  simp only [Operator.output, Multiset.filter_filter, ← Bool.and_eq_true]
  exact h.map_without_eq_filter
    (P := fun r => (Semantics.kleene undecided joins).passes f.predicate r && joins.holds join j r)
    fun r hr => h.countP_le_one hin hkey hundecided hr (hrefers r hr) _

end JoinElimination.Drops

/-! ## Filters that declare a foreign column -/

namespace Plan

/-- Every row of the branch at `kept` refers to exactly one row of the table of the key. -/
def RefersOnce (sem : Semantics) (db : Database) (p : Plan) (kept : NodeId)
    (foreign key : Column) : Prop :=
  ∀ keptRows, p.rowsAt sem db kept = .ok keptRows → ∀ r ∈ keptRows,
    (db key.table).countP (fun row => (r.value foreign).equals ((row key.index).getD .null)) = 1

/-- The rows of the branch at `kept` without a partner in the branch at `other`: with no row of that
branch they meet the condition of the join of the two and pass the filter above it. -/
def unmatched (sem : Semantics) (db : Database) (p : Plan) (f : Filter) (join : NodeId) (j : Join)
    (kept other : NodeId) : Except Fault (Multiset Row) := do
  let keptRows ← p.rowsAt sem db kept
  let otherRows ← p.rowsAt sem db other
  return keptRows.filter fun r => otherRows.countP (fun s =>
    (sem.passes f.predicate (r.merge s) && sem.joins.holds join j (r.merge s)) = true) = 0

/-- No projection in the branch at `id` drops the column. -/
def KeepsColumn (p : Plan) (id : NodeId) (c : Column) : Prop :=
  ∀ ids, p.preorder id = .ok ids → ∀ x ∈ ids, ∀ n columns, p.get? x = some n →
    n.op = .projection columns → c ∈ columns

/-- A column that no projection in a branch drops gets through the branch. -/
theorem Has.passesColumn {p : Plan} {parent : Option NodeId} {b : Branch} (h : p.Has parent b)
    {c : Column} (hkeeps : p.KeepsColumn b.top c) : b.passesColumn c = true := by
  apply Branch.passesColumn_of_forall
  intro columns hop
  obtain ⟨⟨x, n⟩, he, hop⟩ := (Branch.mem_ops_iff parent).1 hop
  refine hkeeps b.ids h.preorder_eq x ?_ n columns (h.get?_entry x n he) hop
  rw [← b.map_fst_entries parent]
  exact Splits.mem_map_fst he

end Plan

namespace JoinElimination

/-- If every row that is kept refers to one row of the table that is dropped, the elimination of a join
below a filter adds to the rows of the plan what the plan makes of the rows without a partner.  It
keeps the rows of the plan if and only if that is nothing, and this is so on all such databases if the
join compares no columns but the two that the filter equates and no projection drops the key. -/
theorem foreignKey_rows {p : Plan} (hvalid : p.validate = .ok ()) (hdistinct : p.DistinctAliases)
    {id join other : NodeId} {n m : Node} {f : Filter} {j : Join} {foreign key : Column}
    {res : RuleResult} (hid : p.Reachable id) (hn : p.get? id = some n) (hf : n.op = .filter f)
    (hjoin : n.children = [join]) (hm : p.get? join = some m) (hj : m.op = .join j)
    (hkey : foreignKey? f = some (foreign, key)) (hres : apply p id = .ok res)
    (hchanged : res.changed = true) (hother : other ∈ m.children) (hne : other ≠ res.node)
    {undecided : Undecided} (hundecided : ∀ a b, undecided .eq a b ≠ some true) (db : Database)
    (hrefers : p.RefersOnce (.kleene undecided .allEqual) db res.node foreign key) :
    ∃ unmatched added rows rows',
      p.unmatched (.kleene undecided .allEqual) db f join j res.node other = .ok unmatched ∧
      p.rowsAbove (.kleene undecided .allEqual) db id unmatched = .ok added ∧
      p.rows (.kleene undecided .allEqual) db = .ok rows ∧
      res.plan.rows (.kleene undecided .allEqual) db = .ok rows' ∧
      rows' = rows + added ∧ (rows' = rows ↔ added = 0) ∧ (unmatched = 0 → added = 0) ∧
      ((∀ c ∈ j.columns, c = foreign ∨ c = key) → p.KeepsColumn other key → unmatched = 0) := by
  obtain ⟨b, rest, hsound⟩ := Plan.validate_eq_ok_iff.1 hvalid
  obtain ⟨c, s, kept, rfl, rfl, helim, hinst⟩ := exists_eliminates hsound hid hres hchanged
  have hshows := hsound.shows
  have hhas := hshows.has_plug
  obtain rfl := Option.some.inj (hn.symm.trans hhas.get?_top)
  cases helim with
  | byJoin hl =>
    rw [Label.node_op, Branch.label_node, hl] at hf
    exact absurd hf (by simp)
  | @byFilter id join' l l' f' j' left right kept dropped foreign' key' hl hl' hsides hdet hprojects
      hreads =>
    -- The nodes of the statement are those of the tree.
    rw [Label.node_op, Branch.label_node, hl] at hf
    obtain rfl := Operator.filter.inj hf
    obtain ⟨rfl, rfl⟩ := Prod.mk.inj (Option.some.inj (hdet.equates.symm.trans hkey))
    obtain rfl : join' = join := (List.cons.inj hjoin).1
    have hhasJoin := hhas.branch (List.mem_singleton.2 rfl)
    obtain rfl := Option.some.inj (hm.symm.trans hhasJoin.get?_top)
    rw [Label.node_op, Branch.label_node, hl'] at hj
    obtain rfl := Operator.join.inj hj
    rw [hinst.node_eq] at hne hrefers ⊢
    obtain ⟨rfl, hkeptRows, hotherRows⟩ := hsides.rowsAt_eq hhasJoin hother hne
    have hdrops := hsides.drops (c := ⟨id, l, [], []⟩ :: c) hsound hdistinct hdet.soleTable
    have hrefers' := hrefers _ hkeptRows
    have hslot := hdrops.map_without_rows hdet.inKept id join' hl hl' hdet.equates hundecided
      hrefers'
    have hadd := hdrops.rows_plug_eq_add hsound.valid hprojects hreads hslot
    refine ⟨_, _, _, _, ?_, hshows.rowsAbove_eq _, hshows.rows_eq, hinst.shows.rows_eq, hadd, ?_,
      ?_, ?_⟩
    · rw [Plan.unmatched, hkeptRows, hotherRows]
      rfl
    · rw [hadd]
      exact add_eq_left
    · intro hnone
      rw [hnone, Context.above_zero hsound.valid.scannedTable?_eq_none]
    · intro hcolumns hkeeps
      apply Multiset.filter_eq_nil.2
      intro r hr
      have hdropped := hhasJoin.branch (hsides.mem_iff.2 (.inr rfl))
      obtain ⟨s, hs, hpasses⟩ := hdrops.exists_partner hdet.inKept hdet.equates hundecided hr
        (hrefers' r hr) (hdropped.passesColumn hkeeps)
      have hequal := passes_foreignKey hundecided hdet.equates _ ▸ hpasses
      have hholds := JoinConditions.allEqual_of_two join' hcolumns hequal
      exact (Multiset.countP_pos.2 ⟨s, hs, Bool.and_eq_true_iff.2 ⟨hpasses, hholds⟩⟩).ne'

end JoinElimination

/-- A projection above a filter that equates a foreign column with a key, above a join that compares
the given columns. -/
def Plan.keyFilter (columns : List Column) : Plan where
  nodes := #[
    some ⟨.scan "a", some 2, [], .singleton "a", false⟩,
    some ⟨.scan "b", some 2, [], .singleton "b", false⟩,
    some ⟨.join ⟨.ofList columns, .empty⟩, some 3, [0, 1], .ofList ["a", "b"], false⟩,
    some ⟨.filter ⟨.binary (.column ⟨"a", 2⟩) .eq (.column ⟨"b", 1⟩),
      .ofList [⟨"a", 2⟩, ⟨"b", 1⟩], .ofList [⟨"a", 2⟩], none⟩, some 4, [2],
      .ofList ["a", "b"], false⟩,
    some ⟨.projection (.ofList [⟨"a", 1⟩]), none, [3], .ofList ["a", "b"], false⟩]
  root := some 4

/-- The plan without the filter and the join. -/
def Plan.keyScan : Plan where
  nodes := #[
    some ⟨.scan "a", some 4, [], .singleton "a", false⟩, none, none, none,
    some ⟨.projection (.ofList [⟨"a", 1⟩]), none, [0], .singleton "a", false⟩]
  root := some 4

/-- Both rows that are kept in the example refer to exactly one row of the other table. -/
theorem Plan.keyFilter_refersOnce (columns : List Column) :
    (keyFilter columns).RefersOnce (.kleene (fun _ _ _ => none) .allEqual) .keyed 0
      ⟨"a", 2⟩ ⟨"b", 1⟩ := by
  intro keptRows hkept r hr
  obtain rfl : Database.keyed.scan "a" = keptRows := Except.ok.inj hkept
  obtain ⟨row, hrow, rfl⟩ := Multiset.mem_map.1 hr
  rcases List.mem_pair.1 hrow with rfl | rfl
  · rfl
  · rfl

namespace JoinElimination

/-- The join compares no other columns, so that every row has a partner. -/
theorem foreignKey_rows_keyFilter :
    ∃ rows, apply (Plan.keyFilter [⟨"a", 2⟩, ⟨"b", 1⟩]) 3 = .ok (.replaced Plan.keyScan 0) ∧
      (Plan.keyFilter [⟨"a", 2⟩, ⟨"b", 1⟩]).rows (.kleene (fun _ _ _ => none) .allEqual) .keyed =
        .ok rows ∧
      Plan.keyScan.rows (.kleene (fun _ _ _ => none) .allEqual) .keyed = .ok rows := by
  have hvalid : (Plan.keyFilter [⟨"a", 2⟩, ⟨"b", 1⟩]).validate = .ok () := by cbv
  have hdistinct : (Plan.keyFilter [⟨"a", 2⟩, ⟨"b", 1⟩]).DistinctAliases :=
    Plan.distinctAliases_of_scannedTables ["a", "b"] rfl (by cbv) (by decide)
  have happly : apply (Plan.keyFilter [⟨"a", 2⟩, ⟨"b", 1⟩]) 3 = .ok (.replaced Plan.keyScan 0) := by
    cbv
  have hreachable : (Plan.keyFilter [⟨"a", 2⟩, ⟨"b", 1⟩]).Reachable 3 :=
    .child (.root rfl) rfl (List.mem_singleton.2 rfl)
  have hkeeps : (Plan.keyFilter [⟨"a", 2⟩, ⟨"b", 1⟩]).KeepsColumn 1 ⟨"b", 1⟩ := by
    intro ids hids x hx n columns hn hop
    obtain rfl : [1] = ids := Except.ok.inj hids
    obtain rfl := List.mem_singleton.1 hx
    obtain rfl := Option.some.inj hn
    exact absurd hop (by simp)
  obtain ⟨_, _, rows, rows', -, -, hrows, hrows', -, heq, hnone, hmatched⟩ :=
    foreignKey_rows hvalid hdistinct hreachable rfl rfl rfl rfl rfl rfl happly rfl
      (show 1 ∈ [0, 1] by decide) (by decide) (fun _ _ => (Option.some_ne_none true).symm) .keyed
      (Plan.keyFilter_refersOnce _)
  have hcolumns : ∀ c ∈ ColumnSet.ofList [⟨"a", 2⟩, ⟨"b", 1⟩], c = ⟨"a", 2⟩ ∨ c = ⟨"b", 1⟩ :=
    fun c hc => List.mem_pair.1 (ColumnSet.mem_ofList.1 hc)
  obtain rfl := heq.2 (hnone (hmatched hcolumns hkeeps))
  exact ⟨rows', happly, hrows, hrows'⟩

/-- The join compares another column of `a`, by which it refuses a row that the elimination brings
back. -/
theorem foreignKey_rows_ne_keyFilter :
    (Plan.keyFilter [⟨"a", 5⟩, ⟨"b", 1⟩]).validate = .ok () ∧
    (Plan.keyFilter [⟨"a", 5⟩, ⟨"b", 1⟩]).DistinctAliases ∧
    apply (Plan.keyFilter [⟨"a", 5⟩, ⟨"b", 1⟩]) 3 = .ok (.replaced Plan.keyScan 0) ∧
    (Plan.keyFilter [⟨"a", 5⟩, ⟨"b", 1⟩]).RefersOnce (.kleene (fun _ _ _ => none) .allEqual) .keyed
      0 ⟨"a", 2⟩ ⟨"b", 1⟩ ∧
    (Plan.keyFilter [⟨"a", 5⟩, ⟨"b", 1⟩]).rows (.kleene (fun _ _ _ => none) .allEqual) .keyed ≠
      Plan.keyScan.rows (.kleene (fun _ _ _ => none) .allEqual) .keyed := by
  refine ⟨by cbv, ?_, by cbv, Plan.keyFilter_refersOnce _, fun h => ?_⟩
  · exact Plan.distinctAliases_of_scannedTables ["a", "b"] rfl (by cbv) (by decide)
  · have hbefore : ((Plan.keyFilter [⟨"a", 5⟩, ⟨"b", 1⟩]).rows
        (.kleene (fun _ _ _ => none) .allEqual) .keyed).map Multiset.card = .ok 1 := by rfl
    have hafter : (Plan.keyScan.rows (.kleene (fun _ _ _ => none) .allEqual) .keyed).map
        Multiset.card = .ok 2 := by rfl
    rw [h, hafter] at hbefore
    exact absurd (Except.ok.inj hbefore) (by decide)

end JoinElimination

end QueryPlan
