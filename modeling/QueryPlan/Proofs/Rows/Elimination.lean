import QueryPlan.Proofs.Rows.Partners
import QueryPlan.Proofs.Rows.Runs

/-!
# Join elimination and rows

A join may be dropped if every row of the branch that is kept has exactly one partner in the other
branch, whatever the condition of the join, and whatever stands above it.

Main results:

- Theorem `JoinElimination.Drops.rows_plug_eq_add`: a branch that takes the place of a join adds what
  the plan makes of the rows without a partner.
- Theorem `JoinElimination.rows_preserved_of_matchesOnce`: dropping a join whose condition every row
  meets once keeps the rows of the plan.
-/

namespace QueryPlan

variable {sem : Semantics} {db : Database}

namespace JoinElimination

/-! ## One of two branches -/

/-- Of the two branches of a join, `kept` stays and `other` goes, a scan of a table that `kept` does
not scan. -/
structure Drops (left right kept other : Branch) (table : String) : Prop where
  sides : Sides left right kept other
  nodup : ([left, right].flatMap Branch.scans).Nodup
  valid : other.Valid
  soleTable : other.soleTable? = some table

namespace Drops

variable {left right kept other : Branch} {table : String}

/-- The branch that is dropped shares no table with the one that is kept. -/
theorem tables_disjoint (h : Drops left right kept other table) :
    ∀ a ∈ other.tables, a ∉ kept.tables := by
  obtain ⟨⟨rfl, rfl⟩ | ⟨rfl, rfl⟩, hnodup, -, -⟩ := h
  · exact Branch.scans_disjoint [kept] [] hnodup (List.mem_singleton.2 rfl)
  · exact Branch.scans_disjoint [] [kept] hnodup (List.mem_singleton.2 rfl)

/-- The rows that are kept have no column of the table that is dropped. -/
theorem eq_none_of_kept (h : Drops left right kept other table) {r : Row}
    (hr : r ∈ kept.rows sem db) {c : Column} (hc : c.table = table) : r c = none := by
  apply Branch.within_tables hr
  apply h.tables_disjoint
  exact (mem_tables_of_soleTable h.soleTable h.valid).2 hc

/-- The rows that are dropped have no other columns. -/
theorem within_of_other (h : Drops left right kept other table) {s : Row}
    (hs : s ∈ other.rows sem db) : s.Within (.singleton table) := by
  intro c hc
  apply Branch.within_tables hs
  rw [mem_tables_of_soleTable h.soleTable h.valid]
  exact mt AliasSet.mem_singleton.2 hc

/-- The combinations of the rows, the branch that is kept coming first. -/
theorem combine_rows (h : Drops left right kept other table) :
    Row.combine ([left, right].map (Branch.rows sem db)) =
      Row.combine [kept.rows sem db, other.rows sem db] := by
  rcases h.sides with ⟨rfl, rfl⟩ | ⟨rfl, rfl⟩
  · rfl
  · apply Row.combine_pair_comm
    intro r hr s hs c
    by_cases hc : c.table = table
    · exact .inl (h.eq_none_of_kept hr hc)
    · exact .inr (h.within_of_other hs c (mt AliasSet.mem_singleton.1 hc))

/-- If no row has more than one partner, a condition on the combined rows leaves the rows that have
one, up to the columns that are dropped. -/
theorem map_without_eq_filter (h : Drops left right kept other table) {P : Row → Bool}
    (hle : ∀ r ∈ kept.rows sem db,
      (other.rows sem db).countP (fun s => P (r.merge s) = true) ≤ 1) :
    ((Row.combine ([left, right].map (Branch.rows sem db))).filter (P · = true)).map
        (Row.without table) =
      (kept.rows sem db).filter fun r =>
        (other.rows sem db).countP (fun s => P (r.merge s) = true) ≠ 0 := by
  rw [h.combine_rows]
  exact Row.map_without_filter_combine_eq_filter (fun _ hr _ hc => h.eq_none_of_kept hr hc)
    (fun _ hs => h.within_of_other hs) hle

/-- A context that does not read the table makes the same of some of the rows that are kept and of
rows with further columns of the table. -/
theorem above_eq (h : Drops left right kept other table) {c : Context}
    (hprojects : c.projects = true) (hreads : c.reads table = false) {m m' : Multiset Row}
    (hm : ∀ r ∈ m, r ∈ kept.rows sem db) (hm' : m'.map (Row.without table) = m) :
    c.above sem db m' = c.above sem db m := by
  apply Context.above_without hreads hprojects
  have hself : m.map (Row.without table) = m := by
    calc
      m.map (Row.without table) = m.map id := by
        apply Multiset.map_congr rfl
        intro r hr
        exact Row.without_eq_self fun c hc => h.eq_none_of_kept (hm r hr) hc
      _ = m := Multiset.map_id m
  rw [hself, hm']

/-- If all rows that are kept but those with `k r = 0` are left by a larger branch, up to the columns
that are dropped, then the branch that is kept adds what the context makes of the others. -/
theorem rows_plug_eq_add (h : Drops left right kept other table) {c : Context} {s : Branch}
    (hvalid : (c.plug s).Valid) (hprojects : c.projects = true) (hreads : c.reads table = false)
    {k : Row → Nat}
    (hs : (s.rows sem db).map (Row.without table) = (kept.rows sem db).filter (k · ≠ 0)) :
    ((c.refresh kept).plug kept).rows sem db =
      (c.plug s).rows sem db + c.above sem db ((kept.rows sem db).filter (k · = 0)) := by
  rw [Context.rows_plug_refresh, Context.rows_plug, Context.rows_plug,
    h.above_eq hprojects hreads (fun _ hr => Multiset.mem_of_mem_filter hr) hs,
    ← Context.above_add hvalid.scannedTable?_eq_none]
  congr 1
  rw [add_comm]
  exact (Multiset.filter_add_not (k · = 0) _).symm

end Drops

/-- The branches of a join in a valid plan that scans no alias twice. -/
theorem Sides.drops {p : Plan} {c : Context} {join : NodeId} {m : Label}
    {left right kept other : Branch} {table : String} {rest : NodeId → Option Node}
    (h : Sides left right kept other) (hsound : p.Sound (c.plug (.node join m [left, right])) rest)
    (hdistinct : p.DistinctAliases) (htable : other.soleTable? = some table) :
    Drops left right kept other table where
  sides := h
  nodup := by
    have hscans := (c.scans_sublist_plug _).nodup (hsound.shows.nodup_scans hdistinct)
    rw [Branch.scans_node, List.nodup_append] at hscans
    exact hscans.2.1
  valid := (Branch.Valid.of_plug hsound.valid).branch (h.mem_iff.2 (.inr rfl))
  soleTable := htable

/-- The rows of the two branches, read off the plan. -/
theorem Sides.rowsAt_eq {p : Plan} {parent : Option NodeId} {join x : NodeId} {m : Label}
    {left right kept other : Branch} (h : Sides left right kept other)
    (hjoin : p.Has parent (.node join m [left, right]))
    (hx : x ∈ [left, right].map Branch.top) (hne : x ≠ kept.top) :
    x = other.top ∧ p.rowsAt sem db kept.top = .ok (kept.rows sem db) ∧
      p.rowsAt sem db other.top = .ok (other.rows sem db) := by
  refine ⟨?_, ?_, ?_⟩
  · obtain ⟨b, hb, rfl⟩ := List.mem_map.1 hx
    rcases h.mem_iff.1 hb with rfl | rfl
    · exact absurd rfl hne
    · rfl
  · exact (hjoin.branch (h.mem_iff.2 (.inl rfl))).rowsAt_eq
  · exact (hjoin.branch (h.mem_iff.2 (.inr rfl))).rowsAt_eq

/-- The branch that the rule has put into the place of another one, if it has changed a plan. -/
theorem exists_eliminates {p : Plan} {b : Branch} {rest : NodeId → Option Node}
    (h : p.Sound b rest) {id : NodeId} (hid : p.Reachable id) {res : RuleResult}
    (hres : apply p id = .ok res) (hchanged : res.changed = true) :
    ∃ c s kept, b = Context.plug c s ∧ s.top = id ∧ Eliminates c s kept ∧
      res.Installs p (c.refresh kept) kept rest := by
  obtain ⟨c, s, rfl, rfl⟩ := Branch.exists_plug_of_mem_ids (h.shows.reachable_iff.1 hid)
  obtain ⟨res', hres', hcases⟩ := apply_shows h.shows
  obtain rfl : res' = res := Except.ok.inj (hres'.symm.trans hres)
  rcases hcases with rfl | ⟨kept, helim, hinst⟩
  · exact absurd hchanged Bool.false_ne_true
  · exact ⟨c, s, kept, rfl, rfl, helim, hinst⟩

end JoinElimination

/-! ## Joins that declare foreign columns -/

/-- Every row of the branch at `kept` meets the condition of the join at `id` with exactly one row of
the branch at `other`. -/
def Plan.MatchesOnce (sem : Semantics) (db : Database) (p : Plan) (id : NodeId) (j : Join)
    (kept other : NodeId) : Prop :=
  ∀ keptRows otherRows, p.rowsAt sem db kept = .ok keptRows →
    p.rowsAt sem db other = .ok otherRows → ∀ r ∈ keptRows,
      otherRows.countP (fun s => sem.joins.holds id j (r.merge s) = true) = 1

namespace JoinElimination

/-- Dropping a join keeps the rows of a valid plan, with their multiplicities and columns, if every
row of the branch that is kept matches exactly one row of the other branch. -/
theorem rows_preserved_of_matchesOnce {p : Plan} (hvalid : p.validate = .ok ())
    (hdistinct : p.DistinctAliases) {id other : NodeId} {n : Node} {j : Join} {res : RuleResult}
    (hid : p.Reachable id) (hn : p.get? id = some n) (hj : n.op = .join j)
    (hres : apply p id = .ok res) (hchanged : res.changed = true)
    (hother : other ∈ n.children) (hne : other ≠ res.node)
    (hmatches : p.MatchesOnce sem db id j res.node other) :
    ∃ rows, p.rows sem db = .ok rows ∧ res.plan.rows sem db = .ok rows := by
  obtain ⟨b, rest, hsound⟩ := Plan.validate_eq_ok_iff.1 hvalid
  obtain ⟨c, s, kept, rfl, rfl, helim, hinst⟩ := exists_eliminates hsound hid hres hchanged
  have hshows := hsound.shows
  have hnode := hshows.has_plug.get?_top
  obtain rfl := Option.some.inj (hn.symm.trans hnode)
  refine ⟨_, hshows.rows_eq, ?_⟩
  rw [hinst.shows.rows_eq]
  cases helim with
  | byFilter hl =>
    rw [Label.node_op, Branch.label_node, hl] at hj
    exact absurd hj (by simp)
  | @byJoin id l j' left right kept dropped table hl hsides hdet hprojects hreads =>
    rw [Label.node_op, Branch.label_node, hl] at hj
    obtain rfl := Operator.join.inj hj
    obtain ⟨rfl, hkeptRows, hotherRows⟩ := hsides.rowsAt_eq hshows.has_plug hother
      (hinst.node_eq ▸ hne)
    have hdrops := hsides.drops hsound hdistinct hdet.soleTable
    have hone : ∀ r ∈ kept.rows sem db, (dropped.rows sem db).countP
        (fun s => sem.joins.holds id j' (r.merge s) = true) = 1 :=
      hmatches _ _ (hinst.node_eq ▸ hkeptRows) hotherRows
    have hslot : ((Branch.node id l [left, right]).rows sem db).map (Row.without table) =
        (kept.rows sem db).filter fun r => (dropped.rows sem db).countP
          (fun s => sem.joins.holds id j' (r.merge s) = true) ≠ 0 := by
      rw [Branch.rows_node, hl]
      exact hdrops.map_without_eq_filter fun r hr => Nat.le_of_eq (hone r hr)
    have hnone : ((kept.rows sem db).filter fun r => (dropped.rows sem db).countP
        (fun s => sem.joins.holds id j' (r.merge s) = true) = 0) = 0 := by
      apply Multiset.filter_eq_nil.2
      intro r hr
      rw [hone r hr]
      exact Nat.one_ne_zero
    rw [hdrops.rows_plug_eq_add hsound.valid hprojects hreads hslot, hnone,
      Context.above_zero hsound.valid.scannedTable?_eq_none, Multiset.add_zero]

end JoinElimination

/-- A projection above the join of a foreign column with the key it points to. -/
def Plan.keyJoin : Plan where
  nodes := #[
    some ⟨.scan "a", some 2, [], .singleton "a", false⟩,
    some ⟨.scan "b", some 2, [], .singleton "b", false⟩,
    some ⟨.join ⟨.ofList [⟨"a", 2⟩, ⟨"b", 1⟩], .ofList [⟨"a", 2⟩]⟩, some 3, [0, 1],
      .ofList ["a", "b"], false⟩,
    some ⟨.projection (.ofList [⟨"a", 1⟩]), none, [2], .ofList ["a", "b"], false⟩]
  root := some 3

/-- Two rows in each table; all rows of `a` refer to the first row of `b`. -/
def Database.keyed : Database
  | "a" => [fun i => some (.int (.ofNat i.toNat)), fun _ => some (.int 2)]
  | _ => [fun i => some (.int (.ofNat (i.toNat + 1))), fun _ => some (.int 7)]

namespace JoinElimination

/-- A join on equal columns whose branch `b` is dropped. -/
theorem rows_preserved_keyJoin :
    ∃ res rows, apply Plan.keyJoin 2 = .ok res ∧ res.node = 0 ∧ res.changed = true ∧
      Plan.keyJoin.rows (.kleene (fun _ _ _ => none) .allEqual) .keyed = .ok rows ∧
        res.plan.rows (.kleene (fun _ _ _ => none) .allEqual) .keyed = .ok rows := by
  have hvalid : Plan.keyJoin.validate = .ok () := by cbv
  have hdistinct : Plan.keyJoin.DistinctAliases :=
    Plan.distinctAliases_of_scannedTables ["a", "b"] rfl (by cbv) (by decide)
  have hreachable : Plan.keyJoin.Reachable 2 :=
    .child (.root rfl) rfl (List.mem_singleton.2 rfl)
  have happly : apply Plan.keyJoin 2 = .ok (.replaced ⟨#[
      some ⟨.scan "a", some 3, [], .singleton "a", false⟩, none, none,
      some ⟨.projection (.ofList [⟨"a", 1⟩]), none, [0], .singleton "a", false⟩], some 3⟩ 0) := by
    cbv
  have hmatches : Plan.keyJoin.MatchesOnce (.kleene (fun _ _ _ => none) .allEqual) .keyed 2
      ⟨.ofList [⟨"a", 2⟩, ⟨"b", 1⟩], .ofList [⟨"a", 2⟩]⟩ 0 1 := by
    intro keptRows otherRows hkept hother r hr
    obtain rfl : Database.keyed.scan "a" = keptRows := Except.ok.inj hkept
    obtain rfl : Database.keyed.scan "b" = otherRows := Except.ok.inj hother
    obtain ⟨row, hrow, rfl⟩ := Multiset.mem_map.1 hr
    rcases List.mem_pair.1 hrow with rfl | rfl
    · rfl
    · rfl
  obtain ⟨rows, hrows, hrows'⟩ := rows_preserved_of_matchesOnce hvalid hdistinct hreachable rfl rfl
    happly rfl (List.mem_cons_of_mem _ List.mem_cons_self) (by decide) hmatches
  exact ⟨_, rows, happly, rfl, rfl, hrows, hrows'⟩

end JoinElimination

end QueryPlan
