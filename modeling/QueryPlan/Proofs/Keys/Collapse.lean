import QueryPlan.Proofs.Keys.Build
import QueryPlan.Proofs.Optimizer.Still
import Mathlib.Order.Bounds.Basic

/-!
# Chains of foreign keys collapse

Below a projection that is the root, a run makes one slot stable before it goes further down, the slot
of the chain.  There the joins at the top are eliminated one after the other, until the table that came
last is read by the projection or is the only one left.  From then on no table is lost: rules lead from
one chain to a chain of some of its first tables, and what the projection reads outlives all rules.

Main results:

- Theorem `Optimizer.stabilize_of_stable`: a slot that is stable stays as it is.
- Theorem `Optimizer.exists_transform_of_projection`: what a run does below a projection at the root.
- Theorem `Optimizer.Settles.exists_keyChain`: what is left of a chain in a slot.
- Theorem `Optimizer.Stable.read_last`: a stable chain is read up to its end.
- Theorem `Optimizer.keyChain_collapses`: a run leaves the tables up to the last one that is read.
-/

namespace QueryPlan

/-- A first part of a list without repetitions is all of it if it has the last member. -/
theorem eq_of_getLast_mem {first l : List String} {a : String} (hnodup : l.Nodup)
    (hlast : l.getLast? = some a) (hinit : first <+: l) (ha : a ∈ first) : first = l := by
  obtain ⟨before, rfl⟩ := List.getLast?_eq_some_iff.1 hlast
  rcases List.prefix_concat_iff.1 hinit with hall | hbefore
  · exact hall
  · have hne := (List.nodup_append.1 hnodup).2.2 a (hbefore.subset ha) a (List.mem_singleton.2 rfl)
    exact absurd rfl hne

/-- A projection reads no table of which it keeps no column. -/
theorem Context.reads_of_projection {id : NodeId} {l : Label} {columns : ColumnSet} {table : String}
    (hl : l.op = .projection columns) (h : ∀ x ∈ columns, x.table ≠ table) :
    Context.reads [⟨id, l, [], []⟩] table = false := by
  have hcolumns : (Operator.projection columns).columnsRead = columns.columns :=
    List.append_nil columns.columns
  simp only [Context.reads, List.any_cons, List.any_nil, Bool.or_false, hl, hcolumns, List.any_eq_false,
    Column.isOf, beq_iff_eq]
  exact h

/-- A context of one node without siblings is like another one only if that is such a context, too.
-/
theorem Context.Alike.exists_label {id : NodeId} {l : Label} {c : Context}
    (h : Alike [⟨id, l, [], []⟩] c) : ∃ l', c = [⟨id, l', [], []⟩] ∧ l.Alike l' := by
  obtain ⟨⟨id', l', left, right⟩, _, ⟨hid, hl, hleft, hright⟩, hnil, rfl⟩ :=
    List.forall₂_cons_left_iff.1 h
  obtain rfl := List.forall₂_nil_left_iff.1 hnil
  obtain rfl : id' = id := hid
  obtain rfl : left = [] := hleft
  obtain rfl : right = [] := hright
  exact ⟨l', by rfl, hl⟩

/-- A chain without projections is a scan or has a join at its top. -/
theorem Branch.KeyChain.length_eq_one_or {t : Branch} {tables : List String} (ht : t.KeyChain tables)
    (hall : t.All Label.KeepsAll) : tables.length = 1 ∨ t.kind = .join := by
  cases ht with
  | scan => exact .inl rfl
  | projection hl => exact absurd hl (hall.label _)
  | join hl => exact .inr (by rw [Branch.kind_node, Label.kind, hl, Operator.kind])

namespace ColumnSet

/-- Up to where columns are read in a list of tables: one, and where a table of a column stands, counted
from one. -/
def reach (columns : ColumnSet) (tables : List String) : Set Nat :=
  {i | i = 1 ∨ 0 < i ∧ ∃ x ∈ columns, tables[i - 1]? = some x.table}

/-- Some of the first tables reach as far as columns are read if they have all tables of the columns and
if the last one of them is such a table, unless it is the only one. -/
theorem isGreatest_reach {columns : ColumnSet} {tables t : List String} (hinit : t <+: tables)
    (hnodup : tables.Nodup) (hne : t ≠ []) (hread : ∀ x ∈ columns, x.table ∈ t)
    (hlast : t.length = 1 ∨ ∃ x ∈ columns, t.getLast? = some x.table) :
    IsGreatest (columns.reach tables) t.length := by
  have hpos : 0 < t.length := List.length_pos_iff.2 hne
  have hget : ∀ i, i < t.length → tables[i]? = t[i]? := by
    obtain ⟨after, rfl⟩ := hinit
    exact fun i hi => List.getElem?_append_left hi
  constructor
  · refine hlast.imp id ?_
    rintro ⟨x, hx, hlast⟩
    refine ⟨hpos, x, hx, ?_⟩
    rw [hget _ (by omega), ← List.getLast?_eq_getElem?, hlast]
  · rintro i (rfl | ⟨hi, x, hx, htable⟩)
    · exact hpos
    · obtain ⟨k, hk, hkx⟩ := List.mem_iff_getElem.1 (hread x hx)
      have hsame : tables[k]? = tables[i - 1]? := by
        rw [hget k hk, htable, List.getElem?_eq_getElem hk, hkx]
      have hk' : k < tables.length := Nat.lt_of_lt_of_le hk hinit.length_le
      have heq : k = i - 1 := (List.getElem?_inj hk' hnodup).1 hsame
      omega

end ColumnSet

namespace Optimizer

variable {o : Optimizer} {rest : NodeId → Option Node} {c : Context} {s : Optimized} {t t' : Branch}
  {id : NodeId} {l : Label} {columns : ColumnSet} {tables : List String}

/-! ## The slot below the root -/

/-- Making the slots of one node stable is making its slot stable. -/
theorem stabilizeAll_singleton (id : NodeId) (s : Optimized) :
    o.stabilizeAll [id] s = Prod.snd <$> o.stabilize id s := by
  rw [stabilizeAll, List.foldlM_cons]
  cases o.stabilize id s <;> rfl

/-- A slot that is stable stays as it is. -/
theorem stabilize_of_stable (h : s.plan.Shows (c.plug t) rest) (hstable : o.Stable t.top s) :
    o.stabilize t.top s = .ok (t.top, s) := by
  rw [stabilize, roundLimit, stabilizeWithin, h.has_plug.node_top, ok_bind]
  rcases hstable with ⟨n, hget, hv⟩ | hidle
  · obtain rfl := Option.some.inj (h.has_plug.get?_top.symm.trans hget)
    rw [Label.node_vacuous] at hv
    rw [Label.node_vacuous, if_pos hv]
    rfl
  · rw [hidle]
    split <;> rfl

/-- No rule may replace a projection. -/
theorem rests_of_projection (ho : o.Sorted) {bs : List Branch} (hl : l.op = .projection columns)
    (p : Plan) : ∀ r ∈ o.replacingRules, r.Rests p (.node id l bs) := by
  intro r hr hanchor
  have hkind : l.kind = .projection := by rw [Label.kind, hl]; rfl
  have hfilter : (Branch.node id l bs).isFilterOverJoin = false := by
    unfold Branch.isFilterOverJoin
    split
    · next heq =>
      obtain ⟨rfl, rfl, rfl⟩ := Branch.node.inj heq
      rw [hkind]
      rfl
    · rfl
  cases r with
  | projectionBelowJoin | projectionBelowFilter => exact absurd (ho.replacing _ hr) Bool.false_ne_true
  | predicatePushdown => exact absurd (hfilter.symm.trans hanchor) Bool.false_ne_true
  | joinElimination => simp [Rule.anchorsAt, hkind, hfilter] at hanchor
  | predicateSimplification => simp [Rule.anchorsAt, hkind] at hanchor

/-- A walk down from a node goes the same way from the state in which the slot below it is stable. -/
theorem descendWithin_of_stabilize {s₁ : Optimized} {l₁ : Label} {t₁ : Branch}
    (h : s.plan.Shows (.node id l [t]) rest) (h₁ : s₁.plan.Shows (.node id l₁ [t₁]) rest)
    (hl : l.Alike l₁) (hv : l.vacuous = false) (hslot : o.stabilize t.top s = .ok (t₁.top, s₁))
    (hstable : o.Stable t₁.top s₁) (depth : Nat) :
    o.descendWithin (depth + 1) id s = o.descendWithin (depth + 1) id s₁ := by
  have hnode : s.plan.node id = .ok (l.node none [t.top]) := h.has.node_top
  have hnode₁ : s₁.plan.node id = .ok (l₁.node none [t₁.top]) := h₁.has.node_top
  have hfirst : o.stabilizeAll [t.top] s = .ok s₁ := by
    rw [stabilizeAll_singleton, hslot, map_ok]
  have hagain : o.stabilizeAll [t₁.top] s₁ = .ok s₁ := by
    rw [stabilizeAll_singleton, stabilize_of_stable (c := [⟨id, l₁, [], []⟩]) h₁ hstable, map_ok]
  have hv₁ : l₁.vacuous = false := hl.vacuous_eq.trans hv
  rw [descendWithin, descendWithin, hnode, hnode₁, ok_bind, ok_bind]
  simp only [Label.node_vacuous, Label.node_children, hv, hv₁, Bool.false_eq_true, if_false, hfirst,
    hagain, ok_bind]

/-- Below a projection that is the root, a run makes the slot stable and then goes on from there. -/
theorem exists_transform_of_projection (ho : o.Sorted) {p : Plan}
    (h : p.Shows (.node id l [t]) rest) (hl : l.op = .projection columns) (hv : l.vacuous = false) :
    ∃ l₁ t₁ s₁ b' s', l.Alike l₁ ∧ s₁.plan.Shows (.node id l₁ [t₁]) rest ∧
      o.Settles [.projection columns] t t₁ ∧ o.Stable t₁.top s₁ ∧
      Branch.Steps o.Runs (.node id l [t]) (.node id l₁ [t₁]) ∧
      o.transform p = .ok s' ∧ s'.plan.Shows b' rest ∧
      Branch.Steps o.Runs (.node id l₁ [t₁]) b' := by
  have hroot : o.stabilize id (.start p) = .ok (id, .start p) :=
    stabilize_of_rests (c := []) (s := .start p) h (rests_of_projection ho hl p)
  obtain ⟨c₁, t₁, s₁, hslot, hgoes, hsettles, hstable⟩ :=
    stabilize_goes (c := [⟨id, l, [], []⟩]) (s := .start p) ho h
  obtain ⟨l₁, rfl, hl₁⟩ := hgoes.alike.exists_label
  have hshows : s₁.plan.Shows (.node id l₁ [t₁]) rest := hgoes.shows
  rw [Context.ops_cons, hl, Context.ops_nil] at hsettles
  have hdepth : (Branch.node id l₁ [t₁]).descent false ≤ depthLimit p := by
    have hkind : l₁.kind = l.kind := by rw [Label.kind, Label.kind, hl₁.op_eq]
    have hle := Branch.descent_node_le false id hkind (.cons (hsettles.descent_le _) .nil)
    exact Nat.le_trans hle (descent_le_depthLimit (c := []) h false)
  obtain ⟨c', b', s', hdescend, hgoes', -⟩ :=
    descendWithin_goes (c := []) ho (visits_trivial o _) hshows .refl trivial hdepth
  obtain rfl := List.forall₂_nil_left_iff.1 hgoes'.alike
  refine ⟨l₁, t₁, s₁, b', s', hl₁, hshows, hsettles, hstable, hgoes.steps, ?_, hgoes'.shows,
    hgoes'.steps⟩
  rw [transform, h.root_eq]
  show (o.stabilize id (.start p) >>= fun r => o.descendWithin (depthLimit p) r.1 r.2) = _
  rw [hroot, ok_bind, depthLimit, descendWithin_of_stabilize h hshows hl₁ hv hslot hstable]
  exact hdescend

/-! ## What is left in the slot -/

/-- A chain without projections that rules replace in its slot is left with some of its first tables. -/
theorem Settles.exists_keyChain (ho : o.Sorted) {ops : List Operator} (h : o.Settles ops t t')
    (ht : t.KeyChain tables) (hall : t.All Label.KeepsAll) (hnodup : tables.Nodup) :
    ∃ tables', t'.KeyChain tables' ∧ t'.All Label.KeepsAll ∧ tables' <+: tables := by
  induction h generalizing tables with
  | rest => exact ⟨tables, ht, hall, List.prefix_rfl⟩
  | fire _ hr _ hrewrites _ ih =>
    cases hrewrites with
    | belowJoin | belowFilter => exact absurd (ho.replacing _ hr) Bool.false_ne_true
    | push hpush =>
      cases hpush with
      | push hl => exact absurd hl (ht.op_ne_filter _)
    | eliminate helim =>
      obtain ⟨first, table, rfl, hkept, -⟩ := helim.exists_keyChain ht hnodup
      obtain ⟨f, d, rfl⟩ := helim.exists_plug
      have hinit := List.prefix_append first [table]
      obtain ⟨tables', ht', hall', hinit'⟩ :=
        ih hkept hall.of_plug (hinit.sublist.nodup hnodup)
      exact ⟨tables', ht', hall', hinit'.trans hinit⟩
    | simplify hsimplify =>
      cases hsimplify with
      | remove hl | refute hl | fold hl => exact absurd hl (ht.op_ne_filter _)

/-- If joins are eliminated, a stable chain below the projection at the root has one table only, or the
projection reads the last one. -/
theorem Stable.read_last (hr : .joinElimination ∈ o.replacingRules) (hstable : o.Stable t.top s)
    (h : s.plan.Shows (.node id l [t]) rest) (hl : l.op = .projection columns)
    (ht : t.KeyChain tables) (hall : t.All Label.KeepsAll) (hnodup : tables.Nodup) :
    tables.length = 1 ∨ ∃ x ∈ columns, tables.getLast? = some x.table := by
  have hshows : s.plan.Shows (Context.plug [⟨id, l, [], []⟩] t) rest := h
  have hrests := hstable.rests hshows ht.vacuous_eq _ hr
  rcases ht.length_eq_one_or hall with hone | hkind
  · exact .inl hone
  obtain rfl | ⟨first, table, rfl⟩ := List.eq_nil_or_concat' tables
  · exact absurd rfl ht.ne_nil
  by_cases hread : ∃ x ∈ columns, x.table = table
  · obtain ⟨x, hx, rfl⟩ := hread
    exact .inr ⟨x, hx, List.getLast?_concat⟩
  have hreads : Context.reads [⟨id, l, [], []⟩] table = false :=
    Context.reads_of_projection hl fun x hx heq => hread ⟨x, hx, heq⟩
  have hprojects : Context.projects [⟨id, l, [], []⟩] = true := by
    simp [Context.projects, Label.kind, hl, Operator.kind]
  have hmoves := JoinElimination.not_rests_of_keyChain hshows ht hkind hnodup hprojects hreads
  exact absurd hrests hmoves

/-- What a run leaves of a valid plan that projects a chain. -/
theorem exists_keyChain_of_optimize (ho : o.Sorted) (hr : .joinElimination ∈ o.replacingRules)
    {p : Plan} {b : Branch} (h : p.Sound b rest) (hchain : p.ProjectsChain tables columns)
    (hnodup : tables.Nodup) :
    ∃ out b' tables', o.optimize p = .ok out ∧ out.plan.Sound b' rest ∧
      b'.label.op = .projection columns ∧ b'.KeyChain tables' ∧ tables' <+: tables ∧
      (tables'.length = 1 ∨ ∃ x ∈ columns, tables'.getLast? = some x.table) := by
  obtain ⟨id, l, t, rfl, hl, hv, ht, hall⟩ := hchain.exists_node h.shows
  obtain ⟨l₁, t₁, s₁, b', out, hl₁, hshows₁, hsettles, hstable, hsteps₁, hrun, hshows, hsteps⟩ :=
    exists_transform_of_projection ho h.shows hl hv
  obtain ⟨middle, ht₁, hall₁, hinit⟩ := hsettles.exists_keyChain ho ht hall hnodup
  have hmiddle : middle.Nodup := hinit.sublist.nodup hnodup
  have hop₁ : l₁.op = .projection columns := hl₁.op_eq.trans hl
  have hlast := hstable.read_last hr hshows₁ hop₁ ht₁ hall₁ hmiddle
  have hvalid := hsteps₁.valid h.valid
  have hsound : out.plan.Sound b' rest := ⟨hshows, hsteps.valid hvalid, h.linked⟩
  have hkeeps := hsteps.keeps hvalid
  have hchain₁ : (Branch.node id l₁ [t₁]).KeyChain middle :=
    .projection hop₁ (hl₁.vacuous_eq.trans hv) ht₁
  obtain ⟨tables', hb', hinit'⟩ := hsteps.keyChain hchain₁ hmiddle
  -- The last table of the stable chain is read, so it is still there, and so are those before it.
  have hsame : tables' = middle := by
    rcases hlast with hone | ⟨x, hx, hlast⟩
    · exact hinit'.eq_of_length_le (hone ▸ List.length_pos_iff.2 hb'.ne_nil)
    · have hcount := hkeeps.count columns hop₁ x hx
      rw [hb'.scans_eq, hchain₁.scans_eq] at hcount
      have hmem : x.table ∈ tables' := by
        rw [← List.count_pos_iff, hcount, List.count_pos_iff]
        exact List.mem_of_getLast? hlast
      exact eq_of_getLast_mem hmiddle hlast hinit' hmem
  subst hsame
  exact ⟨out, b', tables', optimize_eq_of_transform h hrun hsound, hsound,
    hkeeps.columns columns hop₁, hb', hinit, hlast⟩

/-- A run eliminates exactly the tables that come after the last one that is read.  Chains of foreign
keys can be built for all tables and under all projections to their columns, and they are valid.
Whatever other rules run beside join elimination, if the tables are distinct, the scans that are left are
those of the first tables, up to the last one of which the projection keeps a column, and of the very
first one in any case. -/
theorem keyChain_collapses :
    (∀ (first : String) (links : List KeyLink) (columns : ColumnSet),
      (∀ x ∈ columns, x.table ∈ first :: links.map KeyLink.table) →
        ∃ p, Plan.keyChain first links columns = .ok p ∧ p.validate = .ok () ∧
          p.ProjectsChain (first :: links.map KeyLink.table) columns) ∧
    ∀ (p : Plan) (tables : List String) (columns : ColumnSet),
      p.validate = .ok () → p.ProjectsChain tables columns → tables.Nodup →
      ∀ (rules : RuleSet) (validates traces : Bool), .joinElimination ∈ rules.rules →
        ∃ out root m, (ofRules rules validates traces).optimize p = .ok out ∧
          out.plan.root = some root ∧ IsGreatest (columns.reach tables) m ∧
          out.plan.scannedTables root = .ok (tables.take m) := by
  refine ⟨Plan.exists_keyChain, ?_⟩
  intro p tables columns hvalid hchain hnodup rules validates traces hrules
  obtain ⟨b, rest, hsound⟩ := Plan.validate_eq_ok_iff.1 hvalid
  obtain ⟨out, b', tables', hout, hsound', hop, hb', hinit, hlast⟩ :=
    exists_keyChain_of_optimize (sorted_ofRules rules validates traces)
      (mem_replacingRules_ofRules hrules rfl) hsound hchain hnodup
  have hread : ∀ x ∈ columns, x.table ∈ tables' := by
    intro x hx
    obtain ⟨id, l, bs⟩ := b'
    have hop' : l.op = .projection columns := hop
    have hmem := hsound'.valid.fits.columns x (by rw [hop']; exact hx)
    rwa [Branch.mem_tables, hb'.scans_eq] at hmem
  refine ⟨out, b'.top, tables'.length, hout, hsound'.shows.root_eq,
    ColumnSet.isGreatest_reach hinit hnodup hb'.ne_nil hread hlast, ?_⟩
  rw [hsound'.shows.has.scannedTables_eq, hb'.scans_eq, ← List.prefix_iff_eq_take.1 hinit]

/-- Of three tables, the last one is not read. -/
theorem keyChain_collapses_threeTables :
    ∃ p out root, Plan.keyChain "a" [⟨"b", 0, 1⟩, ⟨"c", 2, 3⟩] (.ofList [⟨"b", 4⟩]) = .ok p ∧
      p.validate = .ok () ∧ (ofRules .all true false).optimize p = .ok out ∧
      out.plan.root = some root ∧ out.plan.scannedTables root = .ok ["a", "b"] := by
  have hread : ∀ x ∈ ColumnSet.ofList [⟨"b", 4⟩], x.table = "b" := by simp
  obtain ⟨p, hp, hvalid, hchain⟩ := keyChain_collapses.1 "a" [⟨"b", 0, 1⟩, ⟨"c", 2, 3⟩]
    (.ofList [⟨"b", 4⟩]) fun x hx => by simp [hread x hx]
  obtain ⟨out, root, m, hout, hroot, hm, hscans⟩ :=
    keyChain_collapses.2 p _ _ hvalid hchain (by decide) .all true false (by decide)
  have htwo : IsGreatest (ColumnSet.reach (.ofList [⟨"b", 4⟩]) ["a", "b", "c"]) 2 := by
    refine ColumnSet.isGreatest_reach (t := ["a", "b"]) ⟨["c"], rfl⟩ (by decide) (by simp)
      (fun x hx => by simp [hread x hx]) (.inr ⟨⟨"b", 4⟩, by simp, rfl⟩)
  obtain rfl : m = 2 := hm.unique htwo
  exact ⟨p, out, root, hp, hvalid, hout, hroot, hscans⟩

end Optimizer

end QueryPlan
