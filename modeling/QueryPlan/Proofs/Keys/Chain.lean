import QueryPlan.Proofs.Tables

/-!
# Chains of foreign keys

Tables are joined one after the other, each on a key of its own to which the table before it refers.
Whatever the rules do to such a chain, it stays one: they put projections into it, and the join at its
top may be eliminated together with the table that came last, if nothing above reads that table.  A join
further down stays, since the join above it reads the table it adds.

Main results:

- Definition `Branch.KeyChain`: a branch joins the given tables in this way.
- Theorem `Branch.keyChain_plug_iff`: a branch of a chain, and the nodes around it.
- Theorem `Branch.Steps.keyChain`: rules lead from a chain to a chain of some of the first tables.
- Theorem `JoinElimination.not_rests_of_keyChain`: the join at the top is eliminated if it can be.
-/

namespace QueryPlan

/-- The condition of a join consists of a foreign column, declared as such, and of a key. -/
structure Join.OnKey (j : Join) (foreign key : Column) : Prop where
  mem_columns : ∀ x, x ∈ j.columns ↔ x = foreign ∨ x = key
  mem_foreign : ∀ x, x ∈ j.foreign ↔ x = foreign

namespace Branch

/-- The branch joins the given tables in this order, each one on a key to which the table before it
refers.  No node is marked, and projections may stand anywhere. -/
inductive KeyChain : Branch → List String → Prop
  | scan {id : NodeId} {l : Label} {table : String} (hl : l.op = .scan table)
      (hv : l.vacuous = false) : KeyChain (node id l []) [table]
  | projection {id : NodeId} {l : Label} {columns : ColumnSet} {b : Branch} {tables : List String}
      (hl : l.op = .projection columns) (hv : l.vacuous = false) (hb : KeyChain b tables) :
      KeyChain (node id l [b]) tables
  | join {id : NodeId} {l : Label} {j : Join} {foreign key : Column} {left right : Branch}
      {tables : List String} (hl : l.op = .join j) (hv : l.vacuous = false)
      (hj : j.OnKey foreign key) (hleft : KeyChain left (tables ++ [foreign.table]))
      (hright : KeyChain right [key.table]) :
      KeyChain (node id l [left, right]) (tables ++ [foreign.table, key.table])

variable {b s : Branch} {tables inner outer : List String} {table : String}

namespace KeyChain

/-- A chain scans its tables in order. -/
theorem scans_eq (h : b.KeyChain tables) : b.scans = tables := by
  induction h with
  | scan hl => simp [hl, Operator.scannedTable?]
  | projection hl _ _ ih => rw [scans_single (by rw [hl]; rfl), ih]
  | join hl _ _ _ _ ihleft ihright => simp [hl, Operator.scannedTable?, ihleft, ihright]

/-- A chain has at least one table. -/
theorem ne_nil (h : b.KeyChain tables) : tables ≠ [] := by
  induction h with
  | scan => exact List.cons_ne_nil _ _
  | projection _ _ _ ih => exact ih
  | join => simp

/-- The top of a chain has no mark. -/
theorem vacuous_eq (h : b.KeyChain tables) : b.label.vacuous = false := by
  cases h with
  | scan _ hv | projection _ hv | join _ hv => exact hv

/-- There is no filter on top of a chain. -/
theorem op_ne_filter (h : b.KeyChain tables) (f : Filter) : b.label.op ≠ .filter f := by
  cases h with
  | scan hl | projection hl | join hl => simp [hl]

/-- A chain of one table is a scan below projections. -/
theorem soleTable?_eq (h : b.KeyChain [table]) : b.soleTable? = some table := by
  generalize heq : [table] = tables at h
  induction h with
  | @scan id l table' hl =>
    obtain ⟨op, scope, vacuous⟩ := l
    obtain rfl : op = .scan table' := hl
    rw [Branch.soleTable?, (List.cons.inj heq).1]
  | @projection id l columns b tables hl _ _ ih =>
    obtain ⟨op, scope, vacuous⟩ := l
    obtain rfl : op = .projection columns := hl
    rw [Branch.soleTable?]
    exact ih heq
  | @join _ _ _ _ _ _ _ tables =>
    have hlength := congrArg List.length heq
    simp at hlength

end KeyChain

end Branch

/-! ## The nodes around a chain -/

/-- A list with a marked place has one member only if there is nothing around this place. -/
theorem append_cons_eq_singleton {α : Type} {left right : List α} {a b : α} :
    left ++ a :: right = [b] ↔ left = [] ∧ a = b ∧ right = [] := by
  cases left <;> simp

/-- A list with a marked place has two members if one of them is at this place and the other one
beside it. -/
theorem append_cons_eq_pair {α : Type} {left right : List α} {a b d : α} :
    left ++ a :: right = [b, d] ↔
      left = [] ∧ a = b ∧ right = [d] ∨ left = [b] ∧ a = d ∧ right = [] := by
  rcases left with _ | ⟨x, left⟩
  · simp
  · simp [append_cons_eq_singleton, and_assoc]

/-- The node around a chain of the tables `inner` makes it a chain of the tables `outer`. -/
inductive Frame.Extends : Frame → List String → List String → Prop
  | projection {id : NodeId} {l : Label} {columns : ColumnSet} {tables : List String}
      (hl : l.op = .projection columns) (hv : l.vacuous = false) :
      Extends ⟨id, l, [], []⟩ tables tables
  | left {id : NodeId} {l : Label} {j : Join} {foreign key : Column} {right : Branch}
      {tables : List String} (hl : l.op = .join j) (hv : l.vacuous = false)
      (hj : j.OnKey foreign key) (hright : right.KeyChain [key.table]) :
      Extends ⟨id, l, [], [right]⟩ (tables ++ [foreign.table])
        (tables ++ [foreign.table, key.table])
  | right {id : NodeId} {l : Label} {j : Join} {foreign key : Column} {left : Branch}
      {tables : List String} (hl : l.op = .join j) (hv : l.vacuous = false)
      (hj : j.OnKey foreign key) (hleft : left.KeyChain (tables ++ [foreign.table])) :
      Extends ⟨id, l, [left], []⟩ [key.table] (tables ++ [foreign.table, key.table])

/-- The nodes around a chain of the tables `inner` make it a chain of the tables `outer`. -/
inductive Context.Extends : Context → List String → List String → Prop
  | nil {tables : List String} : Extends [] tables tables
  | cons {f : Frame} {c : Context} {inner middle outer : List String}
      (hf : f.Extends inner middle) (hc : Extends c middle outer) : Extends (f :: c) inner outer

section Extends

variable {f f' : Frame} {c c' : Context} {s : Branch} {inner outer tables : List String}
  {table : String}

/-- A filled frame is a chain if the branch is one and the node extends it. -/
theorem Frame.keyChain_fill_iff :
    (f.fill s).KeyChain outer ↔ ∃ inner, s.KeyChain inner ∧ f.Extends inner outer := by
  obtain ⟨id, l, left, right⟩ := f
  constructor
  · intro h
    generalize hb : Frame.fill ⟨id, l, left, right⟩ s = b at h
    cases h with
    | scan hl hv =>
      have hbs : left ++ s :: right = [] := (Branch.node.inj hb).2.2
      simp at hbs
    | projection hl hv ht =>
      obtain ⟨rfl, rfl, hbs⟩ := Branch.node.inj hb
      obtain ⟨rfl, rfl, rfl⟩ := append_cons_eq_singleton.1 hbs
      exact ⟨_, ht, .projection hl hv⟩
    | join hl hv hj hleft hright =>
      obtain ⟨rfl, rfl, hbs⟩ := Branch.node.inj hb
      rcases append_cons_eq_pair.1 hbs with ⟨rfl, rfl, rfl⟩ | ⟨rfl, rfl, rfl⟩
      · exact ⟨_, hleft, .left hl hv hj hright⟩
      · exact ⟨_, hright, .right hl hv hj hleft⟩
  · rintro ⟨inner, hs, hf⟩
    cases hf with
    | projection hl hv => exact .projection hl hv hs
    | left hl hv hj hright => exact .join hl hv hj hs hright
    | right hl hv hj hleft => exact .join hl hv hj hleft hs

/-- A branch in a context is part of a chain if it is one and the nodes around extend it. -/
theorem Branch.keyChain_plug_iff :
    (c.plug s).KeyChain outer ↔ ∃ inner, s.KeyChain inner ∧ c.Extends inner outer := by
  induction c generalizing s with
  | nil =>
    constructor
    · exact fun h => ⟨outer, h, .nil⟩
    · rintro ⟨_, hs, hc⟩
      cases hc
      exact hs
  | cons f c ih =>
    rw [Context.plug_cons, ih]
    constructor
    · rintro ⟨middle, hmiddle, hc⟩
      obtain ⟨inner, hs, hf⟩ := Frame.keyChain_fill_iff.1 hmiddle
      exact ⟨inner, hs, .cons hf hc⟩
    · rintro ⟨inner, hs, hc⟩
      cases hc with
      | cons hf hc => exact ⟨_, Frame.keyChain_fill_iff.2 ⟨inner, hs, hf⟩, hc⟩

/-- Changing the scope of the node around a chain makes no difference. -/
theorem Frame.Extends.alike (h : f.Extends inner outer) (hf : f.Alike f') :
    f'.Extends inner outer := by
  obtain ⟨id, l, left, right⟩ := f'
  obtain ⟨rfl, ⟨hop, hvacuous⟩, rfl, rfl⟩ := hf
  cases h with
  | projection hl hv => exact .projection (hop.trans hl) (hvacuous.trans hv)
  | left hl hv hj hright => exact .left (hop.trans hl) (hvacuous.trans hv) hj hright
  | right hl hv hj hleft => exact .right (hop.trans hl) (hvacuous.trans hv) hj hleft

/-- Scopes do not matter. -/
theorem Context.Extends.alike (h : c.Extends inner outer) (hc : c.Alike c') :
    c'.Extends inner outer := by
  induction hc generalizing inner with
  | nil => exact h
  | cons hf _ ih =>
    cases h with
    | cons hf' hc' => exact .cons (hf'.alike hf) (ih hc')

/-- What stands around a chain of several tables and does not read the last of them are projections. -/
theorem Context.Extends.of_reads (h : c.Extends (inner ++ [table]) outer) (hinner : inner ≠ [])
    (hreads : c.reads table = false) :
    outer = inner ++ [table] ∧ ∀ tables, c.Extends tables tables := by
  induction c generalizing inner with
  | nil =>
    cases h
    exact ⟨rfl, fun _ => .nil⟩
  | cons f c ih =>
    obtain ⟨hfreads, hcreads⟩ : f.label.op.columnsRead.any (·.isOf table) = false ∧
        Context.reads c table = false := by
      simpa only [Context.reads, List.any_cons, Bool.or_eq_false_iff] using hreads
    generalize hmiddle : inner ++ [table] = start at h
    cases h with
    | cons hf hc =>
      cases hf with
      | projection hl hv =>
        obtain ⟨houter, hall⟩ := ih (hmiddle ▸ hc) hinner hcreads
        exact ⟨hmiddle ▸ houter, fun tables => .cons (.projection hl hv) (hall tables)⟩
      | @left _ _ j foreign key _ _ hl _ hj =>
        -- The join above a chain of several tables reads the last of them.
        obtain ⟨-, htable⟩ := List.append_inj' hmiddle rfl
        have hne := Operator.table_ne_of_not_read hfreads foreign
          (hl ▸ (hj.mem_columns foreign).2 (.inl rfl))
        exact absurd (List.cons.inj htable).1.symm hne
      | right =>
        have hlength := congrArg List.length hmiddle
        rw [List.length_append] at hlength
        exact absurd (List.length_eq_zero_iff.1 (Nat.succ.inj hlength)) hinner

end Extends

/-! ## What the rules do to a chain -/

section Rules

variable {r : Rule} {c c' : Context} {s s' b b' : Branch} {tables inner : List String}
  {needed : ColumnSet}

/-- Narrowing a chain leaves a chain of the same tables. -/
theorem ProjectionPushdown.Narrows.keyChain (h : Narrows needed b b') (hb : b.KeyChain tables) :
    b'.KeyChain tables := by
  cases h with
  | inPlace hl =>
    cases hb with
    | projection _ hv hbelow => exact .projection rfl hv hbelow
    | scan hl' | join hl' => exact absurd (hl'.symm.trans hl) (by simp)
  | insert => exact .projection rfl rfl hb

/-- There are no filters to be passed when a chain is narrowed, and a chain of the same tables is
left. -/
theorem ProjectionPushdown.BelowJoin.NarrowsBelow.keyChain (h : NarrowsBelow needed b b')
    (hb : b.KeyChain tables) : b'.KeyChain tables := by
  cases h with
  | here h => exact h.keyChain hb
  | pass hl => exact absurd hl (hb.op_ne_filter _)

/-- A branch of a join that is a chain stays one, whether it is narrowed or stays as it is. -/
theorem ProjectionPushdown.BelowJoin.Narrowed.keyChain {condition columns : ColumnSet}
    (h : Narrowed condition columns b b') (hb : b.KeyChain tables) : b'.KeyChain tables := by
  rcases h with ⟨rfl, -⟩ | h
  · exact hb
  · exact h.keyChain hb

/-- Pushing a projection below a join leaves a chain of the same tables. -/
theorem ProjectionPushdown.BelowJoin.Pushes.keyChain (h : Pushes s s') (hs : s.KeyChain tables) :
    s'.KeyChain tables := by
  cases h with
  | push hl hm hbs =>
    cases hs with
    | projection _ hv hjoin =>
      cases hjoin with
      | scan hm' | projection hm' => exact absurd (hm'.symm.trans hm) (by simp)
      | join hm' hv' hj hleft hright =>
        obtain ⟨left', _, hleft', hrest, rfl⟩ := List.forall₂_cons_left_iff.1 hbs
        obtain ⟨right', _, hright', hnil, rfl⟩ := List.forall₂_cons_left_iff.1 hrest
        obtain rfl := List.forall₂_nil_left_iff.1 hnil
        exact .projection hl hv (.join hm' hv' hj (hleft'.keyChain hleft) (hright'.keyChain hright))

/-- The only join of a chain that is eliminated is one that adds a table which nothing above reads. -/
theorem JoinElimination.Eliminates.exists_keyChain {kept : Branch} (h : Eliminates c s kept)
    (hs : s.KeyChain inner) (hnodup : inner.Nodup) :
    ∃ first table, inner = first ++ [table] ∧ kept.KeyChain first ∧ c.reads table = false := by
  cases h with
  | byFilter hl => exact absurd hl (hs.op_ne_filter _)
  | @byJoin id l j left right kept other table hl hsides hdet _ hreads =>
    cases hs with
    | @join _ _ j' foreign key _ _ tables hl' _ hj hleft hright =>
      obtain rfl : j' = j := Operator.join.inj (hl'.symm.trans hl)
      rcases hsides with ⟨rfl, rfl⟩ | ⟨rfl, rfl⟩
      · obtain rfl : key.table = table :=
          Option.some.inj (hright.soleTable?_eq.symm.trans hdet.soleTable)
        exact ⟨tables ++ [foreign.table], key.table, by simp, hleft, hreads⟩
      · -- The key is no foreign column, so the table it belongs to cannot be the one that is kept.
        have hkey : key ∈ j'.columns.inTables kept.tables := by
          rw [ColumnSet.mem_inTables, Branch.mem_tables, hright.scans_eq]
          exact ⟨(hj.mem_columns key).2 (.inr rfl), List.mem_singleton.2 rfl⟩
        have hforeign : key = foreign :=
          (hj.mem_foreign key).1 (ColumnSet.subset_iff.1 hdet.foreign key hkey)
        rw [hforeign, List.nodup_append] at hnodup
        exact absurd hnodup.2.1 (by simp)

/-- A rule makes a chain a chain of the same tables, or of all but the last one. -/
theorem Rule.Rewrites.keyChain (h : r.Rewrites c s c' s') (hchain : (c.plug s).KeyChain tables)
    (hnodup : tables.Nodup) : ∃ tables', (c'.plug s').KeyChain tables' ∧ tables' <+: tables := by
  obtain ⟨inner, hs, hc⟩ := Branch.keyChain_plug_iff.1 hchain
  cases h with
  | belowJoin h =>
    exact ⟨tables, Branch.keyChain_plug_iff.2 ⟨inner, h.keyChain hs, hc⟩, List.prefix_rfl⟩
  | belowFilter h =>
    cases h with
    | push hl hm =>
      cases hs with
      | projection _ _ hfilter => exact absurd hm (hfilter.op_ne_filter _)
  | push h =>
    cases h with
    | push hl => exact absurd hl (hs.op_ne_filter _)
  | eliminate h =>
    have hinner : inner.Nodup := by
      rw [← hs.scans_eq]
      exact (c.scans_sublist_plug s).nodup (hchain.scans_eq ▸ hnodup)
    obtain ⟨first, table, rfl, hkept, hreads⟩ := h.exists_keyChain hs hinner
    obtain ⟨rfl, hall⟩ := hc.of_reads hkept.ne_nil hreads
    have hc' := (hall first).alike (c.alike_refresh s')
    exact ⟨first, Branch.keyChain_plug_iff.2 ⟨first, hkept, hc'⟩, List.prefix_append first [table]⟩
  | simplify h =>
    cases h with
    | remove hl | refute hl | fold hl => exact absurd hl (hs.op_ne_filter _)

/-- Rules that are applied one after the other make a chain a chain of some of the first tables. -/
theorem Branch.Steps.keyChain {rules : Rule → Prop} (h : Steps rules b b')
    (hb : b.KeyChain tables) (hnodup : tables.Nodup) :
    ∃ tables', b'.KeyChain tables' ∧ tables' <+: tables := by
  refine h.preserves (motive := fun t => ∃ tables', t.KeyChain tables' ∧ tables' <+: tables) ?_
    ⟨tables, hb, List.prefix_rfl⟩
  rintro t t' hstep ⟨tables', ht, hinit⟩
  cases hstep with
  | rewrite _ hrewrites =>
    obtain ⟨tables'', ht', hinit'⟩ := hrewrites.keyChain ht (hinit.sublist.nodup hnodup)
    exact ⟨tables'', ht', hinit'.trans hinit⟩

end Rules

/-! ## The join at the top -/

namespace JoinElimination

variable {p : Plan} {rest : NodeId → Option Node} {c : Context} {id : NodeId} {l : Label} {j : Join}
  {left right s : Branch} {foreign key : Column} {tables : List String} {table : String}

/-- The condition of a join on a key determines the row of the branch that has the key. -/
theorem determinedByJoin_of_onKey (hj : j.OnKey foreign key)
    (hleft : left.KeyChain (tables ++ [foreign.table])) (hright : right.KeyChain [key.table])
    (hkey : key.table ∉ tables ++ [foreign.table]) : DeterminedByJoin j left right key.table := by
  have hin : ∀ x, x ∈ j.columns.inTables left.tables ↔ x = foreign := by
    intro x
    rw [ColumnSet.mem_inTables, hj.mem_columns, Branch.mem_tables, hleft.scans_eq]
    constructor
    · rintro ⟨rfl | rfl, hx⟩
      · rfl
      · exact absurd hx hkey
    · rintro rfl
      exact ⟨.inl rfl, List.mem_append_right _ (List.mem_singleton.2 rfl)⟩
  refine ⟨hright.soleTable?_eq, ?_, ?_, ?_⟩
  · exact ColumnSet.isEmpty_eq_false_iff.2 ⟨foreign, (hin foreign).2 rfl⟩
  · refine ColumnSet.isEmpty_eq_false_iff.2 ⟨key, ?_⟩
    exact ColumnSet.mem_inTables.2 ⟨(hj.mem_columns key).2 (.inr rfl), AliasSet.mem_singleton.2 rfl⟩
  · exact ColumnSet.subset_iff.2 fun x hx => (hj.mem_foreign x).2 ((hin x).1 hx)

/-- Of a join, the first branch is kept if the other one is determined and nothing above reads it. -/
theorem kept?_of_determined (h : p.Shows (c.plug (.node id l [left, right])) rest)
    (hl : l.op = .join j) (hdeclares : j.foreign.isEmpty = false)
    (hdet : DeterminedByJoin j left right table) (hprojects : c.projects = true)
    (hreads : c.reads table = false) : kept? p id = .ok (some left.top) := by
  have hnode : p.node id = .ok (l.node c.parent? [left.top, right.top]) := h.has_plug.node_top
  have hleft : p.Has (some id) left := h.has_plug.branch (by simp)
  have hright : p.Has (some id) right := h.has_plug.branch (by simp)
  obtain ⟨b, hb, hbtrue⟩ := isDetermined_eq h hleft hright j
  obtain rfl : b = true := hbtrue.2 ⟨table, hdet, hprojects, hreads⟩
  rw [Branch.top_node] at hb
  simp [kept?, hnode, hl, keptByJoin?, hdeclares, hb]

/-- Join elimination has something to do at a chain of several tables if nothing above reads the last
of them. -/
theorem not_rests_of_keyChain (h : p.Shows (c.plug s) rest) (hs : s.KeyChain (tables ++ [table]))
    (hkind : s.kind = .join) (hnodup : (tables ++ [table]).Nodup) (hprojects : c.projects = true)
    (hreads : c.reads table = false) : ¬ Rule.joinElimination.Rests p s := by
  generalize heq : tables ++ [table] = all at hs hnodup
  cases hs with
  | scan hl | projection hl =>
    rw [Branch.kind_node, Label.kind, hl] at hkind
    exact absurd hkind (by simp [Operator.kind])
  | @join id l j foreign key left right before hl hv hj hleft hright =>
    have hassoc : before ++ [foreign.table, key.table] = (before ++ [foreign.table]) ++ [key.table] := by
      simp
    rw [hassoc] at heq hnodup
    obtain ⟨-, htable⟩ := List.append_inj' heq rfl
    obtain rfl : table = key.table := (List.cons.inj htable).1
    have hkey : key.table ∉ before ++ [foreign.table] := fun hmem =>
      (List.nodup_append.1 hnodup).2.2 _ hmem _ (List.mem_singleton.2 rfl) rfl
    have hdeclares : j.foreign.isEmpty = false :=
      ColumnSet.isEmpty_eq_false_iff.2 ⟨foreign, (hj.mem_foreign foreign).2 rfl⟩
    have hkept := kept?_of_determined h hl hdeclares (determinedByJoin_of_onKey hj hleft hright hkey)
      hprojects hreads
    obtain ⟨res, hres, hinst⟩ := keep_shows (f := ⟨id, l, [], [right]⟩) (d := []) h hkept
    intro hrests
    have hstill := hrests (by simp [Rule.anchorsAt, Branch.kind, Label.kind, hl, Operator.kind])
    have hsame : res = .unchanged p id := Except.ok.inj (hres.symm.trans hstill)
    have hchanged := hinst.changed_eq
    rw [hsame] at hchanged
    exact Bool.false_ne_true hchanged

end JoinElimination

end QueryPlan
