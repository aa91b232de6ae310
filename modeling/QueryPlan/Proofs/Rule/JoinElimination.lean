import QueryPlan.Proofs.Rule.Basic
import QueryPlan.Rule.JoinElimination

/-!
# Join elimination on trees

A join with two branches, or a filter together with such a join, is replaced by one of the branches.
The other one scans a single table, which nothing above reads, and the scopes above are refreshed.

Main results:

- Definition `JoinElimination.Eliminates`: what the rule does to a branch in a context.
- Theorem `JoinElimination.apply_shows`: the rule does that or leaves the plan alone.
-/

namespace QueryPlan

/-- The table scanned by a branch that is a scan below projections. -/
def Branch.soleTable? : Branch → Option String
  | .node _ ⟨.scan table, _, _⟩ _ => some table
  | .node _ ⟨.projection _, _, _⟩ (b :: _) => b.soleTable?
  | .node _ _ _ => none

/-- An operator that does not read a table reads no column of it. -/
theorem Operator.table_ne_of_mem_columnsRead {op : Operator} {table : String}
    (h : op.columnsRead.any (·.isOf table) = false) : ∀ x ∈ op.columnsRead, x.table ≠ table := by
  rintro x hx rfl
  rw [List.any_eq_false] at h
  apply h x hx
  simp [Column.isOf]

/-- An operator that does not read a table names no column of it. -/
theorem Operator.table_ne_of_not_read {op : Operator} {table : String}
    (h : op.columnsRead.any (·.isOf table) = false) : ∀ x ∈ op.columns, x.table ≠ table :=
  fun x hx => table_ne_of_mem_columnsRead h x (List.mem_append_left _ hx)

namespace Context

/-- Whether an operator of the context reads a column of a table. -/
def reads (c : Context) (table : String) : Bool :=
  c.any (·.label.op.columnsRead.any (·.isOf table))

/-- Whether a projection stands in the context. -/
def projects (c : Context) : Bool :=
  c.any (·.label.kind == .projection)

/-- The operators of a context that does not read a table name no column of it. -/
theorem table_ne_of_reads {c : Context} {table : String} (h : c.reads table = false) {f : Frame}
    (hf : f ∈ c) : ∀ x ∈ f.label.op.columns, x.table ≠ table := by
  rw [reads, List.any_eq_false] at h
  exact Operator.table_ne_of_not_read (Bool.eq_false_iff.2 (h f hf))

end Context

namespace Plan

/-- The nodes met on the way up from a branch are those of its context. -/
theorem upwardWithin_eq {p : Plan} {rest : NodeId → Option Node} {c : Context} {s : Branch}
    (h : p.Shows (c.plug s) rest) {steps : Nat} (hsteps : c.length ≤ steps) :
    ∃ above, p.upwardWithin steps c.parent? = .ok above ∧
      above.map Node.op = c.map (·.label.op) := by
  induction c generalizing s steps with
  | nil => exact ⟨[], by rw [Context.parent?_nil, upwardWithin], rfl⟩
  | cons f c ih =>
    obtain ⟨steps, rfl⟩ := Nat.exists_eq_add_one.2 (Nat.zero_lt_of_lt hsteps)
    have hf := Shows.has_plug (b := f.fill s) h
    obtain ⟨above, habove, hops⟩ := ih (s := f.fill s) h (Nat.le_of_succ_le_succ hsteps)
    have hnode := hf.node_top
    rw [Frame.top_fill] at hnode
    refine ⟨f.label.node (Context.parent? c) ((f.fill s).branches.map Branch.top) :: above,
      ?_, ?_⟩
    · rw [Context.parent?_cons, upwardWithin, hnode]
      simp only [ok_bind, Label.node_parent, habove, pure_eq_ok]
      rfl
    · rw [List.map_cons, List.map_cons, hops, Label.node_op]

/-- A walk has steps enough to get from a branch to the root. -/
theorem Shows.length_lt_walkLimit {p : Plan} {rest : NodeId → Option Node} {c : Context}
    {s : Branch} (h : p.Shows (c.plug s) rest) : c.length < p.walkLimit := by
  have hle := (h.splits.of_perm (c.entries_plug s)).length_le
  have hc := c.length_le_length_ids
  rw [← c.map_fst_entries s.top, List.length_map] at hc
  rw [List.length_append] at hle
  rw [walkLimit]
  omega

/-- The ancestors of a branch are the nodes of its context. -/
theorem Shows.exists_ancestors {p : Plan} {rest : NodeId → Option Node} {c : Context} {s : Branch}
    (h : p.Shows (c.plug s) rest) :
    ∃ above, p.ancestors s.top = .ok above ∧ above.map Node.op = c.map (·.label.op) := by
  rw [ancestors, h.has_plug.node_top]
  exact upwardWithin_eq h (Nat.le_of_lt h.length_lt_walkLimit)

/-- What the plan produces may depend on a table if its context reads it or does not project. -/
theorem Shows.isReadAbove_eq {p : Plan} {rest : NodeId → Option Node} {c : Context} {s : Branch}
    (h : p.Shows (c.plug s) rest) (table : String) :
    p.isReadAbove s.top table = .ok (!c.projects || c.reads table) := by
  obtain ⟨above, habove, hops⟩ := h.exists_ancestors
  have hany : ∀ P : Operator → Bool,
      (above.any fun n => P n.op) = c.any fun f => P f.label.op := by
    intro P
    rw [← Function.comp_def P, ← List.any_map, hops, List.any_map]
    rfl
  rw [isReadAbove, habove, ok_bind, pure_eq_ok, Context.projects, Context.reads]
  have hprojects := hany fun op => op.kind == .projection
  have hreads := hany fun op => op.columnsRead.any (·.isOf table)
  exact congrArg _ (congrArg₂ _ (congrArg _ hprojects) hreads)

/-- The walk down the projections above a scan. -/
theorem Has.soleTableWithin_eq {p : Plan} {parent : Option NodeId} {b : Branch}
    (h : p.Has parent b) {steps : Nat} (hsteps : b.height ≤ steps) :
    p.soleTableWithin steps b.top = .ok b.soleTable? := by
  induction b generalizing parent steps with
  | node id l bs ih =>
    obtain ⟨steps, rfl⟩ : ∃ d, steps = d + 1 :=
      Nat.exists_eq_add_one.2 (Nat.lt_of_lt_of_le (Branch.height_pos _) hsteps)
    rw [soleTableWithin, h.node_top]
    obtain ⟨op, scope, vacuous⟩ := l
    cases op with
    | projection columns =>
      cases bs with
      | nil => simp [Branch.soleTable?]
      | cons b bs =>
        have hlt := Branch.height_lt_of_mem id ⟨.projection columns, scope, vacuous⟩
          (List.mem_cons_self (a := b) (l := bs))
        rw [Branch.soleTable?]
        exact ih b List.mem_cons_self (h.branch List.mem_cons_self) (by omega)
    | scan | filter | join => simp [Branch.soleTable?]

/-- The plan finds the only table of a branch by following links, just as the branch does. -/
theorem Has.soleTable?_eq {p : Plan} {parent : Option NodeId} {b : Branch} (h : p.Has parent b) :
    p.soleTable? b.top = .ok b.soleTable? :=
  h.soleTableWithin_eq (Nat.le_trans h.height_le (Nat.le_succ _))

end Plan

namespace JoinElimination

/-- Of two branches, one is kept and the other one is dropped. -/
def Sides (left right kept other : Branch) : Prop :=
  (kept = left ∧ other = right) ∨ (kept = right ∧ other = left)

/-- The two branches of a join are the one that is kept and the one that is dropped. -/
theorem Sides.mem_iff {left right kept other b : Branch} (h : Sides left right kept other) :
    b ∈ [left, right] ↔ b = kept ∨ b = other := by
  rcases h with ⟨rfl, rfl⟩ | ⟨rfl, rfl⟩
  · simp
  · simp [or_comm]

/-- The condition of a join determines the row of the branch `other`, a scan of `table`, for each
row of the branch `kept`. -/
structure DeterminedByJoin (j : Join) (kept other : Branch) (table : String) : Prop where
  soleTable : other.soleTable? = some table
  readsKept : (j.columns.inTables kept.tables).isEmpty = false
  readsKey : (j.columns.inTables (.singleton table)).isEmpty = false
  foreign : (j.columns.inTables kept.tables).subset j.foreign = true

/-- A filter equates a foreign column of the branch `kept` with a key of the table scanned by the
branch `other`, and only the key ties that table to the filter and the join. -/
structure DeterminedByFilter (f : Filter) (j : Join) (kept other : Branch) (foreign key : Column) :
    Prop where
  equates : foreignKey? f = some (foreign, key)
  soleTable : other.soleTable? = some key.table
  inKept : foreign.table ∈ kept.tables
  joinMentions : mentionsOnly j.columns key = true
  filterMentions : mentionsOnly f.columns key = true

/-- What join elimination does to a branch in the context `c`. -/
inductive Eliminates (c : Context) : Branch → Branch → Prop
  | byJoin {id : NodeId} {l : Label} {j : Join} {left right kept other : Branch} {table : String}
      (hl : l.op = .join j) (hsides : Sides left right kept other)
      (hdet : DeterminedByJoin j kept other table) (hprojects : c.projects = true)
      (hreads : c.reads table = false) :
      Eliminates c (.node id l [left, right]) kept
  | byFilter {id join : NodeId} {l m : Label} {f : Filter} {j : Join}
      {left right kept other : Branch} {foreign key : Column}
      (hl : l.op = .filter f) (hm : m.op = .join j) (hsides : Sides left right kept other)
      (hdet : DeterminedByFilter f j kept other foreign key) (hprojects : c.projects = true)
      (hreads : c.reads key.table = false) :
      Eliminates c (.node id l [.node join m [left, right]]) kept

variable {p : Plan} {rest : NodeId → Option Node} {c : Context}

/-- The test of the join form, for one choice of sides. -/
theorem isDetermined_eq {s kept other : Branch} {parent : Option NodeId}
    (h : p.Shows (c.plug s) rest) (hkept : p.Has parent kept) (hother : p.Has parent other)
    (j : Join) :
    ∃ b, isDetermined p s.top j kept.top other.top = .ok b ∧
      (b = true ↔ ∃ table, DeterminedByJoin j kept other table ∧ c.projects = true ∧
        c.reads table = false) := by
  rw [isDetermined, hother.soleTable?_eq, ok_bind]
  match htable : other.soleTable? with
  | none =>
    refine ⟨false, rfl, fun hb => absurd hb Bool.false_ne_true, ?_⟩
    rintro ⟨table, hdet, -⟩
    exact absurd (hdet.soleTable.symm.trans htable) (Option.some_ne_none table)
  | some table =>
    have htables : ∀ {a}, DeterminedByJoin j kept other a → a = table := fun hdet =>
      Option.some.inj (hdet.soleTable.symm.trans htable)
    simp only [hkept.reachable_eq, ok_bind, h.isReadAbove_eq, pure_eq_ok]
    split
    · rename_i hcond
      refine ⟨false, rfl, fun hb => absurd hb Bool.false_ne_true, ?_⟩
      rintro ⟨a, hdet, -⟩
      obtain rfl := htables hdet
      simp [hdet.readsKept, hdet.readsKey, hdet.foreign] at hcond
    rename_i hcond
    simp only [Bool.or_eq_true, not_or, Bool.not_eq_true, Bool.not_eq_false'] at hcond
    refine ⟨_, rfl, fun hb => ⟨table, ⟨htable, hcond.1.1, hcond.1.2, hcond.2⟩, by simpa using hb⟩, ?_⟩
    rintro ⟨a, hdet, hprojects, hreads⟩
    obtain rfl := htables hdet
    simp [hprojects, hreads]

/-- The branch kept by the join form. -/
theorem keptByJoin?_eq {id : NodeId} {l : Label} {bs : List Branch} {j : Join}
    (h : p.Shows (c.plug (.node id l bs)) rest) (hl : l.op = .join j) :
    ∃ k, keptByJoin? p id (l.node c.parent? (bs.map Branch.top)) = .ok k ∧
      ∀ x, k = some x → ∃ kept, x = kept.top ∧ Eliminates c (.node id l bs) kept := by
  have hnone : ∀ x, none = some x → ∃ kept : Branch, x = kept.top ∧
      Eliminates c (.node id l bs) kept := fun x hx => absurd hx.symm (Option.some_ne_none x)
  match bs with
  | [] | [_] | _ :: _ :: _ :: _ =>
    refine ⟨none, ?_, hnone⟩
    simp [keptByJoin?, hl]
  | [left, right] =>
    have hleft : p.Has (some id) left := h.has_plug.branch (by simp)
    have hright : p.Has (some id) right := h.has_plug.branch (by simp)
    obtain ⟨b, hb, hbtrue⟩ := isDetermined_eq h hleft hright j
    obtain ⟨b', hb', hbtrue'⟩ := isDetermined_eq h hright hleft j
    rw [Branch.top_node] at hb hb'
    simp only [keptByJoin?, Label.node_op, hl, Label.node_children, List.map_cons, List.map_nil]
    by_cases hforeign : j.foreign.isEmpty = true
    · exact ⟨none, by rw [if_pos hforeign]; rfl, hnone⟩
    rw [if_neg hforeign, hb, ok_bind]
    cases b with
    | true =>
      refine ⟨some left.top, rfl, fun x hx => ⟨left, (Option.some.inj hx).symm, ?_⟩⟩
      obtain ⟨table, hdet, hprojects, hreads⟩ := hbtrue.1 rfl
      exact .byJoin hl (.inl ⟨rfl, rfl⟩) hdet hprojects hreads
    | false =>
      rw [if_neg Bool.false_ne_true, hb', ok_bind]
      cases b' with
      | true =>
        refine ⟨some right.top, rfl, fun x hx => ⟨right, (Option.some.inj hx).symm, ?_⟩⟩
        obtain ⟨table, hdet, hprojects, hreads⟩ := hbtrue'.1 rfl
        exact .byJoin hl (.inr ⟨rfl, rfl⟩) hdet hprojects hreads
      | false => exact ⟨none, rfl, hnone⟩

/-- The choice of the branch beside the one that scans a table. -/
theorem besideTable?_eq {parent : Option NodeId} {left right : Branch} (hleft : p.Has parent left)
    (hright : p.Has parent right) (table : String) :
    ∃ k, besideTable? p table left.top right.top = .ok k ∧
      ∀ x, k = some x → ∃ kept other, x = kept.top ∧ p.Has parent kept ∧
        Sides left right kept other ∧ other.soleTable? = some table := by
  rw [besideTable?, hright.soleTable?_eq, ok_bind]
  by_cases hr : right.soleTable? = some table
  · rw [if_pos (beq_iff_eq.2 hr)]
    exact ⟨_, rfl, fun x hx => ⟨left, right, (Option.some.inj hx).symm, hleft, .inl ⟨rfl, rfl⟩, hr⟩⟩
  rw [if_neg (mt beq_iff_eq.1 hr), hleft.soleTable?_eq, ok_bind]
  by_cases hl : left.soleTable? = some table
  · rw [if_pos (beq_iff_eq.2 hl)]
    exact ⟨_, rfl, fun x hx => ⟨right, left, (Option.some.inj hx).symm, hright, .inr ⟨rfl, rfl⟩, hl⟩⟩
  rw [if_neg (mt beq_iff_eq.1 hl)]
  exact ⟨none, rfl, fun x hx => absurd hx.symm (Option.some_ne_none x)⟩

/-- The branch kept by the filter form. -/
theorem keptByFilter?_eq {id : NodeId} {l : Label} {bs : List Branch} {f : Filter}
    (h : p.Shows (c.plug (.node id l bs)) rest) (hl : l.op = .filter f) :
    ∃ k, keptByFilter? p id (l.node c.parent? (bs.map Branch.top)) f = .ok k ∧
      ∀ x, k = some x → ∃ kept, x = kept.top ∧ Eliminates c (.node id l bs) kept := by
  have hnone : ∀ x, none = some x → ∃ kept : Branch, x = kept.top ∧
      Eliminates c (.node id l bs) kept := fun x hx => absurd hx.symm (Option.some_ne_none x)
  rw [keptByFilter?, Label.onlyChild?_node_map_top]
  match hkey : foreignKey? f, bs with
  | none, _ | some _, [] | some _, _ :: _ :: _ => exact ⟨none, rfl, hnone⟩
  | some (foreign, key), [.node join m js] =>
    have hjoin : p.Has (some id) (.node join m js) := h.has_plug.branch (List.mem_singleton.2 rfl)
    have hnode : p.node join = .ok (m.node (some id) (js.map Branch.top)) := hjoin.node_top
    simp only [Branch.top_node, hnode, ok_bind, Label.node_op, Label.node_children]
    match hm : m.op, js with
    | .scan _, _ | .filter _, _ | .projection _, _ | .join _, [] | .join _, [_]
    | .join _, _ :: _ :: _ :: _ => exact ⟨none, rfl, hnone⟩
    | .join j, [left, right] =>
      have hleft : p.Has (some join) left := hjoin.branch (by simp)
      have hright : p.Has (some join) right := hjoin.branch (by simp)
      obtain ⟨k, hk, hkept⟩ := besideTable?_eq hleft hright key.table
      simp only [List.map_cons, List.map_nil, hk, ok_bind]
      cases k with
      | none => exact ⟨none, rfl, hnone⟩
      | some x =>
        obtain ⟨kept, other, rfl, hhas, hsides, htable⟩ := hkept x rfl
        have hread := h.isReadAbove_eq key.table
        rw [Branch.top_node] at hread
        simp only [hhas.reachable_eq, ok_bind, hread, pure_eq_ok]
        by_cases hin : kept.tables.contains foreign.table = true
        · simp only [hin, Bool.not_true, Bool.false_eq_true, if_false]
          split
          · exact ⟨none, rfl, hnone⟩
          rename_i hmentions
          split
          · exact ⟨none, rfl, hnone⟩
          rename_i hunread
          refine ⟨_, rfl, fun x hx => ⟨kept, (Option.some.inj hx).symm, ?_⟩⟩
          simp only [Bool.or_eq_true, not_or, Bool.not_eq_true, Bool.not_eq_false'] at hmentions
          simp only [Bool.or_eq_true, not_or, Bool.not_eq_true, Bool.not_eq_false'] at hunread
          exact .byFilter hl hm hsides
            ⟨hkey, htable, AliasSet.contains_iff.1 hin, hmentions.1, hmentions.2⟩ hunread.1
            hunread.2
        · rw [Bool.not_eq_true] at hin
          simp only [hin, Bool.not_false, if_true]
          exact ⟨none, rfl, hnone⟩

/-- The branch that survives at an anchor. -/
theorem kept?_eq {s : Branch} (h : p.Shows (c.plug s) rest) :
    ∃ k, kept? p s.top = .ok k ∧ ∀ x, k = some x → ∃ kept, x = kept.top ∧ Eliminates c s kept := by
  obtain ⟨id, l, bs⟩ := s
  rw [kept?, h.has_plug.node_top, ok_bind]
  simp only [Branch.label_node, Branch.branches_node, Label.node_op, Branch.top_node]
  cases hl : l.op with
  | join j => exact keptByJoin?_eq h hl
  | filter f => exact keptByFilter?_eq h hl
  | scan | projection =>
    exact ⟨none, rfl, fun x hx => absurd hx.symm (Option.some_ne_none x)⟩

/-- The edits that put a branch into the place of a node above it. -/
theorem keep_shows {f : Frame} {d : Context} {kept : Branch}
    (h : p.Shows (c.plug (Context.plug (f :: d) kept)) rest)
    (hkept : kept? p (Context.plug (f :: d) kept).top = .ok (some kept.top)) :
    ∃ res, apply p (Context.plug (f :: d) kept).top = .ok res ∧
      res.Installs p (c.refresh kept) kept rest := by
  obtain ⟨q, r, hq, hr, h₁, hsize⟩ := h.splits.promote h.root_eq
  rw [apply, hkept]
  simp only [ok_bind, hq, hr, h₁.has_plug.node_top, Label.node_parent]
  cases c with
  | nil => exact ⟨_, rfl, .replaced h₁ (Nat.le_of_eq hsize.symm)⟩
  | cons g c =>
    obtain ⟨t, ht, h₂, hsize₂⟩ := h₁.refreshScopes
    rw [Context.parent?_cons]
    simp only [ht, ok_bind, pure_eq_ok]
    exact ⟨_, rfl, .replaced h₂ (Nat.le_of_eq (hsize₂.trans hsize).symm)⟩

/-- A branch that is kept stands below the anchor. -/
theorem Eliminates.exists_plug {s kept : Branch} (h : Eliminates c s kept) :
    ∃ f d, s = Context.plug (f :: d) kept := by
  cases h with
  | @byJoin id l j left right kept other table hl hsides =>
    rcases hsides with ⟨rfl, rfl⟩ | ⟨rfl, rfl⟩
    · exact ⟨⟨id, l, [], [other]⟩, [], rfl⟩
    · exact ⟨⟨id, l, [other], []⟩, [], rfl⟩
  | @byFilter id join l m f j left right kept other foreign key hl hm hsides =>
    rcases hsides with ⟨rfl, rfl⟩ | ⟨rfl, rfl⟩
    · exact ⟨⟨join, m, [], [other]⟩, [⟨id, l, [], []⟩], rfl⟩
    · exact ⟨⟨join, m, [other], []⟩, [⟨id, l, [], []⟩], rfl⟩

/-- Join elimination at the top of a branch. -/
theorem apply_shows {s : Branch} (h : p.Shows (c.plug s) rest) :
    ∃ res, apply p s.top = .ok res ∧ (res = .unchanged p s.top ∨
      ∃ kept, Eliminates c s kept ∧ res.Installs p (c.refresh kept) kept rest) := by
  obtain ⟨k, hk, hkept⟩ := kept?_eq h
  cases k with
  | none =>
    refine ⟨.unchanged p s.top, ?_, .inl rfl⟩
    rw [apply, hk]
    rfl
  | some x =>
    obtain ⟨kept, rfl, helim⟩ := hkept x rfl
    obtain ⟨f, d, rfl⟩ := helim.exists_plug
    obtain ⟨res, hres, hinst⟩ := keep_shows h hk
    exact ⟨res, hres, .inr ⟨kept, helim, hinst⟩⟩

/-- The rule is tried at joins of two branches and at filters above a join. -/
theorem isAnchor_eq {parent : Option NodeId} {b : Branch} (h : p.Has parent b) :
    isAnchor p b.top =
      .ok (if b.kind = .join then b.branches.length == 2 else b.isFilterOverJoin) := by
  rw [isAnchor, h.node_top, ok_bind, Label.node_kind]
  have hfilter := h.isFilterOverJoin_eq
  cases hk : b.label.kind <;>
    simp [hk, Branch.kind, hfilter]

end JoinElimination

end QueryPlan
