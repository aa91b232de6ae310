import QueryPlan.Proofs.Filters.Labels
import QueryPlan.Proofs.Forest.Basic
import QueryPlan.Proofs.Keys.Chain

/-!
# Plans that join on foreign keys

A plan whose root is a projection above a chain of joins on foreign keys is described by its nodes, as
a caller sees them.  The operations that build plans make such a plan for any tables, whatever columns
the keys and the references are, and it is valid.

Main results:

- Definition `Plan.ProjectsChain`: the root of a plan projects a chain of joins on foreign keys.
- Theorem `Plan.ProjectsChain.exists_node`: the tree of such a plan.
- Definition `Plan.keyChain`: building such a plan.
- Theorem `Plan.exists_keyChain`: building succeeds, and the plan is valid.
-/

namespace QueryPlan

namespace Plan

/-- From the node downwards, scans of the given tables are joined in this order, each one on a key to
which the table before it refers.  No node is marked. -/
inductive KeyChain (p : Plan) : NodeId → List String → Prop
  | scan {id : NodeId} {n : Node} {table : String} (hget : p.get? id = some n)
      (hop : n.op = .scan table) (hv : n.vacuous = false) (hchildren : n.children = []) :
      KeyChain p id [table]
  | join {id left right : NodeId} {n : Node} {j : Join} {foreign key : Column}
      {tables : List String} (hget : p.get? id = some n) (hop : n.op = .join j)
      (hv : n.vacuous = false) (hchildren : n.children = [left, right]) (hj : j.OnKey foreign key)
      (hleft : KeyChain p left (tables ++ [foreign.table])) (hright : KeyChain p right [key.table]) :
      KeyChain p id (tables ++ [foreign.table, key.table])

/-- The root of the plan is a projection to the given columns above a chain of the given tables. -/
structure ProjectsChain (p : Plan) (tables : List String) (columns : ColumnSet) : Prop where
  exists_root : ∃ root n top, p.root = some root ∧ p.get? root = some n ∧
    n.op = .projection columns ∧ n.vacuous = false ∧ n.children = [top] ∧ p.KeyChain top tables

end Plan

/-- The node is no projection. -/
def Label.KeepsAll (l : Label) : Prop :=
  ∀ columns, l.op ≠ .projection columns

namespace Plan

variable {p q : Plan} {parent : Option NodeId} {s : Branch} {tables : List String} {id : NodeId}
  {columns : ColumnSet}

/-- A chain of the store, as a tree. -/
theorem KeyChain.of_has (h : p.KeyChain s.top tables) (hs : p.Has parent s) :
    s.KeyChain tables ∧ s.All Label.KeepsAll := by
  generalize hid : s.top = id at h
  induction h generalizing s parent with
  | scan hget hop hv hchildren =>
    obtain ⟨_, l, bs⟩ := s
    subst hid
    obtain rfl := Option.some.inj (hs.get?_top.symm.trans hget)
    obtain rfl : bs = [] := List.map_eq_nil_iff.1 hchildren
    exact ⟨.scan hop hv, .intro (fun _ => by simp [show l.op = _ from hop]) (by simp)⟩
  | join hget hop hv hchildren hj _ _ ihleft ihright =>
    obtain ⟨_, l, bs⟩ := s
    subst hid
    obtain rfl := Option.some.inj (hs.get?_top.symm.trans hget)
    obtain ⟨left, bs, rfl, rfl, hrest⟩ := List.map_eq_cons_iff.1 hchildren
    obtain ⟨right, bs, rfl, rfl, hnil⟩ := List.map_eq_cons_iff.1 hrest
    obtain rfl := List.map_eq_nil_iff.1 hnil
    obtain ⟨hleft, hleftall⟩ := ihleft (hs.branch (by simp)) rfl
    obtain ⟨hright, hrightall⟩ := ihright (hs.branch (by simp)) rfl
    exact ⟨.join hop hv hj hleft hright,
      .intro (fun _ => by simp [show l.op = _ from hop]) (by simp [hleftall, hrightall])⟩

/-- A chain of a tree, as it is stored. -/
theorem KeyChain.of_branch (h : s.KeyChain tables) (hall : s.All Label.KeepsAll)
    (hs : p.Has parent s) : p.KeyChain s.top tables := by
  induction h generalizing parent with
  | scan hl hv => exact .scan hs.get?_top hl hv rfl
  | projection hl => exact absurd hl (hall.label _)
  | join hl hv hj _ _ ihleft ihright =>
    have hleft := ihleft (hall.branch _ (by simp)) (hs.branch (by simp))
    have hright := ihright (hall.branch _ (by simp)) (hs.branch (by simp))
    exact .join hs.get?_top hl hv rfl hj hleft hright

/-- The tree of a valid plan that projects a chain. -/
theorem ProjectsChain.exists_node {b : Branch} {rest : NodeId → Option Node}
    (h : p.ProjectsChain tables columns) (hb : p.Shows b rest) :
    ∃ id l t, b = .node id l [t] ∧ l.op = .projection columns ∧ l.vacuous = false ∧
      t.KeyChain tables ∧ t.All Label.KeepsAll := by
  obtain ⟨root, n, top, hroot, hget, hop, hv, hchildren, htop⟩ := h.exists_root
  obtain ⟨id, l, bs⟩ := b
  obtain rfl : id = root := Option.some.inj (hb.root_eq.symm.trans hroot)
  obtain rfl := Option.some.inj (hb.has.get?_top.symm.trans hget)
  obtain ⟨t, bs, rfl, rfl, hnil⟩ := List.map_eq_cons_iff.1 hchildren
  obtain rfl := List.map_eq_nil_iff.1 hnil
  obtain ⟨ht, hall⟩ := htop.of_has (hb.has.branch (by simp))
  exact ⟨id, l, t, rfl, hop, hv, ht, hall⟩

end Plan

/-! ## Building -/

/-- How a table is joined to the one before it: its alias, and the positions of the column of the other
table that refers to it and of its own key. -/
structure KeyLink where
  table : String
  foreign : UInt64
  key : UInt64

/-- The join with a table, when `before` is the one before it. -/
def KeyLink.join (link : KeyLink) (before : String) : Join where
  columns := .ofList [⟨before, link.foreign⟩, ⟨link.table, link.key⟩]
  foreign := .ofList [⟨before, link.foreign⟩]

/-- A link joins a table on its key to the column that refers to it. -/
theorem KeyLink.onKey_join (link : KeyLink) (before : String) :
    (link.join before).OnKey ⟨before, link.foreign⟩ ⟨link.table, link.key⟩ :=
  ⟨fun x => by simp [join], fun x => by simp [join]⟩

namespace Plan

/-- Joins scans of further tables to the chain that ends at the node `top` with the table `last`. -/
def extendChain : List KeyLink → NodeId → String → Plan → Except Fault (NodeId × Plan)
  | [], top, _, p => .ok (top, p)
  | link :: links, top, last, p => do
    let (scan, p) ← p.scan link.table
    let (join, p) ← p.join [top, scan] (link.join last)
    p.extendChain links join link.table

/-- Builds a projection above a chain of joins on foreign keys. -/
def keyChain (first : String) (links : List KeyLink) (columns : ColumnSet) :
    Except Fault Plan := do
  let (scan, p) ← empty.scan first
  let (top, p) ← extendChain links scan first p
  let (root, p) ← p.project top columns
  return p.setRoot root

end Plan

/-! ## What building makes -/

/-- A tree that joins the given tables on foreign keys, as building makes it. -/
structure Branch.BuiltChain (t : Branch) (tables : List String) : Prop where
  chain : t.KeyChain tables
  keepsAll : t.All Label.KeepsAll
  valid : t.Valid

namespace Branch

variable {id : NodeId} {left right t : Branch} {tables : List String} {table : String}
  {columns : ColumnSet}

/-- A scan is a chain of one table, as building makes it. -/
theorem builtChain_scan (id : NodeId) (table : String) :
    (node id ⟨.scan table, .singleton table, false⟩ []).BuiltChain [table] where
  chain := .scan rfl rfl
  keepsAll := .intro (fun _ => by simp) (by simp)
  valid := by
    refine .intro ⟨rfl, fun h => absurd h (by simp [Label.kind, Operator.kind]), fun _ => ?_,
      fun _ hx => absurd hx (ColumnSet.not_mem_empty _),
      fun _ hx => absurd hx (ColumnSet.not_mem_empty _)⟩ (by simp)
    simp [tables, Operator.scannedTable?, AliasSet.ofList, AliasSet.insertAll, AliasSet.singleton]

/-- Joining a further table to a chain makes a chain that is longer by one table. -/
theorem BuiltChain.join {last : String} (hleft : left.BuiltChain (tables ++ [last]))
    (link : KeyLink) (hright : right.BuiltChain [link.table]) (id : NodeId) :
    (node id ⟨.join (link.join last), .ofList (left.scans ++ right.scans), false⟩
      [left, right]).BuiltChain (tables ++ [last, link.table]) where
  chain := .join rfl rfl (link.onKey_join last) hleft.chain hright.chain
  keepsAll := .intro (fun _ => by simp) (by simp [hleft.keepsAll, hright.keepsAll])
  valid := by
    have hscans : (node id ⟨.join (link.join last), .ofList (left.scans ++ right.scans), false⟩
        [left, right]).scans = left.scans ++ right.scans := by
      simp [Operator.scannedTable?]
    refine .intro ⟨rfl, fun h => absurd h (by simp [Label.kind, Operator.kind]), fun _ => ?_,
      fun x hx => ?_, fun x hx => ?_⟩ (by simp [hleft.valid, hright.valid])
    · rw [Branch.tables, hscans]
    · rw [mem_tables, hscans, hleft.chain.scans_eq, hright.chain.scans_eq]
      rcases ((link.onKey_join last).mem_columns x).1 hx with rfl | rfl <;> simp
    · obtain rfl := ((link.onKey_join last).mem_foreign x).1 hx
      exact ((link.onKey_join last).mem_columns _).2 (.inl rfl)

/-- A projection to columns of the chain may be put above it. -/
theorem BuiltChain.valid_projection (ht : t.BuiltChain tables)
    (hcolumns : ∀ x ∈ columns, x.table ∈ tables) (id : NodeId) :
    (node id ⟨.projection columns, t.tables, false⟩ [t]).Valid := by
  have htables : (node id ⟨.projection columns, t.tables, false⟩ [t]).tables = t.tables :=
    tables_single rfl
  refine .intro ⟨rfl, fun h => absurd h (by simp [Label.kind, Operator.kind]), fun _ => htables.symm,
    fun x hx => ?_, fun _ hx => absurd hx (ColumnSet.not_mem_empty _)⟩ (by simp [ht.valid])
  rw [htables, mem_tables, ht.chain.scans_eq]
  exact hcolumns x hx

end Branch

namespace Plan

variable {p : Plan} {es : List (NodeId × Node)} {rest : NodeId → Option Node}
  {left right t : Branch} {tables : List String} {columns : ColumnSet}

namespace Splits

/-- A scan is added beside other trees. -/
theorem scan (h : p.Splits es rest) (table : String) :
    ∃ q, p.scan table = .ok (p.nodes.size, q) ∧ q.root = p.root ∧
      q.Splits ((Branch.node p.nodes.size ⟨.scan table, .singleton table, false⟩ []).entries none ++
        es) rest := by
  have h₀ : p.Splits (([] : List Branch).flatMap (Branch.entries none) ++ es) rest := h
  obtain ⟨q, hq, h₁, hroot, -⟩ := h₀.attach (.scan table) (.singleton table)
  exact ⟨q, hq, hroot, h₁⟩

/-- Two lone trees are joined. -/
theorem join (h : p.Splits (left.entries none ++ (right.entries none ++ es)) rest) (j : Join) :
    ∃ q, p.join [left.top, right.top] j = .ok (p.nodes.size, q) ∧ q.root = p.root ∧
      q.Splits ((Branch.node p.nodes.size
        ⟨.join j, .ofList (left.scans ++ right.scans), false⟩ [left, right]).entries none ++ es)
        rest := by
  have hleft : p.reachable left.top = .ok left.tables := (has_plug (c := []) h).reachable_eq
  have hright : p.reachable right.top = .ok right.tables :=
    (has_plug (c := []) (h.of_perm (List.perm_append_comm_assoc _ _ _))).reachable_eq
  have hscope : ([left.tables, right.tables].foldl AliasSet.union .empty) =
      .ofList (left.scans ++ right.scans) := by
    apply AliasSet.ext_mem
    simp [Branch.mem_tables]
  have h₀ : p.Splits ([left, right].flatMap (Branch.entries none) ++ es) rest := by simpa using h
  obtain ⟨q, hq, h₁, hroot, -⟩ := h₀.attach (.join j) (.ofList (left.scans ++ right.scans))
  refine ⟨q, ?_, hroot, h₁⟩
  rw [Plan.join]
  simp only [List.mapM_cons, List.mapM_nil, hleft, hright, ok_bind, pure_eq_ok, hscope]
  exact hq

/-- A projection is put above a lone tree. -/
theorem project (h : p.Splits (t.entries none ++ es) rest) (columns : ColumnSet) :
    ∃ q, p.project t.top columns = .ok (p.nodes.size, q) ∧ q.root = p.root ∧
      q.Splits ((Branch.node p.nodes.size ⟨.projection columns, t.tables, false⟩ [t]).entries none ++
        es) rest := by
  have h₀ : p.Splits ([t].flatMap (Branch.entries none) ++ es) rest := by simpa using h
  obtain ⟨q, hq, h₁, hroot, -⟩ := h₀.attach (.projection columns) t.tables
  refine ⟨q, ?_, hroot, h₁⟩
  rw [Plan.project, (has_plug (c := []) h).reachable_eq]
  exact hq

end Splits

/-- Further tables are joined to a chain. -/
theorem exists_extendChain {last : String} (links : List KeyLink)
    (h : p.Splits (t.entries none ++ []) rest) (hroot : p.root = none)
    (ht : t.BuiltChain (tables ++ [last])) :
    ∃ (q : Plan) (t' : Branch), p.extendChain links t.top last = .ok (t'.top, q) ∧ q.root = none ∧
      q.Splits (t'.entries none ++ []) rest ∧
      t'.BuiltChain (tables ++ [last] ++ links.map KeyLink.table) := by
  induction links generalizing p t tables last with
  | nil => exact ⟨p, t, rfl, hroot, h, by simpa using ht⟩
  | cons link links ih =>
    obtain ⟨q, hq, hqroot, h₁⟩ := h.scan link.table
    obtain ⟨r, hr, hrroot, h₂⟩ :=
      (h₁.of_perm (List.perm_append_comm_assoc _ _ _)).join (link.join last)
    have hjoin := ht.join link (Branch.builtChain_scan p.nodes.size link.table) q.nodes.size
    rw [List.append_cons] at hjoin
    obtain ⟨q', t', hq', hroot', h₃, ht'⟩ := ih h₂ (hrroot.trans (hqroot.trans hroot)) hjoin
    refine ⟨q', t', ?_, hroot', h₃, by simpa using ht'⟩
    rw [extendChain, hq]
    rw [Branch.top_node] at hr hq'
    simp only [ok_bind, hr, hq']

/-- A plan that projects a chain can be built for all tables, and it is valid. -/
theorem exists_keyChain (first : String) (links : List KeyLink) (columns : ColumnSet)
    (hcolumns : ∀ x ∈ columns, x.table ∈ first :: links.map KeyLink.table) :
    ∃ p, keyChain first links columns = .ok p ∧ p.validate = .ok () ∧
      p.ProjectsChain (first :: links.map KeyLink.table) columns := by
  have hempty : empty.Splits [] fun _ => none :=
    ⟨List.nodup_nil, fun _ _ hx => absurd hx List.not_mem_nil, fun _ _ => rfl, fun _ _ => rfl⟩
  obtain ⟨q, hq, hqroot, h₁⟩ := hempty.scan first
  have hscan : (Branch.node empty.nodes.size ⟨.scan first, .singleton first, false⟩ []).BuiltChain
      ([] ++ [first]) := Branch.builtChain_scan _ first
  obtain ⟨r, t, hr, hrroot, h₂, ht⟩ := exists_extendChain links h₁ hqroot hscan
  obtain ⟨p, hp, hproot, h₃⟩ := h₂.project columns
  rw [List.append_nil] at h₃
  have hshows : (p.setRoot r.nodes.size).Shows
      (.node r.nodes.size ⟨.projection columns, t.tables, false⟩ [t]) fun _ => none :=
    ⟨rfl, h₃.withRoot _⟩
  refine ⟨p.setRoot r.nodes.size, ?_, ?_, ?_⟩
  · rw [keyChain, hq]
    rw [Branch.top_node] at hr
    simp only [ok_bind, hr, hp, pure_eq_ok]
  · exact validate_eq_ok_iff.2 ⟨_, _, hshows, ht.valid_projection hcolumns _, linked_none⟩
  · have htop := KeyChain.of_branch ht.chain ht.keepsAll
      (hshows.has.branch (List.mem_singleton.2 rfl))
    exact ⟨_, _, _, rfl, hshows.has.get?_top, rfl, rfl, rfl, htop⟩

end Plan

end QueryPlan
