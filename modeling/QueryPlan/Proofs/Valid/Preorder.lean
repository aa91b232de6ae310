import QueryPlan.Proofs.Forest.Cycles
import QueryPlan.Proofs.Forest.Insertion

/-!
# Walks with a stack

A branch can be walked without recursion: the nodes that are still to be listed wait on a stack, and a
node that is listed puts its children there, the last one first.  What waits on the stack below a node
is listed after the whole branch of this node, so such a walk lists the same nodes in the same order.

Main results:

- Theorem `Plan.listsFirst_of_preorderWithin`: a walk with a stack lists the branch on top of the stack,
  and what waits below has to wait until then.
- Theorem `Plan.Shows.walked`: what the walk from a node of a tree lists.
- Theorem `Plan.walks_exact`: the walks from the nodes of any plan with a sound structure.
- Theorem `Plan.scans_ne_flatten_loneScan`: a scan has a table although it has no children.
-/

namespace QueryPlan

/-- The positions of a branch come directly after each other in a larger branch. -/
theorem Context.ids_infix_plug (c : Context) (s : Branch) : s.ids <:+: (c.plug s).ids := by
  obtain ⟨left, right, hids⟩ := c.exists_ids_plug
  exact ⟨left, right, (hids s).symm⟩

/-- A set of aliases that is put together from sets of aliases. -/
theorem AliasSet.mem_foldl_union {sets : List AliasSet} {s : AliasSet} {a : String} :
    a ∈ sets.foldl union s ↔ a ∈ s ∨ ∃ t ∈ sets, a ∈ t := by
  induction sets generalizing s with
  | nil => simp
  | cons t sets ih => simp [ih, or_assoc]

namespace Branch

/-- The positions of a branch are its top and then those of its branches. -/
theorem ids_eq_cons (b : Branch) : b.ids = b.top :: b.branches.flatMap ids := by
  cases b
  exact ids_node ..

/-- The scans of a branch are that of its top, if this is a scan, and then those of its branches. -/
theorem scans_eq_append (b : Branch) :
    b.scans = b.label.op.scannedTable?.toList ++ b.branches.flatMap scans := by
  cases b
  exact scans_node ..

/-- The set of tables of a node that scans nothing itself. -/
theorem tables_eq_foldl_union {b : Branch} (h : b.label.op.scannedTable? = none) :
    b.tables = (b.branches.map tables).foldl .union .empty := by
  apply AliasSet.ext_mem
  intro a
  rw [AliasSet.mem_foldl_union, tables, AliasSet.mem_ofList, b.scans_eq_append, h]
  simp [tables]

end Branch

namespace Plan

/-! ## The stack -/

/-- Puts nodes on a stack one after the other, so that the last one ends up on top. -/
def pushAll (stack ids : List NodeId) : List NodeId :=
  ids.foldl (fun stack id => id :: stack) stack

/-- If nodes are pushed last one first, the first one is on top of the stack. -/
theorem pushAll_reverse (stack ids : List NodeId) : pushAll stack ids.reverse = ids ++ stack := by
  simp [pushAll]

/-- Walks with a stack for a limited number of rounds.  In each round the node on top is taken off the
stack and listed behind those of `order`, and its children are put on the stack, last child first. -/
def walkStack (p : Plan) : Nat → List NodeId → List NodeId → Except Fault (List NodeId)
  | _, order, [] => .ok order
  | 0, _, id :: _ => .error (.endless id)
  | rounds + 1, order, id :: stack => do
    let n ← p.node id
    p.walkStack rounds (order ++ [id]) (pushAll stack n.children.reverse)

variable {p : Plan} {c : Context} {s : Branch} {rest : NodeId → Option Node} {x y : NodeId}

/-- A walk with a stack that has the node on top lists `ids` first, one in each round, and then goes on
with what waits below. -/
def ListsFirst (p : Plan) (id : NodeId) (ids : List NodeId) : Prop :=
  ∀ rounds order stack, p.walkStack (ids.length + rounds) order (id :: stack) =
    p.walkStack rounds (order ++ ids) stack

/-- The branches of nodes that come next on the stack are listed one after the other. -/
theorem walkStack_append {walk : NodeId → Except Fault (List NodeId)}
    (hwalk : ∀ {id ids}, walk id = .ok ids → p.ListsFirst id ids) {next : List NodeId}
    {below : List (List NodeId)} (hbelow : next.mapM walk = .ok below) (rounds : Nat)
    (order stack : List NodeId) :
    p.walkStack (below.flatten.length + rounds) order (next ++ stack) =
      p.walkStack rounds (order ++ below.flatten) stack := by
  induction next generalizing below order with
  | nil =>
    obtain rfl := Except.ok.inj hbelow
    simp
  | cons id next ih =>
    rw [List.mapM_cons] at hbelow
    obtain ⟨ids, hids, hbelow⟩ := bind_eq_ok.1 hbelow
    obtain ⟨below, hrest, hbelow⟩ := bind_eq_ok.1 hbelow
    obtain rfl := Except.ok.inj hbelow
    rw [List.flatten_cons, List.length_append, Nat.add_assoc, List.cons_append, hwalk hids, ih hrest,
      List.append_assoc]

/-- A walk with a stack lists the branch of the node on top, in preorder, before it goes on with what
waits below. -/
theorem listsFirst_of_preorderWithin {depth : Nat} {id : NodeId} {ids : List NodeId}
    (h : p.preorderWithin depth id = .ok ids) : p.ListsFirst id ids := by
  induction depth generalizing id ids with
  | zero => simp [preorderWithin] at h
  | succ depth ih =>
    intro rounds order stack
    rw [preorderWithin] at h
    obtain ⟨n, hn, h⟩ := bind_eq_ok.1 h
    obtain ⟨below, hbelow, h⟩ := bind_eq_ok.1 h
    obtain rfl := Except.ok.inj h
    rw [List.length_cons, Nat.add_right_comm, walkStack, hn, ok_bind, pushAll_reverse,
      walkStack_append ih hbelow, List.append_assoc]
    rfl

/-- A walk with a stack ends when it has listed the nodes that the recursive walk lists. -/
theorem walkStack_of_preorder {ids : List NodeId} (h : p.preorder x = .ok ids) {rounds : Nat}
    (hrounds : ids.length ≤ rounds) : p.walkStack rounds [] [x] = .ok ids := by
  obtain ⟨more, rfl⟩ := Nat.exists_eq_add_of_le hrounds
  rw [listsFirst_of_preorderWithin h, List.nil_append]
  cases more <;> rw [walkStack]

/-! ## The branch of a node -/

/-- What is listed by the walks that start at the node `n` with position `x`. -/
structure Walked (p : Plan) (x : NodeId) (n : Node) (ids : List NodeId) : Prop where
  preorder : p.preorder x = .ok ids
  /-- The walk with a stack lists the same nodes, one in each round. -/
  stack : ∀ rounds, ids.length ≤ rounds → p.walkStack rounds [] [x] = .ok ids
  /-- The node is listed first, and then the branches of its children in order. -/
  unfolds : ∃ below, n.children.mapM p.preorder = .ok below ∧ ids = x :: below.flatten
  /-- The nodes of the branch are listed, and each of them once. -/
  nodup : ids.Nodup
  mem_iff : ∀ y, y ∈ ids ↔ Relation.ReflTransGen p.IsParent x y
  /-- The branch of any node further down is listed without a gap, the branches of its children in
  order. -/
  contiguous : ∀ y ∈ ids, ∃ m below, p.get? y = some m ∧ m.children.mapM p.preorder = .ok below ∧
    (y :: below.flatten) <:+: ids
  /-- A parent is listed before its children. -/
  before : ∀ y ∈ ids, ∀ z, p.IsParent y z → [y, z].Sublist ids
  /-- The tables of a node that is no scan are those of its children. -/
  tables_below : n.op.scannedTable? = none → ∃ tables sets,
    n.children.mapM p.scannedTables = .ok tables ∧ n.children.mapM p.reachable = .ok sets ∧
      p.scannedTables x = .ok tables.flatten ∧ p.reachable x = .ok (sets.foldl .union .empty)
  /-- A scan has one table and no children. -/
  tables_scan : ∀ table, n.op = .scan table → n.children = [] ∧
    p.scannedTables x = .ok [table] ∧ p.reachable x = .ok (.singleton table)

/-- What is found out of each branch directly below a node. -/
theorem Has.mapM_branches {α : Type} {f : NodeId → Except Fault α} {g : Branch → α}
    (hf : ∀ {parent b}, p.Has parent b → f b.top = .ok (g b)) {parent : Option NodeId}
    (h : p.Has parent s) : (s.branches.map Branch.top).mapM f = .ok (s.branches.map g) := by
  obtain ⟨id, l, bs⟩ := s
  exact mapM_map_ok fun b hb => hf (h.branch hb)

/-- A node further down, in the branch of a node of a tree. -/
theorem Shows.exists_plug (h : p.Shows (c.plug s) rest) (hy : y ∈ s.ids) :
    ∃ d t, s = Context.plug d t ∧ t.top = y ∧ p.Shows (Context.plug (d ++ c) t) rest := by
  obtain ⟨d, t, rfl, htop⟩ := Branch.exists_plug_of_mem_ids hy
  exact ⟨d, t, rfl, htop, by rwa [Context.plug_append]⟩

/-- The walks from a node of a tree in which every node has the branches its operator needs. -/
theorem Shows.walked (h : p.Shows (c.plug s) rest) (hrest : Linked rest)
    (harity : (c.plug s).arityErrors = []) :
    p.Walked s.top (s.label.node c.parent? (s.branches.map Branch.top)) s.ids where
  preorder := h.has_plug.preorder_eq
  stack rounds := walkStack_of_preorder h.has_plug.preorder_eq
  unfolds := by
    refine ⟨_, h.has_plug.mapM_branches Has.preorder_eq, ?_⟩
    rw [← List.flatMap_def, ← s.ids_eq_cons]
  nodup := (List.nodup_append.1 ((c.ids_plug s).nodup_iff.1 h.nodup_ids)).1
  mem_iff y := by
    rw [Relation.reflTransGen_iff_eq_or_transGen, s.ids_eq_cons, List.mem_cons]
    exact or_congr_right (h.ancestor_top_iff hrest).symm
  contiguous y hy := by
    obtain ⟨d, t, rfl, rfl, ht⟩ := h.exists_plug hy
    refine ⟨_, _, ht.has_plug.get?_top, ht.has_plug.mapM_branches Has.preorder_eq, ?_⟩
    rw [← List.flatMap_def, ← t.ids_eq_cons]
    exact d.ids_infix_plug t
  before y hy z hz := by
    obtain ⟨d, t, rfl, rfl, ht⟩ := h.exists_plug hy
    have hbelow : z ∈ t.branches.flatMap Branch.ids := (ht.ancestor_top_iff hrest).1 (.single hz)
    refine List.Sublist.trans ?_ (d.ids_infix_plug t).sublist
    rw [t.ids_eq_cons]
    exact (List.singleton_sublist.2 hbelow).cons_cons t.top
  tables_below hop := by
    refine ⟨_, _, h.has_plug.mapM_branches Has.scannedTables_eq,
      h.has_plug.mapM_branches Has.reachable_eq, ?_, ?_⟩
    · rw [h.has_plug.scannedTables_eq, s.scans_eq_append, show s.label.op.scannedTable? = none from hop,
        List.flatMap_def]
      rfl
    · rw [h.has_plug.reachable_eq, s.tables_eq_foldl_union hop]
  tables_scan table hop := by
    have hop' : s.label.op = .scan table := hop
    have hlength : s.branches.length = 0 := by
      have hallows := Branch.allowsArity_of_plug harity
      rw [Label.kind, hop'] at hallows
      exact beq_iff_eq.1 hallows
    have hscans : s.scans = [table] := by
      rw [s.scans_eq_append, hop', List.length_eq_zero_iff.1 hlength]
      rfl
    refine ⟨?_, ?_, ?_⟩
    · rw [Label.node_children, List.length_eq_zero_iff.1 hlength, List.map_nil]
    · rw [h.has_plug.scannedTables_eq, hscans]
    · rw [h.has_plug.reachable_eq, Branch.tables, hscans]
      rfl

/-- The walks from the reachable nodes of a plan with a sound structure.  The stack walk and the
recursive walk agree, the branch of a node is listed without gaps, and the tables of a node are those
of its children, or its own if it is a scan. -/
theorem walks_exact (h : p.structuralErrors = .ok []) (hx : p.Reachable x) :
    ∃ n ids, p.get? x = some n ∧ p.Walked x n ids := by
  obtain ⟨b, rest, hshows, hrest, harity⟩ := structuralErrors_eq_nil_iff.1 h
  obtain ⟨c, s, rfl, rfl⟩ := Branch.exists_plug_of_mem_ids (hshows.reachable_iff.1 hx)
  exact ⟨_, _, hshows.has_plug.get?_top, hshows.walked hrest harity⟩

/-- A join whose second branch is a join. -/
def nestedJoin : Plan where
  nodes := #[
    some ⟨.scan "a", some 3, [], .singleton "a", false⟩,
    some ⟨.scan "b", some 3, [], .singleton "b", false⟩,
    some ⟨.scan "c", some 4, [], .singleton "c", false⟩,
    some ⟨.join ⟨.empty, .empty⟩, some 4, [0, 1], .ofList ["a", "b"], false⟩,
    some ⟨.join ⟨.empty, .empty⟩, none, [2, 3], .ofList ["a", "b", "c"], false⟩]
  root := some 4

/-- The branch of the inner join is listed behind the branch before it. -/
theorem walks_exact_nestedJoin :
    nestedJoin.structuralErrors = .ok [] ∧ nestedJoin.Reachable 4 ∧
    ∃ n, nestedJoin.get? 4 = some n ∧ nestedJoin.Walked 4 n [4, 2, 3, 0, 1] := by
  have hstructure : nestedJoin.structuralErrors = .ok [] := by cbv
  have hroot : nestedJoin.Reachable 4 := .root rfl
  have hids : nestedJoin.preorder 4 = .ok [4, 2, 3, 0, 1] := by cbv
  obtain ⟨n, ids, hn, hwalked⟩ := walks_exact hstructure hroot
  obtain rfl := Except.ok.inj (hwalked.preorder.symm.trans hids)
  exact ⟨hstructure, hroot, n, hn, hwalked⟩

/-- A plan that is a single scan. -/
def loneScan : Plan where
  nodes := #[some ⟨.scan "a", none, [], .singleton "a", false⟩]
  root := some 0

/-- The tables of a scan are not those of its children, of which it has none. -/
theorem scans_ne_flatten_loneScan :
    loneScan.structuralErrors = .ok [] ∧ loneScan.Reachable 0 ∧
    (¬ ∃ n tables, loneScan.get? 0 = some n ∧ n.children.mapM loneScan.scannedTables = .ok tables ∧
      loneScan.scannedTables 0 = .ok tables.flatten) ∧
    ¬ ∃ n sets, loneScan.get? 0 = some n ∧ n.children.mapM loneScan.reachable = .ok sets ∧
      loneScan.reachable 0 = .ok (sets.foldl .union .empty) := by
  refine ⟨by cbv, .root rfl, ?_, ?_⟩
  · rintro ⟨n, tables, hget, htables, hscans⟩
    obtain rfl := Option.some.inj hget
    obtain rfl := Except.ok.inj htables
    have hown : loneScan.scannedTables 0 = .ok ["a"] := by cbv
    simp [hown] at hscans
  · rintro ⟨n, sets, hget, hsets, hreachable⟩
    obtain rfl := Option.some.inj hget
    obtain rfl := Except.ok.inj hsets
    have hown : loneScan.reachable 0 = .ok (.singleton "a") := by cbv
    have hmem : "a" ∈ AliasSet.singleton "a" := AliasSet.mem_singleton.2 rfl
    rw [Except.ok.inj (hown.symm.trans hreachable)] at hmem
    exact AliasSet.not_mem_empty "a" hmem

end Plan

end QueryPlan
