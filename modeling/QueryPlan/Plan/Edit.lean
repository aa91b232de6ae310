import QueryPlan.Plan.Walk

/-!
# Editing plans

The operations that move, insert and remove nodes.  A slot is a place in a plan that a node can
occupy: the root, or one position in the list of children of a node.
-/

namespace QueryPlan

/-- A place in a plan. -/
inductive Slot where
  | root
  | child (parent : NodeId) (index : Nat)
deriving DecidableEq

namespace Plan

/-- The slot a node occupies, none if the node is detached. -/
def slot? (p : Plan) (id : NodeId) : Except Fault (Option Slot) := do
  match (← p.node id).parent with
  | some parent => return ((← p.node parent).children.idxOf? id).map (.child parent)
  | none => return if p.root = some id then some .root else none

/-- The node that occupies a slot. -/
def occupant? (p : Plan) : Slot → Option NodeId
  | .root => p.root
  | .child parent index => do (← p.get? parent).children[index]?

/-- Replaces the operator of a node. -/
def setOp (p : Plan) (id : NodeId) (op : Operator) : Plan :=
  p.modify id ({ · with op })

/-- Replaces the scope of a node. -/
def setScope (p : Plan) (id : NodeId) (scope : AliasSet) : Except Fault Plan :=
  p.update id ({ · with scope })

/-- Takes a node out of the slot it occupies. -/
def detach (p : Plan) (id : NodeId) : Except Fault Plan := do
  match (← p.node id).parent with
  | some parent =>
    let q ← p.update parent fun n => { n with children := n.children.filter (· != id) }
    q.update id ({ · with parent := none })
  | none => return if p.root = some id then { p with root := none } else p

/-- Puts the node `new` into the slot of the node `old`.  It is detached from its own slot first, so
it may come from below `old`, which keeps its children and ends up detached. -/
def replace (p : Plan) (old new : NodeId) : Except Fault Plan := do
  if old = new then return p
  let p ← p.detach new
  let p ←
    match ← p.slot? old with
    | some (.child parent index) =>
      let q ← p.update parent fun n => { n with children := n.children.set index new }
      q.update new ({ · with parent := some parent })
    | some .root => pure { p with root := some new }
    | none => pure p
  p.update old ({ · with parent := none })

/-- Moves a node into the slot of the node `target` and makes `target` its last child. -/
def placeAbove (p : Plan) (id target : NodeId) : Except Fault Plan := do
  let p ← p.replace target id
  let p ← p.update id fun n => { n with children := n.children ++ [target] }
  p.update target ({ · with parent := some id })

/-- Adds a node in the slot of the node `target`, with `target` as its only child, and returns its
position. -/
def insertAbove (p : Plan) (target : NodeId) (op : Operator) : Except Fault (NodeId × Plan) := do
  let scope ← p.reachable target
  let id := p.nodes.size
  return (id, ← (p.push op [] scope).placeAbove id target)

/-- Detaches a node and discards it together with all nodes below it. -/
def discardBranch (p : Plan) (id : NodeId) : Except Fault Plan := do
  let p ← p.detach id
  return (← p.preorder id).foldl erase p

/-- Replaces a node by its only child and discards it.  A node that has no child or several stays as
it is. -/
def bypass (p : Plan) (id : NodeId) : Except Fault (Option NodeId × Plan) := do
  match (← p.node id).onlyChild? with
  | none => return (none, p)
  | some child =>
    let p ← p.replace id child
    return (some child, ← p.discardBranch id)

/-- The scope that a node should have when `reachable` are the tables scanned below it.  A filter
may keep a narrower scope. -/
def refreshedScope (n : Node) (reachable : AliasSet) : AliasSet :=
  match n.kind with
  | .scan => n.scope
  | .filter => n.scope.inter reachable
  | .projection | .join => reachable

/-- Refreshes the scopes of a node and of a limited number of its ancestors. -/
def refreshScopesWithin : Nat → NodeId → Plan → Except Fault Plan
  | 0, id, _ => .error (.endless id)
  | steps + 1, id, p => do
    let reachable ← p.reachable id
    let n ← p.node id
    let p ← p.setScope id (refreshedScope n reachable)
    match n.parent with
    | some parent => refreshScopesWithin steps parent p
    | none => return p

/-- Refreshes the scopes of a node and of all its ancestors. -/
def refreshScopes (p : Plan) (id : NodeId) : Except Fault Plan :=
  refreshScopesWithin p.walkLimit id p

/-- Marks a node and all nodes below it as producing no rows. -/
def markVacuous (p : Plan) (id : NodeId) : Except Fault Plan := do
  return (← p.preorder id).foldl (fun q x => q.modify x ({ · with vacuous := true })) p

end Plan

end QueryPlan
