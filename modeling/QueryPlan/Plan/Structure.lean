import QueryPlan.Plan.Basic

/-!
# The structure of a plan

A plan is well structured when its links agree in both directions, every node but the root has
exactly one owner, and every operator has the number of children it needs.  The links are checked
node by node.  Only if they agree is the plan walked from its root, since a walk along broken links
could meet a hole or go around in circles.
-/

namespace QueryPlan

/-- What is wrong with the structure of a plan. -/
inductive StructuralError where
  /-- There is no root. -/
  | emptyPlan
  /-- The root records a parent. -/
  | rootHasParent (root parent : NodeId)
  /-- A node lists a child that is not there. -/
  | danglingChild (node child : NodeId)
  /-- A child does not record the node that lists it. -/
  | parentMismatch (node child : NodeId) (recorded : Option NodeId)
  /-- A node records a parent that does not list it. -/
  | notListedByParent (node parent : NodeId)
  /-- A node is listed more than once. -/
  | multipleOwners (node : NodeId) (owners : Nat)
  /-- A node is neither the root nor attached to a parent. -/
  | orphan (node : NodeId)
  /-- A walk from the root meets a node twice. -/
  | cycleDetected (node : NodeId)
  /-- An operator has the wrong number of children. -/
  | invalidArity (node : NodeId) (operator : Operator.Kind) (actual : Nat)
deriving DecidableEq

/-- How many children an operator needs, in words. -/
def Operator.Kind.arityText : Operator.Kind → String
  | .scan => "0"
  | .filter | .projection => "1"
  | .join => "at least 2"

/-- Whether an operator can have a number of children. -/
def Operator.Kind.allowsArity : Operator.Kind → Nat → Bool
  | .scan, n => n == 0
  | .filter, n | .projection, n => n == 1
  | .join, n => 2 ≤ n

namespace StructuralError

/-- The name of a structural error. -/
def name : StructuralError → String
  | .emptyPlan => "EmptyPlan"
  | .rootHasParent .. => "RootHasParent"
  | .danglingChild .. => "DanglingChild"
  | .parentMismatch .. => "ParentMismatch"
  | .notListedByParent .. => "NotListedByParent"
  | .multipleOwners .. => "MultipleOwners"
  | .orphan .. => "Orphan"
  | .cycleDetected .. => "CycleDetected"
  | .invalidArity .. => "InvalidArity"

/-- The wording of a structural error. -/
def message : StructuralError → String
  | .emptyPlan => "Plan is empty"
  | .rootHasParent root parent =>
    "Root " ++ NodeId.text root ++ " has parent " ++ NodeId.text parent
  | .danglingChild node child =>
    "Node " ++ NodeId.text node ++ " lists discarded child " ++ NodeId.text child
  | .parentMismatch node child (some recorded) =>
    "Child " ++ NodeId.text child ++ " of " ++ NodeId.text node ++ " points to parent " ++
      NodeId.text recorded
  | .parentMismatch node child none =>
    "Child " ++ NodeId.text child ++ " of " ++ NodeId.text node ++ " has no parent"
  | .notListedByParent node parent =>
    "Node " ++ NodeId.text node ++ " is not a child of its parent " ++ NodeId.text parent
  | .multipleOwners node owners =>
    "Node " ++ NodeId.text node ++ " is owned " ++ owners.repr ++ " times"
  | .orphan node => "Node " ++ NodeId.text node ++ " is detached from the plan"
  | .cycleDetected node => "Cycle detected in plan at: " ++ NodeId.text node
  | .invalidArity node operator actual =>
    "Invalid arity for " ++ operator.name ++ " " ++ NodeId.text node ++ ": expected " ++
      operator.arityText ++ " children, got " ++ actual.repr

end StructuralError

namespace Plan

/-! ## Links -/

/-- The error of the root's own parent link. -/
def rootLinkErrors (root : NodeId) (n : Node) : List StructuralError :=
  match n.parent with
  | some parent => [.rootHasParent root parent]
  | none => []

/-- The error of one entry in a list of children. -/
def childLinkError? (p : Plan) (id child : NodeId) : Option StructuralError :=
  match p.get? child with
  | none => some (.danglingChild id child)
  | some n => if n.parent = some id then none else some (.parentMismatch id child n.parent)

/-- The error of a node's parent link. -/
def parentLinkError? (p : Plan) (root id : NodeId) (n : Node) : Option StructuralError :=
  match n.parent with
  | some parent =>
    if (p.get? parent).any (·.children.contains id) then none
    else some (.notListedByParent id parent)
  | none => if id = root then none else some (.orphan id)

/-- The errors of the links of one node. -/
def nodeLinkErrors (p : Plan) (root id : NodeId) (n : Node) : List StructuralError :=
  n.children.filterMap (p.childLinkError? id) ++ (p.parentLinkError? root id n).toList

/-- All entries in lists of children. -/
def listedChildren (p : Plan) : List NodeId :=
  p.live.flatMap (·.2.children)

/-- The errors of nodes that are listed more than once, in order of position. -/
def ownershipErrors (p : Plan) : List StructuralError :=
  let listed := p.listedChildren
  (listed.eraseDups.mergeSort).filterMap fun id =>
    let owners := listed.count id
    if 1 < owners then some (.multipleOwners id owners) else none

/-- All errors of links. -/
def linkErrors (p : Plan) (root : NodeId) (n : Node) : List StructuralError :=
  rootLinkErrors root n ++ p.live.flatMap (fun entry => p.nodeLinkErrors root entry.1 entry.2) ++
    p.ownershipErrors

/-! ## Shape -/

/-- Walks a plan for a limited number of nodes, the nodes of `pending` last child first, and
collects the errors of arity.  The walk stops at a node that was met before. -/
def shapeErrorsWithin (p : Plan) : Nat → List NodeId → List NodeId →
    Except Fault (List StructuralError)
  | _, _, [] => .ok []
  | 0, _, id :: _ => .error (.endless id)
  | steps + 1, visited, id :: pending =>
    if visited.contains id then .ok [.cycleDetected id]
    else do
      let n ← p.node id
      let rest ← p.shapeErrorsWithin steps (id :: visited) (n.children.reverse ++ pending)
      if n.kind.allowsArity n.children.length then return rest
      else return .invalidArity id n.kind n.children.length :: rest

/-- Everything that is wrong with the structure of a plan. -/
def structuralErrors (p : Plan) : Except Fault (List StructuralError) :=
  match p.root with
  | none => .ok [.emptyPlan]
  | some root =>
    match p.get? root with
    | none => .ok [.emptyPlan]
    | some n =>
      match p.linkErrors root n with
      | [] => p.shapeErrorsWithin p.walkLimit [] [root]
      | errors => .ok errors

/-- Whether a walk for a limited number of nodes meets neither a hole nor a node twice. -/
def isAcyclicWithin (p : Plan) : Nat → List NodeId → List NodeId → Bool
  | _, _, [] => true
  | 0, _, _ :: _ => false
  | steps + 1, visited, id :: pending =>
    if visited.contains id then false
    else
      match p.get? id with
      | none => false
      | some n => p.isAcyclicWithin steps (id :: visited) (n.children.reverse ++ pending)

/-- Whether a walk from the root meets neither a hole nor a node twice. -/
def isAcyclic (p : Plan) : Bool :=
  match p.root with
  | none => true
  | some root => p.isAcyclicWithin p.walkLimit [] [root]

end Plan

end QueryPlan
