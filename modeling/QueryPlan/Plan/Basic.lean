import QueryPlan.Plan.Operator

/-!
# Plans

A plan is a store of nodes that refer to each other by their positions, together with the position
of its root.  A node lists its children and records its parent.  A node that is discarded leaves a
hole, so a position never stands for two different nodes.  `Plan.get?` is the view of a plan that
all other operations are described by.
-/

namespace QueryPlan

/-- The position of a node in its plan. -/
abbrev NodeId := Nat

namespace NodeId

/-- A node is referred to by a number sign and its position. -/
def text (id : NodeId) : String :=
  "#" ++ Nat.repr id

end NodeId

/-- A node of a plan with its links. -/
structure Node where
  op : Operator
  /-- The node that lists this one among its children. -/
  parent : Option NodeId
  children : List NodeId
  /-- The tables the node is scoped to. -/
  scope : AliasSet
  /-- Whether the node is known to produce no rows. -/
  vacuous : Bool
deriving DecidableEq, Inhabited

namespace Node

/-- The kind of the node's operator. -/
def kind (n : Node) : Operator.Kind :=
  n.op.kind

/-- Whether the node has no children. -/
def isLeaf (n : Node) : Bool :=
  n.children.isEmpty

/-- The only child of the node, none if it has no child or several. -/
def onlyChild? (n : Node) : Option NodeId :=
  match n.children with
  | [child] => some child
  | _ => none

/-- Equality of nodes, constants being compared as values. -/
def agrees (m n : Node) : Bool :=
  m.op.agrees n.op && m.parent == n.parent && m.children == n.children && m.scope == n.scope &&
    m.vacuous == n.vacuous

end Node

/-- A store of nodes, in which a discarded node has left a hole, and the root. -/
structure Plan where
  nodes : Array (Option Node) := #[]
  root : Option NodeId := none
deriving DecidableEq, Inhabited

namespace Plan

/-- Why an operation on a plan cannot go on. -/
inductive Fault where
  /-- There is no node at this position. -/
  | discarded (id : NodeId)
  /-- A walk that reached this node would never end. -/
  | endless (id : NodeId)
deriving DecidableEq

/-- The wording of a fault. -/
def Fault.message : Fault → String
  | .discarded id => "plan node " ++ NodeId.text id ++ " was discarded"
  | .endless id => "plan node " ++ NodeId.text id ++ " lies on a cycle"

/-- The plan without nodes. -/
def empty : Plan where

/-- The node at a position, unless there is none. -/
def get? (p : Plan) (id : NodeId) : Option Node :=
  (p.nodes[id]?).join

/-- Whether there is a node at a position. -/
def contains (p : Plan) (id : NodeId) : Bool :=
  (p.get? id).isSome

/-- The node at a position, which must be there. -/
def node (p : Plan) (id : NodeId) : Except Fault Node :=
  match p.get? id with
  | some n => .ok n
  | none => .error (.discarded id)

/-- The nodes of the plan with their positions, in order of position. -/
def live (p : Plan) : List (NodeId × Node) :=
  (List.range p.nodes.size).filterMap fun id => (p.get? id).map (id, ·)

/-- The number of nodes. -/
def size (p : Plan) : Nat :=
  p.live.length

/-- Whether the plan has no nodes. -/
def isEmpty (p : Plan) : Bool :=
  p.size == 0

/-- More steps than a walk along the links can take without meeting a node twice. -/
def walkLimit (p : Plan) : Nat :=
  p.nodes.size + 1

/-- Makes a node the root, whatever its links are. -/
def setRoot (p : Plan) (id : NodeId) : Plan :=
  { p with root := some id }

/-- Changes the node at a position, if there is one. -/
def modify (p : Plan) (id : NodeId) (f : Node → Node) : Plan :=
  { p with nodes := p.nodes.modify id (Option.map f) }

/-- Changes the node at a position, which must be there. -/
def update (p : Plan) (id : NodeId) (f : Node → Node) : Except Fault Plan := do
  let _ ← p.node id
  return p.modify id f

/-- Leaves a hole at a position. -/
def erase (p : Plan) (id : NodeId) : Plan :=
  { p with nodes := p.nodes.setIfInBounds id none }

/-- Adds a node without links at the next position. -/
def push (p : Plan) (op : Operator) (children : List NodeId) (scope : AliasSet) : Plan :=
  { p with nodes := p.nodes.push (some ⟨op, none, children, scope, false⟩) }

/-- Equality of plans, constants being compared as values. -/
def agrees (p q : Plan) : Bool :=
  p.root == q.root && p.nodes.size == q.nodes.size &&
    (p.nodes.zip q.nodes).all fun
      | (some m, some n) => m.agrees n
      | (none, none) => true
      | _ => false

/-! ## The view after each change -/

/-- The choice of the root leaves the nodes as they are. -/
@[simp]
theorem get?_setRoot (p : Plan) (id x : NodeId) : (p.setRoot id).get? x = p.get? x :=
  rfl

/-- Changing a node changes what stands at its position and nothing else. -/
theorem get?_modify (p : Plan) (id x : NodeId) (f : Node → Node) :
    (p.modify id f).get? x = if id = x then (p.get? x).map f else p.get? x := by
  unfold get? modify
  rw [Array.getElem?_modify]
  split
  · cases p.nodes[x]? <;> rfl
  · rfl

/-- After a node was erased, its position is a hole and all others are as before. -/
theorem get?_erase (p : Plan) (id x : NodeId) :
    (p.erase id).get? x = if id = x then none else p.get? x := by
  unfold get? erase
  rw [Array.getElem?_setIfInBounds]
  by_cases h : id = x
  · subst h
    by_cases hlt : id < p.nodes.size <;> simp [hlt]
  · simp [h]

/-- A new node stands behind all positions and leaves them as they are. -/
theorem get?_push (p : Plan) (op : Operator) (children : List NodeId) (scope : AliasSet)
    (x : NodeId) :
    (p.push op children scope).get? x =
      if x = p.nodes.size then some ⟨op, none, children, scope, false⟩ else p.get? x := by
  unfold get? push
  rw [Array.getElem?_push]
  split <;> rfl

end Plan

end QueryPlan
