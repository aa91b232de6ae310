import QueryPlan.Optimizer.Settings
import QueryPlan.Optimizer.Trace
import QueryPlan.Plan.Validation

/-!
# Optimizing a plan

A plan is walked once, from the top down.  A slot is stable when none of the rules that may replace
its occupant fires.  The walk makes the slots of a node's children stable, then applies at most one
of the rules that leave the node where it is, and then goes down to the children the node has by
now.  Branches known to produce no rows are left alone.
-/

namespace QueryPlan

/-- An optimizer: the rules it tries, in order, and what it does beside applying them. -/
structure Optimizer where
  /-- Rules that may replace the node they are applied at. -/
  replacingRules : List Rule
  /-- Rules that only insert or narrow projections below the node they are applied at. -/
  narrowingRules : List Rule
  /-- Whether plans are validated before and after a run. -/
  validates : Bool
  /-- Whether a run leaves a trace. -/
  traces : Bool
deriving DecidableEq

/-- The result of optimizing a plan. -/
structure Optimized where
  plan : Plan
  /-- How many times a rule changed the plan. -/
  applied : Nat
  /-- The applications in order, if a trace was asked for. -/
  trace : List TraceEntry
deriving DecidableEq

namespace Optimized

/-- The state of a run before any rule was applied. -/
def start (p : Plan) : Optimized :=
  ⟨p, 0, []⟩

/-- The report of a run. -/
def report (s : Optimized) : String :=
  traceReport s.applied s.trace

end Optimized

namespace Optimizer

/-- The optimizer that runs the rules of a set.  Their order in the catalogue counts, not their
order in the set. -/
def ofRules (rules : RuleSet) (validates traces : Bool) : Optimizer :=
  let enabled := Rule.all.filter (rules.contains ·)
  ⟨enabled.filter (·.replacesAnchor), enabled.filter (!·.replacesAnchor), validates, traces⟩

/-- The optimizer that is configured by settings. -/
def ofSettings (settings : Optimizer.Settings) : Except Error Optimizer := do
  let rules ← RuleSet.ofNames settings.rules
  return ofRules rules settings.validate settings.trace

/-- The optimizer that runs the rules of a set under the standard settings. -/
def withRules (rules : RuleSet) : Optimizer :=
  ofRules rules Optimizer.Settings.standard.validate Optimizer.Settings.standard.trace

/-- The optimizer that runs all rules under the standard settings. -/
def standard : Optimizer :=
  withRules .all

/-- The names of the rules in the order in which they are tried. -/
def ruleNames (o : Optimizer) : List String :=
  (o.replacingRules ++ o.narrowingRules).map Rule.name

/-- Tries a rule at a node.  Returns the node that occupies the slot afterwards if the rule changed
the plan. -/
def tryRule (o : Optimizer) (id : NodeId) (r : Rule) (s : Optimized) :
    Except Plan.Fault (Option NodeId × Optimized) := do
  if !(← r.isAnchor s.plan id) then return (none, s)
  let before ← if o.traces then s.plan.explain else pure ""
  let result ← r.apply s.plan id
  if !result.changed then return (none, { s with plan := result.plan })
  let after ← if o.traces then result.plan.explain else pure ""
  let entries := if o.traces then [⟨r.name, id, before, after, true⟩] else []
  return (some result.node, ⟨result.plan, s.applied + 1, s.trace ++ entries⟩)

/-- Tries rules at a node in order until one changes the plan. -/
def tryRules (o : Optimizer) (id : NodeId) :
    List Rule → Optimized → Except Plan.Fault (Option NodeId × Optimized)
  | [], s => .ok (none, s)
  | r :: rest, s => do
    match ← o.tryRule id r s with
    | (some node, s) => return (some node, s)
    | (none, s) => o.tryRules id rest s

/-- Makes the slot of a node stable in a limited number of rounds and returns its final occupant. -/
def stabilizeWithin (o : Optimizer) : Nat → NodeId → Optimized →
    Except Plan.Fault (NodeId × Optimized)
  | 0, id, _ => .error (.endless id)
  | rounds + 1, id, s => do
    if (← s.plan.node id).vacuous then return (id, s)
    match ← o.tryRules id o.replacingRules s with
    | (some node, s) => o.stabilizeWithin rounds node s
    | (none, s) => return (id, s)

/-- More rounds than it takes to make a slot stable: a round removes a node, or moves a filter out
of the slot, or folds a predicate for good. -/
def roundLimit (p : Plan) : Nat :=
  4 * p.nodes.size + 8

/-- Makes the slot of a node stable and returns its final occupant. -/
def stabilize (o : Optimizer) (id : NodeId) (s : Optimized) :
    Except Plan.Fault (NodeId × Optimized) :=
  o.stabilizeWithin (roundLimit s.plan) id s

/-- Makes the slots of the given nodes stable, one after the other. -/
def stabilizeAll (o : Optimizer) (ids : List NodeId) (s : Optimized) :
    Except Plan.Fault Optimized :=
  ids.foldlM (fun s id => Prod.snd <$> o.stabilize id s) s

/-- Walks from a node down to a limited depth. -/
def descendWithin (o : Optimizer) : Nat → NodeId → Optimized → Except Plan.Fault Optimized
  | 0, id, _ => .error (.endless id)
  | depth + 1, id, s => do
    let n ← s.plan.node id
    if n.vacuous then return s
    let s ← o.stabilizeAll n.children s
    let (_, s) ← o.tryRules id o.narrowingRules s
    let n ← s.plan.node id
    n.children.foldlM (fun s child => o.descendWithin depth child s) s

/-- More than the depth the walk can reach: at most one projection is inserted between two nodes. -/
def depthLimit (p : Plan) : Nat :=
  4 * p.nodes.size + 4

/-- Applies the rules to a plan from its root down. -/
def transform (o : Optimizer) (p : Plan) : Except Plan.Fault Optimized :=
  match p.root with
  | none => .ok (.start p)
  | some root => do
    let (root, s) ← o.stabilize root (.start p)
    o.descendWithin (depthLimit p) root s

/-- Optimizes a plan.  If plans are validated, an invalid one is refused, and so is a result that
came out invalid. -/
def optimize (o : Optimizer) (p : Plan) : Except Error Optimized := do
  if o.validates then p.validate
  let s ← (o.transform p).mapError Error.fault
  if o.validates then
    match s.plan.validate with
    | .ok () => return s
    | .error (.fault cause) => .error (.fault cause)
    | .error e => .error (.internal ("optimizer produced an invalid plan: " ++ e.message))
  else return s

end Optimizer

end QueryPlan
