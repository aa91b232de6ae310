import QueryPlan.Error
import QueryPlan.Rule.JoinElimination
import QueryPlan.Rule.PredicatePushdown
import QueryPlan.Rule.ProjectionPushdown
import QueryPlan.Rule.PredicateSimplification

/-!
# The catalogue of rules

Every rule has a name by which it is enabled.  A rule set is an ordered selection of rules without
repetition.
-/

namespace QueryPlan

/-- An optimization rule. -/
inductive Rule where
  | projectionBelowJoin
  | projectionBelowFilter
  | predicatePushdown
  | joinElimination
  | predicateSimplification
deriving DecidableEq, Inhabited

namespace Rule

/-- All rules, in the order in which they take precedence. -/
def all : List Rule :=
  [.projectionBelowJoin, .projectionBelowFilter, .predicatePushdown, .joinElimination,
    .predicateSimplification]

/-- The place of a rule in the catalogue. -/
def position (r : Rule) : Nat :=
  all.idxOf r

/-- Rules are ordered by their places in the catalogue. -/
def order (r s : Rule) : Ordering :=
  compare r.position s.position

/-- The name of a rule. -/
def name : Rule → String
  | .projectionBelowJoin => "PROJECTION_PUSHDOWN_JOIN"
  | .projectionBelowFilter => "PROJECTION_PUSHDOWN_SELECT"
  | .predicatePushdown => "PREDICATE_PUSHDOWN"
  | .joinElimination => "JOIN_ELIMINATION"
  | .predicateSimplification => "SIMPLIFY_PREDICATE"

/-- What a rule does. -/
def description : Rule → String
  | .projectionBelowJoin => "Project each join branch down to the columns read above it"
  | .projectionBelowFilter => "Project below a filter to its own and the projected columns"
  | .predicatePushdown => "Move a filter below a join, next to the branch it constrains"
  | .joinElimination => "Remove a join made redundant by a foreign key"
  | .predicateSimplification => "Fold constant filter predicates"

/-- Whether a rule may put another node into the slot of its anchor.  The other rules only insert or
narrow projections below it. -/
def replacesAnchor : Rule → Bool
  | .predicatePushdown | .joinElimination | .predicateSimplification => true
  | .projectionBelowJoin | .projectionBelowFilter => false

/-- The rule with a given name. -/
def ofName (name : String) : Except Error Rule :=
  match all.find? (·.name == name) with
  | some r => .ok r
  | none => .error (.unknownRule name)

/-- Whether a rule is tried at a node, judged by the kinds of nodes there. -/
def isAnchor : Rule → Plan → NodeId → Except Plan.Fault Bool
  | .projectionBelowJoin => ProjectionPushdown.BelowJoin.isAnchor
  | .projectionBelowFilter => ProjectionPushdown.BelowFilter.isAnchor
  | .predicatePushdown => PredicatePushdown.isAnchor
  | .joinElimination => JoinElimination.isAnchor
  | .predicateSimplification => PredicateSimplification.isAnchor

/-- Applies a rule at a node. -/
def apply : Rule → Plan → NodeId → Except Plan.Fault RuleResult
  | .projectionBelowJoin => ProjectionPushdown.BelowJoin.apply
  | .projectionBelowFilter => ProjectionPushdown.BelowFilter.apply
  | .predicatePushdown => PredicatePushdown.apply
  | .joinElimination => JoinElimination.apply
  | .predicateSimplification => PredicateSimplification.apply

end Rule

/-- A selection of rules in order, without repetition. -/
structure RuleSet where
  rules : List Rule
  nodup : rules.Nodup
deriving DecidableEq

namespace RuleSet

/-- The selection of no rule. -/
def empty : RuleSet :=
  ⟨[], List.nodup_nil⟩

/-- The number of selected rules. -/
def size (s : RuleSet) : Nat :=
  s.rules.length

/-- Whether no rule is selected. -/
def isEmpty (s : RuleSet) : Bool :=
  s.rules.isEmpty

/-- Whether a rule is selected. -/
def contains (s : RuleSet) (r : Rule) : Bool :=
  s.rules.contains r

/-- Selects one more rule, as the last one unless it is selected already. -/
def insert (s : RuleSet) (r : Rule) : RuleSet :=
  if h : r ∈ s.rules then s
  else
    ⟨s.rules ++ [r], List.nodup_append.2 ⟨s.nodup, by simp, fun a ha b hb hab =>
      h (List.mem_singleton.1 hb ▸ hab ▸ ha)⟩⟩

/-- Selects one more rule and tells whether it is new. -/
def insertNew (s : RuleSet) (r : Rule) : Bool × RuleSet :=
  (!s.contains r, s.insert r)

/-- The selection of the rules in a list. -/
def ofList (rules : List Rule) : RuleSet :=
  rules.foldl insert empty

/-- The selection of all rules. -/
def all : RuleSet :=
  ofList Rule.all

/-- The rules with the given names; the first unknown name decides the error. -/
def ofNames (names : List String) : Except Error RuleSet :=
  ofList <$> names.mapM Rule.ofName

/-- The names of the selected rules in braces, in order. -/
def text (s : RuleSet) : String :=
  "\x7b" ++ ", ".intercalate (s.rules.map Rule.name) ++ "\x7d"

end RuleSet

end QueryPlan
