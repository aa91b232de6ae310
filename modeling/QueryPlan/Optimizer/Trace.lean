import QueryPlan.Plan.Basic
import QueryPlan.Text.Lines

/-!
# Traces

A trace tells which rules changed a plan, where, and what the plan looked like before and after.
-/

namespace QueryPlan

/-- One application of a rule. -/
structure TraceEntry where
  /-- The name of the rule. -/
  rule : String
  /-- The anchor of the rule. -/
  node : NodeId
  /-- The drawing of the plan before. -/
  before : String
  /-- The drawing of the plan after. -/
  after : String
  /-- Whether the plan was changed. -/
  changed : Bool
deriving DecidableEq

namespace TraceEntry

/-- The report of one application of a rule, the `number`th one. -/
def report (number : Nat) (e : TraceEntry) : String :=
  "\n--- Rule " ++ number.repr ++ " applied: " ++ e.rule ++ " at " ++ NodeId.text e.node ++
    " ---\nBefore:\n" ++ Text.indent "  " e.before ++ "\nAfter:\n" ++ Text.indent "  " e.after ++
    "\n"

end TraceEntry

/-- The report of a run that applied so many rules and left a trace.  Only entries that changed the
plan are shown and counted. -/
def traceReport (applied : Nat) (trace : List TraceEntry) : String :=
  let entries :=
    if trace.isEmpty then ["  (no trace available)\n"]
    else (trace.filter (·.changed)).mapIdx fun i e => e.report (i + 1)
  "Optimization completed, " ++ applied.repr ++ " rules applied\n" ++ String.join entries

end QueryPlan
