import QueryPlan.Error
import QueryPlan.Plan.Scope
import QueryPlan.Plan.Structure

/-!
# Validation

A plan is valid when its structure is sound and its scopes and columns agree with the tables it
scans.  Scopes and columns are looked at only if the structure is sound.
-/

namespace QueryPlan

/-- What is wrong with a plan. -/
inductive Violation where
  | structural (e : StructuralError)
  | semantic (e : SemanticError)
deriving DecidableEq

namespace Violation

/-- The wording of a violation. -/
def message : Violation → String
  | .structural e => "Structural error: " ++ e.message
  | .semantic e => "Semantic error: " ++ e.message

end Violation

namespace Plan

/-- Everything that is wrong with a plan. -/
def violations (p : Plan) : Except Fault (List Violation) := do
  match ← p.structuralErrors with
  | [] => return (← p.semanticErrors).map .semantic
  | errors => return errors.map .structural

/-- Succeeds on a valid plan and reports all violations of any other plan in one error. -/
def validate (p : Plan) : Except Error Unit :=
  match p.violations with
  | .error cause => .error (.fault cause)
  | .ok [] => .ok ()
  | .ok found => .error (.invalidPlan ("; ".intercalate (found.map Violation.message)))

end Plan

end QueryPlan
