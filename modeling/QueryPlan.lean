import QueryPlan.Json.Config
import QueryPlan.Json.Plan
import QueryPlan.Optimizer.Run
import QueryPlan.Plan.Build
import QueryPlan.Proofs.Columns.Runs
import QueryPlan.Proofs.Filters.Scope
import QueryPlan.Proofs.Filters.Simplified
import QueryPlan.Proofs.Forest.Cycles
import QueryPlan.Proofs.Forest.History
import QueryPlan.Proofs.Optimizer.Termination
import QueryPlan.Proofs.Optimizer.Trace
import QueryPlan.Proofs.Projections.Exact
import QueryPlan.Proofs.Projections.Idempotence
import QueryPlan.Proofs.Rows.ForeignKey
import QueryPlan.Proofs.Rows.Runs
import QueryPlan.Proofs.Rule.Reports
import QueryPlan.Proofs.Tables
import QueryPlan.Proofs.Valid.Runs
import QueryPlan.Proofs.Json.Numerals
import QueryPlan.Proofs.Json.Strings
import QueryPlan.Proofs.Json.Text
import QueryPlan.Proofs.Optimizer.Settings
import QueryPlan.Proofs.Json.Codec
import QueryPlan.Proofs.Json.Config
import QueryPlan.Proofs.Json.Expr
import QueryPlan.Proofs.Json.Plan
import QueryPlan.Proofs.Filters.Pushed
import QueryPlan.Proofs.Filters.Lowest
import QueryPlan.Proofs.Keys.Collapse
import QueryPlan.Proofs.Filters.Folded
import QueryPlan.Proofs.Forest.Insertion
import QueryPlan.Proofs.Text.Outline
import QueryPlan.Proofs.Columns.Literal
import QueryPlan.Proofs.Columns.Order
import QueryPlan.Proofs.Valid.Preorder
import QueryPlan.Proofs.Valid.Refresh
