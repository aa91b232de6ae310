import QueryPlan.Rule.Catalogue

/-!
# Settings

What a caller can configure: which rules run, given by name, and whether plans are validated and
runs traced.
-/

namespace QueryPlan

/-- The settings of an optimizer. -/
structure Optimizer.Settings where
  /-- The names of the rules that run. -/
  rules : List String := Rule.all.map Rule.name
  /-- Whether plans are validated before and after a run. -/
  validate : Bool := true
  /-- Whether a run leaves a trace. -/
  trace : Bool := false
deriving DecidableEq, Inhabited

namespace Optimizer.Settings

/-- The settings that hold where nothing else is said: all rules run, on validated plans. -/
def standard : Optimizer.Settings where

end Optimizer.Settings

/-- A configuration. -/
structure Config where
  optimizer : Optimizer.Settings := .standard
deriving DecidableEq, Inhabited

namespace Config

/-- The configuration that holds where nothing else is said. -/
def standard : Config where

end Config

end QueryPlan
