import QueryPlan.Plan.Basic

/-!
# Errors

The errors reported to callers of the library, by cause.  Each has a kind and a message that starts
with it.
-/

namespace QueryPlan

/-- An error reported to the caller. -/
inductive Error where
  /-- A malformed literal or constant. -/
  | value (detail : String)
  /-- A plan that breaks a rule of validation. -/
  | invalidPlan (detail : String)
  /-- A name that no rule has. -/
  | unknownRule (name : String)
  /-- A parameter out of range. -/
  | invalidParameter (detail : String)
  /-- A result that should have been impossible. -/
  | internal (detail : String)
  /-- A document that is no JSON text or does not have the expected shape. -/
  | malformedDocument
  /-- A file that does not exist or does not hold text. -/
  | unreadableFile
  /-- An operation on a plan that could not go on. -/
  | fault (cause : Plan.Fault)
deriving DecidableEq

namespace Error

/-- The kind of an error, with which its message starts. -/
def kind : Error → String
  | .value _ => "ValueError"
  | .invalidPlan _ => "InvalidPlan"
  | .unknownRule _ => "UnknownRule"
  | .invalidParameter _ => "InvalidParameter"
  | .internal _ => "InternalError"
  | .malformedDocument => "MalformedDocument"
  | .unreadableFile => "UnreadableFile"
  | .fault _ => "Fault"

/-- What an error says beside its kind. -/
def detail : Error → String
  | .value detail | .invalidPlan detail | .invalidParameter detail | .internal detail => detail
  | .unknownRule name => name
  | .malformedDocument => "the document does not have the expected shape"
  | .unreadableFile => "the file cannot be read as text"
  | .fault cause => cause.message

/-- The message of an error. -/
def message (e : Error) : String :=
  e.kind ++ ": " ++ e.detail

/-- The error of a refused column literal. -/
def ofLiteral (e : Column.LiteralError) : Error :=
  .value e.message

/-- Succeeds if the condition holds, and reports the given error otherwise. -/
def ensure (condition : Bool) (otherwise : Error) : Except Error Unit :=
  if condition then .ok () else .error otherwise

end Error

end QueryPlan
