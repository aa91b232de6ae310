import QueryPlan.Json.Codec
import QueryPlan.Optimizer.Settings

/-!
# Configurations as JSON

In a configuration document every field may be left out and then takes its standard value.
-/

namespace QueryPlan

open Json (Codec)

namespace Optimizer.Settings

/-- The fields of the optimizer's settings. -/
def jsonFields : List Json.Field :=
  [⟨"rules", .anywhere⟩, ⟨"validate", .anywhere⟩, ⟨"trace", .anywhere⟩]

instance : Codec Optimizer.Settings where
  encode s :=
    .record [("rules", Codec.encode s.rules), ("validate", Codec.encode s.validate),
      ("trace", Codec.encode s.trace)]
  decode?
    | room + 1, j => do
      match ← Json.fields? jsonFields j with
      | [rules, validate, trace] =>
        return {
          rules := ← (rules.map (Codec.decode? room)).getD (some standard.rules)
          validate := ← (validate.map (Codec.decode? room)).getD (some standard.validate)
          trace := ← (trace.map (Codec.decode? room)).getD (some standard.trace) }
      | _ => none
    | _, _ => none

end Optimizer.Settings

namespace Config

/-- The fields of a configuration. -/
def jsonFields : List Json.Field :=
  [⟨"optimizer", .anywhere⟩]

instance : Codec Config where
  encode c := .record [("optimizer", Codec.encode c.optimizer)]
  decode?
    | room + 1, j => do
      match ← Json.fields? jsonFields j with
      | [optimizer] =>
        return ⟨← (optimizer.map (Codec.decode? room)).getD (some standard.optimizer)⟩
      | _ => none
    | _, _ => none

/-- Reads a configuration document. -/
def ofText (s : String) : Except Error Config :=
  Codec.read s

/-- Reads a configuration file from its bytes; there are none if the file does not exist. -/
def ofFile (bytes : Option ByteArray) : Except Error Config :=
  match bytes.bind String.fromUTF8? with
  | some s => ofText s
  | none => .error .unreadableFile

/-- A configuration as a document with one item a line. -/
def toText (c : Config) : String :=
  (Codec.encode c).write .spacious

end Config

end QueryPlan
