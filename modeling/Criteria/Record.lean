import Criteria.Json.Printer
import Criteria.Json.Raw
import Criteria.Table
import Criteria.Value

/-!
# Records

A rule is evaluated against a record, which holds a value for each of its fields.

* `Record.ofJson`: the record of a JSON object of numbers and strings. Of several
  other fields, the one with the least name is reported.
-/

namespace Criteria

/-- The values of named fields. -/
abbrev Record := Table Value

/-- Why a JSON value is no record. -/
inductive RecordError
  /-- It is of another kind than an object. -/
  | notObject (kind : String)
  /-- A field holds neither a number nor a string, but what is here as JSON text. -/
  | unsupportedField (field json : String)
  deriving DecidableEq

/-- The message of an error. -/
def RecordError.message : RecordError → String
  | notObject kind => "Invalid record: expected a JSON object, got " ++ kind
  | unsupportedField field json => "Unsupported value for field '" ++ field ++ "': " ++ json

/-- The number or text of a JSON value. -/
def Value.ofJson? : Json → Option Value
  | .number n => some (.number n.toNumber)
  | .string s => some (.text s)
  | _ => none

namespace Record

/-- The values of fields, unless one of them is neither a number nor a text. -/
def valuesOf : List (String × Json) → Except RecordError (List (String × Value))
  | [] => .ok []
  | (name, json) :: fields =>
    match Value.ofJson? json with
    | none => .error (.unsupportedField name json.text)
    | some value => ((name, value) :: ·) <$> valuesOf fields

/-- The record of a JSON value. -/
def ofJson : Json → Except RecordError Record
  | .object fields => Table.ofList <$> valuesOf (Json.sortFields fields)
  | json => .error (.notObject json.kind)

end Record

end Criteria
