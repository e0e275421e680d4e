import Criteria.Record
import Criteria.Rule.ReadError
import Criteria.Settings.Basic
import Criteria.Store.Error
import Criteria.Tree.Error

/-!
# Errors of an engine

Why an engine cannot do what it is asked: most causes are those of its parts, whose
messages it introduces.
-/

namespace Criteria

/-- Why an engine cannot do what it is asked. -/
inductive EngineError
  | settings (cause : SettingsError)
  /-- The settings stand in a file that cannot be read. -/
  | noSettings
  /-- A rule string does not pass the pre-check. -/
  | rejected (text : String)
  | read (cause : ReadError)
  | tree (cause : TreeError)
  | record (cause : RecordError)
  | store (cause : StoreError)
  deriving DecidableEq

/-- The message of an error. -/
def EngineError.message : EngineError → String
  | settings cause => "Configuration error: " ++ cause.message
  | noSettings => "I/O error"
  | rejected text => "Invalid Rule String Format: " ++ text
  | read cause => "Parser error: " ++ cause.message
  | tree cause => "Rule error: " ++ cause.message
  | record cause => "Runtime error: " ++ cause.message
  | store cause => "Repository error: " ++ cause.message

end Criteria
