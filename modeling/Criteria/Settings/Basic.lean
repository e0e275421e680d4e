import Criteria.Limits

/-!
# Settings

What a rule engine is set to: whether rule strings go through the pre-check, the
limits in reading them, and where rules are stored.

* `Settings.check`: whether an engine can work with the settings.
-/

namespace Criteria

/-- Where an engine stores rules. -/
inductive Storage
  | memory
  | directory (path : String)
  deriving DecidableEq

/-- What an engine is set to. -/
structure Settings where
  precheck : Bool := true
  limits : Limits := {}
  storage : Storage := .memory
  deriving DecidableEq

/-- Why an engine cannot work with settings. -/
inductive SettingsError
  /-- The text of the settings cannot be read. -/
  | unreadable
  /-- Trees may be deeper than a stored document can hold. -/
  | depthTooLarge (depth : Nat)
  /-- No tree may have any depth. -/
  | depthZero
  deriving DecidableEq

/-- The message of an error. -/
def SettingsError.message : SettingsError → String
  | unreadable => "Failed to parse config"
  | depthTooLarge depth =>
    "parser.max_tree_depth " ++ toString depth ++ " exceeds the storable maximum " ++
      toString maxDocumentDepth
  | depthZero => "parser.max_tree_depth must be at least 1"

/-- Whether an engine can work with the settings: trees have to be storable. -/
def Settings.check (settings : Settings) : Except SettingsError Unit :=
  if maxDocumentDepth < settings.limits.depth then .error (.depthTooLarge settings.limits.depth)
  else if settings.limits.depth = 0 then .error .depthZero
  else .ok ()

end Criteria
