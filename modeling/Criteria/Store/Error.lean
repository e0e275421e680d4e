/-!
# Errors of stores

Why a store cannot do what it is asked, and the message for each cause.
-/

namespace Criteria

/-- Why a store cannot do what it is asked. -/
inductive StoreError
  /-- No rule is stored under the id. -/
  | notFound (id : String)
  /-- The id cannot name a file. -/
  | invalidId (id : String)
  /-- A file or folder cannot be read or written. -/
  | inaccessible
  /-- A rule has no document, or a document no rule. -/
  | malformed
  deriving DecidableEq

/-- The message of an error. -/
def StoreError.message : StoreError → String
  | notFound id => "Rule not found: " ++ id
  | invalidId id => "Invalid rule id: " ++ id
  | inaccessible => "I/O error"
  | malformed => "Failed to process rule document"

end Criteria
