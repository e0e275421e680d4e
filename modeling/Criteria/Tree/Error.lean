import Criteria.Connective
import Criteria.Number.Layout

/-!
# Errors in building trees

Why trees cannot be joined, or a document cannot be written or read as a tree, and
the message for each cause.
-/

namespace Criteria

/-- Why a document is not a tree. -/
inductive DocumentFault
  /-- An operand has a left or a right part. -/
  | operandWithParts
  /-- The payload of an operand, here as JSON text, is no condition. -/
  | malformedOperand (json : String)
  /-- The payload of an operator, here as JSON text, is not a text. -/
  | payloadNotText (json : String)
  /-- An operator lacks a part. -/
  | missingPart (op : Connective)
  deriving DecidableEq

/-- The message of a fault. That of a malformed operand goes on with the reason why the payload
    is no condition, in the words of the JSON library, which are left out. -/
def DocumentFault.message : DocumentFault → String
  | operandWithParts => "operand node must not have children"
  | malformedOperand _ => "invalid operand payload"
  | payloadNotText json => "operator payload must be \"AND\" or \"OR\", got " ++ json
  | missingPart op => op.name ++ " node requires two children"

/-- Why a tree cannot be built or stored. -/
inductive TreeError
  /-- There are no trees to join. -/
  | noTrees
  /-- The number of connectives is not one less than the number of trees. -/
  | operatorCount (trees operators : Nat)
  /-- There is no connective with this name. -/
  | unknownConnective (name : String)
  /-- There is no comparator with this symbol. -/
  | unknownComparator (symbol : String)
  /-- The tree is deeper than allowed. -/
  | tooDeep (depth limit : Nat)
  /-- A number that is not finite cannot be stored. -/
  | nonFinite (x : Number)
  /-- A document is not a tree. -/
  | invalidDocument (fault : DocumentFault)
  deriving DecidableEq

namespace TreeError

/-- The message of an error. -/
def message : TreeError → String
  | noTrees => "No rules provided"
  | operatorCount trees operators =>
    "Invalid number of operators: " ++ toString operators ++ " operators for " ++
      toString trees ++ " rules"
  | unknownConnective name => "Invalid operator. Must be 'AND' or 'OR', got '" ++ name ++ "'"
  | unknownComparator symbol => "Invalid comparator: " ++ symbol
  | tooDeep depth limit =>
    "Rule tree depth " ++ toString depth ++ " exceeds maximum " ++ toString limit
  | nonFinite x => "Non-finite number cannot be stored in a rule: " ++ x.text
  | invalidDocument fault => "Invalid AST document: " ++ fault.message

end TreeError

end Criteria
