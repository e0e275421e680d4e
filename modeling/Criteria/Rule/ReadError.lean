import Criteria.Connective

/-!
# Errors in rule strings

Why a rule string does not read as a tree, and the message for each cause.
-/

namespace Criteria

/-- Why a rule string does not read as a tree. -/
inductive ReadError
  /-- A fragment holds no condition with a finite literal. -/
  | malformedCondition (fragment : String)
  /-- After all connectives are applied, the number of trees is not one. -/
  | leftover (roots : Nat)
  /-- A connective has fewer than two trees to join. -/
  | missingOperand (op : Connective)
  /-- The token at `position` closes a parenthesis that is not open. -/
  | unmatchedClosing (position : Nat)
  /-- A parenthesis is never closed. -/
  | unclosedOpening
  /-- Parentheses nest deeper than allowed. -/
  | nestingTooDeep (depth limit : Nat)
  /-- The tree is deeper than allowed. -/
  | treeTooDeep (depth limit : Nat)
  deriving DecidableEq

namespace ReadError

/-- The message of an error. -/
def message : ReadError → String
  | malformedCondition fragment => "Invalid operand format: " ++ fragment
  | leftover roots =>
    "Failed to create AST from rule string: " ++ toString roots ++ " root nodes remained"
  | missingOperand op =>
    "Failed to create AST from rule string: missing operand for " ++ op.name
  | unmatchedClosing position => "Unmatched ')' at token " ++ toString position
  | unclosedOpening => "Unclosed '(' in rule string"
  | nestingTooDeep depth limit =>
    "Parenthesis nesting depth " ++ toString depth ++ " exceeds maximum " ++ toString limit
  | treeTooDeep depth limit =>
    "Rule tree depth " ++ toString depth ++ " exceeds maximum " ++ toString limit

/-- Whether the cause is the order of the tokens, not a single condition. -/
def isStructural : ReadError → Bool
  | malformedCondition _ => false
  | _ => true

end ReadError

end Criteria
