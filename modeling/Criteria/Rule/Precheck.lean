import Criteria.Text.Blank
import Criteria.Text.Word

/-!
# The pre-check

A quick look at a rule string before it is read. It passes if somewhere a word is
followed by a connective or a comparator and another word, letter case aside, and
if the parentheses are balanced. It neither implies that the string reads as a
tree nor follows from it.

* `Precheck.passes`: the pre-check.
-/

namespace Criteria

namespace Precheck

/-- Whether the parentheses of a text are balanced behind a number of open ones. -/
def balancedAfter (opened : Nat) : List Char → Bool
  | [] => opened == 0
  | '(' :: rest => balancedAfter (opened + 1) rest
  | ')' :: rest =>
    match opened with
    | 0 => false
    | opened + 1 => balancedAfter opened rest
  | _ :: rest => balancedAfter opened rest

/-- Whether the parentheses of a text are balanced. -/
def balanced (cs : List Char) : Bool := balancedAfter 0 cs

/-- What follows the connective or comparator that starts a text. -/
def afterOperator? : List Char → Option (List Char)
  | [] => none
  | c :: rest =>
    if c = '>' ∨ c = '<' ∨ c = '=' then some rest
    -- No letter outside ASCII folds to one of these.
    else match c.toLower, rest with
      | 'a', n :: d :: rest => if n.toLower = 'n' ∧ d.toLower = 'd' then some rest else none
      | 'o', r :: rest => if r.toLower = 'r' then some rest else none
      | _, _ => none

/-- Whether a text starts with a word, which one quote may precede. -/
def startsOperand : List Char → Bool
  | [] => false
  | c :: rest =>
    Text.isFoldedWordChar c ||
      ((c == '\'' || c == '"') && match rest with
        | [] => false
        | d :: _ => Text.isFoldedWordChar d)

/-- Whether a text starts with the last character of a word, an operator and
    another word. -/
def startsComparison : List Char → Bool
  | [] => false
  | c :: rest =>
    Text.isFoldedWordChar c && match afterOperator? (Text.trimStart rest) with
      | none => false
      | some rest => startsOperand (Text.trimStart rest)

/-- Whether a word, an operator and another word follow each other somewhere. -/
def comparesSomewhere : List Char → Bool
  | [] => false
  | c :: rest => startsComparison (c :: rest) || comparesSomewhere rest

/-- The pre-check of a rule string. -/
def passes (s : String) : Bool := comparesSomewhere s.toList && balanced s.toList

end Precheck

end Criteria
