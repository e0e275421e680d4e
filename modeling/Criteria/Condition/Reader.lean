import Criteria.Condition.Basic
import Criteria.Rule.ReadError
import Criteria.Text.Word

/-!
# Reading conditions

A condition is looked for anywhere in a fragment of a rule: a word, a comparator
and a literal, with blanks between them as desired. The literal is a word, or a
text between two quotes, which may be of either kind. The leftmost condition
counts, and what surrounds it is passed over.

* `Condition.startOf?`: the condition that starts a text;
* `Condition.find?`: the leftmost condition in a text;
* `Condition.read`: the condition of a fragment, with its literal valued.
-/

namespace Criteria

namespace Condition

/-- The quotes that may enclose a literal. -/
def isQuote (c : Char) : Bool := c == '\'' || c == '"'

/-- The literal that starts a text, without its quotes. -/
def literalOf? (cs : List Char) : Option (List Char) :=
  match cs with
  | [] => none
  | c :: rest =>
    if isQuote c then
      let inside := rest.takeWhile (!isQuote ·)
      if inside = [] ∨ rest.dropWhile (!isQuote ·) = [] then none else some inside
    else if Text.word cs = [] then none
    else some (Text.word cs)

/-- A condition as it is written: field, comparator and unquoted literal. -/
structure Written where
  field : List Char
  comparator : Comparator
  literal : List Char
  deriving DecidableEq

/-- The condition that starts a text. -/
def startOf? (cs : List Char) : Option Written :=
  if Text.word cs = [] then none
  else match Text.trimStart (Text.afterWord cs) with
    | [] => none
    | c :: rest =>
      match Comparator.ofChar? c, literalOf? (Text.trimStart rest) with
      | some comparator, some literal => some ⟨Text.word cs, comparator, literal⟩
      | _, _ => none

/-- The leftmost condition in a text. -/
def find? : List Char → Option Written
  | [] => none
  | c :: rest =>
    match startOf? (c :: rest) with
    | some written => some written
    | none => find? rest

/-- The condition of a fragment. A literal that reads as an infinite number is
    refused. -/
def read (fragment : String) : Except ReadError Condition :=
  match find? fragment.toList with
  | none => .error (.malformedCondition fragment)
  | some written =>
    let value := Value.ofLiteral (String.ofList written.literal)
    if value.isFinite then .ok ⟨String.ofList written.field, written.comparator, value⟩
    else .error (.malformedCondition fragment)

end Condition

end Criteria
