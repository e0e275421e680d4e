import Criteria.Number.Layout
import Criteria.Number.Numeral

/-!
# Values

A rule compares a field of a record with a literal; both are values, a number or
a text.

* `Value.ofLiteral`: a literal is a number if it reads as one, else a text;
* `Value.toNumber`: a value seen as a number, for the order between a number and
  a text;
* `Value.text`: the text of a value in messages.
-/

namespace Criteria

/-- A field of a record, or the literal that it is compared with. -/
inductive Value
  | number (x : Number)
  | text (s : String)
  deriving DecidableEq

namespace Value

/-- A literal of a rule, without its quotes: a number if it reads as one. -/
def ofLiteral (s : String) : Value :=
  match Number.read? s with
  | some x => .number x
  | none => .text s

/-- The value seen as a number; a text that does not read as one is not a number. -/
def toNumber : Value → Number
  | .number x => x
  | .text s => (Number.read? s).getD .nan

/-- Whether the value is a text or a finite number. -/
def isFinite : Value → Bool
  | .number x => x.isFinite
  | .text _ => true

/-- The value in messages: a text stands for itself. -/
def display : Value → String
  | .number x => x.text
  | .text s => s

/-- Numbers are equal as numbers, and no number is equal to a text. -/
def equal : Value → Value → Bool
  | .number x, .number y => x == y
  | .text s, .text t => s == t
  | _, _ => false

instance : BEq Value := ⟨equal⟩

end Value

end Criteria
