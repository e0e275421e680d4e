/-!
# Comparators

The three comparisons of a condition, written `>`, `<` and `=`.
-/

namespace Criteria

/-- How a field is compared with a literal. -/
inductive Comparator
  | greater
  | less
  | equal
  deriving DecidableEq

namespace Comparator

/-- The comparator that a character stands for. -/
def ofChar? : Char → Option Comparator
  | '>' => some .greater
  | '<' => some .less
  | '=' => some .equal
  | _ => none

/-- The character of a comparator. -/
def char : Comparator → Char
  | .greater => '>'
  | .less => '<'
  | .equal => '='

/-- The comparator in rules and messages. -/
def symbol : Comparator → String
  | .greater => ">"
  | .less => "<"
  | .equal => "="

/-- The comparator with a symbol. -/
def ofSymbol? : String → Option Comparator
  | ">" => some .greater
  | "<" => some .less
  | "=" => some .equal
  | _ => none

theorem ofSymbol?_symbol (c : Comparator) : ofSymbol? c.symbol = some c := by
  cases c <;> rfl

theorem ofChar?_char (c : Comparator) : ofChar? c.char = some c := by
  cases c <;> rfl

end Comparator

end Criteria
