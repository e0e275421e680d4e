import Criteria.Json.Basic

/-!
# JSON texts of values

* `Json.text`: the text of a value without blanks;
* `Json.prettyText`: the text of a value with two blanks of indentation for each
  level of nesting.

A number that is not finite has no JSON text and is written as `null`.
-/

namespace Criteria

namespace Json

/-- Numbers in JSON: positional from `0.00001` up to and without `1e+16`, with at
    least one digit after the point. -/
def layout : Layout where
  tie := .even
  least := -5
  limit := 16
  afterWhole := ['.', '0']
  signedZero := true

/-- The text of a number. -/
def Num.chars : Num → List Char
  | .integer i => (toString i).toList
  | .float (.finite negative rank) => layout.write negative rank
  | .float _ => "null".toList

/-- A digit of base sixteen. -/
def hexDigit (n : Nat) : Char := if n < 10 then Char.ofNat (48 + n) else Char.ofNat (87 + n)

/-- A character in a JSON string. -/
def escape (c : Char) : List Char :=
  if c = '"' then ['\\', '"']
  else if c = '\\' then ['\\', '\\']
  else if c = '\n' then ['\\', 'n']
  else if c = '\r' then ['\\', 'r']
  else if c = '\t' then ['\\', 't']
  else if c = '\x08' then ['\\', 'b']
  else if c = '\x0c' then ['\\', 'f']
  else if c.toNat < 0x20 then
    ['\\', 'u', '0', '0', hexDigit (c.toNat / 16), hexDigit (c.toNat % 16)]
  else [c]

/-- A JSON string. -/
def quote (s : String) : List Char := '"' :: (s.toList.flatMap escape ++ ['"'])

mutual

/-- The characters of a value without blanks. -/
def compact : Json → List Char
  | .null => "null".toList
  | .boolean b => (if b then "true" else "false").toList
  | .number n => n.chars
  | .string s => quote s
  | .array items => '[' :: (compactItems items ++ [']'])
  | .object fields => '{' :: (compactFields fields ++ ['}'])

/-- The items of an array, between commas. -/
def compactItems : List Json → List Char
  | [] => []
  | [item] => compact item
  | item :: items => compact item ++ ',' :: compactItems items

/-- The fields of an object, between commas. -/
def compactFields : List (String × Json) → List Char
  | [] => []
  | [(key, value)] => quote key ++ ':' :: compact value
  | (key, value) :: fields => quote key ++ ':' :: compact value ++ ',' :: compactFields fields

end

/-- The text of a value without blanks. -/
def text (json : Json) : String := String.ofList (compact json)

/-- A new line at a level of nesting. -/
def newline (level : Nat) : List Char := '\n' :: List.replicate (2 * level) ' '

mutual

/-- The characters of a value with indentation, at a level of nesting. -/
def pretty (level : Nat) : Json → List Char
  | .array [] => ['[', ']']
  | .array items => '[' :: (prettyItems (level + 1) items ++ newline level ++ [']'])
  | .object [] => ['{', '}']
  | .object fields => '{' :: (prettyFields (level + 1) fields ++ newline level ++ ['}'])
  | .null => "null".toList
  | .boolean b => (if b then "true" else "false").toList
  | .number n => n.chars
  | .string s => quote s

/-- The items of an array, each on a line of its own. -/
def prettyItems (level : Nat) : List Json → List Char
  | [] => []
  | [item] => newline level ++ pretty level item
  | item :: items => newline level ++ pretty level item ++ ',' :: prettyItems level items

/-- The fields of an object, each on a line of its own. -/
def prettyFields (level : Nat) : List (String × Json) → List Char
  | [] => []
  | [(key, value)] => newline level ++ quote key ++ ':' :: ' ' :: pretty level value
  | (key, value) :: fields =>
    newline level ++ quote key ++ ':' :: ' ' :: pretty level value ++
      ',' :: prettyFields level fields

end

/-- The text of a value with indentation. -/
def prettyText (json : Json) : String := String.ofList (pretty 0 json)

end Json

end Criteria
