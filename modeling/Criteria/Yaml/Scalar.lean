import Criteria.Yaml.Node

/-!
# What scalars stand for

A plain scalar may stand for something other than its text: nothing, a truth value or
a number. A tag may ask for one of these, or for the text.

* `Node.boolean?`, `Node.natural?`, `Node.text?`: what a scalar stands for;
* `Node.isValue`: whether all that a node holds stands for a value.
-/

namespace Criteria

namespace Yaml

/-! ## Texts -/

/-- Whether a text stands for nothing. -/
def isNull (s : String) : Bool := s == "~" || s == "null" || s == "Null" || s == "NULL"

/-- The truth value that a text stands for. -/
def booleanOf? (s : String) : Option Bool :=
  if s = "true" ∨ s = "True" ∨ s = "TRUE" then some true
  else if s = "false" ∨ s = "False" ∨ s = "FALSE" then some false
  else none

/-- The whole number that digits stand for. -/
def digitsOf? (base : Nat) (cs : List Char) : Option Nat :=
  if cs = [] then none
  else (cs.mapM (Number.digitValue? base)).map (·.foldl (fun n digit => base * n + digit) 0)

/-- The whole number that a text without a sign stands for: in decimal without leading
    zeros, or behind `0x`, `0o` or `0b`. -/
def unsignedOf? : List Char → Option Nat
  | '0' :: 'x' :: rest => digitsOf? 16 rest
  | '0' :: 'o' :: rest => digitsOf? 8 rest
  | '0' :: 'b' :: rest => digitsOf? 2 rest
  | '0' :: _ :: _ => none
  | cs => digitsOf? 10 cs

/-- A text without a plus sign at its start. -/
def withoutPlus : List Char → List Char
  | '+' :: rest => rest
  | cs => cs

/-- The whole number of any size that a text stands for. -/
def wholeOf? (cs : List Char) : Option Nat := unsignedOf? (withoutPlus cs)

/-- The size of the number that a text with a minus sign stands for. -/
def negativeOf? : List Char → Option Nat
  | '-' :: rest => unsignedOf? rest
  | _ => none

/-- Whether a text is made of digits with a leading zero, and so no number. -/
def hasLeadingZero (cs : List Char) : Bool :=
  match (Number.takeSign cs).2 with
  | '0' :: c :: rest => (c :: rest).all Char.isDigit
  | _ => false

/-- Whether a text stands for a number in decimal, for an infinity or for
    not-a-number. -/
def isReal (s : String) : Bool :=
  (Number.readDecimal? s.toList).any Number.isFinite ||
    [".inf", ".Inf", ".INF"].any (fun word => (Number.takeSign s.toList).2 == word.toList) ||
    [".nan", ".NaN", ".NAN"].contains s

/-! ## Meanings -/

/-- What a scalar stands for. -/
inductive Meaning
  | null
  | boolean (b : Bool)
  /-- A whole number of 64 bits. -/
  | natural (n : Nat)
  /-- An integer with a minus sign of 64 bits. -/
  | negative
  /-- An integer that only fits into 128 bits. -/
  | wide
  /-- Any other number. -/
  | real
  | text
  deriving DecidableEq

namespace Meaning

/-- The integer that a text stands for. -/
def integer? (s : String) : Option Meaning :=
  match wholeOf? s.toList, negativeOf? s.toList with
  | some n, _ =>
    if n < Number.wholeLimit then some (.natural n)
    else if n < 0x100000000000000000000000000000000 then some .wide
    else none
  | none, some n =>
    if n ≤ 0x8000000000000000 then some .negative
    else if n ≤ 0x80000000000000000000000000000000 then some .wide
    else none
  | none, none => none

/-- What a plain scalar stands for. -/
def ofPlain (s : String) : Meaning :=
  if s = "" ∨ isNull s then .null
  else
    match booleanOf? s, integer? s with
    | some b, _ => .boolean b
    | none, some meaning => meaning
    | none, none => if isReal s ∧ !hasLeadingZero s.toList then .real else .text

/-- What a text stands for by its tag. A tag that is no type of YAML's own has no
    meaning here. -/
def ofTagged? (tag : String) (s : String) : Option Meaning :=
  if tag = coreTag ++ "null" then if isNull s then some .null else none
  else if tag = coreTag ++ "bool" then (booleanOf? s).map .boolean
  else if tag = coreTag ++ "int" then integer? s
  else if tag = coreTag ++ "float" then if isReal s then some .real else none
  else if tag.startsWith "!" then none
  else some .text

/-- What a scalar stands for, if it fits its tag. -/
def of? : Option String → Style → String → Option Meaning
  | some tag, _, s => ofTagged? tag s
  | none, .plain, s => some (ofPlain s)
  | none, _, _ => some .text

end Meaning

/-! ## Nodes -/

namespace Node

/-- The text of a scalar from which a value of a type is read where that type is wanted:
    one without quotes, or lines behind a bar with the tag of the type. -/
def typed? (type : String) : Node → Option String
  | .scalar _ .plain s => some s
  | .scalar tag .literal s => if tag = some (coreTag ++ type) then some s else none
  | _ => none

/-- The truth value that a scalar stands for. -/
def boolean? (node : Node) : Option Bool := (node.typed? "bool").bind booleanOf?

/-- The whole number of 64 bits that a scalar stands for. -/
def natural? (node : Node) : Option Nat :=
  ((node.typed? "int").bind fun s => wholeOf? s.toList).filter (· < Number.wholeLimit)

/-- What a node stands for, if it is a scalar that fits its tag. -/
def meaning? : Node → Option Meaning
  | .scalar tag style s => Meaning.of? tag style s
  | _ => none

/-- The text that a scalar stands for. -/
def text? (node : Node) : Option String :=
  if node.meaning? = some .text then node.scalarText? else none

/-- Whether a collection has a tag that is no type of YAML's own. -/
def hasOwnType (tag : Option String) : Bool := tag.any fun tag => tag.startsWith "!"

mutual

/-- Whether all that a node holds stands for a value, with integers of no more than 64
    bits, and nests no deeper than `room`. -/
def isValue (room : Nat) : Node → Bool
  | .scalar tag style s =>
    match Meaning.of? tag style s with
    | none | some .wide => false
    | _ => true
  | .sequence tag items => !hasOwnType tag && room != 0 && areValues (room - 1) items
  | .mapping tag fields => !hasOwnType tag && room != 0 && areFields (room - 1) fields
  | .cycle => false

/-- Whether all items stand for values. -/
def areValues (room : Nat) : List Node → Bool
  | [] => true
  | item :: items => isValue room item && areValues room items

/-- Whether all keys and values of fields stand for values. -/
def areFields (room : Nat) : List (Node × Node) → Bool
  | [] => true
  | (key, value) :: fields => isValue room key && isValue room value && areFields room fields

end

end Node

end Yaml

end Criteria
