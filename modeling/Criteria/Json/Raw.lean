import Criteria.Json.Basic
import Criteria.Json.Token
import Criteria.Number.Scaling

/-!
# JSON as it is written

A JSON text is first read as it is written: fields keep their order and may occur
twice, and a number or string in a place that nobody looks at may have no value.
A value is only then made of it, or of the parts of it that are wanted.

* `Json.Raw.read?`: reads a text, with the arrays and objects that are still open
  on a stack;
* `Json.Raw.value?`: the value of what is written, if it nests no deeper than
  allowed, its numbers are in range and its strings hold whole characters. The
  fields of an object are sorted by name, and the last with a name counts.
-/

namespace Criteria

namespace Json

/-- JSON as it is written. -/
abbrev Raw := Shape Numeral (Option String)

/-- How deep arrays and objects may nest in a text. -/
def nestingLimit : Nat := 127

namespace Raw

/-! ## Reading tokens -/

/-- An array or object that is still open, with its items or fields so far in
    reverse. In an object, the value of `key` is being read. -/
inductive Open
  | array (items : List Raw)
  | object (fields : List (Option String × Raw)) (key : Option String)

/-- What has been read, inside the open arrays and objects `outer`, of which the
    first is the innermost. -/
inductive State
  /-- A value is due. -/
  | value (outer : List Open)
  /-- An array has just been opened: a value or its end is due. -/
  | arrayStart (outer : List Open)
  /-- An object has just been opened: a key or its end is due. -/
  | objectStart (outer : List Open)
  /-- A key of an object is due. -/
  | key (fields : List (Option String × Raw)) (outer : List Open)
  /-- The colon behind a key is due. -/
  | colon (fields : List (Option String × Raw)) (key : Option String) (outer : List Open)
  /-- A value is complete. -/
  | complete (value : Raw) (outer : List Open)

/-- The state after a token that starts a value. -/
def startValue? (outer : List Open) : Token → Option State
  | .null => some (.complete .null outer)
  | .boolean b => some (.complete (.boolean b) outer)
  | .number n => some (.complete (.number n) outer)
  | .string s => some (.complete (.string s) outer)
  | .openBracket => some (.arrayStart outer)
  | .openBrace => some (.objectStart outer)
  | _ => none

/-- The state after a token, unless the token cannot come here. -/
def State.next? : State → Token → Option State
  | .value outer, token => startValue? outer token
  | .arrayStart outer, .closeBracket => some (.complete (.array []) outer)
  | .arrayStart outer, token => startValue? (.array [] :: outer) token
  | .objectStart outer, .closeBrace => some (.complete (.object []) outer)
  | .objectStart outer, .string s => some (.colon [] s outer)
  | .key fields outer, .string s => some (.colon fields s outer)
  | .colon fields name outer, .colon => some (.value (.object fields name :: outer))
  | .complete raw (.array items :: outer), .comma =>
    some (.value (.array (raw :: items) :: outer))
  | .complete raw (.array items :: outer), .closeBracket =>
    some (.complete (.array (raw :: items).reverse) outer)
  | .complete raw (.object fields name :: outer), .comma =>
    some (.key ((name, raw) :: fields) outer)
  | .complete raw (.object fields name :: outer), .closeBrace =>
    some (.complete (.object ((name, raw) :: fields).reverse) outer)
  | _, _ => none

/-- The value of a state in which all is complete. -/
def State.result? : State → Option Raw
  | .complete raw [] => some raw
  | _ => none

/-- What a list of tokens says behind a state. -/
def run? (state : State) : List Token → Option Raw
  | [] => state.result?
  | token :: tokens =>
    match state.next? token with
    | none => none
    | some state => run? state tokens

/-- Reads a text as it is written. -/
def read? (s : String) : Option Raw :=
  (Token.split? s.toList).bind (run? (.value []))

end Raw

/-! ## Values -/

/-- The value of a number: an integer where it is one and fits into 64 bits, else what its
    digits are scaled to, which has to be finite. Zero with a sign is no integer. -/
def Numeral.value? (n : Numeral) : Option Num :=
  if n.whole ∧ !n.negative then some (.integer n.coefficient)
  else if n.whole ∧ 0 < n.coefficient ∧ n.coefficient ≤ 0x8000000000000000 then
    some (.integer (-n.coefficient))
  else
    let x := Number.ofScaled n.negative n.coefficient n.exponent
    if x.isFinite then some (.float x) else none

/-- Puts a field among fields that are sorted by name, in place of one with the
    same name. -/
def insertField (name : String) (value : Json) : List (String × Json) → List (String × Json)
  | [] => [(name, value)]
  | field :: fields =>
    if name < field.1 then (name, value) :: field :: fields
    else if name = field.1 then (name, value) :: fields
    else field :: insertField name value fields

/-- Fields sorted by name, of which the last with a name counts. -/
def sortFields (fields : List (String × Json)) : List (String × Json) :=
  fields.foldl (fun sorted field => insertField field.1 field.2 sorted) []

namespace Raw

mutual

/-- The value of what is written, if it nests no deeper than `room`. -/
def value? (room : Nat) : Raw → Option Json
  | .null => some .null
  | .boolean b => some (.boolean b)
  | .number n => n.value?.map .number
  | .string s => s.map .string
  | .array items =>
    if room = 0 then none else (itemValues? (room - 1) items).map .array
  | .object fields =>
    if room = 0 then none
    else (fieldValues? (room - 1) fields).map fun fields => .object (sortFields fields)

/-- The values of items. -/
def itemValues? (room : Nat) : List Raw → Option (List Json)
  | [] => some []
  | item :: items =>
    match value? room item, itemValues? room items with
    | some item, some items => some (item :: items)
    | _, _ => none

/-- The values of fields. -/
def fieldValues? (room : Nat) :
    List (Option String × Raw) → Option (List (String × Json))
  | [] => some []
  | (key, value) :: fields =>
    match key, value? room value, fieldValues? room fields with
    | some name, some value, some fields => some ((name, value) :: fields)
    | _, _, _ => none

end

end Raw

/-- The value of a text. -/
def read? (s : String) : Option Json := (Raw.read? s).bind (Raw.value? nestingLimit)

end Json

end Criteria
