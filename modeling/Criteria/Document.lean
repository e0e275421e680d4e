import Criteria.Evaluation
import Criteria.Tree.Error

/-!
# Documents

A tree is stored and exchanged as a document: nested objects with the fields
`type`, `value`, `left` and `right`. The value of an operand is its condition,
that of an operator its name.

    { "type": "operator", "value": "AND",
      "left": { "type": "operand",
                "value": { "attribute": "age", "operator": ">", "value": 30 },
                "left": null, "right": null },
      "right": … }

A document is looser than a tree: its parts need not agree, and only making a tree
of it checks that they do.

* `Document.ofTree`, `Document.toTree`: between trees and documents;
* `Document.ofShape?`: reads a document from JSON;
* `Tree.evaluateJson`: evaluates a document.
-/

namespace Criteria

/-- What a document says it is. -/
inductive Document.Kind
  | operand
  | operator
  deriving DecidableEq

/-- One level of a document and what is below it. -/
inductive Document
  | level (kind : Document.Kind) (payload : Json) (left right : Option Document)

namespace Document

/-- The name of a kind. -/
def Kind.name : Kind → String
  | operand => "operand"
  | operator => "operator"

/-- The kind with a name. -/
def Kind.ofName? : String → Option Kind
  | "operand" => some .operand
  | "operator" => some .operator
  | _ => none

/-- What the outermost level says it is. -/
def kind : Document → Kind
  | .level kind _ _ _ => kind

/-- The part to the left. -/
def left? : Document → Option Document
  | .level _ _ left _ => left

/-- The part to the right. -/
def right? : Document → Option Document
  | .level _ _ _ right => right

end Document

/-! ## Values and conditions -/

/-- The JSON value of a number or text. A number that is not finite has none. -/
def Value.toJson : Value → Except TreeError Json
  | .number x => if x.isFinite then .ok (.number (.float x)) else .error (.nonFinite x)
  | .text s => .ok (.string s)

/-- The JSON value of a condition. -/
def Condition.toJson (c : Condition) : Except TreeError Json :=
  match c.value.toJson with
  | .error e => .error e
  | .ok value => .ok <| .object
      [("attribute", .string c.field), ("operator", .string c.comparator.symbol),
        ("value", value)]

/-- The condition of a JSON value. -/
def Condition.ofJson? (json : Json) : Option Condition :=
  match json.parts? some ["attribute", "operator", "value"] with
  | some [some (.string field), some operator, some value] =>
    match (operator.choice? some 1).bind Comparator.ofSymbol?, Value.ofJson? value with
    | some comparator, some value => some ⟨field, comparator, value⟩
    | _, _ => none
  | _ => none

namespace Document

/-! ## Trees -/

/-- The document of a tree. Fails at the first number that is not finite. -/
def ofTree : Tree → Except TreeError Document
  | .leaf c =>
    match c.toJson with
    | .error e => .error e
    | .ok payload => .ok (.level .operand payload none none)
  | .join op left right =>
    match ofTree left with
    | .error e => .error e
    | .ok left =>
      match ofTree right with
      | .error e => .error e
      | .ok right => .ok (.level .operator (.string op.name) (some left) (some right))

/-- The connective of a payload. -/
def connective : Json → Except TreeError Connective
  | .string name =>
    match Connective.ofName? name with
    | some op => .ok op
    | none => .error (.unknownConnective name)
  | json => .error (.invalidDocument (.payloadNotText json.text))

/-- The tree of a document. A level is checked before its parts, and the left part
    before the right one. -/
def toTree : Document → Except TreeError Tree
  | .level .operand payload none none =>
    match Condition.ofJson? payload with
    | some c => .ok (.leaf c)
    | none => .error (.invalidDocument (.malformedOperand payload.text))
  | .level .operand _ _ _ => .error (.invalidDocument .operandWithParts)
  | .level .operator payload (some left) (some right) =>
    match connective payload with
    | .error e => .error e
    | .ok op =>
      match toTree left with
      | .error e => .error e
      | .ok left =>
        match toTree right with
        | .error e => .error e
        | .ok right => .ok (.join op left right)
  | .level .operator payload _ _ =>
    match connective payload with
    | .error e => .error e
    | .ok op => .error (.invalidDocument (.missingPart op))

/-! ## JSON -/

/-- The JSON value of a document. -/
def toJson : Document → Json
  | .level kind payload left right =>
    .object [("type", .string kind.name), ("value", payload),
      ("left", match left with
        | none => .null
        | some left => toJson left),
      ("right", match right with
        | none => .null
        | some right => toJson right)]

/-- How a document is read from one kind of JSON: the names that strings stand
    for, and the values that payloads stand for, with what nesting is left. -/
structure Source (ν σ : Type) where
  name? : σ → Option String
  payload? : Nat → Json.Shape ν σ → Option Json

variable {ν σ : Type}

/-- Reads a document from JSON that nests no deeper than `room`. -/
def ofShape? (source : Source ν σ) (room : Nat) (shape : Json.Shape ν σ) : Option Document :=
  if room = 0 then none
  else
    match _h : shape.parts? source.name? ["type", "value", "left", "right"] with
    | some [some type, some payload, left, right] =>
      match (type.choice? source.name? (room - 1)).bind Kind.ofName?,
        source.payload? (room - 1) payload,
        part? left (fun left _ => ofShape? source (room - 1) left),
        part? right (fun right _ => ofShape? source (room - 1) right) with
      | some kind, some payload, some left, some right => some (.level kind payload left right)
      | _, _, _, _ => none
    | _ => none
termination_by sizeOf shape
decreasing_by
  all_goals
    apply Json.Shape.sizeOf_parts? _h
    simp_all
where
  /-- Reads a part that may be missing or `null`. -/
  part? (shape? : Option (Json.Shape ν σ))
      (read? : (shape : Json.Shape ν σ) → shape? = some shape → Option Document) :
      Option (Option Document) :=
    match shape? with
    | none => some none
    | some .null => some none
    | some shape => (read? shape rfl).map some

/-- Reads a document from a JSON value. -/
def ofJson? (json : Json) : Option Document :=
  ofShape? ⟨some, fun _ json => some json⟩ json.nesting json

/-- Reads a document from JSON as it is written, with what nesting is left. -/
def ofRaw? (room : Nat) (raw : Json.Raw) : Option Document :=
  ofShape? ⟨id, Json.Raw.value?⟩ room raw

/-- Reads a document from a text. -/
def read? (s : String) : Option Document :=
  (Json.Raw.read? s).bind (ofRaw? Json.nestingLimit)

end Document

namespace Tree

/-- The outcome of the rule that a JSON value documents. -/
def evaluateJson (json : Json) (record : Record) : Outcome :=
  match Document.ofJson? json with
  | none => .unknown
  | some document =>
    match document.toTree with
    | .error _ => .unknown
    | .ok tree => tree.evaluate record

end Tree

end Criteria
