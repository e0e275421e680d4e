import Criteria.Yaml.Lexeme

/-!
# YAML nodes

What a document consists of: scalars, sequences, and mappings whose keys may be any
nodes. A tag may tell the type of a node.

* `Yaml.Node`: what is written.
-/

namespace Criteria

namespace Yaml

/-- A scalar as it is written, or a collection with its items or fields in order. -/
inductive Node
  | scalar (tag : Option String) (style : Style) (text : String)
  | sequence (tag : Option String) (items : List Node)
  | mapping (tag : Option String) (fields : List (Node × Node))
  /-- An alias inside the node that it stands for. -/
  | cycle

namespace Node

/-- The node that stands where none is written. -/
def missing : Node := .scalar none .plain ""

/-- The text of a scalar, however it is written. -/
def scalarText? : Node → Option String
  | .scalar _ _ text => some text
  | _ => none

end Node

end Yaml

end Criteria
