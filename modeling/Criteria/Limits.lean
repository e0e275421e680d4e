import Criteria.Json.Raw

/-!
# Limits

How deep the parentheses of a rule string may nest, and how deep a tree may be.

* `Limits.read?`: reads limits from a JSON text, in which either may be missing.
-/

namespace Criteria

/-- The depth that a tree may have unless it is said otherwise. -/
def defaultTreeDepth : Nat := 100

/-- The depth of the deepest tree that a stored document is sure to hold. -/
def maxDocumentDepth : Nat := 120

/-- The limits in reading a rule string. -/
structure Limits where
  /-- How deep parentheses may nest. -/
  nesting : Nat := 32
  /-- How deep the tree may be; a single condition has depth one. -/
  depth : Nat := defaultTreeDepth
  deriving DecidableEq

namespace Limits

/-- The limit that a part stands for, or the default if it is missing: a whole
    number without a sign that fits into 64 bits. -/
def limit? (default : Nat) : Option Json.Raw → Option Nat
  | none => some default
  | some (.number n) =>
    match n.value? with
    | some (.integer i) => if 0 ≤ i then some i.toNat else none
    | _ => none
  | _ => none

/-- Reads limits from a JSON text. -/
def read? (s : String) : Option Limits := do
  let raw ← Json.Raw.read? s
  match raw.parts? (fun name => name) ["max_nesting", "max_tree_depth"] with
  | some [nesting, depth] =>
    let standard : Limits := {}
    return ⟨← limit? standard.nesting nesting, ← limit? standard.depth depth⟩
  | _ => none

end Limits

end Criteria
