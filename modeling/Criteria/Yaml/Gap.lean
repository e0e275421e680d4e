import Criteria.Yaml.Glyph

/-!
# Gaps

Blanks and line ends between two parts of a scalar. Within a line they belong to
the text as they are. Where a line ends, the text is folded: a single line feed
counts as a blank, of several all but the first count, and the blanks around them
do not.

* `Gap.text`: the characters that a gap stands for.
-/

namespace Criteria

namespace Yaml

/-- What lies between two parts of a scalar, with its characters in reverse. -/
inductive Gap
  /-- Blanks within a line. -/
  | blanks (text : List Char)
  /-- Line ends: the first, unless it is escaped, and further ones. -/
  | breaks (first : Option Char) (more : List Char)

namespace Gap

/-- The gap between two parts that are not apart. -/
def empty : Gap := .blanks []

/-- Whether the parts are not apart. -/
def isEmpty : Gap → Bool
  | .blanks [] => true
  | _ => false

/-- Whether a line ends in the gap. -/
def hasBreak : Gap → Bool
  | .blanks _ => false
  | .breaks _ _ => true

/-- Adds a blank or a line end. -/
def add (c : Char) : Gap → Gap
  | .blanks text => if isBreak c then .breaks (some c) [] else .blanks (c :: text)
  | .breaks first more => if isBreak c then .breaks first (c :: more) else .breaks first more

/-- The characters that a gap stands for, in reverse. -/
def text : Gap → List Char
  | .blanks text => text
  | .breaks none more => more
  | .breaks (some first) more =>
    if first = '\n' then if more = [] then [' '] else more else more ++ [first]

end Gap

end Yaml

end Criteria
