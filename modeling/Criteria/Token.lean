import Criteria.Connective
import Criteria.Text.Blank

/-!
# Tokens

A rule string is split at parentheses and at the letters `AND` and `OR`, wherever
these occur, also inside a word. What lies between, less its blanks at either end
and if anything is left, is the text of a condition.

* `Token.split`: the tokens of a rule string.
-/

namespace Criteria

/-- A part of a rule string. -/
inductive Token
  | opening
  | closing
  | connective (op : Connective)
  | condition (text : String)
  deriving DecidableEq

namespace Token

/-- Puts the condition of a fragment, held in reverse, before further tokens. A
    blank fragment has none. -/
def withFragment (fragment : List Char) (tokens : List Token) : List Token :=
  match Text.trim fragment.reverse with
  | [] => tokens
  | text => .condition (String.ofList text) :: tokens

/-- The tokens of a text behind an unfinished fragment, which is held in reverse. -/
def splitAfter (fragment : List Char) : List Char → List Token
  | [] => withFragment fragment []
  | '(' :: rest => withFragment fragment (.opening :: splitAfter [] rest)
  | ')' :: rest => withFragment fragment (.closing :: splitAfter [] rest)
  | 'A' :: 'N' :: 'D' :: rest =>
    withFragment fragment (.connective .and :: splitAfter [] rest)
  | 'O' :: 'R' :: rest => withFragment fragment (.connective .or :: splitAfter [] rest)
  | c :: rest => splitAfter (c :: fragment) rest

/-- The tokens of a rule string. -/
def split (s : String) : List Token := splitAfter [] s.toList

end Token

end Criteria
