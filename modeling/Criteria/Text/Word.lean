/-!
# Words

Names of fields and unquoted literals are words: runs of ASCII letters, ASCII digits
and underscores.

* `isWordChar`: the characters of a word;
* `isFoldedWordChar`: the same class when letter case is ignored, which takes in
  the two letters outside ASCII whose case folding is an ASCII letter.
-/

namespace Criteria.Text

/-- The characters of a word: ASCII letters and digits and the underscore. -/
def isWordChar (c : Char) : Bool := c.isAlphanum || c == '_'

/-- The characters of a word when letter case is ignored: the long s (U+017F)
    folds to `s` and the kelvin sign (U+212A) to `k`. -/
def isFoldedWordChar (c : Char) : Bool :=
  isWordChar c || c == '\u017F' || c == '\u212A'

/-- The longest word at the start of a text. -/
def word (cs : List Char) : List Char := cs.takeWhile isWordChar

/-- What follows the longest word at the start of a text. -/
def afterWord (cs : List Char) : List Char := cs.dropWhile isWordChar

end Criteria.Text
