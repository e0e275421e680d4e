/-!
# Characters in their places

In YAML it matters in which column a character stands: indentation tells the parts
of a text apart. A text is therefore read as characters that know their places.

* `Yaml.glyphs?`: the characters of a text with their places, if all of them may
  occur in one.
-/

namespace Criteria

namespace Yaml

/-! ## Classes of characters -/

/-- The blanks within a line. -/
def isBlank (c : Char) : Bool := c == ' ' || c == '\t'

/-- The characters that end a line: a line feed, and the separators of lines and of
    paragraphs. -/
def isBreak (c : Char) : Bool := c == '\n' || c == '\u2028' || c == '\u2029'

/-- The byte order mark, which may start a line. -/
def isByteOrderMark (c : Char) : Bool := c == '\ufeff'

/-- The characters of names: ASCII letters and digits, dashes and underscores. -/
def isNameChar (c : Char) : Bool := c.isAlphanum || c == '-' || c == '_'

/-- The characters that part the items of a flow collection. -/
def isFlowIndicator (c : Char) : Bool :=
  c == ',' || c == '[' || c == ']' || c == '{' || c == '}'

/-- The characters that may occur in a text: of the control characters only the tab
    and those that end a line. -/
def isAllowed (c : Char) : Bool :=
  let n := c.toNat
  n == 0x09 || n == 0x0A || n == 0x0D || n == 0x85 || (0x20 ≤ n && n ≤ 0x7E) ||
    (0xA0 ≤ n && n ≤ 0xFFFD) || 0x10000 ≤ n

/-! ## Places -/

/-- A character with its line and column, both counted from zero. -/
structure Glyph where
  char : Char
  line : Nat
  column : Nat
  deriving DecidableEq

/-- Puts the characters of a text in their places, from a given place on. A carriage
    return, with or without a line feed, and the control character for the next line
    end a line just as a line feed does. -/
def place (line column : Nat) : List Char → List Glyph
  | [] => []
  | '\r' :: '\n' :: rest => ⟨'\n', line, column⟩ :: place (line + 1) 0 rest
  | c :: rest =>
    if c = '\r' ∨ c = '\u0085' then ⟨'\n', line, column⟩ :: place (line + 1) 0 rest
    else if isBreak c then ⟨c, line, column⟩ :: place (line + 1) 0 rest
    else ⟨c, line, column⟩ :: place line (column + 1) rest

/-- The characters of a text in their places. -/
def glyphs? (s : String) : Option (List Glyph) :=
  if s.toList.all isAllowed then some (place 0 0 s.toList) else none

/-! ## What follows -/

/-- Whether a word ends here: a blank, the end of a line or the end of the text
    follows. -/
def endsWord : List Glyph → Bool
  | [] => true
  | g :: _ => isBlank g.char || isBreak g.char

/-- Whether a line starts with three times a given character and then a word ends. -/
def startsMark (c : Char) : List Glyph → Bool
  | a :: b :: d :: rest =>
    a.column == 0 && a.char == c && b.char == c && d.char == c && endsWord rest
  | _ => false

/-- Whether a line starts with a mark that starts or ends a document. -/
def startsDocumentMark (text : List Glyph) : Bool := startsMark '-' text || startsMark '.' text

/-- What follows the name that starts a text. -/
def afterName (text : List Glyph) : List Glyph := text.dropWhile fun g => isNameChar g.char

/-- The name that starts a text. -/
def nameOf (text : List Glyph) : List Char :=
  (text.takeWhile fun g => isNameChar g.char).map Glyph.char

/-- What follows the blanks that start a text. -/
def afterBlanks (text : List Glyph) : List Glyph := text.dropWhile fun g => isBlank g.char

/-- What follows the current line: its end, unless the text ends with it. -/
def afterLine (text : List Glyph) : List Glyph := text.dropWhile fun g => !isBreak g.char

theorem length_afterName (text : List Glyph) : (afterName text).length ≤ text.length :=
  (List.dropWhile_suffix _).length_le

theorem length_afterBlanks (text : List Glyph) : (afterBlanks text).length ≤ text.length :=
  (List.dropWhile_suffix _).length_le

theorem length_afterLine (text : List Glyph) : (afterLine text).length ≤ text.length :=
  (List.dropWhile_suffix _).length_le

end Yaml

end Criteria
