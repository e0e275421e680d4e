import Criteria.Yaml.Glyph

/-!
# Indented scalars

Behind a bar or an angle, a scalar follows on lines of its own, all indented alike.
Its header may say by how much, and what becomes of the line ends behind its last
line. Behind a bar the lines stay as they are; behind an angle they are folded,
unless they start with a blank.

* `Yaml.takeIndented?`: the rest of an indented scalar behind its bar or angle, and
  what follows it.
-/

namespace Criteria

namespace Yaml

/-! ## Headers -/

/-- What becomes of the line ends behind the last line of an indented scalar. -/
inductive Chomping
  /-- None is kept. -/
  | strip
  /-- The first is kept. -/
  | clip
  /-- All are kept. -/
  | keep
  deriving DecidableEq

/-- What the header of an indented scalar says. -/
structure Header where
  chomping : Chomping := .clip
  /-- By how much the lines are indented, if the header says it. -/
  indent : Option Nat := none

/-- The sign for what is kept of the line ends, if it starts a text, and what follows
    it. -/
def takeChomping : List Glyph → Option Chomping × List Glyph
  | [] => (none, [])
  | g :: rest =>
    if g.char = '-' then (some .strip, rest)
    else if g.char = '+' then (some .keep, rest)
    else (none, g :: rest)

/-- The digit for the indentation, if it starts a text, and what follows it. -/
def takeIndent : List Glyph → Option Nat × List Glyph
  | [] => (none, [])
  | g :: rest => if g.char.isDigit then (some (g.char.toNat - 48), rest) else (none, g :: rest)

/-- The header that starts a text, with its two parts in either order, and what
    follows it. The indentation is not zero. -/
def takeHeader? (text : List Glyph) : Option (Header × List Glyph) :=
  let (before, text) := takeChomping text
  let (indent, text) := takeIndent text
  let (behind, text) := if before.isNone ∧ indent.isSome then takeChomping text else (none, text)
  if indent = some 0 then none
  else some (⟨(before.or behind).getD .clip, indent⟩, text)

/-- The line behind a header, on which nothing but a comment may stand. -/
def afterHeader? (text : List Glyph) : Option (List Glyph) :=
  match afterBlanks text with
  | [] => some []
  | g :: rest =>
    if isBreak g.char then some rest
    else if g.char = '#' then some ((afterLine rest).drop 1)
    else none

/-! ## Lines -/

/-- The indentation and the empty lines in front of the first line of a scalar: the
    greatest column reached, the line ends in reverse, and what follows. No tab may
    stand among them. -/
def takeEmptyLines? (deepest : Nat) (breaks : List Char) :
    List Glyph → Option (Nat × List Char × List Glyph)
  | [] => some (deepest, breaks, [])
  | g :: rest =>
    if g.char = ' ' then takeEmptyLines? (max deepest (g.column + 1)) breaks rest
    else if g.char = '\t' then none
    else if isBreak g.char then takeEmptyLines? deepest (g.char :: breaks) rest
    else some (deepest, breaks, g :: rest)

/-- What has been read of an indented scalar, with all characters in reverse. -/
structure Indented where
  text : List Char := []
  /-- The end of the last line, unless the text ends with it or no line has come. -/
  lineEnd : Option Char := none
  /-- The ends of the empty lines behind it. -/
  emptyLines : List Char := []
  /-- Whether the last line starts with a blank. -/
  blankStart : Bool := false
  /-- Whether the last line goes on. -/
  inLine : Bool := false

namespace Indented

/-- Starts a line. A line feed before it is folded into a blank if neither this line
    nor the one before starts with a blank, and vanishes if empty lines follow it. -/
def startLine (folded : Bool) (c : Char) (scalar : Indented) : Indented :=
  let joined :=
    if folded ∧ scalar.lineEnd = some '\n' ∧ !scalar.blankStart ∧ !isBlank c then
      if scalar.emptyLines = [] then [' '] else scalar.emptyLines
    else scalar.emptyLines ++ scalar.lineEnd.toList
  { text := c :: (joined ++ scalar.text), blankStart := isBlank c, inLine := true }

/-- The text of a scalar that is complete. -/
def result (chomping : Chomping) (scalar : Indented) : String :=
  let ends := match chomping with
    | .strip => []
    | .clip => scalar.lineEnd.toList
    | .keep => scalar.emptyLines ++ scalar.lineEnd.toList
  String.ofList (ends ++ scalar.text).reverse

end Indented

/-- The rest of a scalar whose lines are indented by `indent`, and what follows it.
    No tab may stand in the indentation. -/
def takeLines? (folded : Bool) (indent : Nat) (scalar : Indented) :
    List Glyph → Option (Indented × List Glyph)
  | [] => some (scalar, [])
  | g :: rest =>
    if isBreak g.char then
      takeLines? folded indent
        (if scalar.inLine then { scalar with inLine := false, lineEnd := some g.char }
        else { scalar with emptyLines := g.char :: scalar.emptyLines }) rest
    else if scalar.inLine then
      takeLines? folded indent { scalar with text := g.char :: scalar.text } rest
    else if g.column < indent ∧ g.char = ' ' then takeLines? folded indent scalar rest
    else if g.column < indent ∧ g.char = '\t' then none
    else if g.column = indent then
      takeLines? folded indent (scalar.startLine folded g.char) rest
    else some (scalar, g :: rest)

/-- The rest of an indented scalar behind its bar or angle, and what follows it. Its
    lines stand at least in the column `margin`. If the header does not say by how much
    they are indented, the first line does. -/
def takeIndented? (folded : Bool) (margin : Nat) (text : List Glyph) :
    Option (String × List Glyph) :=
  (takeHeader? text).bind fun (header, text) =>
    (afterHeader? text).bind fun text =>
      let taken? := match header.indent with
        | some n => takeLines? folded (margin - 1 + n) {} text
        | none =>
          (takeEmptyLines? 0 [] text).bind fun (deepest, breaks, text) =>
            takeLines? folded (max deepest (max margin 1)) { emptyLines := breaks } text
      taken?.map fun (scalar, rest) => (scalar.result header.chomping, rest)

theorem length_takeChomping (text : List Glyph) :
    (takeChomping text).2.length ≤ text.length := by
  unfold takeChomping
  grind

theorem length_takeIndent (text : List Glyph) : (takeIndent text).2.length ≤ text.length := by
  unfold takeIndent
  grind

theorem length_takeHeader? {text : List Glyph} {taken : Header × List Glyph}
    (h : takeHeader? text = some taken) : taken.2.length ≤ text.length := by
  grind [takeHeader?, length_takeChomping, length_takeIndent]

theorem length_afterHeader? {text rest : List Glyph} (h : afterHeader? text = some rest) :
    rest.length ≤ text.length := by
  grind [afterHeader?, length_afterBlanks, length_afterLine]

theorem length_takeEmptyLines? {deepest : Nat} {breaks : List Char} {cs : List Glyph}
    {taken : Nat × List Char × List Glyph} (h : takeEmptyLines? deepest breaks cs = some taken) :
    taken.2.2.length ≤ cs.length := by
  fun_induction takeEmptyLines? deepest breaks cs <;> grind

theorem length_takeLines? {folded : Bool} {indent : Nat} {scalar : Indented} {cs : List Glyph}
    {taken : Indented × List Glyph} (h : takeLines? folded indent scalar cs = some taken) :
    taken.2.length ≤ cs.length := by
  fun_induction takeLines? folded indent scalar cs <;> grind

theorem length_takeIndented? {folded : Bool} {margin : Nat} {text : List Glyph}
    {taken : String × List Glyph} (h : takeIndented? folded margin text = some taken) :
    taken.2.length ≤ text.length := by
  unfold takeIndented? at h
  grind [→ length_takeHeader?, → length_afterHeader?, → length_takeEmptyLines?,
    → length_takeLines?, Option.bind_eq_some_iff, Option.map_eq_some_iff]

end Yaml

end Criteria
