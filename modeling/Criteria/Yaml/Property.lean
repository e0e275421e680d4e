import Criteria.Number.Numeral
import Criteria.Yaml.Glyph

/-!
# Anchors, tags and directives

A node may be named by an anchor, so that an alias can stand for it, and have a tag
that tells its type. A tag is written with a handle that stands for its first part;
directives in front of a document define handles.

* `Yaml.takeAnchor?`, `Yaml.takeTag?`: a name or tag, and what follows it;
* `Yaml.takeDirective?`: a directive, and what follows it.
-/

namespace Criteria

namespace Yaml

/-! ## Anchors -/

/-- Whether an anchor or alias may end here: where a word ends, or before some of the
    indicators. -/
def endsAnchor (text : List Glyph) : Bool :=
  endsWord text || text.head?.any fun g => "?:,]\x7d%@\u0060".toList.contains g.char

/-- The name of an anchor or alias behind its sign, and what follows it. -/
def takeAnchor? (text : List Glyph) : Option (String × List Glyph) :=
  if nameOf text ≠ [] ∧ endsAnchor (afterName text) then
    some (String.ofList (nameOf text), afterName text)
  else none

/-! ## Tags -/

/-- What the handles of tags stand for. -/
abbrev Handles := List (String × String)

/-- The start of the tags that have a meaning of their own. -/
def coreTag : String := "tag:yaml.org,2002:"

/-- The tag that begins with what a handle stands for. -/
def Handles.expand? (handles : Handles) (handle rest : String) : Option String :=
  ((handles ++ [("!", "!"), ("!!", coreTag)]).lookup handle).map (· ++ rest)

/-- Whether a character may stand in a tag. Commas and brackets may not where they
    could part the items of a flow collection. -/
def isTagChar (enclosed : Bool) (c : Char) : Bool :=
  isNameChar c || ";/?:@&=+$.!~*'()".toList.contains c ||
    (enclosed && (c == ',' || c == '[' || c == ']'))

/-- The character whose number two digits of base sixteen give. -/
def hexChar? (a b : Char) : Option Char :=
  (Number.digitValue? 16 a).bind fun a =>
    (Number.digitValue? 16 b).map fun b => Char.ofNat (16 * a + b)

/-- The rest of a tag behind its text so far, in reverse, and what follows it. A percent
    sign comes with the number of a character in two digits of base sixteen. -/
def takeTagText? (enclosed : Bool) (text : List Char) :
    List Glyph → Option (String × List Glyph)
  | [] => some (String.ofList text.reverse, [])
  | g :: rest =>
    if g.char = '%' then
      match rest with
      | [] | [_] => none
      | a :: b :: rest =>
        match hexChar? a.char b.char with
        | some c => takeTagText? enclosed (c :: text) rest
        | none => none
    else if isTagChar enclosed g.char then takeTagText? enclosed (g.char :: text) rest
    else some (String.ofList text.reverse, g :: rest)

/-- A tag in angles behind the first of them, and what follows it. -/
def takeVerbatimTag? (text : List Glyph) : Option (String × List Glyph) :=
  (takeTagText? true [] text).bind fun (tag, rest) =>
    match rest with
    | [] => none
    | g :: rest => if tag ≠ "" ∧ g.char = '>' then some (tag, rest) else none

/-- A tag with a handle behind its first exclamation mark, and what follows it. -/
def takeShortTag? (handles : Handles) (text : List Glyph) : Option (String × List Glyph) :=
  let name := nameOf text
  let plain? := (takeTagText? false name.reverse (afterName text)).bind fun (tag, rest) =>
    if tag = "" then some ("!", rest) else (handles.expand? "!" tag).map (·, rest)
  match afterName text with
  | [] => plain?
  | g :: rest =>
    if g.char = '!' then
      (takeTagText? false [] rest).bind fun (tag, rest) =>
        if tag = "" then none
        else (handles.expand? (String.ofList ('!' :: name ++ ['!'])) tag).map (·, rest)
    else plain?

/-- The tag that stands behind an exclamation mark, and what follows it. -/
def takeTag? (inFlow : Bool) (handles : Handles) (text : List Glyph) :
    Option (String × List Glyph) :=
  let taken? := match text with
    | [] => takeShortTag? handles []
    | g :: rest => if g.char = '<' then takeVerbatimTag? rest else takeShortTag? handles (g :: rest)
  taken?.filter fun (_, rest) =>
    endsWord rest || (inFlow && rest.head?.any fun g => g.char == ',')

theorem length_takeAnchor? {text : List Glyph} {taken : String × List Glyph}
    (h : takeAnchor? text = some taken) : taken.2.length ≤ text.length := by
  unfold takeAnchor? at h
  grind [length_afterName]

theorem length_takeTagText? {enclosed : Bool} {text : List Char} {cs : List Glyph}
    {taken : String × List Glyph} (h : takeTagText? enclosed text cs = some taken) :
    taken.2.length ≤ cs.length := by
  fun_induction takeTagText? enclosed text cs <;> grind

theorem length_takeVerbatimTag? {text : List Glyph} {taken : String × List Glyph}
    (h : takeVerbatimTag? text = some taken) : taken.2.length ≤ text.length := by
  obtain ⟨_, ht, h⟩ := Option.bind_eq_some_iff.1 h
  have := length_takeTagText? ht
  grind

theorem length_takeShortTag? {handles : Handles} {text : List Glyph}
    {taken : String × List Glyph} (h : takeShortTag? handles text = some taken) :
    taken.2.length ≤ text.length := by
  have := length_afterName text
  unfold takeShortTag? at h
  grind [→ length_takeTagText?, Option.bind_eq_some_iff, Option.map_eq_some_iff]

theorem length_takeTag? {inFlow : Bool} {handles : Handles} {text : List Glyph}
    {taken : String × List Glyph} (h : takeTag? inFlow handles text = some taken) :
    taken.2.length ≤ text.length := by
  have h := (Option.filter_eq_some_iff.1 h).1
  grind [→ length_takeVerbatimTag?, → length_takeShortTag?]

/-! ## Directives -/

/-- A line in front of a document. -/
inductive Directive
  /-- The version of YAML that the text is written in. -/
  | version
  /-- What a handle of tags stands for. -/
  | handle (name expansion : String)

/-- The digits that start a text, of which there are one to nine, and what follows
    them. -/
def takeDigits? (text : List Glyph) : Option (Nat × List Glyph) :=
  let digits := (text.takeWhile fun g => g.char.isDigit).map Glyph.char
  if digits ≠ [] ∧ digits.length ≤ 9 then
    some (Nat.ofDigitChars 10 digits 0, text.dropWhile fun g => g.char.isDigit)
  else none

/-- A directive for the version: 1.1 or 1.2. -/
def takeVersion? (text : List Glyph) : Option (Directive × List Glyph) :=
  (takeDigits? (afterBlanks text)).bind fun (major, rest) =>
    match rest with
    | [] => none
    | g :: rest =>
      (takeDigits? rest).bind fun (minor, rest) =>
        if g.char = '.' ∧ major = 1 ∧ (minor = 1 ∨ minor = 2) then some (.version, rest)
        else none

/-- A directive for a handle. -/
def takeHandle? (text : List Glyph) : Option (Directive × List Glyph) :=
  match afterBlanks text with
  | [] => none
  | g :: rest =>
    let name := nameOf rest
    let (handle, rest) := match afterName rest with
      | [] => ('!' :: name, [])
      | next :: rest =>
        if next.char = '!' then ('!' :: name ++ ['!'], rest) else ('!' :: name, next :: rest)
    if g.char ≠ '!' ∨ (handle ≠ ['!'] ∧ handle.getLast? ≠ some '!') then none
    else if !(rest.head?.any fun next => isBlank next.char) then none
    else (takeTagText? true [] (afterBlanks rest)).bind fun (expansion, rest) =>
      if expansion ≠ "" ∧ endsWord rest then
        some (.handle (String.ofList handle) expansion, rest)
      else none

/-- A directive behind its percent sign, and the next line. Only a comment may stand
    behind it on its own. -/
def takeDirective? (text : List Glyph) : Option (Directive × List Glyph) :=
  let rest := afterName text
  let taken? :=
    if !endsWord rest then none
    else if nameOf text = "YAML".toList then takeVersion? rest
    else if nameOf text = "TAG".toList then takeHandle? rest
    else none
  taken?.bind fun (directive, rest) =>
    match afterBlanks rest with
    | [] => some (directive, [])
    | g :: rest =>
      if g.char = '#' then some (directive, (afterLine rest).drop 1)
      else if isBreak g.char then some (directive, rest)
      else none

theorem length_takeDigits? {text : List Glyph} {taken : Nat × List Glyph}
    (h : takeDigits? text = some taken) : taken.2.length ≤ text.length := by
  have := (List.dropWhile_suffix (l := text) fun g => g.char.isDigit).length_le
  grind [takeDigits?]

theorem length_takeVersion? {text : List Glyph} {taken : Directive × List Glyph}
    (h : takeVersion? text = some taken) : taken.2.length ≤ text.length := by
  have := length_afterBlanks text
  unfold takeVersion? at h
  grind [→ length_takeDigits?, Option.bind_eq_some_iff]

theorem length_takeHandle? {text : List Glyph} {taken : Directive × List Glyph}
    (h : takeHandle? text = some taken) : taken.2.length ≤ text.length := by
  unfold takeHandle? at h
  grind [→ length_takeTagText?, Option.bind_eq_some_iff, length_afterBlanks, length_afterName]

theorem length_takeDirective? {text : List Glyph} {taken : Directive × List Glyph}
    (h : takeDirective? text = some taken) : taken.2.length ≤ text.length := by
  unfold takeDirective? at h
  grind [→ length_takeVersion?, → length_takeHandle?, Option.bind_eq_some_iff,
    length_afterBlanks, length_afterName, length_afterLine]

end Yaml

end Criteria
