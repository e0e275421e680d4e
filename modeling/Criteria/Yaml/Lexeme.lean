import Criteria.Yaml.Indented
import Criteria.Yaml.Plain
import Criteria.Yaml.Property
import Criteria.Yaml.Quoted

/-!
# Lexemes

The pieces of a text that stand between blanks and comments, each told by the
character that starts it and a little of what follows. What a piece is for depends
on where it stands, and is left to the layout.

* `Token`: what a text consists of once its layout is known;
* `Lexeme.take?`: the piece that a character starts, and what follows it.
-/

namespace Criteria

namespace Yaml

/-- How a scalar is written. -/
inductive Style
  | plain
  | quoted
  /-- Lines behind a bar. -/
  | literal
  /-- Lines behind an angle. -/
  | folded
  deriving DecidableEq

/-- A part of a text. -/
inductive Token
  | directive
  | documentStart
  | documentEnd
  | blockSequence
  | blockMapping
  | blockEnd
  | openBracket
  | closeBracket
  | openBrace
  | closeBrace
  | comma
  /-- The dash before an entry of a block sequence. -/
  | entry
  | key
  | value
  | anchor (name : String)
  | reference (name : String)
  | tag (tag : String)
  | scalar (style : Style) (text : String)
  deriving DecidableEq

/-- A piece of a text. -/
inductive Lexeme
  | directive (directive : Directive)
  /-- The start or end of a document. -/
  | mark (token : Token)
  /-- The start of a flow collection. -/
  | opening (token : Token)
  /-- The end of a flow collection. -/
  | closing (token : Token)
  | comma
  | entry
  | key
  | value
  /-- An alias, anchor, tag or quoted scalar. -/
  | inline (token : Token)
  | plain (plain : Plain)
  /-- An indented scalar. -/
  | indented (token : Token)

namespace Lexeme

/-- The plain scalar that a character starts, and what follows it. -/
def takePlain? (context : Context) (g : Glyph) (rest : List Glyph) :
    Option (Lexeme × List Glyph) :=
  (Yaml.takePlain? context [g.char] .empty rest).map fun (scalar, rest) => (.plain scalar, rest)

/-- The piece that a character starts by itself, and what follows it. -/
def takeInline? (context : Context) (handles : Handles) (c : Char) (rest : List Glyph) :
    Option (Token × List Glyph) :=
  match c with
  | '*' => (takeAnchor? rest).map fun (name, rest) => (.reference name, rest)
  | '&' => (takeAnchor? rest).map fun (name, rest) => (.anchor name, rest)
  | '!' => (takeTag? context.inFlow handles rest).map fun (tag, rest) => (.tag tag, rest)
  | '\'' => (takeSingle? [] .empty rest).map fun (text, rest) => (.scalar .quoted text, rest)
  | '"' => (takeDouble? [] .empty none rest).map fun (text, rest) => (.scalar .quoted text, rest)
  | _ => none

/-- The indented scalar that a character starts, and what follows it. There is none in
    a flow collection. -/
def takeIndented? (context : Context) (style : Style) (rest : List Glyph) :
    Option (Lexeme × List Glyph) :=
  if context.inFlow then none
  else (Yaml.takeIndented? (style = .folded) context.margin rest).map fun (text, rest) =>
    (.indented (.scalar style text), rest)

/-- The piece that a character starts, and what follows it. -/
def take? (context : Context) (handles : Handles) (g : Glyph) (rest : List Glyph) :
    Option (Lexeme × List Glyph) :=
  if g.column = 0 ∧ g.char = '%' then
    (takeDirective? rest).map fun (said, rest) => (.directive said, rest)
  else if startsMark '-' (g :: rest) then some (.mark .documentStart, rest.drop 2)
  else if startsMark '.' (g :: rest) then some (.mark .documentEnd, rest.drop 2)
  else
    match g.char with
    | '[' => some (.opening .openBracket, rest)
    | ']' => some (.closing .closeBracket, rest)
    | '{' => some (.opening .openBrace, rest)
    | '}' => some (.closing .closeBrace, rest)
    | ',' => some (.comma, rest)
    | '-' => if endsWord rest then some (.entry, rest) else takePlain? context g rest
    | '?' =>
      if context.inFlow ∨ endsWord rest then some (.key, rest) else takePlain? context g rest
    | ':' =>
      if context.inFlow ∨ endsWord rest then some (.value, rest) else takePlain? context g rest
    | '|' => takeIndented? context .literal rest
    | '>' => takeIndented? context .folded rest
    | c =>
      if startsPlain c then takePlain? context g rest
      else (takeInline? context handles c rest).map fun (token, rest) => (.inline token, rest)

theorem length_takePlain? {context : Context} {g : Glyph} {rest : List Glyph}
    {taken : Lexeme × List Glyph} (h : takePlain? context g rest = some taken) :
    taken.2.length ≤ rest.length := by
  obtain ⟨_, hs, rfl⟩ := Option.map_eq_some_iff.1 h
  exact Yaml.length_takePlain? hs

theorem length_takeInline? {context : Context} {handles : Handles} {c : Char}
    {rest : List Glyph} {taken : Token × List Glyph}
    (h : takeInline? context handles c rest = some taken) :
    taken.2.length ≤ rest.length := by
  unfold takeInline? at h
  split at h
  case h_6 => simp at h
  all_goals obtain ⟨_, hs, rfl⟩ := Option.map_eq_some_iff.1 h
  · exact length_takeAnchor? hs
  · exact length_takeAnchor? hs
  · exact length_takeTag? hs
  · exact length_takeSingle? hs
  · exact length_takeDouble? hs

theorem length_takeIndented? {context : Context} {style : Style} {rest : List Glyph}
    {taken : Lexeme × List Glyph} (h : takeIndented? context style rest = some taken) :
    taken.2.length ≤ rest.length := by
  unfold takeIndented? at h
  split at h
  · simp at h
  · obtain ⟨_, hs, rfl⟩ := Option.map_eq_some_iff.1 h
    exact Yaml.length_takeIndented? hs

/-- A piece takes at least the character that starts it. -/
theorem length_take? {context : Context} {handles : Handles} {g : Glyph} {rest : List Glyph}
    {taken : Lexeme × List Glyph} (h : take? context handles g rest = some taken) :
    taken.2.length ≤ rest.length := by
  unfold take? at h
  split at h
  · obtain ⟨_, hs, rfl⟩ := Option.map_eq_some_iff.1 h
    exact length_takeDirective? hs
  · split at h
    · grind
    · split at h
      · grind
      · split at h <;>
          grind [→ length_takePlain?, → length_takeIndented?, → length_takeInline?,
            Option.map_eq_some_iff]

end Lexeme

end Yaml

end Criteria
