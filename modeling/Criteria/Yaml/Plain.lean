import Criteria.Yaml.Gap

/-!
# Plain scalars

A plain scalar stands without quotes, and goes on over the lines that are indented
far enough. It ends at a colon behind which a word ends, at a comment, and in a
flow collection at a comma or a bracket.

* `Yaml.startsPlain`: whether a character can start a plain scalar;
* `Yaml.takePlain?`: the plain scalar that starts a text, and what follows it.
-/

namespace Criteria

namespace Yaml

/-- Whether a character starts a plain scalar wherever it stands: no blank and no
    indicator does. -/
def startsPlain (c : Char) : Bool :=
  !isBlank c && !isBreak c && !"-?:,[]\x7b\x7d#&*!|>'\"%@\u0060".toList.contains c

/-- Where a scalar stands: inside a flow collection or not, and the least column in
    which its further lines may start. -/
structure Context where
  inFlow : Bool
  margin : Nat

/-- A plain scalar: its text, and whether a line ends behind it. -/
structure Plain where
  text : String
  hasBreak : Bool

namespace Plain

/-- Whether a plain scalar ends behind a gap: before a comment, a document mark, or a
    line that is indented too little. -/
def endsBehind (context : Context) (gap : Gap) (g : Glyph) (rest : List Glyph) : Bool :=
  !gap.isEmpty && (g.char == '#' || startsDocumentMark (g :: rest) ||
    (gap.hasBreak && !context.inFlow && g.column < context.margin))

/-- Whether a plain scalar ends before a character wherever that stands. -/
def endsBefore (context : Context) (g : Glyph) (rest : List Glyph) : Bool :=
  (g.char == ':' && endsWord rest) || (context.inFlow && isFlowIndicator g.char)

/-- Whether a character cannot belong to a plain scalar, nor end it: in a flow
    collection, a colon before a question mark or what parts items. -/
def isMisplaced (context : Context) (g : Glyph) (rest : List Glyph) : Bool :=
  context.inFlow && g.char == ':' &&
    rest.head?.any fun next => next.char == '?' || isFlowIndicator next.char

end Plain

/-- The rest of a plain scalar behind its text so far, in reverse, and a gap. Tabs do
    not indent its further lines. -/
def takePlain? (context : Context) (text : List Char) (gap : Gap) :
    List Glyph → Option (Plain × List Glyph)
  | [] => some (⟨String.ofList text.reverse, gap.hasBreak⟩, [])
  | g :: rest =>
    if isBlank g.char ∨ isBreak g.char then
      if g.char = '\t' ∧ gap.hasBreak ∧ g.column < context.margin then none
      else takePlain? context text (gap.add g.char) rest
    else if Plain.endsBehind context gap g rest then
      some (⟨String.ofList text.reverse, gap.hasBreak⟩, g :: rest)
    else if Plain.isMisplaced context g rest then none
    else if Plain.endsBefore context g rest then
      some (⟨String.ofList text.reverse, gap.hasBreak⟩, g :: rest)
    else takePlain? context (g.char :: (gap.text ++ text)) .empty rest

theorem length_takePlain? {context : Context} {text : List Char} {gap : Gap}
    {cs : List Glyph} {taken : Plain × List Glyph}
    (h : takePlain? context text gap cs = some taken) : taken.2.length ≤ cs.length := by
  fun_induction takePlain? context text gap cs <;> grind

end Yaml

end Criteria
