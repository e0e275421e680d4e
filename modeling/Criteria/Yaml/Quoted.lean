import Criteria.Number.Numeral
import Criteria.Yaml.Gap

/-!
# Quoted scalars

In single quotes a quote is written twice. In double quotes a backslash starts an
escape: a letter for a character, a number in base sixteen, or the end of a line,
which is then no part of the text. Both kinds go on over several lines.

* `Yaml.takeSingle?`, `Yaml.takeDouble?`: the rest of a scalar behind its quote, and
  what follows it.
-/

namespace Criteria

namespace Yaml

/-- The rest of a scalar in single quotes behind its text so far, in reverse, and a
    gap. -/
def takeSingle? (text : List Char) (gap : Gap) : List Glyph → Option (String × List Glyph)
  | [] => none
  | g :: rest =>
    if startsDocumentMark (g :: rest) then none
    else if isBlank g.char ∨ isBreak g.char then takeSingle? text (gap.add g.char) rest
    else if g.char = '\'' then
      match rest with
      | [] => some (String.ofList (gap.text ++ text).reverse, [])
      | next :: rest =>
        if next.char = '\'' then takeSingle? ('\'' :: (gap.text ++ text)) .empty rest
        else some (String.ofList (gap.text ++ text).reverse, next :: rest)
    else takeSingle? (g.char :: (gap.text ++ text)) .empty rest

/-- The character of a short escape. -/
def unescape? : Char → Option Char
  | '0' => some '\x00'
  | 'a' => some '\x07'
  | 'b' => some '\x08'
  | 't' => some '\t'
  | '\t' => some '\t'
  | 'n' => some '\n'
  | 'v' => some '\x0b'
  | 'f' => some '\x0c'
  | 'r' => some '\r'
  | 'e' => some '\x1b'
  | ' ' => some ' '
  | '"' => some '"'
  | '/' => some '/'
  | '\\' => some '\\'
  | 'N' => some '\u0085'
  | '_' => some '\u00a0'
  | 'L' => some '\u2028'
  | 'P' => some '\u2029'
  | _ => none

/-- How many digits follow the letter of an escape with a number. -/
def escapeDigits? : Char → Option Nat
  | 'x' => some 2
  | 'u' => some 4
  | 'U' => some 8
  | _ => none

/-- The number of a character that is being read: how many digits are due, and the
    value of those before them. -/
structure CharCode where
  due : Nat
  value : Nat

/-- The rest of a scalar in double quotes behind its text so far, in reverse, a gap,
    and the number of a character if one is being read. -/
def takeDouble? (text : List Char) (gap : Gap) (code : Option CharCode) :
    List Glyph → Option (String × List Glyph)
  | [] => none
  | g :: rest =>
    match code with
    | some ⟨due, value⟩ =>
      match Number.digitValue? 16 g.char with
      | none => none
      | some digit =>
        let value := 16 * value + digit
        if 1 < due then takeDouble? text .empty (some ⟨due - 1, value⟩) rest
        else if value.isValidChar then takeDouble? (Char.ofNat value :: text) .empty none rest
        else none
    | none =>
      if startsDocumentMark (g :: rest) then none
      else if isBlank g.char ∨ isBreak g.char then takeDouble? text (gap.add g.char) none rest
      else if g.char = '"' then some (String.ofList (gap.text ++ text).reverse, rest)
      else if g.char = '\\' then
        match rest with
        | [] => none
        | next :: rest =>
          if isBreak next.char then takeDouble? (gap.text ++ text) (.breaks none []) none rest
          else
            match escapeDigits? next.char, unescape? next.char with
            | some due, _ => takeDouble? (gap.text ++ text) .empty (some ⟨due, 0⟩) rest
            | none, some c => takeDouble? (c :: (gap.text ++ text)) .empty none rest
            | none, none => none
      else takeDouble? (g.char :: (gap.text ++ text)) .empty none rest

theorem length_takeSingle? {text : List Char} {gap : Gap} {cs : List Glyph}
    {taken : String × List Glyph} (h : takeSingle? text gap cs = some taken) :
    taken.2.length ≤ cs.length := by
  fun_induction takeSingle? text gap cs <;> grind

theorem length_takeDouble? {text : List Char} {gap : Gap} {code : Option CharCode}
    {cs : List Glyph} {taken : String × List Glyph}
    (h : takeDouble? text gap code cs = some taken) : taken.2.length ≤ cs.length := by
  fun_induction takeDouble? text gap code cs <;> grind

end Yaml

end Criteria
