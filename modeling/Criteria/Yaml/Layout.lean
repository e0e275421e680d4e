import Criteria.Yaml.Lexeme

/-!
# Layout

The tokens of a text say in so many words what its indentation says by columns:
where block collections start and end, and which nodes are keys.

A key in front of a colon is only known as one when the colon comes. Up to then it
is a candidate: the colon has to stand on the same line, not too far behind. A node
in the column of the keys around it can be nothing else, and is required to turn
out as one.

* `Layout`: the tokens so far, and what the next ones depend on;
* `Yaml.tokens?`: the tokens of a text, if all of it is made of tokens.
-/

namespace Criteria

namespace Yaml

/-! ## Keys that are not yet known as such -/

/-- A node that a colon may turn into a key: how many tokens stand before it, where it
    starts, and whether it has to turn out as a key. -/
structure Candidate where
  before : Nat
  start : Glyph
  required : Bool

/-- How many columns behind the start of a key its colon may stand. -/
def keyLimit : Nat := 1024

/-- Whether a character is too far behind a candidate for its colon. -/
def Candidate.isPast (candidate : Candidate) (g : Glyph) : Bool :=
  candidate.start.line < g.line || candidate.start.column + keyLimit < g.column

/-! ## Layouts -/

/-- The tokens so far, and what the next ones depend on. -/
structure Layout where
  /-- The tokens in reverse. -/
  tokens : List Token := []
  count : Nat := 0
  /-- The columns of the open block collections, from the innermost on. -/
  columns : List Nat := []
  /-- Whether a key may start here. -/
  keyAllowed : Bool := true
  /-- The candidate among the items of the innermost collection. -/
  candidate : Option Candidate := none
  /-- The candidates in front of the open flow collections, from the innermost on. -/
  outer : List (Option Candidate) := []
  handles : Handles := []
  /-- Whether a directive has given the version. -/
  versioned : Bool := false

namespace Layout

/-- Whether a flow collection is open. -/
def inFlow (layout : Layout) : Bool := !layout.outer.isEmpty

/-- The least column in which something inside the innermost block collection may
    stand. -/
def margin (layout : Layout) : Nat :=
  match layout.columns with
  | [] => 0
  | column :: _ => column + 1

/-- Where a scalar stands. -/
def context (layout : Layout) : Context := ⟨layout.inFlow, layout.margin⟩

/-- Adds a token. -/
def push (token : Token) (layout : Layout) : Layout :=
  { layout with tokens := token :: layout.tokens, count := layout.count + 1 }

/-- Inserts a token behind the first `before` ones. -/
def insert (before : Nat) (token : Token) (layout : Layout) : Layout :=
  let (behind, front) := layout.tokens.splitAt (layout.count - before)
  { layout with tokens := behind ++ token :: front, count := layout.count + 1 }

/-- Says whether a key may start next. -/
def allowKey (allowed : Bool) (layout : Layout) : Layout := { layout with keyAllowed := allowed }

/-- The layout at the end of a line. In a block, a key may start the next one. -/
def endLine (layout : Layout) : Layout := layout.allowKey (layout.keyAllowed || !layout.inFlow)

/-! ## Block collections -/

/-- Starts a block collection in a column, behind the first `before` tokens, unless
    one is open there. -/
def openBlock (column before : Nat) (token : Token) (layout : Layout) : Layout :=
  if !layout.inFlow ∧ layout.margin ≤ column then
    { layout.insert before token with columns := column :: layout.columns }
  else layout

/-- Ends the innermost `n` block collections. -/
def closeBlocks (n : Nat) (layout : Layout) : Layout :=
  { layout with
    tokens := List.replicate n .blockEnd ++ layout.tokens
    count := layout.count + n
    columns := layout.columns.drop n }

/-- Ends the block collections that stand behind a column. -/
def closeBehind (column : Nat) (layout : Layout) : Layout :=
  if layout.inFlow then layout
  else layout.closeBlocks (layout.columns.takeWhile (column < ·)).length

/-- Ends all block collections. -/
def closeAll (layout : Layout) : Layout :=
  if layout.inFlow then layout else layout.closeBlocks layout.columns.length

/-! ## Candidates -/

/-- Drops the candidate, unless a key is required. -/
def dropCandidate? (layout : Layout) : Option Layout :=
  match layout.candidate with
  | none => some layout
  | some candidate => if candidate.required then none else some { layout with candidate := none }

/-- Takes a node that starts here as a candidate, in place of one before it. -/
def saveCandidate? (g : Glyph) (layout : Layout) : Option Layout :=
  if layout.keyAllowed then
    layout.dropCandidate?.map fun layout =>
      let required := !layout.inFlow && layout.columns.head? == some g.column
      { layout with candidate := some ⟨layout.count, g, required⟩ }
  else some layout

/-- The layout when a character is reached: the candidate is dropped if its colon can
    no longer come, and blocks behind the character end. -/
def reach? (g : Glyph) (layout : Layout) : Option Layout :=
  if layout.candidate.any (·.isPast g) then layout.dropCandidate?.map (closeBehind g.column)
  else some (layout.closeBehind g.column)

/-! ## Indicators -/

/-- Starts a flow collection. -/
def openFlow? (g : Glyph) (token : Token) (layout : Layout) : Option Layout :=
  (layout.saveCandidate? g).map fun layout =>
    ({ layout with candidate := none, outer := layout.candidate :: layout.outer } : Layout).allowKey
      true |>.push token

/-- Ends a flow collection. It may be a key as a whole. -/
def closeFlow? (token : Token) (layout : Layout) : Option Layout :=
  layout.dropCandidate?.map fun layout =>
    ({ layout with
      candidate := layout.outer.head?.join
      outer := layout.outer.drop 1 } : Layout).allowKey false |>.push token

/-- Goes on to the next item of a flow collection. -/
def comma? (layout : Layout) : Option Layout :=
  layout.dropCandidate?.map fun layout => (layout.allowKey true).push .comma

/-- Starts an entry of a block sequence. -/
def entry? (g : Glyph) (layout : Layout) : Option Layout :=
  if !layout.inFlow ∧ !layout.keyAllowed then none
  else
    (layout.openBlock g.column layout.count .blockSequence).dropCandidate?.map fun layout =>
      (layout.allowKey true).push .entry

/-- Starts a key that is marked as such. -/
def key? (g : Glyph) (layout : Layout) : Option Layout :=
  if !layout.inFlow ∧ !layout.keyAllowed then none
  else
    (layout.openBlock g.column layout.count .blockMapping).dropCandidate?.map fun layout =>
      (layout.allowKey !layout.inFlow).push .key

/-- Starts a value. A candidate turns out as its key, and starts a block mapping unless
    one is open in its column. -/
def value? (g : Glyph) (layout : Layout) : Option Layout :=
  match layout.candidate with
  | some candidate =>
    let layout := (layout.insert candidate.before .key).openBlock candidate.start.column
      candidate.before .blockMapping
    some (({ layout with candidate := none } : Layout).allowKey false |>.push .value)
  | none =>
    if !layout.inFlow ∧ !layout.keyAllowed then none
    else
      some ((layout.openBlock g.column layout.count .blockMapping).allowKey !layout.inFlow
        |>.push .value)

/-- Starts or ends a document. -/
def documentMark? (token : Token) (layout : Layout) : Option Layout :=
  layout.closeAll.dropCandidate?.map fun layout => (layout.allowKey false).push token

/-- Takes up what a directive says. Neither the version nor a handle is given twice. -/
def directive? (directive : Directive) (layout : Layout) : Option Layout :=
  (layout.documentMark? .directive).bind fun layout =>
    match directive with
    | .version => if layout.versioned then none else some { layout with versioned := true }
    | .handle name expansion =>
      if (layout.handles.lookup name).isSome then none
      else some { layout with handles := (name, expansion) :: layout.handles }

/-- Adds an alias, an anchor, a tag or a scalar, which may start a key. -/
def inline? (g : Glyph) (token : Token) (layout : Layout) : Option Layout :=
  (layout.saveCandidate? g).map fun layout => (layout.allowKey false).push token

/-- Adds an indented scalar, which is no key. -/
def indented? (token : Token) (layout : Layout) : Option Layout :=
  layout.dropCandidate?.map fun layout => (layout.allowKey true).push token

/-- Adds a plain scalar. If a line ends behind it, a key may start the next one. -/
def plain? (g : Glyph) (plain : Plain) (layout : Layout) : Option Layout :=
  (layout.inline? g (.scalar .plain plain.text)).map fun layout => layout.allowKey plain.hasBreak

/-- The tokens of a text that ends here. -/
def result? (layout : Layout) : Option (List Token) :=
  layout.closeAll.dropCandidate?.map fun layout => layout.tokens.reverse

/-- Adds a piece of the text that starts with a character. -/
def add? (g : Glyph) (layout : Layout) : Lexeme → Option Layout
  | .directive said => layout.directive? said
  | .mark token => layout.documentMark? token
  | .opening token => layout.openFlow? g token
  | .closing token => layout.closeFlow? token
  | .comma => layout.comma?
  | .entry => layout.entry? g
  | .key => layout.key? g
  | .value => layout.value? g
  | .inline token => layout.inline? g token
  | .plain scalar => layout.plain? g scalar
  | .indented token => layout.indented? token

/-! ## Texts -/

/-- Passes over what lies between pieces: blanks, line ends and comments, in one of
    which the text may start, and a byte order mark in the first column. Tabs may not
    stand where a key in a block could. -/
def skip (inComment : Bool) (layout : Layout) : List Glyph → Layout × List Glyph
  | [] => (layout, [])
  | g :: rest =>
    if isBreak g.char then skip false layout.endLine rest
    else if inComment ∨ g.char = '#' then skip true layout rest
    else if g.column = 0 ∧ isByteOrderMark g.char then skip false layout rest
    else if g.char = ' ' ∨ (g.char = '\t' ∧ (layout.inFlow ∨ !layout.keyAllowed)) then
      skip false layout rest
    else (layout, g :: rest)

theorem length_skip (inComment : Bool) (layout : Layout) (text : List Glyph) :
    (skip inComment layout text).2.length ≤ text.length := by
  fun_induction skip inComment layout text <;> grind

/-- Takes the piece that a character starts. -/
def take? (layout : Layout) (g : Glyph) (rest : List Glyph) : Option (Layout × List Glyph) :=
  (layout.reach? g).bind fun layout =>
    (Lexeme.take? layout.context layout.handles g rest).bind fun (lexeme, rest) =>
      (layout.add? g lexeme).map (·, rest)

theorem length_take? {layout : Layout} {g : Glyph} {rest : List Glyph}
    {taken : Layout × List Glyph} (h : layout.take? g rest = some taken) :
    taken.2.length ≤ rest.length := by
  obtain ⟨_, _, h⟩ := Option.bind_eq_some_iff.1 h
  obtain ⟨_, hl, h⟩ := Option.bind_eq_some_iff.1 h
  obtain ⟨_, _, rfl⟩ := Option.map_eq_some_iff.1 h
  exact Lexeme.length_take? hl

/-- The tokens of a text behind a layout. -/
def run? (layout : Layout) (text : List Glyph) : Option (List Token) :=
  match _hs : skip false layout text with
  | (reached, []) => reached.result?
  | (reached, g :: rest) =>
    match _ht : reached.take? g rest with
    | none => none
    | some (next, after) => run? next after
termination_by text.length
decreasing_by
  have hs := length_skip false layout text
  have ht : after.length ≤ rest.length := length_take? _ht
  rw [_hs] at hs
  exact Nat.lt_of_le_of_lt ht hs

end Layout

/-- The tokens of a text, if all of it is made of tokens. -/
def tokens? (s : String) : Option (List Token) := (glyphs? s).bind (Layout.run? {})

end Yaml

end Criteria
