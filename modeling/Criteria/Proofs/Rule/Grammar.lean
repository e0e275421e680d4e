import Criteria.Rule.Postfix

/-!
# The grammar of rules

Rules are expressions of two levels of precedence, in which equal connectives
associate to the left:

* an *expression* is a term, or an expression, `OR` and a term;
* a *term* is a factor, or a term, `AND` and a factor;
* a *factor* is a condition, or an expression in parentheses.

`Derives level tokens tree` says that the tokens are derived at a level, that the
conditions among them can be read, and that the tree is what they stand for.
-/

namespace Criteria

/-- The levels of the grammar, from the one that binds least. -/
inductive Level
  | expression
  | term
  | factor
  deriving DecidableEq

/-- The least strength of a connective that stands outside parentheses at a level. -/
def Level.strength : Level → Nat
  | .expression => Connective.strength .or
  | .term => Connective.strength .and
  | .factor => Connective.strength .and + 1

/-- The tokens are derived at the level, and stand for the tree. -/
inductive Derives : Level → List Token → Tree → Prop
  | condition {text : String} {c : Condition} :
    Condition.read text = .ok c → Derives .factor [.condition text] (.leaf c)
  | group {tokens : List Token} {t : Tree} :
    Derives .expression tokens t → Derives .factor (.opening :: (tokens ++ [.closing])) t
  | factor {tokens : List Token} {t : Tree} : Derives .factor tokens t → Derives .term tokens t
  | conjunction {tokens more : List Token} {t u : Tree} :
    Derives .term tokens t → Derives .factor more u →
      Derives .term (tokens ++ .connective .and :: more) (.join .and t u)
  | term {tokens : List Token} {t : Tree} : Derives .term tokens t → Derives .expression tokens t
  | disjunction {tokens more : List Token} {t u : Tree} :
    Derives .expression tokens t → Derives .term more u →
      Derives .expression (tokens ++ .connective .or :: more) (.join .or t u)

/-! ## Nesting -/

namespace Token

/-- The greatest number of parentheses that are open at once in a list of tokens,
    behind a number of open ones. -/
def deepest (opened : Nat) : List Token → Nat
  | [] => opened
  | .opening :: tokens => deepest (opened + 1) tokens
  | .closing :: tokens => max opened (deepest (opened - 1) tokens)
  | .connective _ :: tokens => deepest opened tokens
  | .condition _ :: tokens => deepest opened tokens

/-- How deep the parentheses nest in a list of tokens. -/
def nesting (tokens : List Token) : Nat := deepest 0 tokens

theorem le_deepest (opened : Nat) (tokens : List Token) : opened ≤ deepest opened tokens := by
  fun_induction deepest opened tokens <;> omega

end Token

namespace Derives

variable {level : Level} {tokens : List Token} {t : Tree}

/-- Derived tokens close what they open, so that what follows them nests by itself. -/
theorem deepest_append (h : Derives level tokens t) (opened : Nat) (rest : List Token) :
    Token.deepest opened (tokens ++ rest) =
      max (Token.deepest opened tokens) (Token.deepest opened rest) := by
  induction h generalizing opened rest with
  | condition _ =>
    have := Token.le_deepest opened rest
    simp only [List.cons_append, List.nil_append, Token.deepest]
    omega
  | @group tokens _ _ ih =>
    have := Token.le_deepest (opened + 1) tokens
    simp only [List.cons_append, List.append_assoc, List.nil_append, Token.deepest, ih,
      Nat.add_sub_cancel]
    omega
  | factor _ ih | term _ ih => exact ih opened rest
  | conjunction _ _ ih₁ ih₂ | disjunction _ _ ih₁ ih₂ =>
    simp only [List.append_assoc, List.cons_append, ih₁, Token.deepest, ih₂]
    omega

end Derives

end Criteria
