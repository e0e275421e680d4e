import Criteria.Proofs.Rule.Alternation
import Criteria.Proofs.Tree.Tokens

/-!
# Rules in parentheses

A rule string that stands in parentheses is split and arranged as it is by itself: what
stands before the parentheses is not touched, whether or not a grammar derives the rule.

* `Token.splitAfter_closing`: a rule in front of a closing parenthesis is split by itself;
* `Postfix.arrange_closing`: its tokens are arranged by themselves, on top of what waits;
* `Postfix.emits_group`: a rule in parentheses emits its own items, and leaves nothing waiting.
-/

namespace Criteria

/-! ## Splitting -/

namespace Token

/-- Tokens in parentheses. -/
def group (tokens : List Token) : List Token := .opening :: (tokens ++ [.closing])

/-- A text in front of a closing parenthesis is split by itself. -/
theorem splitAfter_closing (fragment cs rest : List Char) :
    splitAfter fragment (cs ++ ')' :: rest) =
      splitAfter fragment cs ++ .closing :: splitAfter [] rest := by
  fun_induction splitAfter fragment cs with
  | case1 fragment => exact withFragment_append fragment [] _
  | case2 fragment cs ih | case3 fragment cs ih | case4 fragment cs ih | case5 fragment cs ih =>
    rw [← withFragment_append]
    exact congrArg (fun tokens => withFragment fragment (_ :: tokens)) ih
  | case6 fragment c cs h₁ h₂ h₃ h₄ ih =>
    rw [← ih]
    -- No delimiter goes on with the parenthesis.
    have hstops : Text.Stops continues (')' :: rest) := Text.stops_cons.2 (by decide)
    exact splitAfter_cons fun d hd hp => not_prefix_of_forall h₁ h₂ h₃ h₄ d hd
      (prefix_of_prefix_append hd (List.cons_ne_nil c cs) hstops hp)

/-- A text in parentheses behind blanks is split by itself. -/
theorem splitAfter_group {fragment : List Char} (h : ∀ c ∈ fragment, Text.isBlank c)
    (cs rest : List Char) :
    splitAfter fragment ('(' :: (cs ++ ')' :: rest)) =
      group (splitAfter [] cs) ++ splitAfter [] rest := by
  rw [splitAfter, withFragment_of_isBlank h, splitAfter_closing, group]
  simp

/-! ## Nesting -/

theorem deepest_concat_closing (opened : Nat) (tokens : List Token) :
    deepest opened (tokens ++ [.closing]) = deepest opened tokens := by
  fun_induction deepest opened tokens with
  | case1 opened => simp only [List.nil_append, deepest]; omega
  | case2 opened tokens ih | case4 opened op tokens ih | case5 opened text tokens ih =>
    rw [List.cons_append, deepest, ih]
  | case3 opened tokens ih => rw [List.cons_append, deepest, ih]

/-- With one more parenthesis open before them, tokens nest one level deeper at most. -/
theorem deepest_succ_le (opened : Nat) (tokens : List Token) :
    deepest (opened + 1) tokens ≤ deepest opened tokens + 1 := by
  fun_induction deepest opened tokens with
  | case1 opened => exact Nat.le_refl _
  | case2 opened tokens ih | case4 opened op tokens ih | case5 opened text tokens ih => exact ih
  | case3 opened tokens ih =>
    rw [deepest, Nat.add_sub_cancel]
    cases opened with
    | zero =>
      rw [Nat.zero_sub]
      omega
    | succ opened =>
      rw [Nat.add_sub_cancel] at ih ⊢
      omega

theorem nesting_group_le (tokens : List Token) : nesting (group tokens) ≤ nesting tokens + 1 := by
  rw [nesting, group, deepest, deepest_concat_closing]
  exact deepest_succ_le 0 tokens

end Token

/-! ## Arranging -/

namespace Postfix

variable {limits wide : Limits} {position nesting : Nat} {stack : List Waiting}
  {tokens : List Token} {items : List Item}

/-- No connective releases what waits below an open parenthesis. -/
theorem release_opening (op : Connective) (stack below : List Waiting) :
    release op (stack ++ .opening :: below) =
      ((release op stack).1, (release op stack).2 ++ .opening :: below) := by
  fun_induction release op stack with
  | case1 top stack hlt => exact if_pos hlt
  | case2 top stack hlt items rest hrest ih =>
    simp only [List.cons_append, release, if_neg hlt, ih, hrest]
  | case3 stack hstack =>
    cases stack with
    | nil => rfl
    | cons first stack =>
      cases first with
      | opening => rfl
      | connective op => exact absurd rfl (hstack op stack)

/-- A closing parenthesis takes the same from a stack with more below it. -/
theorem close?_append {rest : List Waiting} (h : close? stack = some (items, rest))
    (below : List Waiting) : close? (stack ++ below) = some (items, rest ++ below) := by
  obtain ⟨ops, rfl, rfl⟩ := exists_of_close? h
  rw [waiting, List.append_assoc]
  exact close?_waiting ops (rest ++ below)

/-- A closing parenthesis takes all that is left on the stack in the end. -/
theorem close?_of_drain (h : drain stack = .ok items) (below : List Waiting) :
    close? (stack ++ .opening :: below) = some (items, below) := by
  obtain ⟨ops, rfl, rfl⟩ := exists_of_drain h
  rw [waiting, List.append_nil]
  exact close?_waiting ops below

/-- Tokens that can be arranged by themselves are arranged alike behind an open parenthesis
    that is closed behind them, whatever waits below it. -/
theorem arrange_closing (h : arrange limits position (opened stack) stack tokens = .ok items)
    (start base : Nat) (below : List Waiting) (rest : List Token)
    (hn : Token.deepest (base + 1 + opened stack) tokens ≤ wide.nesting) :
    arrange wide start (base + 1 + opened stack) (stack ++ .opening :: below)
        (tokens ++ .closing :: rest) =
      (items ++ ·) <$> arrange wide (start + tokens.length + 1) base below rest := by
  generalize hnesting : opened stack = nesting at h hn ⊢
  have hlen (start : Nat) (token : Token) (tokens : List Token) :
      start + (token :: tokens).length = start + 1 + tokens.length := by
    rw [List.length_cons, Nat.add_comm tokens.length, Nat.add_assoc]
  -- By itself the run succeeds, so no step of it looks below the open parenthesis.
  fun_induction arrange limits position nesting stack tokens generalizing start items with
  | case1 position nesting stack =>
    obtain rfl : nesting = 0 := hnesting.symm.trans (opened_of_drain h)
    simp only [List.nil_append, arrange, close?_of_drain h, List.length_nil, Nat.add_zero,
      Nat.add_sub_cancel]
  | case2 position nesting stack op tokens released stack' hrelease ih =>
    obtain ⟨items, hi, rfl⟩ := map_eq_ok h
    have hopened : opened (.connective op :: stack') = nesting := by
      rw [← hnesting, ← opened_release op stack, hrelease, opened]
    rw [hlen, ← map_append_map, ← ih (start + 1) hopened hi hn]
    simp only [List.cons_append, arrange, release_opening, hrelease]
  | case3 => simp at h
  | case4 position nesting stack tokens _ ih =>
    have hle : ¬wide.nesting < base + 1 + nesting + 1 :=
      Nat.not_lt.2 (Nat.le_trans (Token.le_deepest _ tokens) hn)
    rw [hlen, ← ih (start + 1) (congrArg (· + 1) hnesting) h hn]
    simp only [List.cons_append, arrange, if_neg hle]
    rfl
  | case5 => simp at h
  | case6 position nesting stack tokens released stack' hclose ih =>
    obtain ⟨items, hi, rfl⟩ := map_eq_ok h
    -- The parenthesis that is closed is one of those that the tokens have opened.
    obtain rfl : nesting = opened stack' + 1 := hnesting.symm.trans (opened_of_close? hclose)
    rw [Token.deepest] at hn
    rw [hlen, ← map_append_map,
      ← ih (start + 1) rfl hi (Nat.le_trans (Nat.le_max_right _ _) hn)]
    simp only [List.cons_append, arrange, close?_append hclose]
    rfl
  | case7 => simp at h
  | case8 position nesting stack text tokens c hread ih =>
    obtain ⟨items, hi, rfl⟩ := map_eq_ok h
    have hcons : (fun more => .operand c :: items ++ more) = (.operand c :: ·) ∘ (items ++ ·) := rfl
    rw [hlen, hcons, comp_map, ← ih (start + 1) hnesting hi hn]
    simp only [List.cons_append, arrange, hread]

/-- A rule in parentheses that can be arranged by itself emits its items. -/
theorem emits_group (h : ofTokens limits tokens = .ok items) (stack : List Waiting) :
    Emits (Token.group tokens) stack items [] := by
  intro wide position nesting rest hn
  rw [Token.group, Token.deepest, Token.deepest_concat_closing] at hn
  have hle : ¬wide.nesting < nesting + 1 :=
    Nat.not_lt.2 (Nat.le_trans (Token.le_deepest _ tokens) hn)
  have hlen : position + 1 + tokens.length + 1 = position + (Token.group tokens).length := by
    simp only [Token.group, List.length_cons, List.length_append, List.length_nil]
    omega
  rw [← hlen, waiting, List.map_nil, List.nil_append,
    ← @arrange_closing limits wide 0 [] tokens items h (position + 1) nesting stack rest hn]
  simp only [Token.group, List.cons_append, List.append_assoc, List.nil_append, arrange,
    if_neg hle]
  rfl

end Postfix

end Criteria
