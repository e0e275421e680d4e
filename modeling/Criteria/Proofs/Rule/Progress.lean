import Criteria.Proofs.Rule.Alternation
import Mathlib.Data.List.Induction

/-!
# Arranging token by token

Arranging is a loop over the tokens of a rule string, which carries the items so far, the number
of the next token, a counter of open parentheses, and the stack. What it carries agrees with
the tokens that are behind it: wherever the loop arrives, the counter is the number of the
parentheses that are open on the stack, and of those that the tokens leave open.

* `Postfix.advance`: the step of the loop;
* `Postfix.ofTokens_eq_advanceAll`, `Postfix.ofTokens_of_advanceAll`: arranging is the loop, and
  goes on from any state of it;
* `Postfix.Progress.Counts.advance`: a step keeps the counts;
* `Postfix.counts_of_advanceAll`: they hold wherever the loop arrives.
-/

namespace Criteria

/-- How many parentheses are open behind tokens, none of which closes one too many. -/
def Token.unclosed (tokens : List Token) : Nat := tokens.count .opening - tokens.count .closing

namespace Postfix

variable {limits : Limits} {tokens before : List Token} {token : Token} {e : ReadError}

/-! ## Arranging as a loop -/

/-- What arranging has come to between two tokens: the items so far, the number of the next
    token, the counter of open parentheses, and the stack. -/
structure Progress where
  items : List Item
  position : Nat
  nesting : Nat
  stack : List Waiting
  deriving DecidableEq

namespace Progress

/-- Before the first token. -/
def start : Progress := ⟨[], 0, 0, []⟩

/-- All items, once there are no more tokens. -/
def finish (p : Progress) : Except ReadError (List Item) := (p.items ++ ·) <$> drain p.stack

end Progress

variable {p q : Progress}

/-- Arranges one more token. -/
def advance (limits : Limits) (p : Progress) : Token → Except ReadError Progress
  | .connective op =>
    let (items, stack) := release op p.stack
    .ok ⟨p.items ++ items, p.position + 1, p.nesting, .connective op :: stack⟩
  | .opening =>
    if limits.nesting < p.nesting + 1 then .error (.nestingTooDeep (p.nesting + 1) limits.nesting)
    else .ok ⟨p.items, p.position + 1, p.nesting + 1, .opening :: p.stack⟩
  | .closing =>
    match close? p.stack with
    | none => .error (.unmatchedClosing p.position)
    | some (items, stack) => .ok ⟨p.items ++ items, p.position + 1, p.nesting - 1, stack⟩
  | .condition text =>
    match Condition.read text with
    | .error e => .error e
    | .ok c => .ok ⟨p.items ++ [.operand c], p.position + 1, p.nesting, p.stack⟩

/-- Arranges tokens one by one. -/
def advanceAll (limits : Limits) (tokens : List Token) : Except ReadError Progress :=
  tokens.foldlM (advance limits) .start

theorem advanceAll_append (before after : List Token) :
    advanceAll limits (before ++ after) =
      advanceAll limits before >>= fun p => after.foldlM (advance limits) p :=
  List.foldlM_append

theorem advanceAll_concat (before : List Token) (token : Token) :
    advanceAll limits (before ++ [token]) =
      advanceAll limits before >>= fun p => advance limits p token := by
  rw [advanceAll_append]
  congr
  funext p
  rw [List.foldlM_cons]
  cases advance limits p token <;> rfl

/-- From any point on, the loop and arranging come to the same items. -/
theorem foldlM_advance (p : Progress) (tokens : List Token) :
    tokens.foldlM (advance limits) p >>= Progress.finish =
      (p.items ++ ·) <$> arrange limits p.position p.nesting p.stack tokens := by
  induction tokens generalizing p with
  | nil => rfl
  | cons token tokens ih =>
    rw [List.foldlM_cons, bind_assoc]
    cases token with
    | connective op =>
      rw [arrange, map_append_map]
      exact ih _
    | opening =>
      rw [arrange, advance]
      split
      · rfl
      · exact ih _
    | closing =>
      rw [arrange, advance]
      cases close? p.stack with
      | none => rfl
      | some closed =>
        obtain ⟨items, stack⟩ := closed
        simp only
        rw [map_append_map]
        exact ih _
    | condition text =>
      rw [arrange, advance]
      cases Condition.read text with
      | error e => rfl
      | ok c =>
        simp only
        rw [show (.operand c :: · : List Item → List Item) = ([.operand c] ++ ·) from rfl,
          map_append_map]
        exact ih _

theorem ofTokens_eq_advanceAll (tokens : List Token) :
    ofTokens limits tokens = advanceAll limits tokens >>= Progress.finish := by
  rw [advanceAll, foldlM_advance, ofTokens]
  change _ = id <$> arrange limits 0 0 [] tokens
  rw [id_map]

/-- Where the loop has arrived, arranging goes on from what it carries there. -/
theorem ofTokens_of_advanceAll (h : advanceAll limits before = .ok p) (after : List Token) :
    ofTokens limits (before ++ after) =
      (p.items ++ ·) <$> arrange limits p.position p.nesting p.stack after := by
  rw [ofTokens_eq_advanceAll, advanceAll_append, h]
  exact foldlM_advance p after

/-! ## Counting -/

/-- Behind the tokens `before`, everything is counted as it is: the tokens, the parentheses that
    are open on the stack, and those that the tokens leave open, within the limit. -/
structure Progress.Counts (limits : Limits) (before : List Token) (p : Progress) : Prop where
  position : p.position = before.length
  nesting : p.nesting = opened p.stack
  parentheses : opened p.stack + before.count .closing = before.count .opening
  le : p.nesting ≤ limits.nesting

namespace Progress.Counts

theorem start (limits : Limits) : Counts limits [] .start := ⟨rfl, rfl, rfl, Nat.zero_le _⟩

theorem unclosed (h : p.Counts limits before) : Token.unclosed before = p.nesting := by
  rw [Token.unclosed, ← h.parentheses, Nat.add_sub_cancel, h.nesting]

/-- A token that is arranged is counted. -/
theorem advance (h : p.Counts limits before) (hq : advance limits p token = .ok q) :
    q.Counts limits (before ++ [token]) := by
  obtain ⟨hposition, hnesting, hopened, hle⟩ := h
  have hlength : p.position + 1 = (before ++ [token]).length := by
    rw [hposition, List.length_append, List.length_singleton]
  cases token with
  | connective op =>
    obtain rfl := Except.ok.inj hq
    have hstack : opened (.connective op :: (release op p.stack).2) = opened p.stack :=
      opened_release op p.stack
    refine ⟨hlength, hnesting.trans hstack.symm, ?_, hle⟩
    simpa [hstack] using hopened
  | opening =>
    rw [Postfix.advance] at hq
    split at hq
    · simp at hq
    · rename_i hlt
      obtain rfl := Except.ok.inj hq
      refine ⟨hlength, congrArg (· + 1) hnesting, ?_, Nat.le_of_not_lt hlt⟩
      have hopening : (before ++ [Token.opening]).count .opening = before.count .opening + 1 := by
        simp
      have hclosing : (before ++ [Token.opening]).count .closing = before.count .closing := by simp
      rw [hopening, hclosing, ← hopened]
      exact Nat.add_right_comm _ _ _
  | closing =>
    rw [Postfix.advance] at hq
    split at hq
    · simp at hq
    · rename_i items stack hclose
      obtain rfl := Except.ok.inj hq
      rw [opened_of_close? hclose] at hnesting hopened
      refine ⟨hlength, congrArg (· - 1) hnesting, ?_, Nat.le_trans (Nat.sub_le _ _) hle⟩
      have hopening : (before ++ [Token.closing]).count .opening = before.count .opening := by simp
      have hclosing : (before ++ [Token.closing]).count .closing = before.count .closing + 1 := by
        simp
      rw [hopening, hclosing, ← hopened]
      exact Nat.add_right_comm (opened stack) _ 1
  | condition text =>
    rw [Postfix.advance] at hq
    split at hq
    · simp at hq
    · obtain rfl := Except.ok.inj hq
      refine ⟨hlength, hnesting, ?_, hle⟩
      simpa using hopened

/-- Where a parenthesis can be closed, the counter can be taken from. -/
theorem nesting_pos {closed : List Item × List Waiting} (h : p.Counts limits before)
    (hclose : close? p.stack = some closed) : 0 < p.nesting := by
  rw [h.nesting, opened_of_close? hclose]
  exact Nat.succ_pos _

end Progress.Counts

/-- Everything is counted wherever the loop arrives. -/
theorem counts_of_advanceAll (h : advanceAll limits tokens = .ok p) : p.Counts limits tokens := by
  induction tokens using List.reverseRecOn generalizing p with
  | nil =>
    obtain rfl := Except.ok.inj h
    exact .start limits
  | append_singleton tokens token ih =>
    rw [advanceAll_concat] at h
    cases hp : advanceAll limits tokens with
    | error e => simp [hp, bind, Except.bind] at h
    | ok p' => exact (ih hp).advance (by simpa [hp, bind, Except.bind] using h)

end Postfix

end Criteria
