import Criteria.Proofs.Condition.Written
import Criteria.Proofs.Rule.Parts
import Criteria.Proofs.Rule.Progress

/-!
# The first fault of a rule string

The tokens of a rule string are arranged one by one, from the left. A token is a *fault* where
it cannot stand: an opening parenthesis beyond the limit of nesting, a closing one while none is
open, or a condition that cannot be read. The first fault is what is reported. A parenthesis
that stays open is reported where there is no fault, and what goes wrong in building a tree only
where none stays open either.

* `Postfix.Progress.Counts.advance_eq_error_iff`: the loop stops at a token just if it is a fault;
* `Postfix.advanceAll_cases`: there is no fault, or the loop stops at the first one;
* `Postfix.ofTokens_cases`: what the tokens are arranged into;
* `Tree.firstFault_decides`: how a rule string fails that does not read.
-/

namespace Criteria

namespace Postfix

variable {limits : Limits} {tokens before : List Token} {token : Token} {e : ReadError}
  {p : Progress}

/-! ## Faults -/

/-- Behind the tokens `before`, the token cannot stand, for this reason. -/
inductive Fault (limits : Limits) (before : List Token) : Token → ReadError → Prop
  | opening : limits.nesting < Token.unclosed before + 1 →
    Fault limits before .opening (.nestingTooDeep (limits.nesting + 1) limits.nesting)
  | closing : Token.unclosed before = 0 →
    Fault limits before .closing (.unmatchedClosing before.length)
  | condition {text : String} : (∀ c, Condition.read text ≠ .ok c) →
    Fault limits before (.condition text) (.malformedCondition text)

/-- None of the tokens is a fault. -/
def Faultless (limits : Limits) (tokens : List Token) : Prop :=
  ∀ before token, before ++ [token] <+: tokens → ∀ e, ¬Fault limits before token e

/-- The first fault among the tokens has this reason. -/
def FirstFault (limits : Limits) (tokens : List Token) (e : ReadError) : Prop :=
  ∃ before token, before ++ [token] <+: tokens ∧ Faultless limits before ∧
    Fault limits before token e

theorem faultless_nil : Faultless limits [] := by
  intro before token h
  simp at h

theorem faultless_concat :
    Faultless limits (tokens ++ [token]) ↔
      Faultless limits tokens ∧ ∀ e, ¬Fault limits tokens token e := by
  constructor
  · intro h
    exact ⟨fun before token' hp => h before token' (hp.trans (List.prefix_append _ _)),
      h tokens token (List.prefix_refl _)⟩
  · rintro ⟨h, htoken⟩ before token' hp
    rcases List.prefix_concat_iff.1 hp with heq | hp
    · obtain ⟨rfl, heq⟩ := List.append_inj' heq rfl
      obtain rfl : token' = token := by simpa using heq
      exact htoken
    · exact h before token' hp

theorem fault_opening_iff :
    Fault limits before .opening e ↔ limits.nesting < Token.unclosed before + 1 ∧
      e = .nestingTooDeep (limits.nesting + 1) limits.nesting := by
  constructor
  · intro h
    cases h with
    | opening h => exact ⟨h, rfl⟩
  · rintro ⟨h, rfl⟩
    exact .opening h

theorem fault_closing_iff :
    Fault limits before .closing e ↔
      Token.unclosed before = 0 ∧ e = .unmatchedClosing before.length := by
  constructor
  · intro h
    cases h with
    | closing h => exact ⟨h, rfl⟩
  · rintro ⟨h, rfl⟩
    exact .closing h

theorem fault_condition_iff {text : String} :
    Fault limits before (.condition text) e ↔
      (∀ c, Condition.read text ≠ .ok c) ∧ e = .malformedCondition text := by
  constructor
  · intro h
    cases h with
    | condition h => exact ⟨h, rfl⟩
  · rintro ⟨h, rfl⟩
    exact .condition h

/-- A token cannot be arranged just if it is a fault, and for the same reason. -/
theorem Progress.Counts.advance_eq_error_iff (h : p.Counts limits before) :
    Postfix.advance limits p token = .error e ↔ Fault limits before token e := by
  cases token with
  | connective op => exact iff_of_false (by simp [Postfix.advance]) nofun
  | opening =>
    rw [Postfix.advance, fault_opening_iff, h.unclosed]
    split
    · rename_i hlt
      -- The counter exceeds the limit by one, since it has been within the limit before.
      rw [Nat.le_antisymm h.le (Nat.le_of_lt_succ hlt)]
      simp [eq_comm]
    · rename_i hle
      simp [hle]
  | closing =>
    rw [Postfix.advance, fault_closing_iff, h.unclosed, h.nesting, h.position]
    split
    · rename_i hclose
      simp [opened_eq_zero_of_close? hclose, eq_comm]
    · rename_i hclose
      simp [opened_of_close? hclose]
  | condition text =>
    rw [Postfix.advance, fault_condition_iff]
    split
    · rename_i hread
      simp [Condition.eq_of_read_error hread, hread, eq_comm]
    · rename_i hread
      simp [hread]

/-- The loop goes through all tokens just if none is a fault, and otherwise ends at the first
    one. The induction is on the last token. -/
theorem advanceAll_cases (limits : Limits) (tokens : List Token) :
    (∃ p, advanceAll limits tokens = .ok p ∧ Faultless limits tokens) ∨
      ∃ e, advanceAll limits tokens = .error e ∧ FirstFault limits tokens e := by
  induction tokens using List.reverseRecOn with
  | nil => exact .inl ⟨.start, rfl, faultless_nil⟩
  | append_singleton tokens token ih =>
    rw [advanceAll_concat]
    rcases ih with ⟨p, hp, hfaultless⟩ | ⟨e, he, before, fault, hprefix, hfault⟩
    · have hcounts := counts_of_advanceAll hp
      rw [hp]
      change (∃ q, advance limits p token = .ok q ∧ _) ∨ ∃ e, advance limits p token = .error e ∧ _
      cases hadvance : advance limits p token with
      | ok q =>
        refine .inl ⟨q, rfl, faultless_concat.2 ⟨hfaultless, fun e he => ?_⟩⟩
        rw [← hcounts.advance_eq_error_iff, hadvance] at he
        simp at he
      | error e =>
        exact .inr ⟨e, rfl, tokens, token, List.prefix_refl _, hfaultless,
          hcounts.advance_eq_error_iff.1 hadvance⟩
    · rw [he]
      exact .inr ⟨e, rfl, before, fault, hprefix.trans (List.prefix_append _ _), hfault⟩

theorem faultless_of_advanceAll (h : advanceAll limits tokens = .ok p) :
    Faultless limits tokens := by
  rcases advanceAll_cases limits tokens with ⟨-, -, hfaultless⟩ | ⟨e, he, -⟩
  · exact hfaultless
  · simp [h] at he

/-- Tokens with a first fault fail, however they go on behind it. -/
theorem advanceAll_of_firstFault (h : FirstFault limits tokens e) :
    advanceAll limits tokens = .error e := by
  obtain ⟨before, token, ⟨after, rfl⟩, hfaultless, hfault⟩ := h
  rcases advanceAll_cases limits before with ⟨p, hp, -⟩ | ⟨e', -, earlier, fault, hprefix, -, hf⟩
  · have hadvance := (counts_of_advanceAll hp).advance_eq_error_iff.2 hfault
    rw [advanceAll_append, advanceAll_concat, hp]
    change (advance limits p token >>= _) = _
    rw [hadvance]
    rfl
  · exact absurd hf (hfaultless earlier fault hprefix e')

theorem FirstFault.not_faultless (h : FirstFault limits tokens e) : ¬Faultless limits tokens := by
  obtain ⟨before, token, hprefix, -, hfault⟩ := h
  exact fun hfaultless => hfaultless before token hprefix e hfault

/-! ## Behind the last token -/

/-- In the end, an open parenthesis on the stack is an error, and the only one. -/
theorem drain_cases (stack : List Waiting) :
    (opened stack = 0 ∧ ∃ items, drain stack = .ok items) ∨
      (0 < opened stack ∧ drain stack = .error .unclosedOpening) := by
  induction stack with
  | nil => exact .inl ⟨rfl, [], rfl⟩
  | cons first stack ih =>
    cases first with
    | opening => exact .inr ⟨Nat.succ_pos _, rfl⟩
    | connective op =>
      rcases ih with ⟨hzero, items, hitems⟩ | ⟨hpos, herror⟩
      · exact .inl ⟨hzero, .connective op :: items, by rw [drain, hitems]; rfl⟩
      · exact .inr ⟨hpos, by rw [drain, herror]; rfl⟩

/-- What tokens are arranged into: the first fault is reported, then a parenthesis that stays
    open. -/
theorem ofTokens_cases (limits : Limits) (tokens : List Token) :
    (∃ e, ofTokens limits tokens = .error e ∧ FirstFault limits tokens e) ∨
      Faultless limits tokens ∧
        ((0 < Token.unclosed tokens ∧ ofTokens limits tokens = .error .unclosedOpening) ∨
          (Token.unclosed tokens = 0 ∧ ∃ items, ofTokens limits tokens = .ok items)) := by
  rw [ofTokens_eq_advanceAll]
  rcases advanceAll_cases limits tokens with ⟨p, hp, hfaultless⟩ | ⟨e, he, hfault⟩
  · have hcounts := counts_of_advanceAll hp
    rw [hp, hcounts.unclosed, hcounts.nesting]
    change _ ∨ _ ∧ ((_ ∧ p.finish = _) ∨ (_ ∧ ∃ items, p.finish = .ok items))
    rw [Progress.finish]
    rcases drain_cases p.stack with ⟨hzero, items, hitems⟩ | ⟨hpos, herror⟩
    · exact .inr ⟨hfaultless, .inr ⟨hzero, p.items ++ items, by rw [hitems]; rfl⟩⟩
    · exact .inr ⟨hfaultless, .inl ⟨hpos, by rw [herror]; rfl⟩⟩
  · rw [he]
    exact .inl ⟨e, rfl, hfault⟩

end Postfix

/-! ## Reading -/

/-- Whether an error is one of building a tree from items. -/
def ReadError.OfBuilding : ReadError → Prop
  | .missingOperand _ => True
  | .treeTooDeep _ _ => True
  | .leftover _ => True
  | _ => False

theorem Postfix.Fault.not_ofBuilding {limits : Limits} {before : List Token} {token : Token}
    {e : ReadError} (h : Fault limits before token e) : ¬e.OfBuilding := by
  cases h <;> exact id

namespace Tree

open Postfix

variable {limits : Limits} {s : String} {e : ReadError}

theorem read_of_ofTokens_error (h : ofTokens limits (Token.split s) = .error e) :
    read limits s = .error e := by
  rw [read, h]

theorem read_of_firstFault (h : FirstFault limits (Token.split s) e) :
    read limits s = .error e := by
  refine read_of_ofTokens_error ?_
  rw [ofTokens_eq_advanceAll, advanceAll_of_firstFault h]
  rfl

/-- Building a tree fails only where all tokens could be arranged. -/
theorem faultless_of_ofBuilding (h : read limits s = .error e) (he : e.OfBuilding) :
    Faultless limits (Token.split s) ∧ Token.unclosed (Token.split s) = 0 ∧
      ∃ items, ofTokens limits (Token.split s) = .ok items ∧ toTree limits items = .error e := by
  have harranging {e' : ReadError} (h' : ofTokens limits (Token.split s) = .error e') : e = e' :=
    Except.error.inj (h.symm.trans (read_of_ofTokens_error h'))
  rcases ofTokens_cases limits (Token.split s) with
    ⟨e', he', before, token, -, -, hfault⟩ | ⟨hfaultless, ⟨-, hopen⟩ | ⟨hzero, items, hitems⟩⟩
  · rw [harranging he'] at he
    exact absurd he hfault.not_ofBuilding
  · rw [harranging hopen] at he
    exact he.elim
  · refine ⟨hfaultless, hzero, items, hitems, ?_⟩
    rwa [read, hitems] at h

/-- The trees that are left over are as many as the conditions, less the connectives. -/
theorem leftover_of_read {roots : Nat} (h : read limits s = .error (.leftover roots)) :
    roots ≠ 1 ∧ roots + (Token.connectives (Token.split s)).length =
      (Token.texts (Token.split s)).length := by
  obtain ⟨-, -, items, hitems, hbuild⟩ := faultless_of_ofBuilding h trivial
  obtain ⟨hne, hroots⟩ := leftover_of_build hbuild
  have hconnectives : (connectives items).length = (Token.connectives (Token.split s)).length :=
    (perm_of_arrange hitems).length_eq
  have hoperands : (Token.texts (Token.split s)).length = (operands items).length :=
    (forall₂_of_arrange hitems).length_eq
  refine ⟨hne, ?_⟩
  rw [← hconnectives, hroots, hoperands]
  exact Nat.zero_add _

/-- The first fault among the tokens of a rule string decides how it fails. Where there is none,
    a parenthesis that stays open does. Only where there is neither can a tree fail to be built,
    and the trees that are left over then are as many as the conditions, less the connectives,
    and not one. Arranging is a loop over the tokens. Wherever it arrives, the counter of open
    parentheses is their number on the stack, so that it can be taken from when one is closed. -/
theorem firstFault_decides (limits : Limits) (s : String) :
    (Faultless limits (Token.split s) ∨ ∃ e, FirstFault limits (Token.split s) e) ∧
    (∀ e, FirstFault limits (Token.split s) e → read limits s = .error e) ∧
    (Faultless limits (Token.split s) → 0 < Token.unclosed (Token.split s) →
      read limits s = .error .unclosedOpening) ∧
    (∀ e, read limits s = .error e → e.OfBuilding →
      Faultless limits (Token.split s) ∧ Token.unclosed (Token.split s) = 0) ∧
    (∀ roots, read limits s = .error (.leftover roots) →
      roots ≠ 1 ∧ roots + (Token.connectives (Token.split s)).length =
        (Token.texts (Token.split s)).length) ∧
    ofTokens limits (Token.split s) = advanceAll limits (Token.split s) >>= Progress.finish ∧
    ∀ before after p, Token.split s = before ++ after → advanceAll limits before = .ok p →
      ofTokens limits (Token.split s) =
          (p.items ++ ·) <$> arrange limits p.position p.nesting p.stack after ∧
        p.nesting = opened p.stack ∧ ∀ closed, close? p.stack = some closed → 0 < p.nesting := by
  refine ⟨?_, fun e => read_of_firstFault, fun hfaultless hpos => ?_, fun e h he => ?_,
    fun roots => leftover_of_read, ofTokens_eq_advanceAll _, fun before after p hsplit hp => ?_⟩
  · rcases ofTokens_cases limits (Token.split s) with ⟨e, -, hfault⟩ | ⟨hfaultless, -⟩
    · exact .inr ⟨e, hfault⟩
    · exact .inl hfaultless
  · rcases ofTokens_cases limits (Token.split s) with
      ⟨e, -, hfault⟩ | ⟨-, ⟨-, hopen⟩ | ⟨hzero, -⟩⟩
    · exact absurd hfaultless hfault.not_faultless
    · exact read_of_ofTokens_error hopen
    · exact absurd hzero hpos.ne'
  · obtain ⟨hfaultless, hzero, -⟩ := faultless_of_ofBuilding h he
    exact ⟨hfaultless, hzero⟩
  · have hcounts := counts_of_advanceAll hp
    refine ⟨?_, hcounts.nesting, fun closed => hcounts.nesting_pos⟩
    rw [hsplit]
    exact ofTokens_of_advanceAll hp after

theorem firstFault_decides_three :
    let deep := "(a > 1 AND (b ! 2))"
    let unclosed := "(a > 1 OR b > 2"
    let adjacent := "a > 1 (b > 2)"
    let begun : List Token := [.opening, .condition "a > 1", .connective .or]
    let a : Item := .operand ⟨"a", .greater, .number (.ofInt 1)⟩
    let p : Progress := ⟨[a], 3, 1, [.connective .or, .opening]⟩
    (FirstFault ⟨1, 3⟩ (Token.split deep) (.nestingTooDeep 2 1) ∧
      read ⟨1, 3⟩ deep = .error (.nestingTooDeep 2 1)) ∧
    (Faultless {} (Token.split unclosed) ∧ 0 < Token.unclosed (Token.split unclosed) ∧
      read {} unclosed = .error .unclosedOpening) ∧
    (read {} adjacent = .error (.leftover 2) ∧ Faultless {} (Token.split adjacent) ∧
      2 + (Token.connectives (Token.split adjacent)).length =
        (Token.texts (Token.split adjacent)).length) ∧
    (advanceAll {} begun = .ok p ∧
      ofTokens {} (Token.split unclosed) =
        (p.items ++ ·) <$> arrange {} p.position p.nesting p.stack [.condition "b > 2"] ∧
      p.nesting = opened p.stack ∧ close? p.stack = some ([.connective .or], []) ∧
      0 < p.nesting) := by
  intro deep unclosed adjacent begun a p
  have hfirst : FirstFault ⟨1, 3⟩ (Token.split deep) (.nestingTooDeep 2 1) := by
    have hbefore : advanceAll ⟨1, 3⟩ [.opening, .condition "a > 1", .connective .and] =
        .ok ⟨[a], 3, 1, [.connective .and, .opening]⟩ := by decide +kernel
    exact ⟨_, .opening, by decide +kernel, faultless_of_advanceAll hbefore, .opening (by decide)⟩
  have hfaultless : Faultless {} (Token.split unclosed) := by
    let b : Item := .operand ⟨"b", .greater, .number (.ofInt 2)⟩
    have hall : advanceAll {} (Token.split unclosed) = .ok ⟨[a, b], 4, 1, p.stack⟩ := by
      decide +kernel
    exact faultless_of_advanceAll hall
  have hopen : 0 < Token.unclosed (Token.split unclosed) := by decide +kernel
  have hadjacent : read {} adjacent = .error (.leftover 2) := by decide +kernel
  have hbegun : advanceAll {} begun = .ok p := by decide +kernel
  have hclosing : close? p.stack = some ([.connective .or], []) := rfl
  obtain ⟨-, -, hunclosed, -, -, -, hcounter⟩ := firstFault_decides {} unclosed
  obtain ⟨-, -, -, hbuilding, hleftover, -⟩ := firstFault_decides {} adjacent
  obtain ⟨harranging, hnesting, hpos⟩ :=
    hcounter begun [.condition "b > 2"] p (by decide +kernel) hbegun
  exact ⟨⟨hfirst, (firstFault_decides ⟨1, 3⟩ deep).2.1 _ hfirst⟩,
    ⟨hfaultless, hopen, hunclosed hfaultless hopen⟩,
    ⟨hadjacent, (hbuilding _ hadjacent trivial).1, (hleftover 2 hadjacent).2⟩,
    ⟨hbegun, harranging, hnesting, hclosing, hpos _ hclosing⟩⟩

end Tree

end Criteria
