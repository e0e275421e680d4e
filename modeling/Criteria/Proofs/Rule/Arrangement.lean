import Criteria.Proofs.Rule.Grammar
import Criteria.Proofs.Tree.Depth

/-!
# Arranging and building

Putting derived tokens into postfix order emits the items of their tree, but for
some connectives that still wait on the stack; and building the items of a tree
gives the tree back, on top of what has been built before.

* `arranges_of_derives`: the stack of connectives, over a derivation;
* `exists_of_release`, `exists_of_close?`, `exists_of_drain`: what leaves the stack, over any
  tokens;
* `build_items`: the stack of trees, over a tree that is not too deep;
* `build_items_of_lt`: the same over a tree that is too deep, which fails at the first
  level beyond the limit.
-/

namespace Criteria

namespace Tree

open Postfix (Item)

/-- A tree in postfix order. -/
def items : Tree → List Item
  | .leaf c => [.operand c]
  | .join op left right => left.items ++ right.items ++ [.connective op]

end Tree

namespace Postfix

/-- Connectives waiting on a stack. -/
abbrev waiting (ops : List Connective) (stack : List Waiting) : List Waiting :=
  ops.map .connective ++ stack

/-- Nothing on the stack that binds at least as tightly as `strength` can be
    released: a parenthesis or a weaker connective is on top. -/
def Below (strength : Nat) : List Waiting → Prop
  | .connective top :: _ => top.strength < strength
  | _ => True

theorem Below.mono {s s' : Nat} {stack : List Waiting} (h : Below s stack) (hs : s ≤ s') :
    Below s' stack := by
  match stack with
  | .connective _ :: _ => exact Nat.lt_of_lt_of_le h hs
  | .opening :: _ => trivial
  | [] => trivial

/-- A connective releases what binds at least as tightly, and nothing below it. -/
theorem release_waiting {op : Connective} {ops : List Connective} {stack : List Waiting}
    (hops : ∀ top ∈ ops, op.strength ≤ top.strength) (hs : Below op.strength stack) :
    release op (waiting ops stack) = (ops.map .connective, stack) := by
  induction ops with
  | nil =>
    match stack with
    | .connective top :: _ => exact if_pos hs
    | .opening :: _ => rfl
    | [] => rfl
  | cons top ops ih =>
    have hle := hops top List.mem_cons_self
    have := ih fun op hop => hops op (List.mem_cons_of_mem _ hop)
    simp only [waiting, List.map_cons, List.cons_append, release, if_neg (Nat.not_lt.2 hle)]
    rw [this]

/-- A closing parenthesis releases all that waits above its opening one. -/
theorem close?_waiting (ops : List Connective) (stack : List Waiting) :
    close? (waiting ops (.opening :: stack)) = some (ops.map .connective, stack) := by
  induction ops with
  | nil => rfl
  | cons op ops ih =>
    simp only [waiting, List.map_cons, List.cons_append, close?] at ih ⊢
    simp [ih]

theorem drain_waiting (ops : List Connective) :
    drain (waiting ops []) = .ok (ops.map .connective) := by
  induction ops with
  | nil => rfl
  | cons op ops ih =>
    simp only [waiting, List.map_cons, List.cons_append, drain] at ih ⊢
    rw [ih]
    rfl

/-- What remains to be arranged behind items that have already been emitted. -/
theorem map_append_map (first second : List Item) (result : Except ReadError (List Item)) :
    (first ++ ·) <$> (second ++ ·) <$> result = ((first ++ second) ++ ·) <$> result := by
  cases result <;> simp [Functor.map, Except.map]

/-! ## Arranging -/

/-- On the stack, the tokens emit `output` and leave `pending` on top. -/
def Emits (tokens : List Token) (stack : List Waiting) (output : List Item)
    (pending : List Connective) : Prop :=
  ∀ (limits : Limits) (position nesting : Nat) (rest : List Token),
    Token.deepest nesting tokens ≤ limits.nesting →
      arrange limits position nesting stack (tokens ++ rest) =
        (output ++ ·) <$> arrange limits (position + tokens.length) nesting
          (waiting pending stack) rest

theorem emits_condition {text : String} {c : Condition} (h : Condition.read text = .ok c)
    (stack : List Waiting) : Emits [.condition text] stack [.operand c] [] := by
  intro limits position nesting rest _
  simp only [List.cons_append, List.nil_append, arrange, h]
  rfl

/-- In parentheses, all that waits is released when they are closed. -/
theorem Emits.group {tokens : List Token} {t : Tree} (h : Derives .expression tokens t)
    {stack : List Waiting} {output : List Item} {pending : List Connective}
    (he : Emits tokens (.opening :: stack) output pending) :
    Emits (.opening :: (tokens ++ [.closing])) stack (output ++ pending.map .connective) [] := by
  intro limits position nesting rest hn
  rw [Token.deepest, h.deepest_append] at hn
  have := Token.le_deepest (nesting + 1) tokens
  have hle : ¬limits.nesting < nesting + 1 := by omega
  have hlen : position + 1 + tokens.length + 1 =
      position + (Token.opening :: (tokens ++ [.closing])).length := by
    simp only [List.length_cons, List.length_append, List.length_nil]
    omega
  simp only [List.cons_append, List.append_assoc, arrange, if_neg hle]
  rw [he limits (position + 1) (nesting + 1) _ (by omega)]
  simp only [List.nil_append, arrange, close?_waiting, Nat.add_sub_cancel]
  rw [map_append_map, hlen]
  simp [waiting]

/-- A connective releases what waits of its left part, and waits for its right one. -/
theorem Emits.join {op : Connective} {level : Level} {tokens more : List Token} {t : Tree}
    (h : Derives level tokens t) {stack : List Waiting} (hs : Below op.strength stack)
    {output output' : List Item} {pending pending' : List Connective}
    (hpending : ∀ top ∈ pending, op.strength ≤ top.strength)
    (he : Emits tokens stack output pending)
    (he' : Emits more (.connective op :: stack) output' pending') :
    Emits (tokens ++ .connective op :: more) stack
      (output ++ pending.map .connective ++ output') (pending' ++ [op]) := by
  intro limits position nesting rest hn
  rw [h.deepest_append, Token.deepest] at hn
  have hlen : position + tokens.length + 1 + more.length =
      position + (tokens ++ .connective op :: more).length := by
    simp only [List.length_append, List.length_cons]
    omega
  rw [List.append_assoc, List.cons_append, he limits position nesting _ (by omega)]
  simp only [arrange, release_waiting hpending hs]
  rw [he' limits _ nesting rest (by omega), map_append_map, map_append_map, hlen]
  simp [waiting]

/-- On the stack, the tokens emit the items of the tree, but for connectives of at
    least the given strength, which wait on top of the stack. -/
def Arranges (strength : Nat) (tokens : List Token) (t : Tree) (stack : List Waiting) : Prop :=
  ∃ (output : List Item) (pending : List Connective),
    output ++ pending.map .connective = t.items ∧ (∀ op ∈ pending, strength ≤ op.strength) ∧
      Emits tokens stack output pending

theorem Arranges.mono {s s' : Nat} {tokens : List Token} {t : Tree} {stack : List Waiting}
    (h : Arranges s tokens t stack) (hs : s' ≤ s) : Arranges s' tokens t stack :=
  let ⟨output, pending, hitems, hpending, he⟩ := h
  ⟨output, pending, hitems, fun op hop => Nat.le_trans hs (hpending op hop), he⟩

theorem Arranges.join {op : Connective} {level : Level} {tokens more : List Token} {t u : Tree}
    (hd : Derives level tokens t) {stack : List Waiting} (hs : Below op.strength stack)
    (h : Arranges op.strength tokens t stack)
    (h' : Arranges (op.strength + 1) more u (.connective op :: stack)) :
    Arranges op.strength (tokens ++ .connective op :: more) (.join op t u) stack := by
  obtain ⟨output, pending, hitems, hpending, he⟩ := h
  obtain ⟨output', pending', hitems', hpending', he'⟩ := h'
  refine ⟨_, _, ?_, ?_, he.join hd hs hpending he'⟩
  · rw [Tree.items, ← hitems, ← hitems']
    simp
  · intro top htop
    rcases List.mem_append.1 htop with htop | htop
    · exact Nat.le_of_succ_le (hpending' top htop)
    · exact Nat.le_of_eq (congrArg _ (List.mem_singleton.1 htop).symm)

/-- Derived tokens are arranged into the items of their tree: what then waits on the
    stack is no weaker than their level. -/
theorem arranges_of_derives {level : Level} {tokens : List Token} {t : Tree}
    (h : Derives level tokens t) {stack : List Waiting} (hs : Below level.strength stack) :
    Arranges level.strength tokens t stack := by
  induction h generalizing stack with
  | @condition text c hc => exact ⟨[.operand c], [], rfl, by simp, emits_condition hc stack⟩
  | @group tokens t h ih =>
    -- Inside the parentheses nothing below the opening one can be released.
    obtain ⟨output, pending, hitems, -, he⟩ := ih (show Below _ (.opening :: stack) from trivial)
    exact ⟨t.items, [], by simp, by simp, hitems ▸ he.group h⟩
  | factor _ ih | term _ ih => exact (ih (hs.mono (by decide))).mono (by decide)
  | conjunction h _ ih₁ ih₂ =>
    exact Arranges.join h hs (ih₁ hs) (ih₂ (show Connective.strength .and < 3 by decide))
  | disjunction h _ ih₁ ih₂ =>
    exact Arranges.join h hs (ih₁ hs) (ih₂ (show Connective.strength .or < 2 by decide))

/-- The tokens of an expression are arranged into the items of its tree. -/
theorem ofTokens_derives {tokens : List Token} {t : Tree} (h : Derives .expression tokens t)
    {limits : Limits} (hn : Token.nesting tokens ≤ limits.nesting) :
    ofTokens limits tokens = .ok t.items := by
  obtain ⟨output, pending, hitems, -, he⟩ := arranges_of_derives h (show Below _ [] from trivial)
  have := he limits 0 0 [] hn
  rw [List.append_nil] at this
  rw [ofTokens, this, arrange, drain_waiting, ← hitems]
  rfl

theorem map_eq_ok {α β : Type} {f : α → β} {result : Except ReadError α} {b : β}
    (h : f <$> result = .ok b) : ∃ a, result = .ok a ∧ f a = b := by
  cases result with
  | error e => simp [Functor.map, Except.map] at h
  | ok a => exact ⟨a, rfl, Except.ok.inj h⟩

theorem map_eq_error {α β : Type} {f : α → β} {result : Except ReadError α}
    (h : f <$> result = .error e) : result = .error e := by
  cases result with
  | error e' => exact congrArg _ (Except.error.inj h)
  | ok a => simp [Functor.map, Except.map] at h

/-! ## What leaves the stack -/

/-- What is released are connectives from the top of the stack. -/
theorem exists_of_release (op : Connective) (stack : List Waiting) :
    ∃ ops, stack = waiting ops (release op stack).2 ∧
      (release op stack).1 = ops.map .connective := by
  fun_induction release op stack with
  | case1 | case3 => exact ⟨[], rfl, rfl⟩
  | case2 top stack _ items rest hrest ih =>
    rw [hrest] at ih
    obtain ⟨ops, hstack, hitems⟩ := ih
    exact ⟨top :: ops, congrArg (_ :: ·) hstack, congrArg (_ :: ·) hitems⟩

/-- What a closing parenthesis takes are connectives and the parenthesis below them. -/
theorem exists_of_close? {stack rest : List Waiting} {items : List Item}
    (h : close? stack = some (items, rest)) :
    ∃ ops, stack = waiting ops (.opening :: rest) ∧ items = ops.map .connective := by
  induction stack generalizing items rest with
  | nil => simp [close?] at h
  | cons first stack ih =>
    cases first with
    | opening =>
      obtain ⟨rfl, rfl⟩ := Prod.mk.inj (Option.some.inj h)
      exact ⟨[], rfl, rfl⟩
    | connective op =>
      obtain ⟨⟨items, rest⟩, hclose, heq⟩ := Option.map_eq_some_iff.1 h
      obtain ⟨rfl, rfl⟩ := Prod.mk.inj heq
      obtain ⟨ops, rfl, rfl⟩ := ih hclose
      exact ⟨op :: ops, rfl, rfl⟩

/-- What is left on the stack in the end are connectives. -/
theorem exists_of_drain {stack : List Waiting} {items : List Item} (h : drain stack = .ok items) :
    ∃ ops, stack = waiting ops [] ∧ items = ops.map .connective := by
  induction stack generalizing items with
  | nil => exact ⟨[], rfl, (Except.ok.inj h).symm⟩
  | cons first stack ih =>
    cases first with
    | opening => simp [drain] at h
    | connective op =>
      obtain ⟨drained, hdrain, rfl⟩ := map_eq_ok h
      obtain ⟨ops, rfl, rfl⟩ := ih hdrain
      exact ⟨op :: ops, rfl, rfl⟩

/-! ## The limit of nesting -/

/-- Arranging fails where parentheses nest too deep. -/
theorem deepest_le_of_arrange {limits : Limits} {position nesting : Nat} {stack : List Waiting}
    {tokens : List Token} {items : List Item} (hn : nesting ≤ limits.nesting)
    (h : arrange limits position nesting stack tokens = .ok items) :
    Token.deepest nesting tokens ≤ limits.nesting := by
  fun_induction arrange limits position nesting stack tokens generalizing items with
  | case1 => exact hn
  | case2 position nesting stack op tokens released stack' _ ih =>
    obtain ⟨items, h, -⟩ := map_eq_ok h
    exact ih hn h
  | case3 => simp at h
  | case4 position nesting stack tokens hlt ih => exact ih (by omega) h
  | case5 => simp at h
  | case6 position nesting stack tokens released stack' _ ih =>
    obtain ⟨items, h, -⟩ := map_eq_ok h
    have := ih (by omega) h
    rw [Token.deepest]
    omega
  | case7 => simp at h
  | case8 position nesting stack text tokens c _ ih =>
    obtain ⟨items, h, -⟩ := map_eq_ok h
    exact ih hn h

/-! ## Building -/

variable {limits : Limits} {built : List (Tree × Nat)} {rest : List Item}

/-- The items of a tree that is not too deep build it on top of what has been built. -/
theorem build_items {t : Tree} (ht : t.isLeaf ∨ t.height ≤ limits.depth) :
    build limits built (t.items ++ rest) = build limits ((t, t.height) :: built) rest := by
  induction t generalizing built rest with
  | leaf c => rfl
  | join op left right ih₁ ih₂ =>
    have hle : max left.height right.height + 1 ≤ limits.depth :=
      ht.resolve_left (by simp [Tree.isLeaf])
    rw [Tree.items, List.append_assoc, List.append_assoc, ih₁ (.inr (by omega)),
      ih₂ (.inr (by omega))]
    simp only [List.cons_append, List.nil_append, build, if_neg (Nat.not_lt.2 hle)]
    rfl

/-- The height of a join that is the first level beyond a limit. -/
theorem joined_of_lt {limit : Nat} {left right : Tree} (h₁ : left.isLeaf ∨ left.height ≤ limit)
    (h₂ : right.isLeaf ∨ right.height ≤ limit) (h : limit < max left.height right.height + 1) :
    max left.height right.height + 1 = max limit 1 + 1 := by
  have of_leaf : ∀ {t : Tree}, t.isLeaf ∨ t.height ≤ limit → t.height ≤ max limit 1 := by
    rintro (c | _) h
    · exact Nat.le_max_right _ _
    · exact Nat.le_trans (h.resolve_left (by simp [Tree.isLeaf])) (Nat.le_max_left _ _)
  have := of_leaf h₁
  have := of_leaf h₂
  have := left.height_pos
  omega

/-- The items of a tree that is too deep fail at the first level beyond the limit. -/
theorem build_items_of_lt {t : Tree} (hl : ¬t.isLeaf) (ht : limits.depth < t.height) :
    build limits built (t.items ++ rest) =
      .error (.treeTooDeep (max limits.depth 1 + 1) limits.depth) := by
  induction t generalizing built rest with
  | leaf c => exact absurd rfl hl
  | join op left right ih₁ ih₂ =>
    rw [Tree.items, List.append_assoc, List.append_assoc]
    by_cases h₁ : left.isLeaf ∨ left.height ≤ limits.depth
    · rw [build_items h₁]
      by_cases h₂ : right.isLeaf ∨ right.height ≤ limits.depth
      · -- Both parts are within the limit, and the join is the first level beyond it.
        rw [build_items h₂]
        have ht : limits.depth < max left.height right.height + 1 := ht
        simp only [List.cons_append, List.nil_append, build, if_pos ht]
        rw [joined_of_lt h₁ h₂ ht]
      · obtain ⟨hl, hd⟩ := not_or.1 h₂
        exact ih₂ hl (Nat.lt_of_not_le hd)
    · obtain ⟨hl, hd⟩ := not_or.1 h₁
      exact ih₁ hl (Nat.lt_of_not_le hd)

theorem toTree_items {t : Tree} (ht : t.isLeaf ∨ t.height ≤ limits.depth) :
    toTree limits t.items = .ok t := by
  have := @build_items limits [] [] t ht
  rw [List.append_nil] at this
  exact this

theorem toTree_items_of_lt {t : Tree} (hl : ¬t.isLeaf) (ht : limits.depth < t.height) :
    toTree limits t.items = .error (.treeTooDeep (max limits.depth 1 + 1) limits.depth) := by
  have := @build_items_of_lt limits [] [] t hl ht
  rw [List.append_nil] at this
  exact this

end Postfix

end Criteria
