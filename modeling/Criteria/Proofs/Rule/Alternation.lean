import Criteria.Proofs.Rule.Leaves
import Criteria.Proofs.Rule.Reading

/-!
# Rule strings that read and are no expressions

Reading asks that the parentheses match, that the conditions can be read, and that every
connective finds two trees to join when it leaves the stack, with one tree left in the end.
It does not ask on which sides of the connective these trees stand: in
`a > 1 (b > 2) AND`, both stand before it. What the grammar asks for beyond this is
that operands and connectives take turns.

* `Token.matched`, `Token.alternate`: parentheses that match, tokens that take turns;
* `Postfix.matched_of_arrange`, `Postfix.perm_of_arrange`, `Postfix.items_of_build`: what is
  asked of tokens in arranging them and in building a tree;
* `exists_derives_of_matched`: matched tokens that take turns are those of an expression;
* `Tree.derives_iff_of_read`: which rule strings that read are expressions.
-/

namespace Criteria

namespace Token

/-- Whether parentheses match in tokens that also close a number of open ones. -/
def matched : Nat → List Token → Bool
  | opened, [] => opened == 0
  | opened, .opening :: tokens => matched (opened + 1) tokens
  | 0, .closing :: _ => false
  | opened + 1, .closing :: tokens => matched opened tokens
  | opened, .connective _ :: tokens => matched opened tokens
  | opened, .condition _ :: tokens => matched opened tokens

/-- Whether tokens take turns. Where an operand is due, which is behind connectives and
    opening parentheses, a condition or an opening parenthesis comes; elsewhere a
    connective, a closing parenthesis or the end. -/
def alternate : Bool → List Token → Bool
  | due, [] => !due
  | due, .condition _ :: tokens => due && alternate false tokens
  | due, .opening :: tokens => due && alternate true tokens
  | due, .closing :: tokens => !due && alternate false tokens
  | due, .connective _ :: tokens => !due && alternate true tokens

/-- The connectives among tokens. -/
def connectives : List Token → List Connective
  | [] => []
  | .connective op :: tokens => op :: connectives tokens
  | _ :: tokens => connectives tokens

end Token

/-! ## What reading asks for -/

namespace Postfix

/-- The connectives among items in postfix order. -/
def connectives : List Item → List Connective
  | [] => []
  | .connective op :: items => op :: connectives items
  | .operand _ :: items => connectives items

theorem connectives_append (items more : List Item) :
    connectives (items ++ more) = connectives items ++ connectives more := by
  fun_induction connectives items with
  | case1 => rfl
  | case2 op items ih => rw [List.cons_append, connectives, ih, List.cons_append]
  | case3 c items ih => rw [List.cons_append, connectives, ih]

theorem connectives_map (ops : List Connective) : connectives (ops.map .connective) = ops := by
  induction ops with
  | nil => rfl
  | cons op ops ih => rw [List.map_cons, connectives, ih]

/-- The connectives that wait on a stack. -/
def held : List Waiting → List Connective
  | [] => []
  | .opening :: stack => held stack
  | .connective op :: stack => op :: held stack

/-- The number of parentheses that are open on a stack. -/
def opened : List Waiting → Nat
  | [] => 0
  | .opening :: stack => opened stack + 1
  | .connective _ :: stack => opened stack

theorem held_waiting (ops : List Connective) (stack : List Waiting) :
    held (waiting ops stack) = ops ++ held stack := by
  induction ops with
  | nil => rfl
  | cons op ops ih => exact congrArg (op :: ·) ih

theorem opened_waiting (ops : List Connective) (stack : List Waiting) :
    opened (waiting ops stack) = opened stack := by
  induction ops with
  | nil => rfl
  | cons op ops ih => exact ih

variable {limits : Limits} {position nesting : Nat} {stack : List Waiting} {tokens : List Token}
  {items : List Item}

theorem opened_release (op : Connective) (stack : List Waiting) :
    opened (release op stack).2 = opened stack := by
  obtain ⟨ops, hstack, -⟩ := exists_of_release op stack
  conv_rhs => rw [hstack, opened_waiting]

theorem opened_of_close? {rest : List Waiting} (h : close? stack = some (items, rest)) :
    opened stack = opened rest + 1 := by
  obtain ⟨ops, rfl, -⟩ := exists_of_close? h
  rw [opened_waiting, opened]

theorem opened_of_drain (h : drain stack = .ok items) : opened stack = 0 := by
  obtain ⟨ops, rfl, -⟩ := exists_of_drain h
  rw [opened_waiting, opened]

theorem opened_pos_of_drain {e : ReadError} (h : drain stack = .error e) : 0 < opened stack := by
  induction stack with
  | nil => simp [drain] at h
  | cons first stack ih =>
    cases first with
    | opening => exact Nat.succ_pos _
    | connective op => exact ih (map_eq_error h)

theorem opened_eq_zero_of_close? (h : close? stack = none) : opened stack = 0 := by
  induction stack with
  | nil => rfl
  | cons first stack ih =>
    cases first with
    | opening => simp [close?] at h
    | connective op => exact ih (Option.map_eq_none_iff.1 h)

/-- Tokens that can be arranged close what is open on the stack. -/
theorem matched_of_arrange (h : arrange limits position nesting stack tokens = .ok items) :
    Token.matched (opened stack) tokens := by
  fun_induction arrange limits position nesting stack tokens generalizing items with
  | case1 position nesting stack =>
    rw [opened_of_drain h]
    rfl
  | case2 position nesting stack op tokens released stack' hrelease ih =>
    obtain ⟨items, h, -⟩ := map_eq_ok h
    rw [← opened_release op stack, hrelease]
    exact ih h
  | case3 => simp at h
  | case4 position nesting stack tokens _ ih => exact ih h
  | case5 => simp at h
  | case6 position nesting stack tokens released stack' hclose ih =>
    obtain ⟨items, h, -⟩ := map_eq_ok h
    rw [opened_of_close? hclose]
    exact ih h
  | case7 => simp at h
  | case8 position nesting stack text tokens c _ ih =>
    obtain ⟨items, h, -⟩ := map_eq_ok h
    exact ih h

/-- No connective is lost or added in postfix order. -/
theorem perm_of_arrange (h : arrange limits position nesting stack tokens = .ok items) :
    (connectives items).Perm (held stack ++ Token.connectives tokens) := by
  fun_induction arrange limits position nesting stack tokens generalizing items with
  | case1 position nesting stack =>
    obtain ⟨ops, rfl, rfl⟩ := exists_of_drain h
    rw [connectives_map, held_waiting]
    simp [held, Token.connectives]
  | case2 position nesting stack op tokens released stack' hrelease ih =>
    obtain ⟨items, hi, rfl⟩ := map_eq_ok h
    obtain ⟨ops, hstack, hreleased⟩ := exists_of_release op stack
    rw [hrelease] at hstack hreleased
    rw [connectives_append, hstack, held_waiting, List.append_assoc, Token.connectives]
    rw [show released = ops.map .connective from hreleased, connectives_map]
    -- The connective itself waits now, above what has not been released.
    exact ((ih hi).trans List.perm_middle.symm).append_left ops
  | case3 => simp at h
  | case4 position nesting stack tokens _ ih => exact ih h
  | case5 => simp at h
  | case6 position nesting stack tokens released stack' hclose ih =>
    obtain ⟨items, hi, rfl⟩ := map_eq_ok h
    obtain ⟨ops, rfl, rfl⟩ := exists_of_close? hclose
    rw [connectives_append, connectives_map, held_waiting, List.append_assoc]
    exact (ih hi).append_left ops
  | case7 => simp at h
  | case8 position nesting stack text tokens c _ ih =>
    obtain ⟨items, hi, rfl⟩ := map_eq_ok h
    rw [connectives]
    exact ih hi

/-- The items from which a tree is built, behind those of the trees before, are the items
    of the tree. -/
theorem items_of_build {built : List (Tree × Nat)} {t : Tree}
    (h : build limits built items = .ok t) :
    t.items = built.reverse.flatMap (·.1.items) ++ items := by
  fun_induction build limits built items with
  | case1 tree depth => simp [Except.ok.inj h]
  | case2 => simp at h
  | case3 built c items ih =>
    rw [ih h]
    simp [Tree.items]
  | case4 => simp at h
  | case5 op items right rightDepth left leftDepth built depth _ ih =>
    rw [ih h]
    simp [Tree.items]
  | case6 => simp at h

/-- A tree has one leaf more than connectives. -/
theorem length_leaves_eq (t : Tree) : t.leaves.length = (connectives t.items).length + 1 := by
  induction t with
  | leaf c => rfl
  | join op left right ih₁ ih₂ =>
    simp only [Tree.items, Tree.leaves, connectives_append, connectives, List.length_append,
      List.length_cons, List.length_nil, ih₁, ih₂]
    omega

end Postfix

/-! ## What the grammar asks for -/

/-- Behind the tokens of an expression, a term or a factor, no operand is due. -/
theorem Derives.alternate_append {level : Level} {tokens : List Token} {t : Tree}
    (h : Derives level tokens t) (rest : List Token) :
    Token.alternate true (tokens ++ rest) = Token.alternate false rest := by
  induction h generalizing rest with
  | condition _ => simp [Token.alternate]
  | group _ ih => simp [Token.alternate, ih]
  | factor _ ih | term _ ih => exact ih rest
  | conjunction _ _ ih₁ ih₂ | disjunction _ _ ih₁ ih₂ => simp [Token.alternate, ih₁, ih₂]

/-- The tokens of an expression take turns. -/
theorem Derives.alternate {level : Level} {tokens : List Token} {t : Tree}
    (h : Derives level tokens t) : Token.alternate true tokens := by
  have := h.alternate_append []
  rw [List.append_nil] at this
  rw [this]
  rfl

/-- What a group holds where an operand is due: nothing, or an expression and a
    connective. -/
inductive Begun : List Token → Prop
  | nothing : Begun []
  | connective {tokens : List Token} {t : Tree} (op : Connective) :
    Derives .expression tokens t → Begun (tokens ++ [.connective op])

/-- What has begun is an expression with the operand that is due. -/
theorem Begun.append {before tokens : List Token} {t : Tree} (hb : Begun before)
    (h : Derives .factor tokens t) : ∃ u, Derives .expression (before ++ tokens) u := by
  obtain _ | ⟨op, he⟩ := hb
  · exact ⟨t, .term (.factor h)⟩
  · rw [List.append_assoc, List.singleton_append]
    cases op with
    | or => exact ⟨_, .disjunction he (.factor h)⟩
    | and =>
      -- `AND` joins the operand to the last term alone.
      cases he with
      | term hterm => exact ⟨_, .term (.conjunction hterm h)⟩
      | disjunction he hlast =>
        rw [List.append_assoc, List.cons_append]
        exact ⟨_, .disjunction he (.conjunction hlast h)⟩

/-- The tokens inside open groups, with what the groups hold before them, the innermost
    first. -/
def within : List (List Token) → List Token → List Token
  | [], inside => inside
  | before :: outer, inside => within outer (before ++ .opening :: inside)

/-- Tokens that take turns and close the groups around them complete the outermost one to
    an expression. The induction is on the tokens, each of which goes into the innermost
    group: where an operand is due, the group has begun; elsewhere it is an expression. -/
theorem exists_derives_within {tokens : List Token} {outer : List (List Token)}
    (houter : ∀ before ∈ outer, Begun before) (hm : Token.matched outer.length tokens)
    (hc : ∀ text ∈ Token.texts tokens, ∃ c, Condition.read text = .ok c) :
    (∀ before, Begun before → Token.alternate true tokens →
      ∃ t, Derives .expression (within outer (before ++ tokens)) t) ∧
    (∀ inside u, Derives .expression inside u → Token.alternate false tokens →
      ∃ t, Derives .expression (within outer (inside ++ tokens)) t) := by
  induction tokens generalizing outer with
  | nil =>
    obtain rfl : outer = [] := List.eq_nil_of_length_eq_zero (by simpa [Token.matched] using hm)
    refine ⟨fun _ _ ha => absurd ha (by decide), fun inside u h _ => ⟨u, ?_⟩⟩
    rwa [List.append_nil]
  | cons token tokens ih =>
    cases token with
    | condition text =>
      obtain ⟨⟨c, htext⟩, hc⟩ := List.forall_mem_cons.1 hc
      refine ⟨fun before hb ha => ?_, fun _ _ _ ha => absurd ha (by simp [Token.alternate])⟩
      obtain ⟨u, hu⟩ := hb.append (.condition htext)
      have := (ih houter hm hc).2 _ u hu ha
      rwa [List.append_assoc, List.singleton_append] at this
    | opening =>
      refine ⟨fun before hb ha => ?_, fun _ _ _ ha => absurd ha (by simp [Token.alternate])⟩
      exact (ih (List.forall_mem_cons.2 ⟨hb, houter⟩) hm hc).1 [] .nothing ha
    | closing =>
      refine ⟨fun _ _ ha => absurd ha (by simp [Token.alternate]), fun inside u h ha => ?_⟩
      -- The group that is closed is the operand that was due around it.
      rcases outer with _ | ⟨before, outer⟩
      · exact absurd hm (by simp [Token.matched])
      · obtain ⟨hb, houter⟩ := List.forall_mem_cons.1 houter
        obtain ⟨v, hv⟩ := hb.append (.group h)
        have := (ih houter hm hc).2 _ v hv ha
        simpa [within] using this
    | connective op =>
      refine ⟨fun _ _ ha => absurd ha (by simp [Token.alternate]), fun inside u h ha => ?_⟩
      have := (ih houter hm hc).1 _ (.connective op h) ha
      rwa [List.append_assoc, List.singleton_append] at this

/-- Matched tokens that take turns, with conditions that can be read, are those of an
    expression. -/
theorem exists_derives_of_matched {tokens : List Token} (hm : Token.matched 0 tokens)
    (hc : ∀ text ∈ Token.texts tokens, ∃ c, Condition.read text = .ok c)
    (ha : Token.alternate true tokens) : ∃ t, Derives .expression tokens t :=
  (exists_derives_within (List.forall_mem_nil _) hm hc).1 [] .nothing ha

namespace Tree

variable {limits : Limits} {s : String} {t : Tree}

/-- In a rule string that reads as a tree, the postfix order of the tokens is that of the
    tree, so that parentheses match, every condition can be read and there is one
    connective less than there are conditions. The tokens are those of an expression, and
    the tree is its tree, just if they take turns. -/
theorem derives_iff_of_read (h : read limits s = .ok t) :
    Postfix.ofTokens limits (Token.split s) = .ok t.items ∧
    Token.matched 0 (Token.split s) ∧
    List.Forall₂ (fun text c => Condition.read text = .ok c) (Token.texts (Token.split s))
      t.leaves ∧
    (Token.texts (Token.split s)).length = (Token.connectives (Token.split s)).length + 1 ∧
    (Derives .expression (Token.split s) t ↔ Token.alternate true (Token.split s)) := by
  obtain ⟨items, hitems, hbuild⟩ := exists_items_of_read h
  obtain rfl : t.items = items := Postfix.items_of_build hbuild
  have hmatched : Token.matched 0 (Token.split s) := Postfix.matched_of_arrange hitems
  have hleaves := forall₂_of_read h
  have hcount : (Postfix.connectives t.items).length =
      (Token.connectives (Token.split s)).length := (Postfix.perm_of_arrange hitems).length_eq
  refine ⟨hitems, hmatched, hleaves, ?_, Derives.alternate, fun ha => ?_⟩
  · rw [hleaves.length_eq, Postfix.length_leaves_eq, hcount]
  · have hread : ∀ text ∈ Token.texts (Token.split s), ∃ c, Condition.read text = .ok c := by
      intro text htext
      obtain ⟨c, -, hc⟩ := exists_rel_of_mem hleaves.flip htext
      exact ⟨c, hc⟩
    obtain ⟨u, hu⟩ := exists_derives_of_matched hmatched hread ha
    obtain ⟨rfl, -⟩ := (read_eq_ok_iff hu).1 h
    exact hu

theorem derives_iff_of_read_group :
    let c (field : String) (n : Nat) : Tree := .leaf ⟨field, .greater, .number (.ofInt n)⟩
    let s := "a > 1 AND (b > 2 OR c > 3)"
    let t := Tree.join .and (c "a" 1) (.join .or (c "b" 2) (c "c" 3))
    read ⟨1, 3⟩ s = .ok t ∧ Token.matched 0 (Token.split s) ∧
      Token.alternate true (Token.split s) ∧ Derives .expression (Token.split s) t := by
  intro c s t
  have hread : read ⟨1, 3⟩ s = .ok t := by decide +kernel
  have halternate : Token.alternate true (Token.split s) := by decide +kernel
  obtain ⟨-, hmatched, -, -, hderives⟩ := derives_iff_of_read hread
  exact ⟨hread, hmatched, halternate, hderives.2 halternate⟩

/-- A connective that follows both of its operands joins them, though no expression is
    written so. -/
theorem not_forall_derives_of_read :
    ¬∀ (limits : Limits) (s : String) (t : Tree), read limits s = .ok t →
      ∃ u, Derives .expression (Token.split s) u := by
  intro h
  let c (field : String) (n : Nat) : Tree := .leaf ⟨field, .greater, .number (.ofInt n)⟩
  have hread : read {} "a > 1 (b > 2) AND" = .ok (.join .and (c "a" 1) (c "b" 2)) := by
    decide +kernel
  obtain ⟨u, hu⟩ := h _ _ _ hread
  exact absurd hu.alternate (by decide +kernel)

end Tree

end Criteria
