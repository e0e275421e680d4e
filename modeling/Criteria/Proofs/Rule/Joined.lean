import Criteria.Proofs.Rule.Group
import Criteria.Proofs.Rule.Limits
import Criteria.Proofs.Tree.Precedence

/-!
# Rules joined as texts

Rule strings can be joined as texts, each in parentheses, or the trees that they read as can
be joined. The text is read with precedence, and trees are joined from the left: these agree,
also in their errors, as long as no `AND` comes behind an `OR`, and differ otherwise.

* `joinedText`: rule strings in parentheses, with connectives between them;
* `Postfix.arrange_chain`: how groups behind connectives are arranged;
* `Tree.read_joinedText`: what the text is read as;
* `Tree.read_joinedText_joinAll`: how this compares with joining the trees.
-/

namespace Criteria

/-- Further rule strings in parentheses, each behind its connective. -/
def joinedBehind : List (String × Connective) → String
  | [] => ""
  | (s, op) :: more => " " ++ op.name ++ " (" ++ s ++ ")" ++ joinedBehind more

/-- Rule strings in parentheses, with connectives between them. -/
def joinedText (texts : List String) (ops : List Connective) : String :=
  match texts with
  | [] => ""
  | first :: rest => "(" ++ first ++ ")" ++ joinedBehind (rest.zip ops)

/-! ## Splitting -/

namespace Token

/-- The tokens of further groups, each behind its connective. -/
def chain : List (List Token × Connective) → List Token
  | [] => []
  | (tokens, op) :: more => .connective op :: (group tokens ++ chain more)

theorem splitAfter_joinedBehind (more : List (String × Connective)) :
    splitAfter [] (joinedBehind more).toList =
      chain (more.map fun entry => (split entry.1, entry.2)) := by
  induction more with
  | nil => rfl
  | cons entry more ih =>
    obtain ⟨s, op⟩ := entry
    have hlist : (joinedBehind ((s, op) :: more)).toList = ' ' :: (op.name.toList ++
        ' ' :: '(' :: (s.toList ++ ')' :: (joinedBehind more).toList)) := by
      simp [joinedBehind]
    have hspace : ∀ c ∈ [' '], Text.isBlank c := List.forall_mem_singleton.2 (by decide)
    rw [hlist, (Ends.connective op _).splitAfter, withFragment_of_isBlank (by simp),
      splitAfter_group hspace, ih]
    rfl

theorem split_joinedText (first : String) (rest : List String) (ops : List Connective) :
    split (joinedText (first :: rest) ops) =
      group (split first) ++ chain ((rest.zip ops).map fun entry => (split entry.1, entry.2)) := by
  have hlist : (joinedText (first :: rest) ops).toList =
      '(' :: (first.toList ++ ')' :: (joinedBehind (rest.zip ops)).toList) := by
    simp [joinedText]
  rw [split, hlist, splitAfter_group (by simp), splitAfter_joinedBehind]
  rfl

end Token

/-! ## Arranging -/

namespace Postfix

open Criteria.Tree (climb addend)

variable {limits wide : Limits} {tokens : List Token} {items : List Item}

/-- The items of a sum, if there is one. -/
def sumItems (sum : Option Tree) : List Item := sum.elim [] Tree.items

/-- The connective that waits for the product behind a sum, if there is one. -/
def sumOps (sum : Option Tree) : List Connective := sum.elim [] fun _ => [.or]

theorem items_addend (sum : Option Tree) (product : Tree) :
    (addend sum product).items = sumItems sum ++ product.items ++ (sumOps sum).map .connective := by
  cases sum with
  | none => exact (List.append_nil _).symm
  | some sum => rfl

/-- Within limits that allow for one more parenthesis, a group nests no deeper than allowed. -/
theorem nesting_group_le (h : ofTokens limits tokens = .ok items)
    (hn : limits.nesting < wide.nesting) : Token.nesting (Token.group tokens) ≤ wide.nesting := by
  have hnesting : Token.nesting tokens ≤ limits.nesting := deepest_le_of_arrange (Nat.zero_le _) h
  exact Nat.le_trans (Token.nesting_group_le tokens) (by omega)

/-- A connective and a group behind it release what binds at least as tightly, and emit the
    items of the group. -/
theorem arrange_connective_group (h : ofTokens limits tokens = .ok items)
    (hn : limits.nesting < wide.nesting) {op : Connective} {ops : List Connective}
    {stack : List Waiting} (hops : ∀ top ∈ ops, op.strength ≤ top.strength)
    (hs : Below op.strength stack) (start : Nat) (rest : List Token) :
    arrange wide start 0 (waiting ops stack) (.connective op :: (Token.group tokens ++ rest)) =
      ((ops.map .connective ++ items) ++ ·) <$>
        arrange wide (start + 1 + (Token.group tokens).length) 0 (waiting [op] stack) rest := by
  simp only [arrange, release_waiting hops hs]
  rw [emits_group h _ wide _ 0 rest (nesting_group_le h hn), map_append_map]
  rfl

/-- A further rule is arranged by itself to the items of a further tree, which is joined by
    the same connective. -/
def Further (limits : Limits) (piece : List Token × Connective) (entry : Tree × Connective) :
    Prop :=
  ofTokens limits piece.1 = .ok entry.1.items ∧ piece.2 = entry.2

/-- Groups behind connectives are joined with precedence to a sum and a product. Of the sum
    all items have been emitted, and of the product all but connectives that still wait. -/
theorem arrange_chain {pieces : List (List Token × Connective)} {more : List (Tree × Connective)}
    (h : List.Forall₂ (Further limits) pieces more) (hn : limits.nesting < wide.nesting)
    {sum : Option Tree} {product : Tree} {output : List Item} {pending : List Connective}
    (hpending : ∀ op ∈ pending, op = .and)
    (houtput : output ++ pending.map .connective = sumItems sum ++ product.items) (start : Nat) :
    (output ++ ·) <$>
        arrange wide start 0 (waiting (pending ++ sumOps sum) []) (Token.chain pieces) =
      .ok (climb sum product more).items := by
  -- What has been emitted and what waits of the product are together the items so far.
  induction h generalizing sum product output pending start with
  | nil =>
    rw [Token.chain, arrange, drain_waiting, climb, items_addend, ← houtput, List.map_append,
      List.append_assoc]
    rfl
  | @cons piece entry pieces more hpiece _ ih =>
    obtain ⟨tokens, op⟩ := piece
    obtain ⟨tree, op'⟩ := entry
    obtain ⟨htokens, rfl⟩ := hpiece
    cases op with
    | and =>
      -- The product goes on, and the sum below it still waits for it.
      have hops : ∀ top ∈ pending, Connective.and.strength ≤ top.strength := by
        rintro top htop
        rw [hpending top htop]
      have hs : Below Connective.and.strength (waiting (sumOps sum) []) := by
        cases sum with
        | none => trivial
        | some sum => exact show (1 : Nat) < 2 by decide
      have hstack : waiting (pending ++ sumOps sum) [] =
          waiting pending (waiting (sumOps sum) []) := by simp [waiting]
      rw [Token.chain, hstack, arrange_connective_group htokens hn hops hs, map_append_map]
      refine @ih sum (.join .and product tree) _ [.and] (by simp) ?_ _
      rw [Tree.items, ← List.append_assoc, ← List.append_assoc, houtput]
      simp
    | or =>
      -- The product is complete and is added to the sum, and a new one begins.
      have hops : ∀ top ∈ pending ++ sumOps sum, Connective.or.strength ≤ top.strength := by
        intro top _
        cases top <;> decide
      rw [Token.chain, arrange_connective_group htokens hn hops
        (show Below _ [] from trivial), map_append_map]
      refine @ih (some (addend sum product)) tree _ [] (by simp) ?_ _
      rw [show sumItems (some (addend sum product)) = (addend sum product).items from rfl,
        items_addend, ← houtput]
      simp

end Postfix

/-! ## Reading -/

namespace Tree

open Postfix
open scoped List

variable {limits wide : Limits}

theorem forall₂_further {rest : List String} {trees : List Tree}
    (h : List.Forall₂ (fun s t => read limits s = .ok t) rest trees) (ops : List Connective) :
    List.Forall₂ (Further limits)
      ((rest.zip ops).map fun entry => (Token.split entry.1, entry.2)) (trees.zip ops) := by
  induction h generalizing ops with
  | nil => exact .nil
  | cons hread _ ih =>
    cases ops with
    | nil => exact .nil
    | cons op ops => exact .cons ⟨ofTokens_of_read hread, rfl⟩ (ih ops)

/-- Rule strings joined as a text are read with precedence, within limits that allow for one
    more parenthesis than the strings by themselves need. -/
theorem read_joinedText {first : String} {rest : List String} {tree : Tree} {trees : List Tree}
    (hfirst : read limits first = .ok tree)
    (hrest : List.Forall₂ (fun s t => read limits s = .ok t) rest trees)
    (hn : limits.nesting < wide.nesting) (ops : List Connective) :
    read wide (joinedText (first :: rest) ops) =
      toTree wide (climb none tree (trees.zip ops)).items := by
  have hitems := ofTokens_of_read hfirst
  have houtput : tree.items ++ [].map .connective = sumItems none ++ tree.items := List.append_nil _
  have hchain := arrange_chain (forall₂_further hrest ops) hn (by simp) houtput
  rw [read, ofTokens, Token.split_joinedText,
    emits_group hitems [] wide 0 0 _ (nesting_group_le hitems hn)]
  simp only [waiting, sumOps, Option.elim_none, List.append_nil] at hchain ⊢
  simp only [hchain]

/-- Items are built to their tree, or fail at the first level beyond the limit, where at least
    a single condition is allowed. -/
theorem toTree_items_eq_ite {t : Tree} (hd : 0 < limits.depth) :
    toTree limits t.items =
      if t.height ≤ limits.depth then .ok t
      else .error (.treeTooDeep (limits.depth + 1) limits.depth) := by
  split
  · exact toTree_items (.inr ‹_›)
  · rename_i hle
    have hleaf : ¬t.isLeaf := by
      intro hleaf
      cases t with
      | leaf c => exact hle hd
      | join => simp [isLeaf] at hleaf
    rw [toTree_items_of_lt hleaf (Nat.lt_of_not_le hle), Nat.max_eq_left hd]

/-- All that is read is no deeper than allowed, where at least a single condition is. -/
theorem forall_height_le_of_read (hd : 0 < limits.depth) {texts : List String}
    {trees : List Tree} (h : List.Forall₂ (fun s t => read limits s = .ok t) texts trees) :
    ∀ t ∈ trees, t.height ≤ limits.depth := by
  intro t ht
  obtain ⟨s, -, hread⟩ := exists_rel_of_mem h ht
  have hdepth := depth_le_of_read hread
  rwa [depth_eq_height, Nat.max_eq_left hd] at hdepth

/-- Rule strings that read as trees can be put in parentheses and joined as one text, which
    is read with one more level of parentheses, or their trees can be joined. If no `AND`
    comes behind an `OR`, both give the same tree, or both fail at the first level beyond the
    limit of depth. Otherwise the trees that they give differ. -/
theorem read_joinedText_joinAll (limits : Limits) (texts : List String) (trees : List Tree)
    (ops : List Connective) (hdepth : 0 < limits.depth)
    (hreads : List.Forall₂ (fun s t => read limits s = .ok t) texts trees)
    (hlength : ops.length + 1 = texts.length) :
    let joined := read ⟨limits.nesting + 1, limits.depth⟩ (joinedText texts ops)
    (¬[.or, .and] <+ ops →
      (∃ t, joined = .ok t ∧ joinAll limits.depth trees ops = .ok t) ∨
        (joined = .error (.treeTooDeep (limits.depth + 1) limits.depth) ∧
          joinAll limits.depth trees ops = .error (.tooDeep (limits.depth + 1) limits.depth))) ∧
    ([.or, .and] <+ ops → ∀ t u, joined = .ok t → joinAll limits.depth trees ops = .ok u →
      t ≠ u ∧ (t == u) = false) := by
  intro joined
  have hall := forall_height_le_of_read hdepth hreads
  cases hreads with
  | nil => simp at hlength
  | @cons first tree rest trees hfirst hrest =>
    have hlength : ops.length = trees.length :=
      (Nat.succ.inj hlength).trans (List.Forall₂.length_eq hrest)
    have hops : (trees.zip ops).map (·.2) = ops := List.map_snd_zip (Nat.le_of_eq hlength)
    have hjoined : joined = _ := (read_joinedText hfirst hrest (Nat.lt_succ_self _) ops).trans
      (toTree_items_eq_ite hdepth)
    rw [hjoined, joinAll_eq_ite hlength hall]
    constructor
    · intro hsorted
      rw [climb_eq_joinFrom (hops.symm ▸ hsorted)]
      split
      · exact .inl ⟨_, rfl, rfl⟩
      · exact .inr ⟨rfl, rfl⟩
    · intro hmixed t u ht hu
      split at ht
      · split at hu
        · obtain rfl := Except.ok.inj ht
          obtain rfl := Except.ok.inj hu
          exact ⟨climb_ne_joinFrom (hops.symm ▸ hmixed), climb_beq_joinFrom (hops.symm ▸ hmixed)⟩
        · simp at hu
      · simp at ht

theorem read_joinedText_joinAll_nested :
    let c (field : String) (n : Nat) : Tree := .leaf ⟨field, .greater, .number (.ofInt n)⟩
    let texts := ["a > 1", "b > 2 (c > 3) AND", "d > 4"]
    let trees := [c "a" 1, .join .and (c "b" 2) (c "c" 3), c "d" 4]
    List.Forall₂ (fun s t => read ⟨1, 4⟩ s = .ok t) texts trees ∧
      joinedText texts [.and, .or] = "(a > 1) AND (b > 2 (c > 3) AND) OR (d > 4)" ∧
      (∃ t, read ⟨2, 4⟩ (joinedText texts [.and, .or]) = .ok t ∧
        joinAll 4 trees [.and, .or] = .ok t) ∧
      ∃ t u, read ⟨2, 4⟩ (joinedText texts [.or, .and]) = .ok t ∧
        joinAll 4 trees [.or, .and] = .ok u ∧ t ≠ u ∧ (t == u) = false := by
  intro c texts trees
  have hreads : List.Forall₂ (fun s t => read ⟨1, 4⟩ s = .ok t) texts trees :=
    .cons (by decide +kernel) (.cons (by decide +kernel) (.cons (by decide +kernel) .nil))
  have hjoined (ops : List Connective) (hlength : ops.length + 1 = 3) :=
    read_joinedText_joinAll ⟨1, 4⟩ texts trees ops (by decide) hreads hlength
  refine ⟨hreads, by decide +kernel, ?_, ?_⟩
  · have hread : read ⟨2, 4⟩ (joinedText texts [.and, .or]) ≠ .error (.treeTooDeep 5 4) := by
      decide +kernel
    exact ((hjoined [.and, .or] rfl).1 (by decide)).resolve_right fun h => hread h.1
  · have hread : read ⟨2, 4⟩ (joinedText texts [.or, .and]) = .ok (.join .or (c "a" 1)
        (.join .and (.join .and (c "b" 2) (c "c" 3)) (c "d" 4))) := by decide +kernel
    have hjoin : joinAll 4 trees [.or, .and] = .ok (.join .and (.join .or (c "a" 1)
        (.join .and (c "b" 2) (c "c" 3))) (c "d" 4)) := by
      simp [joinAll, joinOnto, depth_eq_height, height, trees, c]
    exact ⟨_, _, hread, hjoin, (hjoined [.or, .and] rfl).2 (by decide) _ _ hread hjoin⟩

end Tree

end Criteria
