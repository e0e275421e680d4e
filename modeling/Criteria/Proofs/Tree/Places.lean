import Criteria.Proofs.Tree.Edit

/-!
# Edits in place

A tree can be edited where it stands. What is still to be visited is then a list of places, of
which the first comes next: at a leaf the condition there is changed, and at a join the places
of its parts take the place of its own, the left one first. Such an edit visits every node of
the tree once, and ends in the tree with all leaves changed.

* `Tree.at?`, `Tree.modifyAt`: the part at a place, and the tree with that part changed;
* `Tree.Edits`: an edit in place, with the number of visits;
* `Tree.Edits.visit`: what has become of the tree after all visits to a part;
* `Tree.edits_iff`: how an edit of the whole tree ends.
-/

namespace Criteria.Tree

/-- A side of a join. -/
inductive Side
  | left
  | right
  deriving DecidableEq

/-- A place in a tree: the sides that lead there from the root. -/
abbrev Place := List Side

/-- The part at a place. -/
def at? : Place → Tree → Option Tree
  | [], t => some t
  | .left :: place, .join _ left _ => left.at? place
  | .right :: place, .join _ _ right => right.at? place
  | _ :: _, .leaf _ => none

/-- The tree with the part at a place changed. -/
def modifyAt (f : Tree → Tree) : Place → Tree → Tree
  | [], t => f t
  | .left :: place, .join op left right => .join op (left.modifyAt f place) right
  | .right :: place, .join op left right => .join op left (right.modifyAt f place)
  | _ :: _, .leaf c => .leaf c

variable {t u u' : Tree} {place : Place} {pending : List Place} {n n' : Nat}

/-! ## Parts -/

theorem at?_append (t : Tree) (place more : Place) :
    t.at? (place ++ more) = (t.at? place).bind (·.at? more) := by
  fun_induction at? place t with
  | case1 t => rfl
  | case2 place op left right ih | case3 place op left right ih => exact ih
  | case4 side place c => cases side <;> rfl

theorem modifyAt_append (f : Tree → Tree) (t : Tree) (place more : Place) :
    t.modifyAt f (place ++ more) = t.modifyAt (·.modifyAt f more) place := by
  fun_induction modifyAt (·.modifyAt f more) place t with
  | case1 t => rfl
  | case2 place op left right ih => exact congrArg (join op · right) ih
  | case3 place op left right ih => exact congrArg (join op left) ih
  | case4 side place c => cases side <;> rfl

theorem modifyAt_modifyAt (f g : Tree → Tree) (t : Tree) (place : Place) :
    (t.modifyAt f place).modifyAt g place = t.modifyAt (fun s => g (f s)) place := by
  fun_induction modifyAt f place t with
  | case1 t => rfl
  | case2 place op left right ih => exact congrArg (join op · right) ih
  | case3 place op left right ih => exact congrArg (join op left) ih
  | case4 side place c => cases side <;> rfl

theorem at?_modifyAt (f : Tree → Tree) (t : Tree) (place : Place) :
    (t.modifyAt f place).at? place = (t.at? place).map f := by
  fun_induction modifyAt f place t with
  | case1 t => rfl
  | case2 place op left right ih | case3 place op left right ih => exact ih
  | case4 side place c => cases side <;> rfl

/-- Only what becomes of the part at the place counts. -/
theorem modifyAt_congr {f g : Tree → Tree} (h : ∀ s, t.at? place = some s → f s = g s) :
    t.modifyAt f place = t.modifyAt g place := by
  fun_induction modifyAt f place t with
  | case1 t => exact h t rfl
  | case2 place op left right ih => exact congrArg (join op · right) (ih h)
  | case3 place op left right ih => exact congrArg (join op left) (ih h)
  | case4 side place c => cases side <;> rfl

/-! ## Edits -/

/-- An edit of a tree with visits to the pending places, which ends after so many visits in
    another tree. -/
inductive Edits (f : Condition → Condition) : Nat → Tree → List Place → Tree → Prop
  | done (t : Tree) : Edits f 0 t [] t
  | leaf {n : Nat} {t u : Tree} {place : Place} {pending : List Place} {c : Condition} :
    t.at? place = some (.leaf c) → Edits f n (t.modifyAt (fun _ => .leaf (f c)) place) pending u →
      Edits f (n + 1) t (place :: pending) u
  | join {n : Nat} {t u : Tree} {place : Place} {pending : List Place} {op : Connective}
    {left right : Tree} : t.at? place = some (.join op left right) →
    Edits f n t ((place ++ [.left]) :: (place ++ [.right]) :: pending) u →
      Edits f (n + 1) t (place :: pending) u

variable {f : Condition → Condition}

/-- After as many visits as a part has nodes its leaves are changed, the rest of the tree is as
    before, and the places behind it come next. -/
theorem Edits.visit {part : Tree} (hpart : t.at? place = some part)
    (h : Edits f n (t.modifyAt (mapLeaves f) place) pending u) :
    Edits f (part.size + n) t (place :: pending) u := by
  induction part generalizing t place pending n with
  | leaf c =>
    rw [size, Nat.add_comm]
    refine .leaf hpart ?_
    rwa [modifyAt_congr (g := mapLeaves f) fun s hs => ?_]
    rw [← Option.some.inj (hpart.symm.trans hs), mapLeaves]
  | join op left right ih₁ ih₂ =>
    have hleft : t.at? (place ++ [.left]) = some left := by rw [at?_append, hpart]; rfl
    -- The left part is done first, which leaves the right one as it is.
    have hright : (t.modifyAt (mapLeaves f) (place ++ [.left])).at? (place ++ [.right]) =
        some right := by
      rw [modifyAt_append, at?_append, at?_modifyAt, hpart]
      rfl
    have hboth : (t.modifyAt (mapLeaves f) (place ++ [.left])).modifyAt (mapLeaves f)
        (place ++ [.right]) = t.modifyAt (mapLeaves f) place := by
      rw [modifyAt_append, modifyAt_append, modifyAt_modifyAt]
      refine modifyAt_congr fun s hs => ?_
      rw [← Option.some.inj (hpart.symm.trans hs)]
      rfl
    rw [size, Nat.add_right_comm, Nat.add_assoc left.size]
    exact .join hpart (ih₁ hleft (ih₂ hright (hboth ▸ h)))

/-- An edit ends in one way. -/
theorem Edits.unique (h : Edits f n t pending u) (h' : Edits f n' t pending u') :
    n = n' ∧ u = u' := by
  induction h generalizing n' with
  | done t =>
    cases h'
    exact ⟨rfl, rfl⟩
  | leaf hat _ ih =>
    cases h' with
    | leaf hat' h' =>
      obtain rfl := Tree.leaf.inj (Option.some.inj (hat.symm.trans hat'))
      obtain ⟨rfl, rfl⟩ := ih h'
      exact ⟨rfl, rfl⟩
    | join hat' => simp [hat] at hat'
  | join hat _ ih =>
    cases h' with
    | leaf hat' => simp [hat] at hat'
    | join hat' h' =>
      obtain ⟨rfl, rfl⟩ := ih h'
      exact ⟨rfl, rfl⟩

/-- An edit of a tree from its root ends after as many visits as there are nodes, in the tree
    with all leaves changed. -/
theorem edits_iff : Edits f n t [[]] u ↔ n = t.size ∧ u = t.mapLeaves f := by
  have hends : Edits f (t.size + 0) t [[]] (t.mapLeaves f) := Edits.visit rfl (.done _)
  constructor
  · exact fun h => h.unique hends
  · rintro ⟨rfl, rfl⟩
    exact hends

end Criteria.Tree
