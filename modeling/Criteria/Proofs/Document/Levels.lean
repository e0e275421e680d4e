import Criteria.Proofs.Documented
import Criteria.Proofs.Json.Numbers
import Criteria.Proofs.Tree.Depth

/-!
# Documents level by level

A document makes a tree if its kind, its payload and its parts agree at every level. What is
reported otherwise is the first level where they do not: a level comes before what is below it,
and what is to the left before what is to the right. The numbers in a document that has been read
fit, so that the values in the tree that it makes are finite and the tree can be written again.

* `Document.levels`: a document and all that is below it, in this order;
* `Document.Agrees`, `Document.Fault`: a level that is as it should be, and what is wrong with
  one that is not;
* `Document.toTree_cases`: a document makes a tree, or its first fault is reported;
* `Document.inRange_of_ofShape?`: the numbers in a document that is read;
* `Document.toTree_of_levels`: when a document makes a tree, and what is reported otherwise.
-/

namespace Criteria

/-! ## Finite values -/

theorem Value.isFinite_of_ofJson? {json : Json} {v : Value} (h : ofJson? json = some v)
    (hjson : json.InRange) : v.isFinite := by
  cases json with
  | number n =>
    obtain rfl := Option.some.inj h
    exact (hjson n List.mem_cons_self).isFinite
  | string s =>
    obtain rfl := Option.some.inj h
    rfl
  | null | boolean b | array items | object fields => simp [ofJson?] at h

/-- The value of a condition is finite if the numbers that it is read from fit. -/
theorem Condition.isFinite_of_ofJson? {json : Json} {c : Condition} (h : ofJson? json = some c)
    (hjson : json.InRange) : c.value.isFinite := by
  rw [ofJson?] at h
  split at h
  · rename_i hparts
    split at h
    · rename_i hvalue
      obtain rfl := Option.some.inj h
      exact Value.isFinite_of_ofJson? hvalue (hjson.of_parts? hparts (by simp))
    · simp at h
  · simp at h

namespace Document

/-! ## Levels -/

/-- What holds of a level if it holds of its parts holds of all documents. -/
@[induction_eliminator]
theorem induction_on {motive : Document → Prop}
    (level : ∀ kind payload left right, (∀ part ∈ left, motive part) →
      (∀ part ∈ right, motive part) → motive (.level kind payload left right))
    (document : Document) : motive document :=
  Document.rec (motive_1 := motive) (motive_2 := fun part? => ∀ part ∈ part?, motive part) level
    (fun _ h => nomatch h) (fun _ hpart _ h => Option.some.inj h ▸ hpart) document

/-- The payload of the outermost level. -/
def payload : Document → Json
  | .level _ payload _ _ => payload

mutual

/-- A document and all that is below it: each level stands before its parts, and the left part
    before the right one. -/
def levels : Document → List Document
  | .level kind payload left right =>
    .level kind payload left right :: (partLevels left ++ partLevels right)

/-- A part and all that is below it. -/
def partLevels : Option Document → List Document
  | none => []
  | some part => part.levels

end

/-- The kind, the payload and the parts of a level agree, whatever is below it. -/
inductive Agrees : Document → Prop
  | operand {payload : Json} {c : Condition} : Condition.ofJson? payload = some c →
    Agrees (.level .operand payload none none)
  | operator (op : Connective) (left right : Document) :
    Agrees (.level .operator (.string op.name) (some left) (some right))

/-- What is wrong with a level. Of an operand the parts count before the payload, and of an
    operator the payload before the parts. -/
inductive Fault : Document → TreeError → Prop
  | operandWithParts {payload : Json} {left right : Option Document} :
    left ≠ none ∨ right ≠ none →
    Fault (.level .operand payload left right) (.invalidDocument .operandWithParts)
  | malformedOperand {payload : Json} : Condition.ofJson? payload = none →
    Fault (.level .operand payload none none) (.invalidDocument (.malformedOperand payload.text))
  | payloadNotText {payload : Json} {left right : Option Document} :
    (∀ name, payload ≠ .string name) →
    Fault (.level .operator payload left right) (.invalidDocument (.payloadNotText payload.text))
  | unknownConnective {name : String} {left right : Option Document} :
    (∀ op : Connective, name ≠ op.name) →
    Fault (.level .operator (.string name) left right) (.unknownConnective name)
  | missingPart {op : Connective} {left right : Option Document} : left = none ∨ right = none →
    Fault (.level .operator (.string op.name) left right) (.invalidDocument (.missingPart op))

/-- Of the levels that are at fault, the first one is at fault for this reason. -/
abbrev FirstFault : List Document → TreeError → Prop := First Agrees Fault

variable {document : Document} {t : Tree} {e e' : TreeError}

theorem Fault.not_agrees (h : document.Fault e) : ¬document.Agrees := by
  intro hagrees
  cases hagrees with
  | operand hc =>
    cases h with
    | operandWithParts hparts => simp at hparts
    | malformedOperand hnone => simp [hc] at hnone
  | operator op left right =>
    -- The cases of the fault need a variable for the name.
    generalize hname : op.name = name at h
    cases h with
    | payloadNotText htext => exact htext _ rfl
    | unknownConnective hunknown => exact hunknown op hname.symm
    | missingPart hparts => simp at hparts

/-- What is wrong with the outermost level is reported, whatever is below it. -/
theorem toTree_of_fault (h : document.Fault e) : document.toTree = .error e := by
  -- The payload of an operator is looked at before its parts, so that they do not matter.
  have of_connective {payload : Json} {left right : Option Document}
      (h : connective payload = .error e) :
      (level .operator payload left right).toTree = .error e := by
    cases left <;> cases right <;> simp only [toTree, h]
  cases h with
  | @operandWithParts payload left right hparts =>
    rcases hparts with hleft | hright
    · obtain ⟨part, rfl⟩ := Option.ne_none_iff_exists'.1 hleft
      rfl
    · obtain ⟨part, rfl⟩ := Option.ne_none_iff_exists'.1 hright
      cases left <;> rfl
  | malformedOperand hnone => simp only [toTree, hnone]
  | @payloadNotText payload left right htext =>
    refine of_connective ?_
    unfold connective
    split
    · exact absurd rfl (htext _)
    · rfl
  | @unknownConnective name left right hunknown =>
    refine of_connective ?_
    rw [connective]
    cases hname : Connective.ofName? name with
    | none => rfl
    | some op => exact absurd (Connective.name_of_ofName? hname) (hunknown op)
  | @missingPart op left right hparts =>
    have hop : connective (.string op.name) = .ok op := connective_eq_ok_iff.2 rfl
    rcases hparts with rfl | rfl
    · cases right <;> simp only [toTree, hop]
    · cases left <;> simp only [toTree, hop]

/-- A level is at fault for one reason. -/
theorem Fault.unique (h : document.Fault e) (h' : document.Fault e') : e = e' :=
  Except.error.inj ((toTree_of_fault h).symm.trans (toTree_of_fault h'))

/-- A payload that stands for no connective is at fault. -/
theorem fault_of_connective {payload : Json} (h : connective payload = .error e)
    (left right : Option Document) : (level .operator payload left right).Fault e := by
  unfold connective at h
  split at h
  · rename_i name
    split at h
    · simp at h
    · rename_i hname
      obtain rfl := Except.error.inj h
      refine .unknownConnective fun op hop => ?_
      rw [hop, Connective.ofName?_name] at hname
      simp at hname
  · rename_i htext
    obtain rfl := Except.error.inj h
    exact .payloadNotText htext

/-! ## Trees -/

/-- All levels agree in a document that makes a tree. -/
theorem agrees_of_makes (h : document.Makes t) : ∀ level ∈ document.levels, level.Agrees := by
  induction h with
  | operand hc => exact List.forall_mem_singleton.2 (.operand hc)
  | @operator op left right t u _ _ ih₁ ih₂ =>
    exact List.forall_mem_cons.2 ⟨.operator op left right, List.forall_mem_append.2 ⟨ih₁, ih₂⟩⟩

theorem Fault.firstFault (h : document.Fault e) : FirstFault document.levels e := by
  cases document with
  | level kind payload left right => exact first_cons.2 (.inl h)

/-- What is reported is the first fault: each level is checked before its parts, and the left
    part before the right one. -/
theorem firstFault_of_toTree (h : document.toTree = .error e) : FirstFault document.levels e := by
  fun_induction toTree document generalizing e with
  | case1 payload c hc => simp at h
  | case2 payload hnone =>
    obtain rfl := Except.error.inj h
    exact Fault.firstFault (.malformedOperand hnone)
  | case3 payload left right hparts =>
    obtain rfl := Except.error.inj h
    exact Fault.firstFault (.operandWithParts (not_and_or.1 fun hnone => hparts hnone.1 hnone.2))
  | case4 payload left right e' hop =>
    obtain rfl := Except.error.inj h
    exact (fault_of_connective hop _ _).firstFault
  | case5 payload left right op hop e' hl ih =>
    obtain rfl := Except.error.inj h
    obtain rfl := connective_eq_ok_iff.1 hop
    exact first_cons.2 (.inr ⟨.operator op left right, first_append.2 (.inl (ih hl))⟩)
  | case6 payload left right op hop l hl e' hr ih₁ ih₂ =>
    -- The left part makes a tree, so that all levels agree there and the fault is on the right.
    obtain rfl := Except.error.inj h
    obtain rfl := connective_eq_ok_iff.1 hop
    exact first_cons.2 (.inr ⟨.operator op left right,
      first_append.2 (.inr ⟨agrees_of_makes (makes_of_toTree hl), ih₂ hr⟩)⟩)
  | case7 payload left right op hop l hl r hr ih₁ ih₂ => simp at h
  | case8 payload left right hparts e' hop =>
    obtain rfl := Except.error.inj h
    exact (fault_of_connective hop _ _).firstFault
  | case9 payload left right hparts op hop =>
    obtain rfl := Except.error.inj h
    obtain rfl := connective_eq_ok_iff.1 hop
    refine Fault.firstFault (.missingPart ?_)
    cases left with
    | none => exact .inl rfl
    | some left =>
      cases right with
      | none => exact .inr rfl
      | some right => exact (hparts left right rfl rfl).elim

theorem FirstFault.not_forall {levels : List Document} (h : FirstFault levels e) :
    ¬∀ level ∈ levels, level.Agrees := First.not_forall h fun _ _ => Fault.not_agrees

theorem FirstFault.unique {levels : List Document} (h : FirstFault levels e)
    (h' : FirstFault levels e') : e = e' :=
  First.unique h h' (fun _ _ => Fault.not_agrees) fun _ _ _ => Fault.unique

theorem toTree_eq_error_iff : document.toTree = .error e ↔ FirstFault document.levels e := by
  refine ⟨firstFault_of_toTree, fun h => ?_⟩
  cases htree : document.toTree with
  | ok t => exact absurd (agrees_of_makes (makes_of_toTree htree)) h.not_forall
  | error e' => rw [(firstFault_of_toTree htree).unique h]

-- Both parts are at fault, and so is what is below the left one.
example : (level .operator (.string "AND")
    (some (.level .operand .null (some (.level .operator .null none none)) none))
    (some (.level .operator (.string "XOR") none none))).toTree =
      .error (.invalidDocument .operandWithParts) := rfl

theorem exists_toTree_iff :
    (∃ t, document.toTree = .ok t) ↔ ∀ level ∈ document.levels, level.Agrees := by
  constructor
  · rintro ⟨t, ht⟩
    exact agrees_of_makes (makes_of_toTree ht)
  · intro h
    cases htree : document.toTree with
    | ok t => exact ⟨t, rfl⟩
    | error e => exact absurd h (firstFault_of_toTree htree).not_forall

/-! ## Numbers -/

/-- All numbers in the payloads of a document fit. -/
def InRange (document : Document) : Prop := ∀ level ∈ document.levels, level.payload.InRange

theorem isFinite_of_makes (h : document.Makes t) (hrange : document.InRange) :
    ∀ c ∈ t.leaves, c.value.isFinite := by
  induction h with
  | @operand payload c hc =>
    exact List.forall_mem_singleton.2
      (Condition.isFinite_of_ofJson? hc (hrange _ List.mem_cons_self))
  | @operator op left right t u _ _ ih₁ ih₂ =>
    obtain ⟨hleft, hright⟩ := List.forall_mem_append.1 (List.forall_mem_cons.1 hrange).2
    exact List.forall_mem_append.2 ⟨ih₁ hleft, ih₂ hright⟩

variable {ν σ : Type} {source : Source ν σ}

/-- The numbers in a document that is read fit, if those in the payloads of good values do and all
    parts of a good value are good. -/
theorem inRange_of_ofShape? {Good : Json.Shape ν σ → Prop}
    (hpart : ∀ {whole part names parts}, Good whole → whole.parts? source.name? names = some parts →
      some part ∈ parts → Good part)
    (hpayload : ∀ {room shape payload}, Good shape → source.payload? room shape = some payload →
      payload.InRange)
    {room : Nat} {shape : Json.Shape ν σ} (hshape : Good shape)
    (h : ofShape? source room shape = some document) : document.InRange := by
  induction document generalizing room shape with
  | level kind payload l r ih₁ ih₂ =>
    obtain ⟨-, type, value, left, right, hparts, -, hvalue, hleft, hright⟩ := of_ofShape?_level h
    -- A part of the document is read from a part of the value, or is missing.
    have below {part? : Option (Json.Shape ν σ)} {below? : Option Document}
        (hmem : part? ∈ [some type, some value, left, right])
        (hread : Document.part? source (room - 1) part? = some below?)
        (ih : ∀ part ∈ below?, ∀ {room shape}, Good shape →
          ofShape? source room shape = some part → part.InRange) :
        ∀ level ∈ partLevels below?, level.payload.InRange := by
      cases below? with
      | none => exact List.forall_mem_nil _
      | some document =>
        obtain ⟨part, rfl, hpartRead⟩ := exists_of_part? hread
        exact ih document rfl (hpart hshape hparts hmem) hpartRead
    refine List.forall_mem_cons.2 ⟨hpayload (hpart hshape hparts (by simp)) hvalue, ?_⟩
    exact List.forall_mem_append.2 ⟨below (by simp) hleft ih₁, below (by simp) hright ih₂⟩

theorem inRange_of_ofJson? {json : Json} (hjson : json.InRange) (h : ofJson? json = some document) :
    document.InRange := by
  have h : ofShape? values json.nesting json = some document := h
  refine inRange_of_ofShape? (fun hwhole hparts hpart => hwhole.of_parts? hparts hpart) ?_ hjson h
  rintro room shape payload hshape ⟨⟩
  exact hshape

theorem inRange_of_read? {s : String} (h : read? s = some document) : document.InRange := by
  obtain ⟨raw, -, hraw⟩ := Option.bind_eq_some_iff.1 h
  exact inRange_of_ofShape? (fun _ _ _ => trivial) (fun _ heq => Json.inRange_of_value? _ heq)
    trivial hraw

/-! ## Levels and trees -/

/-- A document makes a tree just if all its levels agree, and else the first fault is reported.
    The values in the tree are finite if the numbers in the document fit, as they do in a document
    that has been read; so the tree can be written again, and what is written makes the same
    tree. -/
theorem toTree_of_levels (document : Document) :
    (∀ t, document.toTree = .ok t ↔ document.Makes t) ∧
    ((∃ t, document.toTree = .ok t) ↔ ∀ level ∈ document.levels, level.Agrees) ∧
    (∀ e, document.toTree = .error e ↔ FirstFault document.levels e) ∧
    (document.InRange → ∀ t, document.toTree = .ok t → (∀ c ∈ t.conditions, c.value.isFinite) ∧
      ∃ written, ofTree t = .ok written ∧ written.toTree = .ok t) ∧
    (∀ s, read? s = some document → document.InRange) ∧
    ∀ json, json.InRange → ofJson? json = some document → document.InRange := by
  refine ⟨fun t => toTree_eq_ok_iff, exists_toTree_iff, fun e => toTree_eq_error_iff,
    fun hrange t ht => ?_, fun s => inRange_of_read?, fun json => inRange_of_ofJson?⟩
  have hfinite := isFinite_of_makes (makes_of_toTree ht) hrange
  obtain ⟨-, written, hwritten⟩ | ⟨x, hx, -⟩ := ofTree_cases t
  · rw [Tree.conditions_eq_leaves]
    exact ⟨hfinite, written, hwritten, toTree_ofTree hwritten⟩
  · exact absurd hfinite hx.not_forall

/-- A rule as a text that lists its parts in order, and a condition as a value. -/
theorem toTree_of_levels_listed :
    let text := "[\"operator\", \"OR\", " ++
      "[\"operand\", [\"a\", \">\", 5]], [\"operand\", [\"b\", \"=\", \"x\"]]]"
    let json : Json := .array
      [.string "operand", .array [.string "a", .string ">", .number (.integer (-5))]]
    let tree := Tree.join .or (.leaf ⟨"a", .greater, .number (.ofInt 5)⟩)
      (.leaf ⟨"b", .equal, .text "x"⟩)
    (∃ document, read? text = some document ∧ document.InRange ∧ document.toTree = .ok tree ∧
      (∀ c ∈ tree.conditions, c.value.isFinite) ∧
      ∃ written, ofTree tree = .ok written ∧ written.toTree = .ok tree) ∧
    ∃ document, ofJson? json = some document ∧ document.InRange := by
  intro text json tree
  have htree : (read? text).map toTree = some (.ok tree) := by decide +kernel
  have hjson : (ofJson? json).isSome := by decide +kernel
  obtain ⟨document, hread, htree⟩ := Option.map_eq_some_iff.1 htree
  obtain ⟨value, hvalue⟩ := Option.isSome_iff_exists.1 hjson
  obtain ⟨-, -, -, hfinite, hrange, -⟩ := toTree_of_levels document
  obtain ⟨-, -, -, -, -, hvalues⟩ := toTree_of_levels value
  exact ⟨⟨document, hread, hrange text hread, htree, hfinite (hrange text hread) tree htree⟩,
    value, hvalue, hvalues json (by decide +kernel) hvalue⟩

end Document

end Criteria
