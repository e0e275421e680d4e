import Criteria.Proofs.Nesting

/-!
# What JSON documents

A JSON value documents a tree level by level, by its parts `type`, `value`, `left` and
`right`. The document that is read of it is only a step on the way, and it does not matter how
deep the value nests. A value that documents no tree evaluates to the unknown error.

* `Json.Documents`: the tree that a JSON value documents;
* `Json.documents_iff`: it is the tree of the document that is read;
* `Document.documents_of_ofTree`: the document of a tree documents it;
* `Tree.evaluateJson_of_documents`, `Tree.evaluateJson_of_forall`: how JSON is evaluated.
-/

namespace Criteria

namespace Json

/-- A part is missing or `null`. -/
def Absent (part? : Option Json) : Prop := part? = none ∨ part? = some .null

/-- The tree that a JSON value documents. An operand has no further parts, and an operator
    has two that document trees themselves. -/
inductive Documents : Json → Tree → Prop
  | operand {json type payload : Json} {left right : Option Json} {c : Condition} :
    json.parts? some ["type", "value", "left", "right"] =
      some [some type, some payload, left, right] →
    type.choice? some 1 = some "operand" → Condition.ofJson? payload = some c →
    Absent left → Absent right → Documents json (.leaf c)
  | operator {json type left right : Json} {op : Connective} {t u : Tree} :
    json.parts? some ["type", "value", "left", "right"] =
      some [some type, some (.string op.name), some left, some right] →
    type.choice? some 1 = some "operator" → Documents left t → Documents right u →
      Documents json (.join op t u)

namespace Shape

variable {ν σ : Type} {name? : σ → Option String} {names : List String}

/-! ## Nesting -/

theorem nesting_le_itemsNesting {items : List (Shape ν σ)} {item : Shape ν σ} (h : item ∈ items) :
    item.nesting ≤ itemsNesting items := by
  induction items with
  | nil => simp at h
  | cons first items ih =>
    rw [itemsNesting]
    rcases List.mem_cons.1 h with rfl | h
    · exact Nat.le_max_left _ _
    · exact Nat.le_trans (ih h) (Nat.le_max_right _ _)

theorem nesting_le_fieldsNesting {fields : List (σ × Shape ν σ)} {key : σ} {value : Shape ν σ}
    (h : (key, value) ∈ fields) : value.nesting ≤ fieldsNesting fields := by
  induction fields with
  | nil => simp at h
  | cons field fields ih =>
    obtain ⟨first, other⟩ := field
    rw [fieldsNesting]
    rcases List.mem_cons.1 h with h | h
    · obtain ⟨-, rfl⟩ := Prod.mk.inj h
      exact Nat.le_max_left _ _
    · exact Nat.le_trans (ih h) (Nat.le_max_right _ _)

/-- A part of a value nests less deep than the value. -/
theorem nesting_lt_of_parts? {whole part : Shape ν σ} {parts : List (Option (Shape ν σ))}
    (h : whole.parts? name? names = some parts) (hp : some part ∈ parts) :
    part.nesting < whole.nesting := by
  rcases mem_of_parts? h hp with ⟨items, rfl, hmem⟩ | ⟨fields, key, rfl, hmem⟩
  · exact Nat.lt_succ_of_le (nesting_le_itemsNesting hmem)
  · exact Nat.lt_succ_of_le (nesting_le_fieldsNesting hmem)

/-! ## Choices -/

/-- A choice is made wherever the value may nest. -/
theorem choice?_of_nesting_le {shape : Shape ν σ} {room : Nat} (h : shape.nesting ≤ room) :
    shape.choice? name? room = shape.choice? name? 1 := by
  unfold choice?
  split
  · rfl
  · have hroom : room ≠ 0 := Nat.ne_of_gt (Nat.lt_of_lt_of_le (Nat.succ_pos _) h)
    rw [if_neg hroom, if_neg Nat.one_ne_zero]
  · rfl

theorem choice?_one {shape : Shape ν σ} {room : Nat} {name : String}
    (h : shape.choice? name? room = some name) : shape.choice? name? 1 = some name := by
  unfold choice? at h
  split at h
  · exact h
  · split at h
    · simp at h
    · exact h
  · simp at h

end Shape

end Json

theorem Document.Kind.name_of_ofName? {name : String} {kind : Kind}
    (h : ofName? name = some kind) : name = kind.name := by
  unfold ofName? at h
  split at h <;> simp at h <;> exact h ▸ rfl

namespace Document

variable {room : Nat} {json : Json} {json? : Option Json} {t u : Tree} {document : Document}

/-- How a document is read from JSON values. -/
abbrev values : Source Json.Num String := ⟨some, fun _ json => some json⟩

/-! ## Parts -/

theorem part?_eq_some_none_iff : part? values room json? = some none ↔ Json.Absent json? := by
  constructor
  · intro h
    unfold part? ofShape?.part? at h
    split at h
    · exact .inl rfl
    · exact .inr rfl
    · simp at h
  · rintro (rfl | rfl) <;> rfl

theorem part?_of_ofShape? (h : ofShape? values room json = some document) :
    part? values room (some json) = some (some document) := by
  cases json with
  | null =>
    rw [ofShape?] at h
    split at h
    · simp at h
    · simp [Json.Shape.parts?] at h
  | boolean b | number n | string s | array items | object fields =>
    exact Option.map_eq_some_iff.2 ⟨document, h, rfl⟩

/-! ## Documents -/

/-- A document that is read from a value and makes a tree has been read from a value that
    documents the tree. -/
theorem documents_of_ofShape? (h : ofShape? values room json = some document)
    (ht : document.Makes t) : json.Documents t := by
  induction ht generalizing room json with
  | operand hc =>
    obtain ⟨-, type, value, left, right, hparts, hkind, hvalue, hleft, hright⟩ :=
      of_ofShape?_level h
    obtain ⟨name, hname, hkind⟩ := Option.bind_eq_some_iff.1 hkind
    obtain rfl := Kind.name_of_ofName? hkind
    obtain rfl := Option.some.inj hvalue
    exact .operand hparts (Json.Shape.choice?_one hname) hc (part?_eq_some_none_iff.1 hleft)
      (part?_eq_some_none_iff.1 hright)
  | operator _ _ ih₁ ih₂ =>
    obtain ⟨-, type, value, _, _, hparts, hkind, hvalue, hleft, hright⟩ := of_ofShape?_level h
    obtain ⟨name, hname, hkind⟩ := Option.bind_eq_some_iff.1 hkind
    obtain rfl := Kind.name_of_ofName? hkind
    obtain rfl := Option.some.inj hvalue
    obtain ⟨_, rfl, hreadl⟩ := exists_of_part? hleft
    obtain ⟨_, rfl, hreadr⟩ := exists_of_part? hright
    exact .operator hparts (Json.Shape.choice?_one hname) (ih₁ hreadl) (ih₂ hreadr)

/-- From a value that documents a tree a document is read that makes the tree, wherever the
    value may nest. -/
theorem exists_ofShape?_of_documents (h : json.Documents t) (hroom : json.nesting ≤ room) :
    ∃ document, ofShape? values room json = some document ∧ document.Makes t := by
  induction h generalizing room with
  | @operand json type payload left right c hparts htype hc hleft hright =>
    have hnesting : type.nesting < json.nesting :=
      Json.Shape.nesting_lt_of_parts? hparts (by simp)
    refine ⟨.level .operand payload none none, ?_, .operand hc⟩
    rw [ofShape?_of_parts? (by omega) hparts, Json.Shape.choice?_of_nesting_le (by omega), htype,
      part?_eq_some_none_iff.2 hleft, part?_eq_some_none_iff.2 hright]
    rfl
  | @operator json type left right op t u hparts htype _ _ ih₁ ih₂ =>
    have hnesting (part : Json) (hpart : some part ∈ [some type, some (.string op.name), some left,
        some right]) : part.nesting < json.nesting := Json.Shape.nesting_lt_of_parts? hparts hpart
    -- All parts nest less deep than the whole, so one level less is enough for them.
    have htypes := hnesting type (by simp)
    have hlefts := hnesting left (by simp)
    have hrights := hnesting right (by simp)
    obtain ⟨l, hl, ht⟩ := @ih₁ (room - 1) (by omega)
    obtain ⟨r, hr, hu⟩ := @ih₂ (room - 1) (by omega)
    refine ⟨.level .operator (.string op.name) (some l) (some r), ?_, .operator ht hu⟩
    rw [ofShape?_of_parts? (by omega) hparts, Json.Shape.choice?_of_nesting_le (by omega), htype,
      part?_of_ofShape? hl, part?_of_ofShape? hr]
    rfl

end Document

/-- A value documents the tree that the document makes which is read of it. -/
theorem Json.documents_iff {json : Json} {t : Tree} :
    json.Documents t ↔
      ∃ document, Document.ofJson? json = some document ∧ document.toTree = .ok t := by
  simp only [Document.toTree_eq_ok_iff]
  exact ⟨fun h => Document.exists_ofShape?_of_documents h (Nat.le_refl _),
    fun ⟨_, hread, ht⟩ => Document.documents_of_ofShape? hread ht⟩

/-- A value documents at most one tree. -/
theorem Json.Documents.eq {json : Json} {t u : Tree} (h : json.Documents t)
    (h' : json.Documents u) : t = u := by
  obtain ⟨document, hread, ht⟩ := documents_iff.1 h
  obtain ⟨document', hread', hu⟩ := documents_iff.1 h'
  obtain rfl := Option.some.inj (hread.symm.trans hread')
  exact Except.ok.inj (ht.symm.trans hu)

/-- The parts of a value with the fields of a document. -/
theorem Document.parts?_object (type payload left right : Json) :
    (Json.Shape.object [("type", type), ("value", payload), ("left", left), ("right", right)] :
      Json).parts? some ["type", "value", "left", "right"] =
        some [some type, some payload, some left, some right] := by
  simp [Json.Shape.parts?, Json.Shape.named?, List.lookup_cons]

/-- The document of a tree documents the tree. -/
theorem Document.documents_of_ofTree {t : Tree} {document : Document}
    (h : ofTree t = .ok document) : document.toJson.Documents t := by
  induction t generalizing document with
  | leaf c =>
    obtain ⟨payload, hc, rfl⟩ := of_ofTree_leaf h
    exact .operand (parts?_object (.string "operand") payload .null .null) rfl
      (Condition.of_toJson hc).2.2 (.inr rfl) (.inr rfl)
  | join op left right ih₁ ih₂ =>
    obtain ⟨l, r, hl, hr, rfl⟩ := of_ofTree_join h
    exact .operator (parts?_object (.string "operator") (.string op.name) l.toJson r.toJson) rfl
      (ih₁ hl) (ih₂ hr)

namespace Tree

variable {json : Json} {t : Tree}

theorem evaluateJson_of_documents (h : json.Documents t) (record : Record) :
    evaluateJson json record = t.evaluate record := by
  obtain ⟨document, hread, ht⟩ := Json.documents_iff.1 h
  simp only [evaluateJson, hread, ht]

/-- A value that documents no tree evaluates to the unknown error. -/
theorem evaluateJson_of_forall (h : ∀ t, ¬json.Documents t) (record : Record) :
    evaluateJson json record = .unknown := by
  rw [evaluateJson]
  cases hread : Document.ofJson? json with
  | none => rfl
  | some document =>
    cases ht : document.toTree with
    | error e => simp only [ht]
    | ok t => exact absurd (Json.documents_iff.2 ⟨document, hread, ht⟩) (h t)

end Tree

end Criteria
