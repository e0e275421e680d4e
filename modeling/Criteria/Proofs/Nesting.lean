import Criteria.Proofs.StoredRule

/-!
# How deep documents nest

The JSON of a tree nests one level deeper than the tree has levels, and that of a stored
rule two levels deeper. Reading has a limit, so a rule is written whatever its depth and is
not read if it is too deep.

* `Document.nesting_ofTree`, `StoredRule.exists_nesting_of_text`: how deep what is written
  nests;
* `Document.height_lt_of_ofRaw?`, `StoredRule.height_lt_of_read?`: what is read is not too
  deep;
* `StoredRule.read?_text_eq_ite`: which rules are read from their own documents.
-/

namespace Criteria

namespace Json

/-! ## Values as they are written -/

mutual

/-- A value nests as deep as it is written. -/
theorem nesting_raw : ∀ json : Json, json.raw.nesting = json.nesting
  | .null | .boolean _ | .number _ | .string _ => rfl
  | .array items => congrArg (· + 1) (itemsNesting_itemRaws items)
  | .object fields => congrArg (· + 1) (fieldsNesting_fieldRaws fields)

theorem itemsNesting_itemRaws : ∀ items : List Json,
    Shape.itemsNesting (itemRaws items) = Shape.itemsNesting items
  | [] => rfl
  | item :: items => congrArg₂ max (nesting_raw item) (itemsNesting_itemRaws items)

theorem fieldsNesting_fieldRaws : ∀ fields : List (String × Json),
    Shape.fieldsNesting (fieldRaws fields) = Shape.fieldsNesting fields
  | [] => rfl
  | (_, value) :: fields => congrArg₂ max (nesting_raw value) (fieldsNesting_fieldRaws fields)

end

/-- Where nothing may nest, only what does not nest has a value. -/
theorem Raw.nesting_of_value?_zero {raw : Raw} {json : Json} (h : Raw.value? 0 raw = some json) :
    raw.nesting = 0 ∧ json.nesting = 0 := by
  cases raw with
  | null | boolean b =>
    obtain rfl := Option.some.inj h
    exact ⟨rfl, rfl⟩
  | number n =>
    obtain ⟨x, -, rfl⟩ := Option.map_eq_some_iff.1 h
    exact ⟨rfl, rfl⟩
  | string s =>
    obtain ⟨x, -, rfl⟩ := Option.map_eq_some_iff.1 h
    exact ⟨rfl, rfl⟩
  | array items => simp [Raw.value?] at h
  | object fields => simp [Raw.value?] at h

end Json

/-- The JSON value of a condition is an object of strings and numbers. -/
theorem Condition.nesting_of_toJson {c : Condition} {json : Json} (h : c.toJson = .ok json) :
    json.nesting = 1 := by
  rw [toJson] at h
  cases hv : c.value.toJson with
  | error e => simp [hv] at h
  | ok value =>
    have hvalue : value.nesting = 0 := by
      obtain ⟨-, ⟨_, -, hread⟩, -⟩ := Value.of_toJson hv
      rw [← Json.nesting_raw]
      exact (Json.Raw.nesting_of_value?_zero (hread 0)).1
    rw [hv] at h
    obtain rfl := Except.ok.inj h
    simp [Json.Shape.nesting, Json.Shape.fieldsNesting, hvalue]

/-- What stands for a condition is an array or an object. -/
theorem Condition.nesting_pos_of_ofJson? {c : Condition} {json : Json}
    (h : Condition.ofJson? json = some c) : 0 < json.nesting := by
  cases json with
  | null | boolean b | number n | string s => simp [ofJson?, Json.Shape.parts?] at h
  | array items => exact Nat.succ_pos _
  | object fields => exact Nat.succ_pos _

namespace Document

variable {t : Tree} {c : Condition} {op : Connective} {left right : Tree} {document : Document}
  {room : Nat} {raw : Json.Raw}

/-! ## Written documents -/

/-- The document of a tree nests one level deeper than the tree has levels. -/
theorem nesting_ofTree (h : ofTree t = .ok document) : document.toJson.nesting = t.height + 1 := by
  induction t generalizing document with
  | leaf c =>
    obtain ⟨payload, hc, rfl⟩ := of_ofTree_leaf h
    simp [toJson, Json.Shape.nesting, Json.Shape.fieldsNesting, Condition.nesting_of_toJson hc,
      Tree.height]
  | join op left right ih₁ ih₂ =>
    obtain ⟨l, r, hl, hr, rfl⟩ := of_ofTree_join h
    simp [toJson, Json.Shape.nesting, Json.Shape.fieldsNesting, ih₁ hl, ih₂ hr, Tree.height]

theorem ofRaw?_zero (raw : Json.Raw) : ofRaw? 0 raw = none := by
  rw [ofRaw?, ofShape?, if_pos rfl]

/-- The document of a tree cannot be read where it may nest no deeper than the tree has
    levels. -/
theorem ofRaw?_ofTree_of_le (h : ofTree t = .ok document) (hr : room ≤ t.height) :
    ofRaw? room document.toJson.raw = none := by
  induction t generalizing document room with
  | leaf c =>
    obtain ⟨payload, hc, rfl⟩ := of_ofTree_leaf h
    have hr : room ≤ 1 := hr
    rcases Nat.eq_zero_or_pos room with rfl | hroom
    · exact ofRaw?_zero _
    · obtain rfl : room = 1 := by omega
      -- The payload is an object, for which no room is left.
      have hpayload : Json.Raw.value? 0 payload.raw = none := by
        rw [Option.eq_none_iff_forall_ne_some]
        intro json hjson
        have := (Json.Raw.nesting_of_value?_zero hjson).1
        rw [Json.nesting_raw, Condition.nesting_of_toJson hc] at this
        omega
      refine (ofRaw?_level hroom .operand payload.raw .null .null).trans ?_
      rw [hpayload]
  | join op left right ih₁ ih₂ =>
    obtain ⟨l, r, hl, hr', rfl⟩ := of_ofTree_join h
    have hr : room ≤ max left.height right.height + 1 := hr
    rcases Nat.eq_zero_or_pos room with rfl | hroom
    · exact ofRaw?_zero _
    · refine (ofRaw?_level hroom .operator (.string (some op.name)) l.toJson.raw
        r.toJson.raw).trans ?_
      rw [partOf?_toJson, partOf?_toJson]
      rcases Nat.le_total left.height right.height with hle | hle
      · rw [ih₂ hr' (by omega)]
        simp
      · rw [ih₁ hl (by omega)]
        simp

/-! ## Documents that are read -/

/-- Where a level is read, something may nest; and its payload and its parts are read where
    one level less may. -/
theorem of_ofRaw?_level {kind : Kind} {payload : Json} {l r : Option Document}
    (h : ofRaw? room raw = some (.level kind payload l r)) :
    0 < room ∧ (∃ raw, Json.Raw.value? (room - 1) raw = some payload) ∧
      (∀ part, l = some part → ∃ raw, ofRaw? (room - 1) raw = some part) ∧
      ∀ part, r = some part → ∃ raw, ofRaw? (room - 1) raw = some part := by
  obtain ⟨hroom, _, value, left, right, -, -, hpayload, hleft, hright⟩ := of_ofShape?_level h
  refine ⟨Nat.pos_of_ne_zero hroom, ⟨value, hpayload⟩, ?_, ?_⟩
  · rintro part rfl
    obtain ⟨raw, -, hread⟩ := exists_of_part? hleft
    exact ⟨raw, hread⟩
  · rintro part rfl
    obtain ⟨raw, -, hread⟩ := exists_of_part? hright
    exact ⟨raw, hread⟩

/-- A tree that is read has less levels than may nest. -/
theorem height_lt_of_ofRaw? (h : ofRaw? room raw = some document) (ht : document.Makes t) :
    t.height < room := by
  induction ht generalizing room raw with
  | operand hc =>
    obtain ⟨hroom, ⟨raw, hpayload⟩, -⟩ := of_ofRaw?_level h
    have := Condition.nesting_pos_of_ofJson? hc
    rcases Nat.eq_zero_or_pos (room - 1) with hzero | hpos
    · rw [hzero] at hpayload
      have := (Json.Raw.nesting_of_value?_zero hpayload).2
      omega
    · exact Nat.lt_sub_iff_add_lt.1 hpos
  | @operator op l r left right _ _ ih₁ ih₂ =>
    obtain ⟨hroom, -, hl, hr⟩ := of_ofRaw?_level h
    obtain ⟨_, hl⟩ := hl l rfl
    obtain ⟨_, hr⟩ := hr r rfl
    have := ih₁ hl
    have := ih₂ hr
    rw [Tree.height]
    omega

end Document

namespace StoredRule

variable {rule : StoredRule} {text : String}

/-! ## Written rules -/

/-- The JSON value of a rule nests two levels deeper than its tree has levels. -/
theorem nesting_of_toJson {json : Json} (h : rule.toJson = .ok json) :
    json.nesting = rule.tree.height + 2 := by
  rw [toJson] at h
  cases hd : Document.ofTree rule.tree with
  | error e => simp [hd] at h
  | ok document =>
    have hdocument := Document.nesting_ofTree hd
    rw [hd] at h
    obtain rfl := Except.ok.inj h
    cases rule.description <;>
      simp [Json.Shape.nesting, Json.Shape.fieldsNesting, hdocument]

/-- The text of a rule is JSON that nests two levels deeper than its tree has levels. -/
theorem exists_nesting_of_text (h : rule.text = .ok text) :
    ∃ raw, Json.Raw.read? text = some raw ∧ raw.nesting = rule.tree.height + 2 := by
  obtain ⟨document, json, hdocument, hjson, rfl⟩ := of_text h
  obtain ⟨hfloats, -⟩ := ofRaw?_toJson hjson hdocument
  refine ⟨json.raw, Json.read?_prettyText hfloats, ?_⟩
  rw [Json.nesting_raw, nesting_of_toJson hjson]

/-! ## Rules that are read -/

theorem height_lt_of_tree? {room : Nat} {raw : Json.Raw} {t : Tree} (h : tree? room raw = some t) :
    t.height < room := by
  rw [tree?] at h
  split at h
  · simp at h
  · rename_i document hdocument
    cases ht : document.toTree with
    | error e => simp [ht, Except.toOption] at h
    | ok tree =>
      obtain rfl : tree = t := by simpa [ht, Except.toOption] using h
      exact Document.height_lt_of_ofRaw? hdocument (Document.makes_of_toTree ht)

/-- The tree of a rule that is read is not too deep. -/
theorem height_lt_of_read? {s : String} (h : read? s = some rule) :
    rule.tree.height < Json.nestingLimit - 1 := by
  obtain ⟨raw, -, h⟩ := Option.bind_eq_some_iff.1 h
  unfold ofRaw? at h
  split at h
  · split at h
    · rename_i htree
      obtain rfl := Option.some.inj h
      exact height_lt_of_tree? htree
    · simp at h
  · simp at h

/-- From the document of a rule, the restored rule is read if its tree is not too deep, and else
    none is. -/
theorem read?_text_eq_ite (h : rule.text = .ok text) : read? text =
    if rule.tree.height < Json.nestingLimit - 1 then some rule.restored else none := by
  split
  · exact read?_text h ‹_›
  · rename_i hdeep
    obtain ⟨document, _, hdocument, -, -⟩ := of_text h
    rw [read?_text_eq h hdocument, tree?,
      Document.ofRaw?_ofTree_of_le hdocument (Nat.le_of_not_lt hdeep)]
    rfl

end StoredRule

end Criteria
