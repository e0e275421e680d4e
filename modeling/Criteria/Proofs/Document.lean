import Criteria.Document
import Criteria.Proofs.First
import Criteria.Proofs.Json.Reading
import Criteria.Proofs.Tree.Restored

/-!
# Documents read back

The document of a tree makes the same tree again. Its JSON text is read as the document of the
restored tree, wherever it may nest one level deeper than the tree has levels: the conversions
keep every number, and only the text of a number may be read as another one.

* `ofTree_cases`: a tree has a document unless a number in it is not finite;
* `Makes`: the tree that a document makes, level by level;
* `toTree_ofTree`: the tree of the document of a tree;
* `ofTree_faithful`: which trees have documents, and what these stand for;
* `floats_ofTree`: the numbers in the document of a tree are finite;
* `ofRaw?_ofTree`: reading the document of a tree from JSON as it is written.
-/

namespace Criteria

/-! ## Values and conditions -/

theorem Value.toJson_number {x : Number} (hx : x.isFinite) :
    (Value.number x).toJson = .ok (.number (.float x)) := by
  rw [toJson, if_pos hx]

/-- The JSON value of a value is finite, is read as that of the restored value, and stands for
    the value. -/
theorem Value.of_toJson {v : Value} {json : Json} (h : v.toJson = .ok json) :
    json.Floats ∧ (∃ json', v.restored.toJson = .ok json' ∧
      ∀ room, Json.Raw.value? room json.raw = some json') ∧ Value.ofJson? json = some v := by
  cases v with
  | number x =>
    rw [Value.toJson] at h
    split at h
    · rename_i hx
      rw [← Except.ok.inj h]
      refine ⟨hx, ⟨_, toJson_number (Number.isFinite_restored hx), fun room => ?_⟩, rfl⟩
      rw [Json.raw, Json.Raw.value?, Number.value?_numeral hx, Option.map_some]
    · simp at h
  | text s =>
    rw [← Except.ok.inj h]
    exact ⟨trivial, ⟨_, rfl, fun _ => rfl⟩, rfl⟩

/-- The fields of a condition stand in the order of their names. -/
theorem Condition.sortFields_fields (field comparator value : Json) :
    Json.sortFields [("attribute", field), ("operator", comparator), ("value", value)] =
      [("attribute", field), ("operator", comparator), ("value", value)] := by
  have h₁ : ¬("operator" < "attribute") ∧ "operator" ≠ "attribute" := by decide
  have h₂ : ¬("value" < "attribute") ∧ "value" ≠ "attribute" := by decide
  have h₃ : ¬("value" < "operator") ∧ "value" ≠ "operator" := by decide
  simp only [Json.sortFields, List.foldl_cons, List.foldl_nil, Json.insertField, if_neg h₁.1,
    if_neg h₁.2, if_neg h₂.1, if_neg h₂.2, if_neg h₃.1, if_neg h₃.2]

/-- The JSON value of a condition is finite, is read as that of the restored condition where it
    may nest, and stands for the condition. -/
theorem Condition.of_toJson {c : Condition} {json : Json} (h : c.toJson = .ok json) :
    json.Floats ∧ (∃ json', c.restored.toJson = .ok json' ∧
      ∀ room, 0 < room → Json.Raw.value? room json.raw = some json') ∧
      Condition.ofJson? json = some c := by
  rw [Condition.toJson] at h
  cases hv : c.value.toJson with
  | error e => simp [hv] at h
  | ok value =>
    obtain ⟨hfloats, ⟨value', hv', hread⟩, hvalue⟩ := Value.of_toJson hv
    rw [hv] at h
    obtain rfl := Except.ok.inj h
    have hrestored : c.restored.toJson = .ok (.object [("attribute", .string c.field),
        ("operator", .string c.comparator.symbol), ("value", value')]) := by
      rw [Condition.toJson, show c.restored.value.toJson = .ok value' from hv']
      rfl
    refine ⟨⟨trivial, trivial, hfloats, trivial⟩, ⟨_, hrestored, fun room hroom => ?_⟩, ?_⟩
    · simp only [Json.raw, Json.fieldRaws, Json.Raw.value?, if_neg hroom.ne',
        Json.Raw.fieldValues?, hread, Option.map_some]
      rw [sortFields_fields]
    · have hop := Comparator.ofSymbol?_symbol c.comparator
      simp [Condition.ofJson?, Json.Shape.parts?, Json.Shape.named?, Json.Shape.choice?, hop,
        hvalue, List.lookup_cons]

/-- A condition has a JSON value unless its value is a number that is not finite. -/
theorem Condition.toJson_cases (c : Condition) :
    (c.value.isFinite ∧ ∃ json, c.toJson = .ok json) ∨
      ∃ x : Number, c.value = .number x ∧ ¬x.isFinite ∧ c.toJson = .error (.nonFinite x) := by
  obtain ⟨field, comparator, value⟩ := c
  cases value with
  | text s => exact .inl ⟨rfl, _, rfl⟩
  | number x =>
    by_cases hx : x.isFinite
    · exact .inl ⟨hx, _, by simp only [toJson, Value.toJson, if_pos hx]; rfl⟩
    · exact .inr ⟨x, rfl, hx, by simp only [toJson, Value.toJson, if_neg hx]⟩

theorem Connective.name_of_ofName? {name : String} {op : Connective}
    (h : ofName? name = some op) : name = op.name := by
  unfold ofName? at h
  split at h <;> simp at h <;> exact h ▸ rfl

/-- The first value of the conditions that is not finite is this number. -/
def FirstNonFinite (conditions : List Condition) (x : Number) : Prop :=
  ∃ before c after, conditions = before ++ c :: after ∧ (∀ b ∈ before, b.value.isFinite) ∧
    c.value = .number x ∧ ¬x.isFinite

theorem firstNonFinite_iff {conditions : List Condition} {x : Number} :
    FirstNonFinite conditions x ↔
      First (·.value.isFinite) (fun c x => c.value = .number x ∧ ¬x.isFinite) conditions x :=
  Iff.rfl

theorem FirstNonFinite.append {conditions : List Condition} {x : Number}
    (h : FirstNonFinite conditions x) (more : List Condition) :
    FirstNonFinite (conditions ++ more) x :=
  firstNonFinite_iff.2 (first_append.2 (.inl (firstNonFinite_iff.1 h)))

theorem FirstNonFinite.append_left {before conditions : List Condition} {x : Number}
    (hb : ∀ c ∈ before, c.value.isFinite) (h : FirstNonFinite conditions x) :
    FirstNonFinite (before ++ conditions) x :=
  firstNonFinite_iff.2 (first_append.2 (.inr ⟨hb, firstNonFinite_iff.1 h⟩))

/-- Where all values are finite, there is no first that is not. -/
theorem FirstNonFinite.not_forall {conditions : List Condition} {x : Number}
    (h : FirstNonFinite conditions x) : ¬∀ c ∈ conditions, c.value.isFinite := by
  refine (firstNonFinite_iff.1 h).not_forall fun c x hc hfinite => ?_
  rw [hc.1] at hfinite
  exact hc.2 hfinite

namespace Document

/-! ## Documents -/

section Source

variable {ν σ : Type} {source : Source ν σ} {room : Nat} {shape : Json.Shape ν σ}

/-- What is read of a part that may be missing or `null`. -/
abbrev part? (source : Source ν σ) (room : Nat) (shape? : Option (Json.Shape ν σ)) :
    Option (Option Document) :=
  ofShape?.part? shape? fun shape _ => ofShape? source room shape

theorem exists_of_part? {shape? : Option (Json.Shape ν σ)} {document : Document}
    (h : part? source room shape? = some (some document)) :
    ∃ shape, shape? = some shape ∧ ofShape? source room shape = some document := by
  unfold part? ofShape?.part? at h
  split at h
  · simp at h
  · simp at h
  · rename_i shape _
    obtain ⟨read, hread, heq⟩ := Option.map_eq_some_iff.1 h
    obtain rfl := Option.some.inj heq
    exact ⟨shape, rfl, hread⟩

/-- A level of a document is read from its four parts. -/
theorem ofShape?_of_parts? (hroom : room ≠ 0) {type payload : Json.Shape ν σ}
    {left right : Option (Json.Shape ν σ)}
    (hparts : shape.parts? source.name? ["type", "value", "left", "right"] =
      some [some type, some payload, left, right]) :
    ofShape? source room shape =
      match (type.choice? source.name? (room - 1)).bind Kind.ofName?,
        source.payload? (room - 1) payload, part? source (room - 1) left,
        part? source (room - 1) right with
      | some kind, some payload, some left, some right => some (.level kind payload left right)
      | _, _, _, _ => none := by
  rw [ofShape?, if_neg hroom]
  split
  · rename_i heq
    rw [hparts] at heq
    simp only [Option.some.injEq, List.cons.injEq, and_true] at heq
    obtain ⟨rfl, rfl, rfl, rfl⟩ := heq
    rfl
  · rename_i heq
    exact absurd hparts (heq _ _ _ _)

/-- What a level of a document has been read from. -/
theorem of_ofShape?_level {kind : Kind} {payload : Json} {l r : Option Document}
    (h : ofShape? source room shape = some (.level kind payload l r)) :
    room ≠ 0 ∧ ∃ type value left right,
      shape.parts? source.name? ["type", "value", "left", "right"] =
        some [some type, some value, left, right] ∧
      (type.choice? source.name? (room - 1)).bind Kind.ofName? = some kind ∧
      source.payload? (room - 1) value = some payload ∧
      part? source (room - 1) left = some l ∧ part? source (room - 1) right = some r := by
  rw [ofShape?] at h
  split at h
  · simp at h
  · rename_i hroom
    split at h
    · rename_i type value left right hparts
      split at h
      · rename_i hkind hpayload hleft hright
        obtain ⟨rfl, rfl, rfl, rfl⟩ := Document.level.inj (Option.some.inj h)
        exact ⟨hroom, type, value, left, right, hparts, hkind, hpayload, hleft, hright⟩
      · simp at h
    · simp at h

end Source

/-- Reads a part that is given, or none if it is `null`. -/
def partOf? (room : Nat) : Json.Raw → Option (Option Document)
  | .null => some none
  | raw => (ofRaw? room raw).map some

/-- A level of a document is read from its four fields. -/
theorem ofRaw?_level {room : Nat} (hr : 0 < room) (kind : Kind) (payload left right : Json.Raw) :
    ofRaw? room (.object [(some "type", .string (some kind.name)), (some "value", payload),
        (some "left", left), (some "right", right)]) =
      match Json.Raw.value? (room - 1) payload, partOf? (room - 1) left,
          partOf? (room - 1) right with
      | some payload, some left, some right => some (.level kind payload left right)
      | _, _, _ => none := by
  have hparts : Json.Shape.parts? id ["type", "value", "left", "right"]
      (.object [(some "type", .string (some kind.name)), (some "value", payload),
        (some "left", left), (some "right", right)] : Json.Raw) =
      some [some (.string (some kind.name)), some payload, some left, some right] := by
    simp [Json.Shape.parts?, Json.Shape.named?, List.lookup_cons]
  have hkind : Kind.ofName? kind.name = some kind := by cases kind <;> rfl
  have hpart (raw : Json.Raw) :
      part? ⟨id, Json.Raw.value?⟩ (room - 1) (some raw) = partOf? (room - 1) raw := by
    cases raw <;> rfl
  rw [ofRaw?, ofShape?_of_parts? hr.ne' hparts, hpart, hpart]
  simp only [Json.Shape.choice?, id, Option.bind_some, hkind]
  split <;> simp_all

/-! ## Trees -/

variable {t left right : Tree} {op : Connective} {document : Document}

/-- The payload of an operator is the name of its connective. -/
theorem connective_eq_ok_iff {payload : Json} {op : Connective} :
    connective payload = .ok op ↔ payload = .string op.name := by
  constructor
  · intro h
    unfold connective at h
    split at h
    · split at h
      · rename_i name _ hname
        obtain rfl := Except.ok.inj h
        rw [Connective.name_of_ofName? hname]
      · simp at h
    · simp at h
  · rintro rfl
    simp only [connective, Connective.ofName?_name]

/-- The tree that a document makes: an operand has no parts, and an operator has two. -/
inductive Makes : Document → Tree → Prop
  | operand {payload : Json} {c : Condition} : Condition.ofJson? payload = some c →
    Makes (.level .operand payload none none) (.leaf c)
  | operator {op : Connective} {left right : Document} {t u : Tree} : Makes left t →
    Makes right u → Makes (.level .operator (.string op.name) (some left) (some right))
      (.join op t u)

theorem toTree_of_makes (h : document.Makes t) : document.toTree = .ok t := by
  induction h with
  | operand hc => simp only [toTree, hc]
  | operator _ _ ih₁ ih₂ => simp only [toTree, connective_eq_ok_iff.2 rfl, ih₁, ih₂]

theorem makes_of_toTree (h : document.toTree = .ok t) : document.Makes t := by
  fun_induction toTree document generalizing t with
  | case1 payload c hc =>
    obtain rfl := Except.ok.inj h
    exact .operand hc
  | case7 payload left right op hop l hl r hr ih₁ ih₂ =>
    obtain rfl := Except.ok.inj h
    obtain rfl := connective_eq_ok_iff.1 hop
    exact .operator (ih₁ hl) (ih₂ hr)
  | _ => simp at h

theorem toTree_eq_ok_iff : document.toTree = .ok t ↔ document.Makes t :=
  ⟨makes_of_toTree, toTree_of_makes⟩

/-! ### Their documents -/

theorem of_ofTree_leaf {c : Condition} (h : ofTree (.leaf c) = .ok document) :
    ∃ payload, c.toJson = .ok payload ∧ document = .level .operand payload none none := by
  rw [ofTree] at h
  cases hc : c.toJson with
  | error e => simp [hc] at h
  | ok payload => exact ⟨payload, rfl, by simpa [hc] using h.symm⟩

theorem of_ofTree_join (h : ofTree (.join op left right) = .ok document) :
    ∃ l r, ofTree left = .ok l ∧ ofTree right = .ok r ∧
      document = .level .operator (.string op.name) (some l) (some r) := by
  rw [ofTree] at h
  cases hl : ofTree left with
  | error e => simp [hl] at h
  | ok l =>
    cases hr : ofTree right with
    | error e => simp [hl, hr] at h
    | ok r => exact ⟨l, r, rfl, rfl, by simpa [hl, hr] using h.symm⟩

/-- A tree has a document, or the first number in it that is not finite is reported: the
    left part is written before the right one. -/
theorem ofTree_cases (t : Tree) :
    ((∀ c ∈ t.leaves, c.value.isFinite) ∧ ∃ document, ofTree t = .ok document) ∨
      ∃ x, FirstNonFinite t.leaves x ∧ ofTree t = .error (.nonFinite x) := by
  induction t with
  | leaf c =>
    rcases c.toJson_cases with ⟨hc, json, hjson⟩ | ⟨x, hc, hx, hjson⟩
    · exact .inl ⟨by simpa [Tree.leaves] using hc, _, by rw [ofTree, hjson]⟩
    · exact .inr ⟨x, ⟨[], c, [], rfl, by simp, hc, hx⟩, by rw [ofTree, hjson]⟩
  | join op left right ih₁ ih₂ =>
    rcases ih₁ with ⟨hleft, l, hl⟩ | ⟨x, hx, hl⟩
    · rcases ih₂ with ⟨hright, r, hr⟩ | ⟨x, hx, hr⟩
      · exact .inl ⟨List.forall_mem_append.2 ⟨hleft, hright⟩, _, by rw [ofTree, hl, hr]⟩
      · exact .inr ⟨x, hx.append_left hleft, by rw [ofTree, hl, hr]⟩
    · exact .inr ⟨x, hx.append _, by rw [ofTree, hl]⟩

/-- The document of a tree makes that tree. -/
theorem makes_of_ofTree (h : ofTree t = .ok document) : document.Makes t := by
  induction t generalizing document with
  | leaf c =>
    obtain ⟨payload, hc, rfl⟩ := of_ofTree_leaf h
    exact .operand (Condition.of_toJson hc).2.2
  | join op left right ih₁ ih₂ =>
    obtain ⟨l, r, hl, hr, rfl⟩ := of_ofTree_join h
    exact .operator (ih₁ hl) (ih₂ hr)

theorem toTree_ofTree (h : ofTree t = .ok document) : document.toTree = .ok t :=
  toTree_of_makes (makes_of_ofTree h)

/-- A tree has a document just if its values are finite, else the first that is not is
    reported; and its document makes that tree. -/
theorem ofTree_faithful (t : Tree) :
    ((∃ document, ofTree t = .ok document) ↔ ∀ c ∈ t.leaves, c.value.isFinite) ∧
    (∀ e, ofTree t = .error e → ∃ x, FirstNonFinite t.leaves x ∧ e = .nonFinite x) ∧
    ∀ document, ofTree t = .ok document → document.toTree = .ok t := by
  refine ⟨?_, ?_, fun _ => toTree_ofTree⟩
  · rcases ofTree_cases t with ⟨hfinite, hdocument⟩ | ⟨x, hx, herror⟩
    · exact iff_of_true hdocument hfinite
    · exact iff_of_false (by simp [herror]) hx.not_forall
  · intro e he
    rcases ofTree_cases t with ⟨-, document, hdocument⟩ | ⟨x, hx, herror⟩
    · simp [hdocument] at he
    · exact ⟨x, hx, Except.error.inj (he.symm.trans herror)⟩

/-- The numbers in the document of a tree are finite. -/
theorem floats_ofTree (h : ofTree t = .ok document) : document.toJson.Floats := by
  induction t generalizing document with
  | leaf c =>
    obtain ⟨payload, hc, rfl⟩ := of_ofTree_leaf h
    exact ⟨trivial, (Condition.of_toJson hc).1, trivial, trivial, trivial⟩
  | join op left right ih₁ ih₂ =>
    obtain ⟨l, r, hl, hr, rfl⟩ := of_ofTree_join h
    exact ⟨trivial, trivial, ih₁ hl, ih₂ hr, trivial⟩

/-- The JSON of a document is not `null`. -/
theorem partOf?_toJson (room : Nat) (document : Document) :
    partOf? room document.toJson.raw = (ofRaw? room document.toJson.raw).map some := by
  obtain ⟨kind, payload, left, right⟩ := document
  cases left <;> cases right <;> rfl

/-- The document of the restored tree is read from the JSON of a tree as it is written, where it
    may nest one level deeper than the tree has levels. -/
theorem ofRaw?_ofTree {room : Nat} (h : ofTree t = .ok document) (hr : t.height < room) :
    ∃ document', ofTree t.restored = .ok document' ∧
      ofRaw? room document.toJson.raw = some document' := by
  induction t generalizing document room with
  | leaf c =>
    obtain ⟨payload, hc, rfl⟩ := of_ofTree_leaf h
    obtain ⟨-, ⟨payload', hc', hread⟩, -⟩ := Condition.of_toJson hc
    have hr : 1 < room := hr
    refine ⟨.level .operand payload' none none, ?_,
      (ofRaw?_level (by omega) .operand payload.raw .null .null).trans ?_⟩
    · change ofTree (.leaf c.restored) = _
      rw [ofTree, hc']
    · rw [hread (room - 1) (by omega)]
      rfl
  | join op left right ih₁ ih₂ =>
    obtain ⟨l, r, hl, hr', rfl⟩ := of_ofTree_join h
    have hr : max left.height right.height + 1 < room := hr
    obtain ⟨l', hl', hleft⟩ := @ih₁ _ (room - 1) hl (by omega)
    obtain ⟨r', hr', hright⟩ := @ih₂ _ (room - 1) hr' (by omega)
    refine ⟨.level .operator (.string op.name) (some l') (some r'), ?_,
      (ofRaw?_level (by omega) .operator (.string (some op.name)) l.toJson.raw
        r.toJson.raw).trans ?_⟩
    · change ofTree (.join op left.restored right.restored) = _
      rw [ofTree, hl', hr']
    · rw [partOf?_toJson, partOf?_toJson, hleft, hright]
      rfl

end Document

end Criteria
