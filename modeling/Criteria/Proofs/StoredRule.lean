import Criteria.Proofs.Document
import Criteria.Proofs.Timestamp
import Criteria.StoredRule

/-!
# Stored rules read back

The document of a rule whose tree has at most 125 levels is read as the rule, with the tree
restored.

* `StoredRule.restored`: the rule that is read of the document of a rule;
* `text_cases`: a rule has a document unless a number in it is not finite;
* `read?_text_eq`, `read?_text`: reading the document of a rule;
* `fromUTF8?_toUTF8`: a text is what its bytes decode to.
-/

namespace Criteria.StoredRule

/-- The rule that is read of the document of a rule. -/
def restored (rule : StoredRule) : StoredRule := { rule with tree := rule.tree.restored }

/-- What a text is encoded to decodes to the text. -/
theorem fromUTF8?_toUTF8 (s : String) : String.fromUTF8? s.toUTF8 = some s :=
  dif_pos s.isValidUTF8

/-- What the document of a rule holds of its tree. -/
theorem of_text {rule : StoredRule} {text : String} (h : rule.text = .ok text) :
    ∃ document json, Document.ofTree rule.tree = .ok document ∧ rule.toJson = .ok json ∧
      text = json.prettyText := by
  rw [StoredRule.text] at h
  cases hj : rule.toJson with
  | error e => simp [hj] at h
  | ok json =>
    have hjson := hj
    rw [toJson] at hj
    cases hd : Document.ofTree rule.tree with
    | error e => simp [hd] at hj
    | ok document => exact ⟨document, json, rfl, rfl, by simpa [hjson] using h.symm⟩

/-- A rule has a text unless a number in its tree is not finite. -/
theorem text_cases (rule : StoredRule) :
    ((∀ c ∈ rule.tree.leaves, c.value.isFinite) ∧ ∃ text, rule.text = .ok text) ∨
      ∃ x, FirstNonFinite rule.tree.leaves x ∧ rule.text = .error (.nonFinite x) := by
  rcases Document.ofTree_cases rule.tree with ⟨hfinite, document, hd⟩ | ⟨x, hx, hd⟩
  · exact .inl ⟨hfinite, _, by rw [text, toJson, hd]⟩
  · exact .inr ⟨x, hx, by rw [text, toJson, hd]⟩

/-- From its JSON as it is written, a rule is read with the tree that is read of its
    document; all numbers in it are finite. -/
theorem ofRaw?_toJson {rule : StoredRule} {json : Json} {document : Document}
    (h : rule.toJson = .ok json) (hd : Document.ofTree rule.tree = .ok document) :
    json.Floats ∧ ofRaw? json.raw =
      (tree? (Json.nestingLimit - 1) document.toJson.raw).map fun tree => { rule with tree } := by
  have hfloats := Document.floats_ofTree hd
  rw [toJson, hd] at h
  obtain rfl := Except.ok.inj h
  obtain ⟨id, name, description, created, updated, tree⟩ := rule
  cases description with
  | none =>
    refine ⟨⟨trivial, trivial, trivial, trivial, hfloats, trivial⟩, ?_⟩
    cases ht : tree? (Json.nestingLimit - 1) document.toJson.raw <;>
      simp [ofRaw?, Json.raw, Json.fieldRaws, Json.Shape.parts?, Json.Shape.named?,
        List.lookup_cons, description?, timestamp?, Timestamp.read?_text, ht]
  | some description =>
    refine ⟨⟨trivial, trivial, trivial, trivial, trivial, hfloats, trivial⟩, ?_⟩
    cases ht : tree? (Json.nestingLimit - 1) document.toJson.raw <;>
      simp [ofRaw?, Json.raw, Json.fieldRaws, Json.Shape.parts?, Json.Shape.named?,
        List.lookup_cons, description?, timestamp?, Timestamp.read?_text, ht]

/-- What is read of the document of a rule is the rule, with the tree that is read. -/
theorem read?_text_eq {rule : StoredRule} {text : String} {document : Document}
    (h : rule.text = .ok text) (hd : Document.ofTree rule.tree = .ok document) :
    read? text =
      (tree? (Json.nestingLimit - 1) document.toJson.raw).map fun tree => { rule with tree } := by
  obtain ⟨_, json, -, hjson, rfl⟩ := of_text h
  obtain ⟨hfloats, hraw⟩ := ofRaw?_toJson hjson hd
  rw [read?, Json.read?_prettyText hfloats, Option.bind_some, hraw]

/-- The document of a rule is read as the restored rule, unless its tree is too deep. -/
theorem read?_text {rule : StoredRule} {text : String} (h : rule.text = .ok text)
    (hd : rule.tree.height < Json.nestingLimit - 1) : read? text = some rule.restored := by
  obtain ⟨document, _, hdocument, -, -⟩ := of_text h
  obtain ⟨document', hrestored, hread⟩ := Document.ofRaw?_ofTree hdocument hd
  have htree : tree? (Json.nestingLimit - 1) document.toJson.raw = some rule.tree.restored := by
    rw [tree?, hread]
    simp [Document.toTree_ofTree hrestored, Except.toOption]
  rw [read?_text_eq h hdocument, htree, Option.map_some, restored]

end Criteria.StoredRule
