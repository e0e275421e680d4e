import Criteria.Proofs.Documented
import Criteria.Proofs.Engine.Rules
import Criteria.Proofs.Evaluation
import Criteria.Proofs.Record
import Criteria.Proofs.Store.Effect

/-!
# Ways of evaluating a rule

A rule can be evaluated as a tree, as a document, as a document on a record that is JSON
itself, and under the id that it is stored with. All of them give the same outcome; but what is
stored of a rule in a directory is the restored tree. What is no rule gives the unknown error,
and only what is no record makes an evaluation fail.

* `Engine.evaluateJson_of_describes`: a document on a JSON record;
* `Engine.evaluateJson_eq_error_iff`: when that fails;
* `Engine.evaluateRule_of_get`: a stored rule;
* `Engine.evaluations_agree`: all of them together;
* `Engine.not_forall_evaluateRule`: a rule that has another outcome after it has been saved.
-/

namespace Criteria

namespace Engine

variable {t : Tree} {record : Record} {document data : Json} {fields : List (String × Json)}

/-! ## Documents on JSON records -/

theorem evaluateJson_of_describes (h : document.Documents t) (hr : Record.Describes fields record) :
    evaluateJson document (.object fields) = .ok (t.evaluate record) := by
  obtain ⟨record', hread, hget⟩ := Record.exists_ofJson hr
  rw [evaluateJson, hread]
  change Except.ok (Tree.evaluateJson document record') = _
  rw [Tree.evaluateJson_of_documents h,
    Tree.evaluate_congr fun c _ => Condition.holds_congr (hget c.field)]

/-- Whatever the document is, evaluation fails where the data is no record, for the reason
    why it is none. -/
theorem evaluateJson_eq_error_iff {cause : EngineError} :
    evaluateJson document data = .error cause ↔
      ((∀ fields, data ≠ .object fields) ∧ cause = .record (.notObject data.kind)) ∨
      ∃ fields name json, data = .object fields ∧
        Record.LeastUnsupported (Json.last? fields) name json ∧
        cause = .record (.unsupportedField name json.text) := by
  have hread : evaluateJson document data = .error cause ↔
      ∃ e, Record.ofJson data = .error e ∧ cause = .record e := by
    rw [evaluateJson]
    cases Record.ofJson data with
    | ok record => simp
    | error e => simp [eq_comm]
  rw [hread]
  simp only [Record.ofJson_eq_error_iff]
  constructor
  · rintro ⟨e, ⟨hobject, rfl⟩ | ⟨fields, name, json, hdata, hleast, rfl⟩, rfl⟩
    · exact .inl ⟨hobject, rfl⟩
    · exact .inr ⟨fields, name, json, hdata, hleast, rfl⟩
  · rintro (⟨hobject, rfl⟩ | ⟨fields, name, json, hdata, hleast, rfl⟩)
    · exact ⟨_, .inl ⟨hobject, rfl⟩, rfl⟩
    · exact ⟨_, .inr ⟨fields, name, json, hdata, hleast, rfl⟩, rfl⟩

/-! ## Stored rules -/

variable {e : Engine} {id : String} {rule : StoredRule}

theorem evaluateRule_of_get (h : e.get id = .ok rule) (record : Record) :
    e.evaluateRule id record = .ok (rule.tree.evaluate record) := by
  simp only [evaluateRule, get_eq_ok_iff.1 h]

/-! ## All ways -/

/-- All ways of evaluating a rule on a record agree. A tree with finite values has a document,
    which has the same outcome as the tree; so it has, if the values of the record are finite,
    on every JSON object that describes the record, and there is one. The same outcome has a
    stored rule with the tree. After a rule has been saved, it has the outcome of its tree as the
    store restores it, if it is not too deep to be read from a directory; that is the outcome of
    its tree if its values are short, and in memory in any case. JSON has the outcome of the tree
    that it documents, and the unknown error if it documents none. And whatever is evaluated on
    JSON data, this fails just if the data is no object, or if a field in it holds neither a
    number nor a string, of which the one with the least name is reported. -/
theorem evaluations_agree (r : Record) :
    (∀ t : Tree, (∀ c ∈ t.leaves, c.value.isFinite) → r.IsFinite →
      (Record.Describes r.fields r ∧ Json.Floats (.object r.fields)) ∧
      ∃ document, Document.ofTree t = .ok document ∧
        Tree.evaluateJson document.toJson r = t.evaluate r ∧
        (∀ fields, Record.Describes fields r →
          evaluateJson document.toJson (.object fields) = .ok (t.evaluate r)) ∧
        (∀ (e : Engine) (id : String) (rule : StoredRule), e.get id = .ok rule → rule.tree = t →
          e.evaluateRule id r = .ok (t.evaluate r)) ∧
        ∀ (e : Engine) (rule : StoredRule), (e.save rule).1 = .ok rule → rule.tree = t →
          (t.depth < Json.nestingLimit - 1 → (e.save rule).2.evaluateRule rule.id r =
            .ok ((e.store.restored rule).tree.evaluate r)) ∧
          ((∃ m, e.store = .memory m) ∨ (t.HasShortValues ∧ t.depth < Json.nestingLimit - 1) →
            (e.save rule).2.evaluateRule rule.id r = .ok (t.evaluate r))) ∧
    (∀ d : Json, (∀ t, d.Documents t → Tree.evaluateJson d r = t.evaluate r) ∧
      ((∀ t, ¬d.Documents t) → Tree.evaluateJson d r = .unknown)) ∧
    ∀ (d data : Json) (cause : EngineError), evaluateJson d data = .error cause ↔
      ((∀ fields, data ≠ .object fields) ∧ cause = .record (.notObject data.kind)) ∨
      ∃ fields name json, data = .object fields ∧
        Record.LeastUnsupported (Json.last? fields) name json ∧
        cause = .record (.unsupportedField name json.text) := by
  refine ⟨fun t ht hr => ⟨⟨r.describes_fields, Record.fieldFloats_fields hr⟩, ?_⟩,
    fun d => ⟨fun t h => Tree.evaluateJson_of_documents h r,
      fun h => Tree.evaluateJson_of_forall h r⟩, fun d data cause => evaluateJson_eq_error_iff⟩
  obtain ⟨document, hdocument⟩ := (Document.ofTree_faithful t).1.2 ht
  have hdocuments := Document.documents_of_ofTree hdocument
  refine ⟨document, hdocument, Tree.evaluateJson_of_documents hdocuments r,
    fun fields => evaluateJson_of_describes hdocuments, ?_, ?_⟩
  · rintro e id rule hget rfl
    exact evaluateRule_of_get hget r
  · rintro e rule hsave rfl
    rw [save_fst_eq_ok_iff] at hsave
    refine ⟨fun hdepth => evaluateRule_of_get (get_of_save hsave (.inl hdepth)) r, fun h => ?_⟩
    have hget := get_of_save hsave (h.symm.imp_left And.right)
    rw [Store.restored_eq_self (h.imp_right And.left)] at hget
    exact evaluateRule_of_get hget r

theorem evaluations_agree_joined :
    let record : Record := Table.ofList [("age", .number (.ofInt 41)), ("dept", .text "HR")]
    let data : List (String × Json) :=
      [("dept", .null), ("age", .number (.integer 41)), ("dept", .string "HR")]
    joined.tree.evaluate record = ⟨true, "Both conditions passed for AND"⟩ ∧
      (∃ document, Document.ofTree joined.tree = .ok document ∧
        Tree.evaluateJson document.toJson record = joined.tree.evaluate record ∧
        evaluateJson document.toJson (.object data) = .ok (joined.tree.evaluate record) ∧
        (standard.save joined).2.evaluateRule "b" record = .ok (joined.tree.evaluate record)) ∧
      Tree.evaluateJson (.object [("type", .string "operand")]) record = .unknown ∧
      evaluateJson .null (.object [("b", .null), ("a", .boolean true)]) =
        .error (.record (.unsupportedField "a" "true")) := by
  intro record data
  have hget (name : String) : record.get? name = if name = "dept" then some (.text "HR")
      else if name = "age" then some (.number (.ofInt 41)) else none := by
    rw [Table.get?_ofList]
    simp [Table.lookup_cons_eq_ite]
  have htree : ∀ c ∈ joined.tree.leaves, c.value.isFinite := by decide +kernel
  have hfinite : record.IsFinite := by
    intro name v hv
    rw [hget] at hv
    split at hv
    · obtain rfl := Option.some.inj hv
      rfl
    · split at hv
      · obtain rfl := Option.some.inj hv
        decide +kernel
      · simp at hv
  have hdescribes : Record.Describes data record := by
    intro name
    rw [hget, Json.last?]
    simp only [data, List.reverse_cons, List.reverse_nil, List.nil_append, List.cons_append,
      Table.lookup_cons_eq_ite]
    split
    · exact .some (.string "HR")
    · split
      · exact .some (.number (.integer 41))
      · exact .none
  have hundocumented : ∀ t, ¬Json.Documents (.object [("type", .string "operand")]) t := by
    rintro t (⟨hparts, -⟩ | ⟨hparts, -⟩) <;>
      simp [Json.Shape.parts?, Json.Shape.named?, List.lookup_cons] at hparts
  have hleast : Record.LeastUnsupported (Json.last? [("b", .null), ("a", .boolean true)]) "a"
      (.boolean true) := by
    refine ⟨rfl, Bool.false_ne_true, fun other value hfound _ => ?_⟩
    rw [Json.last?] at hfound
    simp only [List.reverse_cons, List.reverse_nil, List.nil_append, List.cons_append,
      Table.lookup_cons_eq_ite] at hfound
    split at hfound
    · rename_i heq
      rw [heq]
      decide
    · split at hfound
      · rename_i heq
        rw [heq]
        decide
      · simp at hfound
  obtain ⟨hrules, hjson, herror⟩ := evaluations_agree record
  obtain ⟨-, document, hdocument, hvalue, hdata, -, hsaved⟩ :=
    hrules joined.tree htree hfinite
  refine ⟨?_, ⟨document, hdocument, hvalue, hdata data hdescribes,
    (hsaved standard joined rfl rfl).2 (.inl ⟨_, rfl⟩)⟩, (hjson _).2 hundocumented,
    (herror _ _ _).2 (.inr ⟨_, "a", .boolean true, rfl, hleast, ?_⟩)⟩
  · rw [Tree.evaluate_eq_outcome]
    decide +kernel
  · decide +kernel

/-- A number in a rule and one in a record are told apart by the rule, but not any more by what
    is read back of it from its file. -/
theorem not_forall_evaluateRule :
    ¬∀ (e : Engine) (rule : StoredRule) (r : Record), (e.save rule).1 = .ok rule →
      (∀ c ∈ rule.tree.leaves, c.value.isFinite) → r.IsFinite →
      rule.tree.depth < Json.nestingLimit - 1 →
      (e.save rule).2.evaluateRule rule.id r = .ok (rule.tree.evaluate r) := by
  intro h
  let balance : Value := .ofLiteral "2.9999999999999997e23"
  let record : Record := Table.ofList [("balance", balance)]
  have htree : ∀ c ∈ steep.tree.leaves, c.value.isFinite := by decide +kernel
  have hrecord : record.IsFinite := by
    intro name v hv
    rw [Table.get?_ofList, List.reverse_singleton, Table.lookup_cons_eq_ite] at hv
    split at hv
    · obtain rfl := Option.some.inj hv
      exact show balance.isFinite by decide +kernel
    · simp at hv
  have hstored := h filed steep record (save_fst_eq_ok_iff.2 save_steep) htree hrecord
    depth_steep_lt
  rw [evaluateRule_of_get (get_of_save save_steep (.inl depth_steep_lt)), Except.ok.injEq,
    Tree.evaluate_eq_outcome, Tree.evaluate_eq_outcome] at hstored
  exact absurd hstored (by decide +kernel)

end Engine

end Criteria
