import Criteria.Proofs.Store.Effect
import Criteria.Proofs.Store.Order

/-!
# Foreign entries

Besides the documents of its rules, a directory may hold anything. What has not the name of a
document is not read in listing the rules, and a text in which no rule stands is passed over. But
if only one of the documents is no text, as a folder with such a name or a file that is not
encoded in UTF-8, no rule is listed at all.

* `Entry.IsText`, `IsReadable`: entries, and directories all of whose documents hold a text;
* `IsListing`: the rules in all documents that can be read, in order of creation;
* `list_cases`: which directories are listed;
* `IsPassedOver`, `list_insert`: the entries that make no difference.
-/

namespace Criteria

/-- An entry that holds a text. A folder does not, nor a file that is not encoded in UTF-8. -/
def Entry.IsText (entry : Entry) : Prop := ∃ text : String, entry = .file text.toUTF8

namespace Directory

open StoredRule

variable {d : Directory} {name : String} {names : List String} {rules : List StoredRule}
  {entry : Entry} {e : StoreError}

/-! ## Texts -/

theorem eq_toUTF8_of_fromUTF8? {content : ByteArray} {text : String}
    (h : String.fromUTF8? content = some text) : content = text.toUTF8 := by
  rw [String.fromUTF8?] at h
  split at h
  · obtain rfl := Option.some.inj h
    rfl
  · simp at h

/-- What stands under a name is a text, or it cannot be read. -/
theorem readText_cases (h : d.get? name = some entry) :
    (∃ text, entry = .file text.toUTF8 ∧ d.readText name = some (.ok text)) ∨
      ¬entry.IsText ∧ d.readText name = some (.error .inaccessible) := by
  cases entry with
  | folder => exact .inr ⟨nofun, by rw [readText, h]⟩
  | file content =>
    cases htext : String.fromUTF8? content with
    | some text =>
      obtain rfl := eq_toUTF8_of_fromUTF8? htext
      exact .inl ⟨text, rfl, readText_of_file h⟩
    | none =>
      refine .inr ⟨?_, by simp only [readText, h, htext]⟩
      rintro ⟨text, heq⟩
      obtain rfl := Entry.file.inj heq
      rw [fromUTF8?_toUTF8] at htext
      simp at htext

theorem isText_iff (h : d.get? name = some entry) :
    entry.IsText ↔ ∀ e, d.readText name ≠ some (.error e) := by
  rcases readText_cases h with ⟨text, rfl, hread⟩ | ⟨hnot, hread⟩
  · exact iff_of_true ⟨text, rfl⟩ fun e => by simp [hread]
  · exact iff_of_false hnot fun hall => hall _ hread

theorem eq_inaccessible_of_readText (h : d.readText name = some (.error e)) :
    e = .inaccessible := by
  cases hentry : d.get? name with
  | none => simp [readText, hentry] at h
  | some entry => rcases readText_cases hentry with ⟨text, -, hread⟩ | ⟨-, hread⟩ <;> simp_all

/-! ## Which directories are listed -/

/-- Every document of the directory holds a text. -/
def IsReadable (d : Directory) : Prop :=
  ∀ name, IsDocument name → ∀ entry, d.get? name = some entry → entry.IsText

/-- The rules in all documents that can be read, each as often as it stands there, by the times
    of their creation, and by their ids where these are the same. -/
structure IsListing (d : Directory) (rules : List StoredRule) : Prop where
  perm : rules.Perm (d.documents.filterMap d.rule?)
  sorted : rules.Pairwise fun rule next => rule.created.position < next.created.position ∨
    rule.created.position = next.created.position ∧ rule.id ≤ next.id

theorem isListing_inOrder (d : Directory) :
    d.IsListing (inOrder (d.documents.filterMap d.rule?)) where
  perm := List.mergeSort_perm _ _
  sorted := (List.pairwise_mergeSort precedes_trans precedes_total _).imp precedes_iff.1

theorem isReadable_iff :
    d.IsReadable ↔ ∀ name ∈ d.documents, ∀ e, d.readText name ≠ some (.error e) := by
  constructor
  · intro h name hname
    obtain ⟨hdocument, entry, hentry⟩ := mem_documents.1 hname
    exact (isText_iff hentry).1 (h name hdocument entry hentry)
  · intro h name hdocument entry hentry
    exact (isText_iff hentry).2 (h name (mem_documents.2 ⟨hdocument, entry, hentry⟩))

/-- One document that cannot be read is enough for all to fail. -/
theorem readText_ne_of_rulesOf (h : d.rulesOf names = .ok rules) :
    ∀ name ∈ names, ∀ e, d.readText name ≠ some (.error e) := by
  induction names generalizing rules with
  | nil => simp
  | cons name names ih =>
    rw [rulesOf] at h
    cases hrest : d.rulesOf names with
    | error e => simp [hrest] at h
    | ok more =>
      -- The rest has been read, so that only this document could fail.
      refine List.forall_mem_cons.2 ⟨fun e he => ?_, ih hrest⟩
      simp [hrest, he] at h

theorem eq_inaccessible_of_rulesOf (h : d.rulesOf names = .error e) : e = .inaccessible := by
  induction names with
  | nil => simp [rulesOf] at h
  | cons name names ih =>
    rw [rulesOf] at h
    split at h
    · rename_i hrest
      obtain rfl := Except.error.inj h
      exact ih hrest
    · rename_i hread _
      obtain rfl := Except.error.inj h
      exact eq_inaccessible_of_readText hread
    · simp at h
    · split at h <;> simp at h

/-- If all documents of a directory are texts, its rules are listed in order, and otherwise
    nothing is. -/
theorem list_cases (d : Directory) :
    (d.IsReadable ∧ d.list = .ok (inOrder (d.documents.filterMap d.rule?))) ∨
      (¬d.IsReadable ∧ d.list = .error .inaccessible) := by
  rw [list, filter_names, isReadable_iff]
  cases hrules : d.rulesOf d.documents with
  | ok rules => exact .inl ⟨readText_ne_of_rulesOf hrules, by rw [eq_filterMap_of_rulesOf hrules]⟩
  | error e =>
    refine .inr ⟨fun hall => ?_, by rw [eq_inaccessible_of_rulesOf hrules]⟩
    obtain ⟨rules, hok⟩ := exists_rulesOf hall
    simp [hok] at hrules

/-- A document that is no text lets the listing fail, whatever else the directory holds. -/
theorem list_insert_of_not_isText (d : Directory) (hname : IsDocument name) (h : ¬entry.IsText) :
    list ⟨d.entries.insert name entry⟩ = .error .inaccessible := by
  rcases list_cases ⟨d.entries.insert name entry⟩ with ⟨hreadable, -⟩ | ⟨-, hlist⟩
  · refine absurd (hreadable name hname entry ?_) h
    exact (Table.get?_insert d.entries name name entry).trans (if_pos rfl)
  · exact hlist

/-! ## Entries that make no difference -/

/-- An entry that has not the name of a document, or is a text in which no rule stands. -/
def IsPassedOver (name : String) (entry : Entry) : Prop :=
  IsDocument name → ∃ text : String, entry = .file text.toUTF8 ∧ StoredRule.read? text = none

theorem documents_insert (hname : IsDocument name) (hnone : d.get? name = none) (entry : Entry) :
    documents ⟨d.entries.insert name entry⟩ = name :: d.documents := by
  have hfresh : ∀ other ∈ d.entries.names, other != name := by
    intro other hother
    refine bne_iff_ne.2 fun heq => ?_
    obtain ⟨found, hfound⟩ := Table.mem_names_iff.1 (heq ▸ hother)
    rw [show d.entries.get? name = none from hnone] at hfound
    simp at hfound
  rw [documents, Table.names_insert, List.filter_eq_self.2 hfresh,
    List.filter_cons_of_pos (by simpa using hname), documents]

/-- With an entry that is passed over, the same is listed as without it. -/
theorem list_insert (hnone : d.get? name = none) (h : IsPassedOver name entry) :
    list ⟨d.entries.insert name entry⟩ = d.list := by
  by_cases hname : IsDocument name
  · obtain ⟨text, rfl, hread⟩ := h hname
    generalize hd : (⟨d.entries.insert name (.file text.toUTF8)⟩ : Directory) = d'
    have hget (other : String) :
        d'.get? other = if other = name then some (.file text.toUTF8) else d.get? other := by
      rw [← hd]
      exact Table.get?_insert d.entries name other _
    -- The entry is the first that is read, and no rule comes of it; the others are as before.
    have htext : d'.readText name = some (.ok text) := readText_of_file (by rw [hget, if_pos rfl])
    have hrest : d'.rulesOf d.documents = d.rulesOf d.documents := by
      refine rulesOf_congr fun other hother => readText_congr ?_
      obtain ⟨-, found, hfound⟩ := mem_documents.1 hother
      have hne : other ≠ name := by
        rintro rfl
        rw [hnone] at hfound
        simp at hfound
      rw [hget, if_neg hne]
    rw [list, list, filter_names, filter_names, ← hd, documents_insert hname hnone, hd, rulesOf,
      htext, hrest]
    cases d.rulesOf d.documents with
    | error e => rfl
    | ok rules => simp only [hread]
  · exact (sameDocuments_insert hname entry).list

/-- From a directory with one document, the rule in it is listed. -/
theorem list_of_documents {text : String} {rule : StoredRule} (hd : d.documents = [name])
    (hfile : d.get? name = some (.file text.toUTF8)) (hread : StoredRule.read? text = some rule) :
    d.list = .ok [rule] := by
  rw [list, filter_names, hd, rulesOf, readText_of_file hfile, rulesOf]
  simp only [hread]
  exact congrArg Except.ok (List.mergeSort_singleton rule)

/-- If all documents of a directory are texts, the rules that stand in them are listed, each once
    for every document and in order of creation; otherwise the listing fails. Entries of other
    names and texts without a rule make no difference. -/
theorem list_of_any_entries (d : Directory) :
    ((d.IsReadable ∧ ∃ rules, d.list = .ok rules ∧ d.IsListing rules) ∨
      (¬d.IsReadable ∧ d.list = .error .inaccessible)) ∧
    ∀ name entry, d.get? name = none → IsPassedOver name entry →
      list ⟨d.entries.insert name entry⟩ = d.list := by
  refine ⟨?_, fun name entry hnone h => list_insert hnone h⟩
  rcases list_cases d with ⟨hreadable, hlist⟩ | hfails
  · exact .inl ⟨hreadable, _, hlist, isListing_inOrder d⟩
  · exact .inr hfails

/-- A document that breaks off beside that of a rule. -/
theorem list_of_any_entries_broken :
    let morning : Timestamp := ⟨2026, 1, 1, 8, 30, 0, 0, by decide⟩
    let rule : StoredRule := ⟨"ok", "age > 30", none, morning, morning,
      .leaf ⟨"age", .greater, .number (.ofInt 30)⟩⟩
    let d := (empty.save rule).2
    let broken : Entry := .file "\x7b \"id\": ".toUTF8
    (d.get? "broken.json" = none ∧ IsPassedOver "broken.json" broken ∧ d.list = .ok [rule]) ∧
      list ⟨d.entries.insert "broken.json" broken⟩ = .ok [rule] := by
  intro morning rule d broken
  have hnone : d.get? "broken.json" = none := by
    rw [← Option.isNone_iff_eq_none]
    decide +kernel
  have hskip : IsPassedOver "broken.json" broken := fun _ => ⟨_, rfl, by decide +kernel⟩
  have hlist : d.list = .ok [rule] := by
    have hid : isFileId rule.id := by decide
    have hfinite : ∀ c ∈ rule.tree.leaves, c.value.isFinite := by decide +kernel
    have hdocuments : d.documents = [documentName rule.id] := by decide +kernel
    have hrestored : rule.restored = rule := by decide +kernel
    rcases rule.text_cases with ⟨-, text, htext⟩ | ⟨x, hx, -⟩
    · obtain ⟨d', hsave, hget⟩ := exists_save hid
        (show empty.Accessible rule.id from ⟨by decide, nofun, nofun, fun _ _ _ _ => nofun⟩) htext
      have hfile : d.get? (documentName rule.id) = some (.file text.toUTF8) := by
        rw [show d = d' from congrArg Prod.snd hsave, hget _ (isDocument_documentName hid),
          if_pos rfl]
      exact list_of_documents hdocuments hfile
        ((StoredRule.read?_text htext (by decide)).trans (congrArg some hrestored))
    · exact absurd hfinite hx.not_forall
  exact ⟨⟨hnone, hskip, hlist⟩, ((list_of_any_entries d).2 _ _ hnone hskip).trans hlist⟩

/-- A folder that is named like a document is not passed over, nor is a file of other bytes. -/
theorem not_forall_list_eq_ok :
    (¬∀ d : Directory, ∃ rules, d.list = .ok rules ∧ d.IsListing rules) ∧
      list ⟨empty.entries.insert "d.json" .folder⟩ = .error .inaccessible ∧
      list ⟨empty.entries.insert "b.json" (.file ⟨#[0xff]⟩)⟩ = .error .inaccessible := by
  have hfolder : list ⟨empty.entries.insert "d.json" .folder⟩ = .error .inaccessible :=
    list_insert_of_not_isText empty (by decide) nofun
  refine ⟨fun h => ?_, hfolder, list_insert_of_not_isText empty (by decide) ?_⟩
  · obtain ⟨rules, hlist, -⟩ := h ⟨empty.entries.insert "d.json" .folder⟩
    rw [hfolder] at hlist
    simp at hlist
  · rintro ⟨text, heq⟩
    have htext := fromUTF8?_toUTF8 text
    rw [← Entry.file.inj heq, show String.fromUTF8? ⟨#[0xff]⟩ = none by decide +kernel] at htext
    simp at htext

end Directory

end Criteria
