import Criteria.Proofs.StoredRule
import Criteria.Proofs.Table
import Criteria.Store.Directory

/-!
# The documents of a directory

What a directory stores is seen through its documents: what stands under the name of a
document, in the directory itself.

* `Directory.rule?`: the rule in a document;
* `load_eq_ok_iff`, `mem_list`: loading and listing show the rules in the documents;
* `get?_of_saveUnder`, `saveUnder_cases`: a save writes one document, or none at all, whatever
  goes wrong;
* `get?_of_delete`: a removal removes one document.
-/

namespace Criteria.Directory

variable {d d' : Directory} {id name : String} {rule : StoredRule}

/-- The name of a document in the directory itself. -/
def IsDocument (name : String) : Prop := isDocumentName name ∧ '/' ∉ name.toList

/-- The rule in a document, if it can be read. -/
def rule? (d : Directory) (name : String) : Option StoredRule :=
  match d.readText name with
  | some (.ok text) => StoredRule.read? text
  | _ => none

/-! ## Names -/

theorem toList_documentName (id : String) :
    (documentName id).toList = id.toList ++ ".json".toList :=
  String.toList_append

theorem documentName_inj {id other : String} :
    documentName id = documentName other ↔ id = other := by
  rw [← String.toList_inj, toList_documentName, toList_documentName, List.append_cancel_right_eq,
    String.toList_inj]

/-- The document of a valid id stands in the directory itself. -/
theorem isDocument_documentName (h : isFileId id) : IsDocument (documentName id) := by
  simp only [isFileId, Bool.and_eq_true, Bool.not_eq_true', List.isEmpty_eq_false_iff,
    List.all_eq_true] at h
  obtain ⟨hne, hall⟩ := h
  have hslash : '/' ∉ id.toList := fun hmem => absurd (hall _ hmem) (by decide)
  refine ⟨?_, ?_⟩
  · rw [isDocumentName, Bool.and_eq_true, decide_eq_true_iff, List.isSuffixOf_iff_suffix,
      toList_documentName, List.length_append]
    exact ⟨Nat.lt_add_of_pos_left (List.length_pos_iff.2 hne), List.suffix_append _ _⟩
  · rw [toList_documentName, List.mem_append, not_or]
    exact ⟨hslash, by decide⟩

/-- A draft is no document. -/
theorem ne_draftName (h : IsDocument name) (id : String) : name ≠ draftName id := by
  rintro rfl
  have h := h.1
  rw [isDocumentName, Bool.and_eq_true, List.isSuffixOf_iff_suffix, draftName,
    String.toList_append] at h
  -- Both `.json` and `.json.tmp` end the name, but one does not end the other.
  obtain h | h := List.suffix_or_suffix_of_suffix h.2 (List.suffix_append _ ".json.tmp".toList)
  · exact absurd h (by decide)
  · exact absurd h (by decide)

/-! ## Reading -/

theorem rule?_congr (h : d'.get? name = d.get? name) : d'.rule? name = d.rule? name := by
  rw [rule?, rule?, readText, readText, h]

theorem rule?_of_file {text : String} (h : d.get? name = some (.file text.toUTF8)) :
    d.rule? name = StoredRule.read? text := by
  rw [rule?, readText, h]
  simp only [StoredRule.fromUTF8?_toUTF8]

theorem exists_entry_of_rule? (h : d.rule? name = some rule) :
    ∃ entry, d.get? name = some entry := by
  rw [← Option.ne_none_iff_exists']
  intro hnone
  simp [rule?, readText, hnone] at h

theorem load_eq_ok_iff :
    d.load id = .ok rule ↔
      isFileId id ∧ fits (documentName id) ∧ d.rule? (documentName id) = some rule := by
  rw [load, rule?]
  cases isFileId id with
  | false => simp
  | true =>
    cases fits (documentName id) with
    | false => simp
    | true =>
      simp only [Bool.not_true, Bool.false_eq_true, if_false, true_and]
      cases d.readText (documentName id) with
      | none => simp
      | some content =>
        cases content with
        | error e => simp
        | ok text => cases hr : StoredRule.read? text <;> simp [hr]

/-- The rules of documents are those that can be read, in the order of the documents. -/
theorem eq_filterMap_of_rulesOf {names : List String} {rules : List StoredRule}
    (h : d.rulesOf names = .ok rules) : rules = names.filterMap d.rule? := by
  induction names generalizing rules with
  | nil => exact (Except.ok.inj h).symm
  | cons name names ih =>
    rw [rulesOf] at h
    split at h
    · simp at h
    · simp at h
    · rename_i hread hrest
      obtain rfl := Except.ok.inj h
      rw [List.filterMap_cons_none (by rw [rule?, hread]), ← ih hrest]
    · rename_i text rules' hread hrest
      have hrule : d.rule? name = StoredRule.read? text := by rw [rule?, hread]
      split at h
      · rename_i rule hr
        obtain rfl := Except.ok.inj h
        rw [List.filterMap_cons_some (hrule.trans hr), ← ih hrest]
      · rename_i hr
        obtain rfl := Except.ok.inj h
        rw [List.filterMap_cons_none (hrule.trans hr), ← ih hrest]

/-- A listing has the rules in all documents that can be read. -/
theorem mem_list {rules : List StoredRule} (h : d.list = .ok rules) :
    rule ∈ rules ↔ ∃ name, IsDocument name ∧ d.rule? name = some rule := by
  rw [list] at h
  split at h
  · simp at h
  · rename_i read hread
    obtain rfl := Except.ok.inj h
    rw [StoredRule.inOrder, List.mem_mergeSort, eq_filterMap_of_rulesOf hread, List.mem_filterMap]
    refine exists_congr fun name => and_congr_left fun hrule => ?_
    have hname : name ∈ d.entries.names := Table.mem_names_iff.2 (exists_entry_of_rule? hrule)
    simp [names, hname, IsDocument, and_comm]

/-! ## Writing -/

theorem get?_of_write? {content : ByteArray} (h : d.write? name content = some d')
    (other : String) :
    d'.get? other = if other = name then some (.file content) else d.get? other := by
  rw [write?] at h
  split at h
  · simp at h
  · obtain rfl := Option.some.inj h
    exact Table.get?_insert d.entries name other _

theorem get?_of_remove? (h : d.remove? name = some d') (other : String) :
    d'.get? other = if other = name then none else d.get? other := by
  rw [remove?] at h
  split at h
  · obtain rfl := Option.some.inj h
    exact Table.get?_erase d.entries name other
  · simp at h

/-- Only a file is given another name. -/
theorem exists_of_rename? {old new : String} (h : d.rename? old new = some d') :
    ∃ content, d.get? old = some (.file content) := by
  rw [rename?] at h
  split at h
  · simp at h
  · exact ⟨_, ‹_›⟩
  · simp at h

theorem get?_of_rename? {old new : String} {content : ByteArray} (h : d.rename? old new = some d')
    (hold : d.get? old = some (.file content)) (other : String) :
    d'.get? other =
      if other = new then some (.file content)
      else if other = old then none
      else d.get? other := by
  rw [rename?] at h
  rw [hold] at h
  split at h
  · simp at h
  · rename_i heq _
    obtain ⟨rfl⟩ := Option.some.inj heq
    obtain rfl := Option.some.inj h
    exact (Table.get?_insert _ new other _).trans (by rw [Table.get?_erase]; rfl)
  · simp at h

theorem get?_cleanUp (faults : Faults) (d : Directory) {draft : String} (h : name ≠ draft) :
    (cleanUp faults d draft).get? name = d.get? name := by
  rw [cleanUp]
  split
  · rfl
  · cases hr : d.remove? draft with
    | none => rfl
    | some d' => rw [Option.getD_some, get?_of_remove? hr, if_neg h]

/-- Writing a draft touches nothing else, and leaves all of the content if it goes well. -/
theorem get?_of_writeDraft {faults : Faults} {draft : String} {content : ByteArray} {written : Bool}
    (h : writeDraft faults d draft content = (written, d')) :
    (∀ name, name ≠ draft → d'.get? name = d.get? name) ∧
      (written → d'.get? draft = some (.file content)) := by
  have kept {content : ByteArray} {name : String} (hname : name ≠ draft) :
      ((d.write? draft content).getD d).get? name = d.get? name := by
    cases hw : d.write? draft content with
    | none => rfl
    | some d' => rw [Option.getD_some, get?_of_write? hw, if_neg hname]
  rw [writeDraft] at h
  split at h
  · split at h
    · rename_i hw
      obtain ⟨rfl, rfl⟩ := Prod.mk.inj h
      exact ⟨fun name hname => by rw [get?_of_write? hw, if_neg hname],
        fun _ => by rw [get?_of_write? hw, if_pos rfl]⟩
    · obtain ⟨rfl, rfl⟩ := Prod.mk.inj h
      exact ⟨fun _ _ => rfl, by simp⟩
  · obtain ⟨rfl, rfl⟩ := Prod.mk.inj h
    exact ⟨fun _ _ => rfl, by simp⟩
  · obtain ⟨rfl, rfl⟩ := Prod.mk.inj h
    exact ⟨fun _ => kept, by simp⟩

/-! ## Saving and removing -/

/-- Whatever goes wrong, a save fails and touches nothing but the draft, or it succeeds and the
    draft takes the place of the document. -/
theorem get?_of_saveUnder (faults : Faults) (d : Directory) (rule : StoredRule) :
    (∃ e, (saveUnder faults d rule).1 = .error e ∧
      ∀ name, name ≠ draftName rule.id → (saveUnder faults d rule).2.get? name = d.get? name) ∨
    ((saveUnder faults d rule).1 = .ok () ∧ isFileId rule.id ∧ fits (draftName rule.id) ∧
      ∃ text, rule.text = .ok text ∧ ∀ name, (saveUnder faults d rule).2.get? name =
        if name = documentName rule.id then some (.file text.toUTF8)
        else if name = draftName rule.id then none
        else d.get? name) := by
  rw [saveUnder]
  split
  · exact .inl ⟨_, rfl, fun _ _ => rfl⟩
  · rename_i hid
    split
    · exact .inl ⟨_, rfl, fun _ _ => rfl⟩
    · rename_i text htext
      simp only
      split
      · exact .inl ⟨_, rfl, fun _ _ => rfl⟩
      · rename_i hfits
        split
        · rename_i d' hwrite
          refine .inl ⟨_, rfl, fun name hname => ?_⟩
          rw [get?_cleanUp _ _ hname, (get?_of_writeDraft hwrite).1 _ hname]
        · rename_i d' hwrite
          obtain ⟨hkept, hdraft⟩ := get?_of_writeDraft hwrite
          split
          · refine .inl ⟨_, rfl, fun name hname => ?_⟩
            rw [get?_cleanUp _ _ hname, hkept _ hname]
          · rename_i d'' hrename
            have hrename : d'.rename? (draftName rule.id) (documentName rule.id) = some d'' := by
              split at hrename
              · simp at hrename
              · exact hrename
            -- The draft is complete, and takes the place of the document.
            refine .inr ⟨rfl, by simpa using hid, by simpa using hfits, text, htext, fun name => ?_⟩
            rw [get?_of_rename? hrename (hdraft rfl)]
            by_cases hname : name = draftName rule.id
            · simp only [if_pos hname]
            · simp only [if_neg hname, hkept _ hname]

/-- Whatever goes wrong, a save fails and leaves all documents as they were, or it
    succeeds and writes the document of the rule and no other. -/
theorem saveUnder_cases (faults : Faults) (d : Directory) (rule : StoredRule) :
    (∃ e, (saveUnder faults d rule).1 = .error e ∧
      ∀ name, IsDocument name → (saveUnder faults d rule).2.get? name = d.get? name) ∨
    ((saveUnder faults d rule).1 = .ok () ∧ isFileId rule.id ∧ fits (draftName rule.id) ∧
      ∃ text, rule.text = .ok text ∧ ∀ name, IsDocument name →
        (saveUnder faults d rule).2.get? name =
          if name = documentName rule.id then some (.file text.toUTF8) else d.get? name) := by
  rcases get?_of_saveUnder faults d rule with ⟨e, he, hkept⟩ | ⟨hok, hid, hfits, text, htext, hget⟩
  · exact .inl ⟨e, he, fun name hname => hkept name (ne_draftName hname _)⟩
  · refine .inr ⟨hok, hid, hfits, text, htext, fun name hname => ?_⟩
    rw [hget, if_neg (ne_draftName hname _)]

theorem get?_of_delete (h : d.delete id = .ok d') (name : String) :
    d'.get? name = if name = documentName id then none else d.get? name := by
  rw [delete] at h
  split at h
  · simp at h
  · split at h
    · simp at h
    · split at h
      · simp at h
      · simp at h
      · obtain rfl := Except.ok.inj h
        exact Table.get?_erase d.entries _ name

end Criteria.Directory
