import Criteria.Limits
import Criteria.Proofs.Nesting
import Criteria.Proofs.Store.All
import Criteria.Proofs.Tree.Depth

/-!
# Rules that a directory gives back

Where files can be written and read, a rule is saved just if the numbers in it are finite,
whatever its depth; and the restored rule is loaded and listed afterwards just if its tree has
at most 125 levels.

* `Directory.Accessible`: what saving a rule and listing all rules need of a directory;
* `Directory.exists_save`, `Directory.Accessible.exists_list`: there, both succeed;
* `Directory.GivesBack`: what is loaded and listed under the id of a rule;
* `Directory.readsBack_of_accessible`: what is then loaded and listed.
-/

namespace Criteria.Directory

variable {d : Directory} {id name : String} {rule : StoredRule} {text : String}

/-- The files that are written in saving a rule and read in listing all rules can be: the
    names are short enough, no folder is in the way, and the other documents are texts. -/
structure Accessible (d : Directory) (id : String) : Prop where
  fits : fits (draftName id)
  draft : d.get? (draftName id) ≠ some .folder
  document : d.get? (documentName id) ≠ some .folder
  others : ∀ name, IsDocument name → name ≠ documentName id →
    ∀ e, d.readText name ≠ some (.error e)

/-! ## Saving -/

theorem exists_write? (h : d.get? name ≠ some .folder) (content : ByteArray) :
    ∃ d', d.write? name content = some d' := by
  rw [write?]
  split
  · exact absurd ‹_› h
  · exact ⟨_, rfl⟩

theorem exists_rename? {old new : String} {content : ByteArray}
    (hold : d.get? old = some (.file content)) (hnew : d.get? new ≠ some .folder) :
    ∃ d', d.rename? old new = some d' := by
  rw [rename?, hold]
  split
  · exact absurd ‹_› hnew
  · exact ⟨_, rfl⟩
  · rename_i hne _
    exact absurd rfl (hne content)

/-- Where files can be written, a rule with a text is saved. -/
theorem save_fst (hid : isFileId rule.id) (hd : d.Accessible rule.id) (ht : rule.text = .ok text) :
    (d.save rule).1 = .ok () := by
  have hne : documentName rule.id ≠ draftName rule.id :=
    ne_draftName (isDocument_documentName hid) rule.id
  obtain ⟨d₁, hwrite⟩ := exists_write? hd.draft text.toUTF8
  have hdraft : d₁.get? (draftName rule.id) = some (.file text.toUTF8) := by
    rw [get?_of_write? hwrite, if_pos rfl]
  have hdocument : d₁.get? (documentName rule.id) ≠ some .folder := by
    rw [get?_of_write? hwrite, if_neg hne]
    exact hd.document
  obtain ⟨d₂, hrename⟩ := exists_rename? hdraft hdocument
  simp only [save, saveUnder, writeDraft, hid, ht, hd.fits, hwrite, hrename, Bool.not_true,
    Bool.false_eq_true, if_false]

/-- Where files can be written, saving a rule puts its text into its document, and leaves the
    other documents as they are. -/
theorem exists_save (hid : isFileId rule.id) (hd : d.Accessible rule.id)
    (ht : rule.text = .ok text) :
    ∃ d', d.save rule = (.ok (), d') ∧ ∀ name, IsDocument name → d'.get? name =
      if name = documentName rule.id then some (.file text.toUTF8) else d.get? name := by
  have hsave := save_fst hid hd ht
  rcases saveUnder_cases {} d rule with ⟨e, he, -⟩ | ⟨-, -, -, text', htext, hget⟩
  · rw [save, he] at hsave
    simp at hsave
  · obtain rfl : text' = text := Except.ok.inj (htext.symm.trans ht)
    exact ⟨_, Prod.ext hsave rfl, hget⟩

/-- A rule without a text is not saved, and nothing is written. -/
theorem save_of_error {e : TreeError} (hid : isFileId rule.id) (h : rule.text = .error e) :
    d.save rule = (.error .malformed, d) := by
  simp [save, saveUnder, hid, h]

/-! ## Listing -/

theorem readText_congr {d' : Directory} (h : d'.get? name = d.get? name) :
    d'.readText name = d.readText name := by
  rw [readText, readText, h]

theorem readText_of_file (h : d.get? name = some (.file text.toUTF8)) :
    d.readText name = some (.ok text) := by
  rw [readText, h]
  simp only [StoredRule.fromUTF8?_toUTF8]

theorem exists_rulesOf {names : List String}
    (h : ∀ name ∈ names, ∀ e, d.readText name ≠ some (.error e)) :
    ∃ rules, d.rulesOf names = .ok rules := by
  induction names with
  | nil => exact ⟨[], rfl⟩
  | cons name names ih =>
    obtain ⟨hname, hnames⟩ := List.forall_mem_cons.1 h
    obtain ⟨rules, hrules⟩ := ih hnames
    rw [rulesOf, hrules]
    cases hread : d.readText name with
    | none => exact ⟨rules, rfl⟩
    | some content =>
      cases content with
      | error e => exact absurd hread (hname e)
      | ok text =>
        cases hrule : StoredRule.read? text with
        | none => exact ⟨rules, by simp only [hrule]⟩
        | some rule => exact ⟨rule :: rules, by simp only [hrule]⟩

/-- Where all documents are texts, rules are listed. -/
theorem exists_list (h : ∀ name, IsDocument name → ∀ e, d.readText name ≠ some (.error e)) :
    ∃ rules, d.list = .ok rules := by
  have hnames : ∀ name ∈ d.names.filter isDocumentName, ∀ e, d.readText name ≠ some (.error e) := by
    intro name hname
    obtain ⟨hname, hdocument⟩ := List.mem_filter.1 hname
    exact h name ⟨hdocument, by simpa [names] using (List.mem_filter.1 hname).2⟩
  obtain ⟨rules, hrules⟩ := exists_rulesOf hnames
  exact ⟨_, by rw [list, hrules]⟩

/-- With the document of an id written and the others as they were, rules are listed. -/
theorem Accessible.exists_list {d' : Directory} (hd : d.Accessible id)
    (hfile : d'.get? (documentName id) = some (.file text.toUTF8))
    (hothers : ∀ name, IsDocument name → name ≠ documentName id → d'.get? name = d.get? name) :
    ∃ rules, d'.list = .ok rules := by
  refine Directory.exists_list fun name hname e => ?_
  by_cases heq : name = documentName id
  · subst heq
    simp [readText_of_file hfile]
  · rw [readText_congr (hothers name hname heq)]
    exact hd.others name hname heq e

/-! ## What is given back -/

/-- What a directory loads and lists under the id of a rule: nothing if its tree has more than
    125 levels, and else a certain rule, also within the depth that a stored document is sure to
    hold. -/
structure GivesBack (d : Directory) (rule back : StoredRule) : Prop where
  load : d.load rule.id = if rule.tree.depth ≤ 125 then .ok back else .error .malformed
  list : ∃ rules, d.list = .ok rules ∧ (back ∈ rules ↔ rule.tree.depth ≤ 125)
  sure : rule.tree.depth ≤ maxDocumentDepth → d.load rule.id = .ok back

/-- The restored rule is loaded from the document of a rule unless its tree is too deep. -/
theorem load_of_file (hid : isFileId rule.id) (hf : fits (documentName rule.id))
    (ht : rule.text = .ok text)
    (hfile : d.get? (documentName rule.id) = some (.file text.toUTF8)) :
    d.load rule.id =
      if rule.tree.height < Json.nestingLimit - 1 then .ok rule.restored
      else .error .malformed := by
  simp only [load, hid, hf, readText_of_file hfile, StoredRule.read?_text_eq_ite ht, Bool.not_true,
    Bool.false_eq_true, if_false]
  by_cases hdepth : rule.tree.height < Json.nestingLimit - 1
  · simp only [if_pos hdepth]
  · simp only [if_neg hdepth]

/-- The restored rule is listed from the document of a rule unless its tree is too deep; then no
    other document has the rule either. -/
theorem mem_list_of_file {rules : List StoredRule} (hid : isFileId rule.id)
    (hl : d.list = .ok rules) (ht : rule.text = .ok text)
    (hfile : d.get? (documentName rule.id) = some (.file text.toUTF8)) :
    rule.restored ∈ rules ↔ rule.tree.height < Json.nestingLimit - 1 := by
  rw [mem_list hl]
  constructor
  · rintro ⟨name, -, hrule⟩
    rw [rule?] at hrule
    split at hrule
    · rw [← rule.tree.height_restored]
      exact StoredRule.height_lt_of_read? hrule
    · simp at hrule
  · intro hdepth
    refine ⟨_, isDocument_documentName hid, ?_⟩
    rw [rule?_of_file hfile, StoredRule.read?_text ht hdepth]

/-- What is given back from the document of a rule, where all documents are texts. -/
theorem givesBack_of_file {rules : List StoredRule} (hid : isFileId rule.id)
    (hf : fits (documentName rule.id)) (hl : d.list = .ok rules) (ht : rule.text = .ok text)
    (hfile : d.get? (documentName rule.id) = some (.file text.toUTF8)) :
    d.GivesBack rule rule.restored := by
  have hlimit : rule.tree.height < Json.nestingLimit - 1 ↔ rule.tree.depth ≤ 125 := by
    rw [Tree.depth_eq_height]
    exact Nat.lt_succ_iff
  have hload := load_of_file hid hf ht hfile
  have hmem := mem_list_of_file hid hl ht hfile
  simp only [hlimit] at hload hmem
  have hsure : maxDocumentDepth ≤ 125 := by decide
  exact ⟨hload, ⟨rules, hl, hmem⟩, fun hdepth => hload.trans (if_pos (Nat.le_trans hdepth hsure))⟩

/-- Where files can be written and read, a rule with a number that is not finite is not
    saved, and nothing is written. Any other is saved in a text that nests two levels deeper
    than its tree has levels, and the restored rule is given back after that just if these are
    at most 125: the rule itself, if all numbers in it are read as they are written. -/
theorem readsBack_of_accessible (hid : isFileId rule.id) (hd : d.Accessible rule.id) :
    ((∃ c ∈ rule.tree.leaves, ¬c.value.isFinite) → d.save rule = (.error .malformed, d)) ∧
    ((∀ c ∈ rule.tree.leaves, c.value.isFinite) → ∃ text d', rule.text = .ok text ∧
      (∃ raw, Json.Raw.read? text = some raw ∧ raw.nesting = rule.tree.depth + 2) ∧
      d.save rule = (.ok (), d') ∧
      d'.get? (documentName rule.id) = some (.file text.toUTF8) ∧
      d'.GivesBack rule rule.restored ∧ (rule.restored = rule → d'.GivesBack rule rule)) := by
  rcases rule.text_cases with ⟨hfinite, text, ht⟩ | ⟨x, hx, ht⟩
  · refine ⟨fun ⟨c, hc, hv⟩ => absurd (hfinite c hc) hv, fun _ => ?_⟩
    obtain ⟨d', hsave, hget⟩ := exists_save hid hd ht
    have hfile : d'.get? (documentName rule.id) = some (.file text.toUTF8) := by
      rw [hget _ (isDocument_documentName hid), if_pos rfl]
    obtain ⟨rules, hrules⟩ := hd.exists_list hfile fun name hname hne =>
      (hget name hname).trans (if_neg hne)
    have hback := givesBack_of_file hid (fits_documentName hd.fits) hrules ht hfile
    refine ⟨text, d', ht, ?_, hsave, hfile, hback, fun hrestored => ?_⟩
    · rw [Tree.depth_eq_height]
      exact StoredRule.exists_nesting_of_text ht
    · rwa [hrestored] at hback
  · exact ⟨fun _ => save_of_error hid ht, fun hfinite => absurd hfinite hx.not_forall⟩

theorem readsBack_of_accessible_empty :
    let morning : Timestamp := ⟨2026, 1, 1, 8, 30, 0, 0, by decide⟩
    let tree := Tree.join .and (.leaf ⟨"age", .greater, .number (.ofInt 30)⟩)
      (.leaf ⟨"team", .equal, .text "Sales"⟩)
    let rule : StoredRule := ⟨"rule-1", "age > 30 AND team = 'Sales'", none, morning, morning, tree⟩
    isFileId rule.id ∧ empty.Accessible rule.id ∧ (∀ c ∈ rule.tree.leaves, c.value.isFinite) ∧
      rule.tree.depth ≤ maxDocumentDepth ∧ rule.restored = rule ∧
      ∃ d', empty.save rule = (.ok (), d') ∧ d'.load rule.id = .ok rule := by
  intro morning tree rule
  have hid : isFileId rule.id := by decide
  have haccessible : empty.Accessible rule.id :=
    ⟨by decide, nofun, nofun, fun _ _ _ _ => nofun⟩
  have hfinite : ∀ c ∈ rule.tree.leaves, c.value.isFinite := by decide +kernel
  have hdepth : rule.tree.depth ≤ maxDocumentDepth := by
    rw [Tree.depth_eq_height]
    decide
  have hrestored : rule.restored = rule := by decide +kernel
  obtain ⟨_, d', -, -, hsave, -, -, hback⟩ :=
    (readsBack_of_accessible hid haccessible).2 hfinite
  exact ⟨hid, haccessible, hfinite, hdepth, hrestored, d', hsave,
    (hback hrestored).sure hdepth⟩

end Criteria.Directory
