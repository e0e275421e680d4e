import Criteria.Proofs.Store.ReadBack
import Criteria.Store.Basic

/-!
# What a change does to a store

A store is seen through what it loads and lists. A change that fails leaves this as it
was, whatever goes wrong in saving a rule to a directory; one that succeeds changes what
is loaded under one id.

* `Directory.saveUnder_induction`: what all steps of a save keep, the save keeps;
* `Directory.SameDocuments`, `Store.SameRules`: nothing is loaded or listed otherwise;
* `Directory.sameDocuments_of_saveUnder`, `Store.sameRules_of_save`,
  `Store.sameRules_of_delete`: changes that fail;
* `load_of_saveUnder`, `load_of_save`, `load_of_delete`: changes that succeed.
-/

namespace Criteria

namespace Directory

variable {d d₁ d' : Directory} {id name : String} {rule : StoredRule} {faults : Faults}

/-! ## The same documents -/

instance (name : String) : Decidable (IsDocument name) := by unfold IsDocument; infer_instance

/-- The names of the documents of a directory, in the order of its entries. -/
def documents (d : Directory) : List String := d.entries.names.filter (IsDocument ·)

theorem filter_names (d : Directory) : d.names.filter isDocumentName = d.documents := by
  rw [names, documents, List.filter_filter]
  refine List.filter_congr fun name _ => ?_
  rw [Bool.eq_iff_iff, decide_eq_true_iff, Bool.and_eq_true]
  simp [IsDocument]

theorem mem_documents :
    name ∈ d.documents ↔ IsDocument name ∧ ∃ entry, d.get? name = some entry := by
  rw [documents, List.mem_filter, Table.mem_names_iff, decide_eq_true_iff, and_comm]
  rfl

/-- The documents of two directories hold the same and come in the same order. -/
structure SameDocuments (d d' : Directory) : Prop where
  documents : d'.documents = d.documents
  get? : ∀ name, IsDocument name → d'.get? name = d.get? name

theorem SameDocuments.refl (d : Directory) : SameDocuments d d := ⟨rfl, fun _ _ => rfl⟩

theorem SameDocuments.trans (h : SameDocuments d d₁) (h' : SameDocuments d₁ d') :
    SameDocuments d d' :=
  ⟨h'.documents.trans h.documents, fun name hname => (h'.get? name hname).trans (h.get? name hname)⟩

theorem not_isDocument_draftName (id : String) : ¬IsDocument (draftName id) :=
  fun h => ne_draftName h id rfl

theorem filter_ne_of_not_isDocument (h : ¬IsDocument name) (names : List String) :
    (names.filter (· != name)).filter (IsDocument ·) = names.filter (IsDocument ·) := by
  rw [List.filter_filter]
  refine List.filter_congr fun other _ => ?_
  by_cases heq : other = name
  · simp [heq, h]
  · simp [heq]

/-- An entry that is put in under a name of no document changes no document. -/
theorem sameDocuments_insert (h : ¬IsDocument name) (entry : Entry) :
    SameDocuments d ⟨d.entries.insert name entry⟩ where
  documents := by
    rw [documents, Table.names_insert, List.filter_cons_of_neg (by simpa using h),
      filter_ne_of_not_isDocument h, documents]
  get? other hother := (Table.get?_insert d.entries name other entry).trans
    (if_neg fun heq : other = name => h (heq ▸ hother))

/-- Nor does one that is taken out. -/
theorem sameDocuments_erase (h : ¬IsDocument name) : SameDocuments d ⟨d.entries.erase name⟩ where
  documents := by rw [documents, Table.names_erase, filter_ne_of_not_isDocument h, documents]
  get? other hother := (Table.get?_erase d.entries name other).trans
    (if_neg fun heq : other = name => h (heq ▸ hother))

theorem sameDocuments_of_write? {content : ByteArray}
    (h : d.write? (draftName id) content = some d') : SameDocuments d d' := by
  rw [write?] at h
  split at h
  · simp at h
  · obtain rfl := Option.some.inj h
    exact sameDocuments_insert (not_isDocument_draftName id) _

theorem sameDocuments_of_remove? (h : d.remove? (draftName id) = some d') :
    SameDocuments d d' := by
  rw [remove?] at h
  split at h
  · obtain rfl := Option.some.inj h
    exact sameDocuments_erase (not_isDocument_draftName id)
  · simp at h

/-- What all steps of a save keep, the save keeps. A draft is written or removed, and it
    takes the place of the document only if the save succeeds. -/
theorem saveUnder_induction {P : Directory → Prop} (h : P d)
    (hwrite : ∀ {d₁ d' content}, P d₁ → d₁.write? (draftName rule.id) content = some d' → P d')
    (hremove : ∀ {d₁ d'}, P d₁ → d₁.remove? (draftName rule.id) = some d' → P d')
    (hrename : (saveUnder faults d rule).1 = .ok () → ∀ {d₁ d'}, P d₁ →
      d₁.rename? (draftName rule.id) (documentName rule.id) = some d' → P d') :
    P (saveUnder faults d rule).2 := by
  have hclean {d₁ : Directory} (h : P d₁) : P (cleanUp faults d₁ (draftName rule.id)) := by
    rw [cleanUp]
    split
    · exact h
    · cases hr : d₁.remove? (draftName rule.id) with
      | none => exact h
      | some d' => exact hremove h hr
  have hdraft {content : ByteArray} {written : Bool} {d' : Directory}
      (hd : writeDraft faults d (draftName rule.id) content = (written, d')) : P d' := by
    have hall {content : ByteArray} : P ((d.write? (draftName rule.id) content).getD d) := by
      cases hw : d.write? (draftName rule.id) content with
      | none => exact h
      | some d' => exact hwrite h hw
    rw [writeDraft] at hd
    split at hd
    · split at hd
      · rename_i hw
        obtain ⟨-, rfl⟩ := Prod.mk.inj hd
        exact hwrite h hw
      · obtain ⟨-, rfl⟩ := Prod.mk.inj hd
        exact h
    · obtain ⟨-, rfl⟩ := Prod.mk.inj hd
      exact h
    · obtain ⟨-, rfl⟩ := Prod.mk.inj hd
      exact hall
  revert hrename
  rw [saveUnder]
  split
  · exact fun _ => h
  · split
    · exact fun _ => h
    · simp only
      split
      · exact fun _ => h
      · split
        · rename_i hw
          exact fun _ => hclean (hdraft hw)
        · rename_i hw
          split
          · exact fun _ => hclean (hdraft hw)
          · rename_i hr
            intro hrename
            refine hrename rfl (hdraft hw) ?_
            split at hr
            · simp at hr
            · exact hr

/-- A save that fails leaves the documents as they are, whatever goes wrong. -/
theorem sameDocuments_of_saveUnder {e : StoreError} (h : (saveUnder faults d rule).1 = .error e) :
    SameDocuments d (saveUnder faults d rule).2 := by
  refine saveUnder_induction (.refl d) (fun hs hw => hs.trans (sameDocuments_of_write? hw))
    (fun hs hr => hs.trans (sameDocuments_of_remove? hr)) fun hok => ?_
  simp [h] at hok

/-! ## What is loaded and listed -/

theorem load_congr (h : isFileId id → d'.get? (documentName id) = d.get? (documentName id)) :
    d'.load id = d.load id := by
  rw [load, load]
  cases hid : isFileId id with
  | false => rfl
  | true => rw [readText_congr (h hid)]

theorem rulesOf_congr {names : List String}
    (h : ∀ name ∈ names, d'.readText name = d.readText name) :
    d'.rulesOf names = d.rulesOf names := by
  induction names with
  | nil => rfl
  | cons name names ih =>
    obtain ⟨hname, hnames⟩ := List.forall_mem_cons.1 h
    rw [rulesOf, rulesOf, hname, ih hnames]

theorem SameDocuments.load (h : SameDocuments d d') (id : String) : d'.load id = d.load id :=
  load_congr fun hid => h.get? _ (isDocument_documentName hid)

theorem SameDocuments.list (h : SameDocuments d d') : d'.list = d.list := by
  rw [Directory.list, Directory.list, filter_names, filter_names, h.documents, rulesOf_congr]
  intro name hname
  exact readText_congr (h.get? name (by simpa using (List.mem_filter.1 hname).2))

/-- What is loaded after a save that succeeds. -/
theorem load_of_saveUnder (hd : rule.tree.height < Json.nestingLimit - 1)
    (h : (saveUnder faults d rule).1 = .ok ())
    (id : String) :
    (saveUnder faults d rule).2.load id =
      if id = rule.id then .ok rule.restored else d.load id := by
  rcases saveUnder_cases faults d rule with ⟨e, he, -⟩ | ⟨-, hid, hfits, text, htext, hget⟩
  · simp [h] at he
  · split
    · rename_i heq
      subst heq
      have hfile := hget _ (isDocument_documentName hid)
      rw [if_pos rfl] at hfile
      rw [load_of_file hid (fits_documentName hfits) htext hfile, if_pos hd]
    · rename_i hne
      refine load_congr fun hid => ?_
      rw [hget _ (isDocument_documentName hid), if_neg (documentName_inj.not.2 hne)]

theorem load_of_delete (h : d.delete id = .ok d') (other : String) :
    d'.load other = if other = id then .error (.notFound id) else d.load other := by
  have hget := get?_of_delete h (documentName other)
  split
  · rename_i heq
    subst heq
    rw [if_pos rfl] at hget
    rw [delete] at h
    split at h
    · simp at h
    · split at h
      · simp at h
      · rename_i hid hfits
        simp [load, hid, hfits, readText, hget]
  · rename_i hne
    exact load_congr fun _ => hget.trans (if_neg (documentName_inj.not.2 hne))

end Directory

namespace Memory

variable {m m' : Memory} {id : String} {rule : StoredRule}

theorem load_of_save (m : Memory) (rule : StoredRule) (id : String) :
    (m.save rule).load id = if id = rule.id then .ok rule else m.load id := by
  rw [load, save, Table.get?_insert]
  by_cases h : id = rule.id
  · rw [if_pos h, if_pos h]
  · rw [if_neg h, if_neg h, load]

theorem load_of_delete (h : m.delete id = .ok m') (other : String) :
    m'.load other = if other = id then .error (.notFound id) else m.load other := by
  rw [delete] at h
  split at h
  · obtain rfl := Except.ok.inj h
    rw [load, Table.get?_erase]
    by_cases heq : other = id
    · rw [if_pos heq, if_pos heq, heq]
    · rw [if_neg heq, if_neg heq, load]
  · simp at h

end Memory

namespace Store

variable {store : Store} {id : String} {rule : StoredRule} {e : StoreError}

/-- Two stores load and list the same rules. -/
structure SameRules (store store' : Store) : Prop where
  load : ∀ id, store'.load id = store.load id
  list : store'.list = store.list

theorem SameRules.refl (store : Store) : SameRules store store := ⟨fun _ => rfl, rfl⟩

theorem SameRules.holds {store' : Store} (h : SameRules store store') (id : String) :
    store'.holds id = store.holds id := by
  delta Store.holds
  rw [h.load]

theorem sameRules_of_sameDocuments {d d' : Directory} (h : d.SameDocuments d') :
    SameRules (.directory d) (.directory d') where
  load := h.load
  list := h.list

theorem sameRules_of_saveUnder {d : Directory} {faults : Directory.Faults}
    (h : (d.saveUnder faults rule).1 = .error e) :
    SameRules (.directory d) (.directory (d.saveUnder faults rule).2) :=
  sameRules_of_sameDocuments (Directory.sameDocuments_of_saveUnder h)

theorem sameRules_of_save (h : (store.save rule).1 = .error e) :
    SameRules store (store.save rule).2 := by
  cases store with
  | memory m => simp [save] at h
  | directory d => exact sameRules_of_saveUnder h

theorem sameRules_of_delete (h : (store.delete id).1 = .error e) :
    SameRules store (store.delete id).2 := by
  cases store with
  | memory m =>
    simp only [delete] at h ⊢
    cases hm : m.delete id with
    | error e => exact .refl _
    | ok m' => simp [hm] at h
  | directory d =>
    simp only [delete] at h ⊢
    cases hd : d.delete id with
    | error e => exact .refl _
    | ok d' => simp [hd] at h

theorem load_of_save (hd : rule.tree.height < Json.nestingLimit - 1)
    (h : (store.save rule).1 = .ok ()) (id : String) :
    (store.save rule).2.load id =
      if id = rule.id then .ok (store.restored rule) else store.load id := by
  cases store with
  | memory m =>
    rw [restored_memory]
    exact m.load_of_save rule id
  | directory d => exact Directory.load_of_saveUnder hd h id

theorem load_of_delete (h : (store.delete id).1 = .ok ()) (other : String) :
    (store.delete id).2.load other =
      if other = id then .error (.notFound id) else store.load other := by
  cases store with
  | memory m =>
    simp only [delete] at h ⊢
    cases hm : m.delete id with
    | error e => simp [hm] at h
    | ok m' => exact Memory.load_of_delete hm other
  | directory d =>
    simp only [delete] at h ⊢
    cases hd : d.delete id with
    | error e => simp [hd] at h
    | ok d' => exact Directory.load_of_delete hd other

end Store

end Criteria
