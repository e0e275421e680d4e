import Criteria.Proofs.Store.Effect
import Criteria.Proofs.Store.Order

/-!
# Stores as they become by use

An empty store into which rules are saved, and from which they are removed, stays
orderly: it holds nothing but rules that can be loaded again, each under its own id. Then
its operations go well, and it lists just what it loads.

* `Directory.Storable`: the rules that a directory can keep;
* `Directory.Orderly`, `Store.Orderly`: orderly stores;
* `Store.orderly_of_isEmpty`, `Store.Orderly.save`, `Store.Orderly.delete`: where they come
  from;
* `Store.Orderly.save_fst`, `Store.Orderly.delete_fst`, `Store.Orderly.exists_list`: what
  they answer.
-/

namespace Criteria

/-! ## In a directory -/

namespace Directory

variable {d d' : Directory} {id name : String} {rule : StoredRule} {faults : Faults}

/-- A rule that a directory can keep: its id names a file whose name is short enough, and
    its tree has finite numbers and at most 125 levels. -/
structure Storable (rule : StoredRule) : Prop where
  valid : isFileId rule.id
  fits : fits (draftName rule.id)
  finite : ∀ c ∈ rule.tree.leaves, c.value.isFinite
  depth : rule.tree.depth ≤ 125

theorem height_lt_of_depth_le {t : Tree} (h : t.depth ≤ 125) :
    t.height < Json.nestingLimit - 1 := by
  rw [Tree.depth_eq_height] at h
  exact Nat.lt_succ_of_le h

theorem depth_le_of_height_lt {t : Tree} (h : t.height < Json.nestingLimit - 1) :
    t.depth ≤ 125 := by
  rw [Tree.depth_eq_height]
  exact Nat.le_of_lt_succ h

/-- If a rule can be kept, so can the restored one. -/
theorem Storable.restored (h : Storable rule) : Storable rule.restored where
  valid := h.valid
  fits := h.fits
  finite := Tree.forall_leaves_mapValues.2 fun c hc => Value.isFinite_restored (h.finite c hc)
  depth := (rule.tree.depth_mapValues _).trans_le h.depth

/-- A directory in which no folder is in the way, and every document holds a rule that can
    be kept, under its own id. -/
structure Orderly (d : Directory) : Prop where
  noFolder : ∀ name, d.get? name ≠ some .folder
  filed : ∀ name, IsDocument name → d.get? name ≠ none →
    ∃ rule, name = documentName rule.id ∧ Storable rule ∧ d.rule? name = some rule

theorem orderly_empty : empty.Orderly := ⟨fun _ => nofun, fun _ _ h => absurd rfl h⟩

/-! ### Loading and listing -/

theorem Orderly.readText (h : d.Orderly) (hname : IsDocument name) (e : StoreError) :
    d.readText name ≠ some (.error e) := by
  intro hread
  have hget : d.get? name ≠ none := fun hnone => by simp [Directory.readText, hnone] at hread
  obtain ⟨rule, -, -, hrule⟩ := h.filed name hname hget
  simp [rule?, hread] at hrule

/-- The rule in a document stands there under its own id, and can be kept. -/
theorem Orderly.of_rule? (h : d.Orderly) (hname : IsDocument name) (hr : d.rule? name = some rule) :
    name = documentName rule.id ∧ Storable rule := by
  obtain ⟨entry, hentry⟩ := exists_entry_of_rule? hr
  obtain ⟨rule', heq, hstorable, hr'⟩ := h.filed name hname (by simp [hentry])
  obtain rfl := Option.some.inj (hr.symm.trans hr')
  exact ⟨heq, hstorable⟩

theorem Orderly.of_load (h : d.Orderly) (hl : d.load id = .ok rule) :
    rule.id = id ∧ Storable rule := by
  obtain ⟨hid, -, hrule⟩ := load_eq_ok_iff.1 hl
  obtain ⟨heq, hstorable⟩ := h.of_rule? (isDocument_documentName hid) hrule
  exact ⟨(documentName_inj.1 heq).symm, hstorable⟩

/-- Under a name that can be that of a file, a rule is found or there is none. -/
theorem Orderly.load_cases (h : d.Orderly) (hid : isFileId id) (hf : fits (documentName id)) :
    (∃ rule, d.load id = .ok rule) ∨ d.load id = .error (.notFound id) := by
  cases hget : d.get? (documentName id) with
  | none => exact .inr (by simp [load, hid, hf, Directory.readText, hget])
  | some entry =>
    obtain ⟨rule, -, -, hrule⟩ := h.filed _ (isDocument_documentName hid) (by simp [hget])
    exact .inl ⟨rule, load_eq_ok_iff.2 ⟨hid, hf, hrule⟩⟩

/-- The rules in the documents have different ids. -/
theorem Orderly.nodup_ids (h : d.Orderly) :
    ((d.documents.filterMap d.rule?).map (·.id)).Nodup := by
  rw [List.Nodup, List.pairwise_map, List.pairwise_filterMap]
  refine List.Pairwise.imp_of_mem ?_ (d.entries.nodup.filter _)
  intro name other hname hother hne rule hrule rule' hrule' hid
  have hname := (h.of_rule? (mem_documents.1 hname).1 hrule).1
  have hother := (h.of_rule? (mem_documents.1 hother).1 hrule').1
  exact hne (hname.trans ((congrArg documentName hid).trans hother.symm))

/-- An orderly directory lists just the rules that it loads, by their places. -/
theorem Orderly.exists_list (h : d.Orderly) : ∃ rules, d.list = .ok rules ∧
    rules.Pairwise (InvImage StoredRule.Before StoredRule.place) ∧
      ∀ rule, rule ∈ rules ↔ d.load rule.id = .ok rule := by
  obtain ⟨read, hread⟩ : ∃ read, d.rulesOf d.documents = .ok read :=
    exists_rulesOf fun name hname => h.readText (mem_documents.1 hname).1
  have hlist : d.list = .ok (StoredRule.inOrder read) := by rw [list, filter_names, hread]
  refine ⟨_, hlist, StoredRule.pairwise_inOrder ?_, fun rule => ?_⟩
  · rw [eq_filterMap_of_rulesOf hread]
    exact h.nodup_ids
  · rw [mem_list hlist, load_eq_ok_iff]
    constructor
    · rintro ⟨name, hname, hrule⟩
      obtain ⟨rfl, hstorable⟩ := h.of_rule? hname hrule
      exact ⟨hstorable.valid, fits_documentName hstorable.fits, hrule⟩
    · rintro ⟨hid, -, hrule⟩
      exact ⟨_, isDocument_documentName hid, hrule⟩

/-! ### Saving and removing -/

theorem Orderly.saveUnder (h : d.Orderly) (hd : rule.tree.depth ≤ 125) (faults : Faults) :
    (saveUnder faults d rule).2.Orderly where
  noFolder := by
    refine saveUnder_induction (P := fun d => ∀ name, d.get? name ≠ some .folder) h.noFolder
      ?_ ?_ fun _ => ?_
    · intro d₁ d' content hd₁ hw name
      rw [get?_of_write? hw]
      split
      · nofun
      · exact hd₁ name
    · intro d₁ d' hd₁ hr name
      rw [get?_of_remove? hr]
      split
      · nofun
      · exact hd₁ name
    · intro d₁ d' hd₁ hr name
      obtain ⟨content, hold⟩ := exists_of_rename? hr
      rw [get?_of_rename? hr hold]
      split
      · nofun
      · split
        · nofun
        · exact hd₁ name
  filed name hname hentry := by
    rcases saveUnder_cases faults d rule with ⟨-, -, hkept⟩ | ⟨-, hid, hfits, text, htext, hget⟩
    · rw [hkept name hname] at hentry
      rw [rule?_congr (hkept name hname)]
      exact h.filed name hname hentry
    · have hget := hget name hname
      split at hget
      · rename_i heq
        have hfinite : ∀ c ∈ rule.tree.leaves, c.value.isFinite := by
          rcases rule.text_cases with ⟨hfinite, -⟩ | ⟨x, -, he⟩
          · exact hfinite
          · simp [htext] at he
        refine ⟨rule.restored, heq, Storable.restored ⟨hid, hfits, hfinite, hd⟩, ?_⟩
        rw [rule?_of_file hget, StoredRule.read?_text htext (height_lt_of_depth_le hd)]
      · rw [hget] at hentry
        rw [rule?_congr hget]
        exact h.filed name hname hentry

/-- A rule that can be kept is saved. -/
theorem Orderly.save_fst (h : d.Orderly) (hr : Storable rule) : (d.save rule).1 = .ok () := by
  rcases rule.text_cases with ⟨-, text, htext⟩ | ⟨x, hx, -⟩
  · exact Directory.save_fst hr.valid
      ⟨hr.fits, h.noFolder _, h.noFolder _, fun name hname _ => h.readText hname⟩ htext
  · exact absurd hr.finite hx.not_forall

theorem Orderly.delete (h : d.Orderly) (hd : d.delete id = .ok d') : d'.Orderly where
  noFolder name := by
    rw [get?_of_delete hd]
    split
    · nofun
    · exact h.noFolder name
  filed name hname hentry := by
    have hget := get?_of_delete hd name
    split at hget
    · exact absurd hget hentry
    · rw [hget] at hentry
      rw [rule?_congr hget]
      exact h.filed name hname hentry

/-- What can be loaded can be removed. -/
theorem Orderly.exists_delete (h : d.Orderly) (hl : d.load id = .ok rule) :
    ∃ d', d.delete id = .ok d' := by
  obtain ⟨hid, hfits, hrule⟩ := load_eq_ok_iff.1 hl
  obtain ⟨entry, hentry⟩ := exists_entry_of_rule? hrule
  cases entry with
  | folder => exact absurd hentry (h.noFolder _)
  | file content =>
    exact ⟨⟨d.entries.erase (documentName id)⟩, by simp [Directory.delete, hid, hfits, hentry]⟩

/-- What cannot be loaded cannot be removed either, for the same reason. -/
theorem Orderly.delete_of_error {e : StoreError} (h : d.Orderly) (hl : d.load id = .error e) :
    d.delete id = .error e := by
  rw [load] at hl
  rw [Directory.delete]
  cases hid : isFileId id with
  | false => simpa [hid] using hl
  | true =>
    cases hfits : fits (documentName id) with
    | false => simpa [hid, hfits] using hl
    | true =>
      cases hget : d.get? (documentName id) with
      | none => simpa [hid, hfits, Directory.readText, hget] using hl
      | some entry =>
        obtain ⟨rule, -, -, hrule⟩ := h.filed _ (isDocument_documentName hid) (by simp [hget])
        have hload := load_eq_ok_iff.2 ⟨hid, hfits, hrule⟩
        rw [load, hl] at hload
        simp at hload

end Directory

/-! ## In memory -/

namespace Memory

variable {m : Memory} {P : StoredRule → Prop}

/-- A store in memory whose rules stand under their own ids lists just the rules that it
    loads, by their places. -/
theorem All.pairwise_list (h : m.All P) :
    m.list.Pairwise (InvImage StoredRule.Before StoredRule.place) ∧
      ∀ rule, rule ∈ m.list ↔ m.load rule.id = .ok rule := by
  constructor
  · refine StoredRule.pairwise_inOrder ?_
    have hids : (m.entries.map (·.2)).map (·.id) = m.names := by
      rw [List.map_map, Table.names]
      refine List.map_congr_left fun entry hentry => ?_
      exact (h entry.1 entry.2 (Table.get?_eq_some_iff.2 hentry)).1
    rw [hids]
    exact m.nodup
  · intro rule
    rw [mem_list, load_eq_ok_iff]
    constructor
    · rintro ⟨id, hget⟩
      rwa [(h id rule hget).1]
    · exact fun hget => ⟨_, hget⟩

end Memory

/-! ## In either -/

namespace Store

variable {store : Store} {id : String} {rule : StoredRule}

/-- A store into which nothing was ever put. -/
def IsEmpty : Store → Prop
  | .memory m => m = Table.empty
  | .directory d => d = Directory.empty

/-- A store that holds nothing but rules that can be loaded, each under its own id. -/
def Orderly : Store → Prop
  | .memory m => m.All fun _ => True
  | .directory d => d.Orderly

theorem orderly_of_isEmpty (h : store.IsEmpty) : store.Orderly := by
  cases store with
  | memory m =>
    obtain rfl : m = Table.empty := h
    exact fun _ _ => nofun
  | directory d =>
    obtain rfl : d = Directory.empty := h
    exact Directory.orderly_empty

/-! ### Loading and listing -/

theorem load_ne_ok_of_isEmpty (h : store.IsEmpty) : store.load id ≠ .ok rule := by
  cases store with
  | memory m =>
    obtain rfl : m = Table.empty := h
    exact nofun
  | directory d =>
    obtain rfl : d = Directory.empty := h
    intro hl
    obtain ⟨-, -, hrule⟩ := Directory.load_eq_ok_iff.1 (show Directory.empty.load id = _ from hl)
    obtain ⟨entry, hentry⟩ := Directory.exists_entry_of_rule? hrule
    cases hentry

theorem Orderly.id_of_load (h : store.Orderly) (hl : store.load id = .ok rule) : rule.id = id := by
  cases store with
  | memory m => exact (h id rule (Memory.load_eq_ok_iff.1 hl)).1
  | directory d => exact (Directory.Orderly.of_load h hl).1

/-- Under a name that can be that of a file, a rule is found or there is none. -/
theorem Orderly.load_cases (h : store.Orderly) (hid : Directory.isFileId id)
    (hf : Directory.fits (Directory.documentName id)) :
    (∃ rule, store.load id = .ok rule) ∨ store.load id = .error (.notFound id) := by
  cases store with
  | memory m =>
    change (∃ rule, m.load id = .ok rule) ∨ m.load id = .error (.notFound id)
    rw [Memory.load]
    cases m.get? id with
    | none => exact .inr rfl
    | some rule => exact .inl ⟨rule, rfl⟩
  | directory d => exact Directory.Orderly.load_cases h hid hf

/-- An orderly store lists just the rules that it loads, by their places. -/
theorem Orderly.exists_list (h : store.Orderly) : ∃ rules, store.list = .ok rules ∧
    rules.Pairwise (InvImage StoredRule.Before StoredRule.place) ∧
      ∀ rule, rule ∈ rules ↔ store.load rule.id = .ok rule := by
  cases store with
  | memory m => exact ⟨_, rfl, Memory.All.pairwise_list h⟩
  | directory d => exact Directory.Orderly.exists_list h

/-! ### Saving and removing -/

theorem Orderly.save (h : store.Orderly) (hd : rule.tree.depth ≤ 125) :
    (store.save rule).2.Orderly := by
  cases store with
  | memory m => exact Memory.All.save h trivial
  | directory d => exact Directory.Orderly.saveUnder h hd {}

/-- A rule that a directory can keep is saved, also in memory. -/
theorem Orderly.save_fst (h : store.Orderly) (hr : Directory.Storable rule) :
    (store.save rule).1 = .ok () := by
  cases store with
  | memory m => rfl
  | directory d => exact Directory.Orderly.save_fst h hr

/-- A rule that is stored can be saved again with another tree. -/
theorem Orderly.save_fst_of_load {rule' : StoredRule} (h : store.Orderly)
    (hl : store.load id = .ok rule) (hid : rule'.id = rule.id)
    (hv : ∀ c ∈ rule'.tree.leaves, c.value.isFinite) (hd : rule'.tree.depth ≤ 125) :
    (store.save rule').1 = .ok () := by
  cases store with
  | memory m => rfl
  | directory d =>
    obtain ⟨-, hvalid, hfits, -, -⟩ := Directory.Orderly.of_load h hl
    rw [← hid] at hvalid hfits
    exact Directory.Orderly.save_fst h ⟨hvalid, hfits, hv, hd⟩

theorem Orderly.delete (h : store.Orderly) (id : String) : (store.delete id).2.Orderly := by
  cases store with
  | memory m =>
    simp only [Store.delete]
    cases hm : m.delete id with
    | error e => exact h
    | ok m' => exact Memory.All.delete h hm
  | directory d =>
    simp only [Store.delete]
    cases hd : d.delete id with
    | error e => exact h
    | ok d' => exact Directory.Orderly.delete h hd

/-- What can be loaded can be removed; what cannot be, cannot be removed for the same
    reason. -/
theorem Orderly.delete_fst (h : store.Orderly) (id : String) :
    (store.delete id).1 = (store.load id).map fun _ => () := by
  cases store with
  | memory m =>
    cases hget : m.get? id with
    | none =>
      have hdelete : m.delete id = .error (.notFound id) := by
        simp [Memory.delete, Table.contains, hget]
      simp [Store.delete, Store.load, Memory.load, hdelete, hget, Except.map]
    | some rule =>
      have hdelete : m.delete id = .ok (m.erase id) := by
        simp [Memory.delete, Table.contains, hget]
      simp [Store.delete, Store.load, Memory.load, hdelete, hget, Except.map]
  | directory d =>
    simp only [Store.delete, Store.load]
    cases hl : d.load id with
    | ok rule =>
      obtain ⟨d', hd⟩ := Directory.Orderly.exists_delete h hl
      rw [hd]
      rfl
    | error e =>
      rw [Directory.Orderly.delete_of_error h hl]
      rfl

/-- After a removal, the rules under other ids are loaded. -/
theorem Orderly.load_delete (h : store.Orderly) (id other : String) :
    (store.delete id).2.load other = .ok rule ↔ other ≠ id ∧ store.load other = .ok rule := by
  have hfst := h.delete_fst id
  cases hl : store.load id with
  | ok found =>
    rw [hl] at hfst
    rw [load_of_delete hfst]
    split <;> simp [*]
  | error e =>
    rw [hl] at hfst
    rw [(sameRules_of_delete hfst).load, and_iff_right_of_imp]
    rintro hload rfl
    simp [hl] at hload

end Store

end Criteria
