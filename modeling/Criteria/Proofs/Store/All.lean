import Criteria.Proofs.Store.Directory
import Criteria.Store.Basic

/-!
# Stores all of whose rules have a property

A store keeps every rule under its own id. If all its rules have a property, that stays
so as long as what is restored of a rule that is saved has the property, and its tree is not too
deep for a document. In memory a rule is restored as it is.

* `Store.restoredValue`, `Store.restored`: what a store gives back of what is saved;
* `Store.restored_memory`, `Store.restored_eq_self`: where that is the same;
* `Store.All`: every rule of a store stands under its own id and has a property;
* `Store.all_of_list`: so it is where nothing is listed;
* `Store.All.save`, `Store.All.delete`: so it stays;
* `Store.All.load`, `Store.All.load_of_mem_list`: what is then loaded and listed.
-/

namespace Criteria

variable {P Q : StoredRule → Prop} {id : String} {rule : StoredRule}

/-! ## In memory -/

namespace Memory

variable {m m' : Memory}

/-- Every rule stands under its own id and has a property. -/
def All (P : StoredRule → Prop) (m : Memory) : Prop :=
  ∀ id rule, m.get? id = some rule → rule.id = id ∧ P rule

theorem mem_list : rule ∈ m.list ↔ ∃ id, m.get? id = some rule := by
  simp only [list, StoredRule.inOrder, List.mem_mergeSort, List.mem_map, Table.get?_eq_some_iff]
  constructor
  · rintro ⟨entry, hentry, rfl⟩
    exact ⟨entry.1, hentry⟩
  · rintro ⟨id, hentry⟩
    exact ⟨(id, rule), hentry, rfl⟩

theorem load_eq_ok_iff : m.load id = .ok rule ↔ m.get? id = some rule := by
  rw [load]
  cases m.get? id <;> simp

theorem All.save (h : m.All P) (hP : P rule) : (m.save rule).All P := by
  intro id rule' hget
  rw [Memory.save, Table.get?_insert] at hget
  split at hget
  · rename_i hid
    obtain rfl := Option.some.inj hget
    exact ⟨hid.symm, hP⟩
  · exact h id rule' hget

theorem All.delete (h : m.All P) (hm : m.delete id = .ok m') : m'.All P := by
  rw [Memory.delete] at hm
  split at hm
  · obtain rfl := Except.ok.inj hm
    intro other rule hget
    rw [Table.get?_erase] at hget
    split at hget
    · simp at hget
    · exact h other rule hget
  · simp at hm

end Memory

/-! ## In a directory -/

namespace Directory

variable {d d' : Directory}

/-- A rule that stands in the document of a name as it would be saved there. -/
structure IsFiled (name : String) (rule : StoredRule) : Prop where
  name : name = documentName rule.id
  valid : isFileId rule.id
  fits : fits (documentName rule.id)

/-- Every rule in a document stands under its own id and has a property. -/
def All (P : StoredRule → Prop) (d : Directory) : Prop :=
  ∀ name rule, IsDocument name → d.rule? name = some rule → IsFiled name rule ∧ P rule

/-- Where there is room for the name of a draft, there is for that of the document. -/
theorem fits_documentName (h : fits (draftName id)) : fits (documentName id) := by
  simp only [fits, decide_eq_true_eq, draftName, documentName, String.utf8ByteSize_append] at h ⊢
  refine Nat.le_trans (Nat.add_le_add_left ?_ _) h
  decide

theorem All.saveUnder (h : d.All P) (hP : P rule.restored)
    (hd : rule.tree.height < Json.nestingLimit - 1) (faults : Faults) :
    (saveUnder faults d rule).2.All P := by
  intro name rule' hname hrule
  rcases saveUnder_cases faults d rule with ⟨-, -, hkept⟩ | ⟨-, hid, hfits, text, htext, hget⟩
  · rw [rule?_congr (hkept name hname)] at hrule
    exact h name rule' hname hrule
  · have hget := hget name hname
    split at hget
    · rename_i heq
      rw [rule?_of_file hget, StoredRule.read?_text htext hd] at hrule
      obtain rfl := Option.some.inj hrule
      exact ⟨⟨heq, hid, fits_documentName hfits⟩, hP⟩
    · rw [rule?_congr hget] at hrule
      exact h name rule' hname hrule

theorem All.delete (h : d.All P) (hd : d.delete id = .ok d') : d'.All P := by
  intro name rule hname hrule
  have hget := get?_of_delete hd name
  split at hget
  · obtain ⟨entry, hentry⟩ := exists_entry_of_rule? hrule
    simp [hget] at hentry
  · rw [rule?_congr hget] at hrule
    exact h name rule hname hrule

theorem All.load (h : d.All P) (hl : d.load id = .ok rule) : rule.id = id ∧ P rule := by
  obtain ⟨hid, -, hrule⟩ := load_eq_ok_iff.1 hl
  obtain ⟨hfiled, hP⟩ := h _ rule (isDocument_documentName hid) hrule
  exact ⟨(documentName_inj.1 hfiled.name).symm, hP⟩

theorem All.load_of_mem_list (h : d.All P) {rules : List StoredRule} (hl : d.list = .ok rules)
    (hr : rule ∈ rules) : d.load rule.id = .ok rule := by
  obtain ⟨name, hname, hrule⟩ := (mem_list hl).1 hr
  obtain ⟨hfiled, -⟩ := h name rule hname hrule
  exact load_eq_ok_iff.2 ⟨hfiled.valid, hfiled.fits, hfiled.name ▸ hrule⟩

end Directory

/-! ## In either -/

namespace Store

variable {store store' : Store}

/-- The value that a store gives back of one that is saved in it. -/
def restoredValue : Store → Value → Value
  | .memory _, v => v
  | .directory _, v => v.restored

/-- The rule that a store gives back of one that is saved in it. -/
def restored (store : Store) (rule : StoredRule) : StoredRule :=
  { rule with tree := rule.tree.mapValues store.restoredValue }

theorem id_restored (store : Store) (rule : StoredRule) :
    (store.restored rule).id = rule.id := rfl

theorem restored_memory (m : Memory) (rule : StoredRule) : (memory m).restored rule = rule :=
  congrArg (fun tree => { rule with tree }) (Tree.mapValues_eq_self fun _ _ => rfl)

/-- Every store gives back short values as they are saved. -/
theorem restoredValue_eq_self (store : Store) {v : Value} (h : v.IsShort) :
    store.restoredValue v = v := by
  cases store with
  | memory m => rfl
  | directory d => exact Value.restored_eq_self h

/-- A rule is given back as it is saved by a store in memory, and by any if its values are
    short. -/
theorem restored_eq_self (h : (∃ m, store = .memory m) ∨ rule.tree.HasShortValues) :
    store.restored rule = rule := by
  rcases h with ⟨m, rfl⟩ | hshort
  · exact restored_memory m rule
  · exact congrArg (fun tree => { rule with tree })
      (Tree.mapValues_eq_self fun c hc => store.restoredValue_eq_self (hshort c hc))

theorem isFinite_restoredValue {v : Value} (h : v.isFinite) :
    (store.restoredValue v).isFinite := by
  cases store with
  | memory m => exact h
  | directory d => exact Value.isFinite_restored h

theorem restored_congr (h : store'.restoredValue = store.restoredValue) :
    store'.restored = store.restored := by
  funext rule
  rw [restored, restored, h]

/-- A change to a store makes no difference to what it gives back of what is saved. -/
theorem restoredValue_save (store : Store) (rule : StoredRule) :
    (store.save rule).2.restoredValue = store.restoredValue := by
  cases store <;> rfl

theorem restoredValue_delete (store : Store) (id : String) :
    (store.delete id).2.restoredValue = store.restoredValue := by
  cases store with
  | memory m =>
    rw [Store.delete]
    split <;> rfl
  | directory d =>
    rw [Store.delete]
    split <;> rfl

/-- Every rule of a store stands under its own id and has a property. -/
def All (P : StoredRule → Prop) : Store → Prop
  | .memory m => m.All P
  | .directory d => d.All P

theorem All.imp (h : store.All P) (hPQ : ∀ rule, P rule → Q rule) : store.All Q := by
  cases store with
  | memory m => exact fun id rule hget => (h id rule hget).imp_right (hPQ rule)
  | directory d => exact fun name rule hname hrule => (h name rule hname hrule).imp_right (hPQ rule)

/-- A store that lists nothing has no rules. -/
theorem all_of_list (h : store.list = .ok []) (P : StoredRule → Prop) : store.All P := by
  cases store with
  | memory m =>
    intro id rule hget
    have hmem : rule ∈ m.list := Memory.mem_list.2 ⟨id, hget⟩
    rw [Except.ok.inj h] at hmem
    exact absurd hmem List.not_mem_nil
  | directory d =>
    intro name rule hname hrule
    exact absurd ((Directory.mem_list h).2 ⟨name, hname, hrule⟩) List.not_mem_nil

theorem All.save (h : store.All P) (hP : P (store.restored rule))
    (hd : rule.tree.height < Json.nestingLimit - 1) : (store.save rule).2.All P := by
  cases store with
  | memory m =>
    rw [restored_memory] at hP
    exact Memory.All.save h hP
  | directory d => exact Directory.All.saveUnder h hP hd {}

theorem All.delete (h : store.All P) (id : String) : (store.delete id).2.All P := by
  cases store with
  | memory m =>
    simp only [Store.delete]
    cases hm : m.delete id with
    | error e => exact h
    | ok m' => exact Memory.All.delete h hm
  | directory d =>
    simp only [Store.delete]
    cases hd : d.delete id with
    | error e => exact h
    | ok d' => exact Directory.All.delete h hd

theorem All.load (h : store.All P) (hl : store.load id = .ok rule) : rule.id = id ∧ P rule := by
  cases store with
  | memory m => exact h id rule (Memory.load_eq_ok_iff.1 hl)
  | directory d => exact Directory.All.load h hl

/-- What is listed is loaded under its id. -/
theorem All.load_of_mem_list (h : store.All P) {rules : List StoredRule}
    (hl : store.list = .ok rules) (hr : rule ∈ rules) : store.load rule.id = .ok rule := by
  cases store with
  | memory m =>
    obtain rfl := Except.ok.inj hl
    obtain ⟨id, hget⟩ := Memory.mem_list.1 hr
    obtain ⟨rfl, -⟩ := h id rule hget
    exact Memory.load_eq_ok_iff.2 hget
  | directory d => exact Directory.All.load_of_mem_list h hl hr

end Store

end Criteria
