import Criteria.Proofs.Store.Effect
import Criteria.Proofs.Store.Names
import Mathlib.Data.Option.Basic

/-!
# Confined requests

What a directory is asked about one rule reads and writes no other names than those for its id,
and none at all if the id cannot name a file. A save that fails leaves everything but the draft
as it was, and one that succeeds leaves no draft, whatever goes wrong in between and whatever is
left of earlier saves.

* `AgreeOn`, `Confined`: directories that cannot be told apart by names, and requests that
  depend on no other names;
* `tryDelete`, `delete_directory`: a removal with the directory that it leaves;
* `confined_load`, `confined_tryDelete`, `confined_saveUnder`: the requests are confined;
* `IsKept`, `IsReplaced`: what a save that fails leaves, and one that succeeds;
* `get?_saveAll`: no document is half written in a run of saves;
* `saves_confined_and_whole`: all of this for every id, every directory and every fault.
-/

namespace Criteria.Directory

variable {d d' : Directory} {id name : String} {names : List String} {rule : StoredRule}
  {faults : Faults}

/-! ## Agreement -/

/-- Under the given names, the same stands in two directories. -/
def AgreeOn (names : List String) (d d' : Directory) : Prop :=
  ∀ name ∈ names, d'.get? name = d.get? name

/-- A request that depends on what stands under the given names, and on nothing else: it leaves
    the other names as they are, and where these names agree, so do its answers and what stands
    under the names afterwards. -/
structure Confined {α : Type} (names : List String) (request : Directory → α × Directory) :
    Prop where
  keeps : ∀ d, ∀ name ∉ names, (request d).2.get? name = d.get? name
  agree : ∀ d d', AgreeOn names d d' →
    (request d').1 = (request d).1 ∧ AgreeOn names (request d).2 (request d').2

/-- A request that changes nothing is confined to the names that its answer depends on. -/
theorem confined_of_answer {α : Type} {answer : Directory → α}
    (h : ∀ d d', AgreeOn names d d' → answer d' = answer d) :
    Confined names fun d => (answer d, d) where
  keeps _ _ _ := rfl
  agree d d' hd := ⟨h d d' hd, hd⟩

/-! ### Steps -/

section Agree

variable (h : AgreeOn names d d')

include h

theorem AgreeOn.insert (name : String) (entry : Entry) :
    AgreeOn names ⟨d.entries.insert name entry⟩ ⟨d'.entries.insert name entry⟩ := by
  intro other hother
  have hget : d'.entries.get? other = d.entries.get? other := h other hother
  rw [get?, get?, Table.get?_insert, Table.get?_insert, hget]

theorem AgreeOn.erase (name : String) :
    AgreeOn names ⟨d.entries.erase name⟩ ⟨d'.entries.erase name⟩ := by
  intro other hother
  have hget : d'.entries.get? other = d.entries.get? other := h other hother
  rw [get?, get?, Table.get?_erase, Table.get?_erase, hget]

theorem AgreeOn.write? (hname : name ∈ names) (content : ByteArray) :
    Option.Rel (AgreeOn names) (d.write? name content) (d'.write? name content) := by
  rw [Directory.write?, Directory.write?, h name hname]
  rcases d.get? name with _ | _ | _
  · exact .some (h.insert name _)
  · exact .some (h.insert name _)
  · exact .none

theorem AgreeOn.remove? (hname : name ∈ names) :
    Option.Rel (AgreeOn names) (d.remove? name) (d'.remove? name) := by
  rw [Directory.remove?, Directory.remove?, h name hname]
  rcases d.get? name with _ | _ | _
  · exact .none
  · exact .some (h.erase name)
  · exact .none

theorem AgreeOn.rename? {old new : String} (hold : old ∈ names) (hnew : new ∈ names) :
    Option.Rel (AgreeOn names) (d.rename? old new) (d'.rename? old new) := by
  rw [Directory.rename?, Directory.rename?, h old hold, h new hnew]
  rcases d.get? new with _ | _ | _
  · rcases d.get? old with _ | _ | _
    · exact .none
    · exact .some ((h.erase old).insert new _)
    · exact .none
  · rcases d.get? old with _ | _ | _
    · exact .none
    · exact .some ((h.erase old).insert new _)
    · exact .none
  · exact .none

/-- A step that may fail, and leaves all as it was then. -/
theorem AgreeOn.getD {step step' : Option Directory} (hstep : Option.Rel (AgreeOn names) step step') :
    AgreeOn names (step.getD d) (step'.getD d') := by
  cases hstep with
  | some hd => exact hd
  | none => exact h

theorem AgreeOn.cleanUp (faults : Faults) (hname : name ∈ names) :
    AgreeOn names (cleanUp faults d name) (cleanUp faults d' name) := by
  rw [Directory.cleanUp, Directory.cleanUp]
  split
  · exact h
  · exact h.getD (h.remove? hname)

theorem AgreeOn.writeDraft (faults : Faults) (hname : name ∈ names) (content : ByteArray) :
    (writeDraft faults d' name content).1 = (writeDraft faults d name content).1 ∧
      AgreeOn names (writeDraft faults d name content).2 (writeDraft faults d' name content).2 := by
  rw [Directory.writeDraft, Directory.writeDraft]
  split
  · have hwrite := h.write? hname content
    generalize d.write? name content = step at hwrite
    generalize d'.write? name content = step' at hwrite
    cases hwrite with
    | some hd => exact ⟨rfl, hd⟩
    | none => exact ⟨rfl, h⟩
  · exact ⟨rfl, h⟩
  · exact ⟨rfl, h.getD (h.write? hname _)⟩

/-- Where two directories agree on the document and the draft of a rule, saving it goes the same
    way in both. -/
theorem AgreeOn.saveUnder (faults : Faults) (hdocument : documentName rule.id ∈ names)
    (hdraft : draftName rule.id ∈ names) :
    (saveUnder faults d' rule).1 = (saveUnder faults d rule).1 ∧
      AgreeOn names (saveUnder faults d rule).2 (saveUnder faults d' rule).2 := by
  rw [Directory.saveUnder, Directory.saveUnder]
  split
  · exact ⟨rfl, h⟩
  · cases rule.text with
    | error e => exact ⟨rfl, h⟩
    | ok text =>
      simp only
      split
      · exact ⟨rfl, h⟩
      · obtain ⟨hwritten, hd⟩ := h.writeDraft faults hdraft text.toUTF8
        generalize Directory.writeDraft faults d _ _ = outcome at hwritten hd ⊢
        generalize Directory.writeDraft faults d' _ _ = outcome' at hwritten hd ⊢
        obtain ⟨written, d₁⟩ := outcome
        obtain ⟨written', d₁'⟩ := outcome'
        obtain rfl : written' = written := hwritten
        -- What is left to do is the same in two directories that still agree.
        cases written' with
        | false => exact ⟨rfl, AgreeOn.cleanUp hd faults hdraft⟩
        | true =>
          have hrename : Option.Rel (AgreeOn names)
              (if faults.rename then none
                else d₁.rename? (draftName rule.id) (documentName rule.id))
              (if faults.rename then none
                else d₁'.rename? (draftName rule.id) (documentName rule.id)) := by
            split
            · exact .none
            · exact AgreeOn.rename? hd hdraft hdocument
          simp only
          generalize (if faults.rename then none else d₁.rename? _ _) = step at hrename ⊢
          generalize (if faults.rename then none else d₁'.rename? _ _) = step' at hrename ⊢
          cases hrename with
          | some hd => exact ⟨rfl, hd⟩
          | none => exact ⟨rfl, AgreeOn.cleanUp hd faults hdraft⟩

end Agree

/-! ## Requests -/

/-- Removes the document with an id, and leaves the directory as it is where that fails. -/
def tryDelete (d : Directory) (id : String) : Except StoreError Unit × Directory :=
  match d.delete id with
  | .ok d' => (.ok (), d')
  | .error e => (.error e, d)

theorem delete_directory (d : Directory) (id : String) :
    (Store.directory d).delete id = ((d.tryDelete id).1, .directory (d.tryDelete id).2) := by
  rw [Store.delete, tryDelete]
  cases d.delete id <;> rfl

/-- A request that takes no notice of a directory. -/
theorem confined_of_eq {α : Type} {request : Directory → α × Directory} (answer : α)
    (h : ∀ d, request d = (answer, d)) : Confined names request where
  keeps d name _ := by rw [h]
  agree d d' hd := by
    rw [h, h]
    exact ⟨rfl, hd⟩

theorem confined_load (id : String) : Confined (namesOf id) fun d => (d.load id, d) := by
  refine confined_of_answer fun d d' hd => load_congr fun hid => ?_
  exact hd _ (mem_namesOf.2 ⟨hid, .inl rfl⟩)

theorem confined_tryDelete (id : String) : Confined (namesOf id) (tryDelete · id) := by
  -- An id that cannot name a file is refused before the directory is looked at.
  cases hid : isFileId id with
  | false => exact confined_of_eq (.error (.invalidId id)) fun d => by simp [tryDelete, delete, hid]
  | true =>
    have hname : documentName id ∈ namesOf id := mem_namesOf.2 ⟨hid, .inl rfl⟩
    constructor
    · intro d name hnot
      rw [tryDelete]
      split
      · rename_i d' hd
        have hne : name ≠ documentName id := fun heq => hnot (heq ▸ hname)
        rw [get?_of_delete hd, if_neg hne]
      · rfl
    · intro d d' hd
      simp only [tryDelete, delete, hid, hd _ hname, Bool.not_true, Bool.false_eq_true, if_false]
      cases fits (documentName id) with
      | false => exact ⟨rfl, hd⟩
      | true =>
        rcases d.get? (documentName id) with _ | _ | _
        · exact ⟨rfl, hd⟩
        · exact ⟨rfl, hd.erase _⟩
        · exact ⟨rfl, hd⟩

theorem confined_saveUnder (faults : Faults) (rule : StoredRule) :
    Confined (namesOf rule.id) (saveUnder faults · rule) := by
  cases hid : isFileId rule.id with
  | false =>
    exact confined_of_eq (.error (.invalidId rule.id)) fun d => by simp [saveUnder, hid]
  | true =>
    have hdocument : documentName rule.id ∈ namesOf rule.id := mem_namesOf.2 ⟨hid, .inl rfl⟩
    have hdraft : draftName rule.id ∈ namesOf rule.id := mem_namesOf.2 ⟨hid, .inr rfl⟩
    refine ⟨fun d name hnot => ?_, fun d d' hd => hd.saveUnder faults hdocument hdraft⟩
    have hne : name ≠ draftName rule.id := fun heq => hnot (heq ▸ hdraft)
    have hne' : name ≠ documentName rule.id := fun heq => hnot (heq ▸ hdocument)
    rcases get?_of_saveUnder faults d rule with ⟨-, -, hkept⟩ | ⟨-, -, -, text, -, hget⟩
    · exact hkept name hne
    · rw [hget, if_neg hne', if_neg hne]

/-! ## Names and outcomes -/

/-- The names for an id are those of two entries of the directory itself. No other id has one of
    them, and nothing that stands under the name of the draft is loaded or listed. -/
structure OwnsNames (id : String) : Prop where
  draft : isFileId id → draftName id = withExtension (documentName id) "json.tmp"
  inside : ∀ name ∈ namesOf id, '/' ∉ name.toList
  own : ∀ other, ∀ name ∈ namesOf id, name ∈ namesOf other → id = other
  document_ne_draft : isFileId id → ∀ other, documentName id ≠ draftName other
  unseen : ∀ (d : Directory) (entry : Entry),
    Store.SameRules (.directory d) (.directory ⟨d.entries.insert (draftName id) entry⟩) ∧
      Store.SameRules (.directory d) (.directory ⟨d.entries.erase (draftName id)⟩)

theorem ownsNames (id : String) : OwnsNames id where
  draft := draftName_eq_withExtension
  inside _ := slash_not_mem_of_mem_namesOf
  own _ _ := eq_of_mem_namesOf
  document_ne_draft := documentName_ne_draftName
  unseen _ _ :=
    have hdraft := not_isDocument_draftName id
    ⟨Store.sameRules_of_sameDocuments (sameDocuments_insert hdraft _),
      Store.sameRules_of_sameDocuments (sameDocuments_erase hdraft)⟩

/-- After a save that failed, all but the draft is as before, and so are all answers. -/
structure IsKept (id : String) (d d' : Directory) : Prop where
  get? : ∀ name, name ≠ draftName id → d'.get? name = d.get? name
  load : ∀ other, d'.load other = d.load other
  list : d'.list = d.list
  holds : ∀ other, (Store.directory d').holds other = (Store.directory d).holds other

/-- After a save that succeeded, the document holds all of the new text, there is no draft, and
    everything else is as before. -/
structure IsReplaced (rule : StoredRule) (d d' : Directory) : Prop where
  valid : isFileId rule.id
  document : ∃ text, rule.text = .ok text ∧
    d'.get? (documentName rule.id) = some (.file text.toUTF8)
  draft : d'.get? (draftName rule.id) = none
  others : ∀ name ∉ namesOf rule.id, d'.get? name = d.get? name

theorem isKept_of_saveUnder {e : StoreError} (h : (saveUnder faults d rule).1 = .error e) :
    IsKept rule.id d (saveUnder faults d rule).2 where
  get? := by
    rcases get?_of_saveUnder faults d rule with ⟨-, -, hkept⟩ | ⟨hok, -⟩
    · exact hkept
    · simp [h] at hok
  load := (sameDocuments_of_saveUnder h).load
  list := (sameDocuments_of_saveUnder h).list
  holds := (Store.sameRules_of_saveUnder h).holds

theorem isReplaced_of_saveUnder (h : (saveUnder faults d rule).1 = .ok ()) :
    IsReplaced rule d (saveUnder faults d rule).2 := by
  rcases get?_of_saveUnder faults d rule with ⟨e, he, -⟩ | ⟨-, hid, -, text, htext, hget⟩
  · simp [h] at he
  · exact {
      valid := hid
      document := ⟨text, htext, by rw [hget, if_pos rfl]⟩
      draft := by rw [hget, if_neg (documentName_ne_draftName hid _).symm, if_pos rfl]
      others := (confined_saveUnder faults rule).keeps d }

/-! ## Saves one after another -/

/-- The directory after saves, each of which may go wrong in its own way. -/
def saveAll (d : Directory) (saves : List (Faults × StoredRule)) : Directory :=
  saves.foldl (fun d save => (saveUnder save.1 d save.2).2) d

/-- However many saves go wrong, no document is ever half written: it is as it was at first, or
    it holds all of the text of a rule that was saved. -/
theorem get?_saveAll (hname : IsDocument name) (saves : List (Faults × StoredRule))
    (d : Directory) :
    (d.saveAll saves).get? name = d.get? name ∨
      ∃ save ∈ saves, ∃ text, save.2.text = .ok text ∧ name = documentName save.2.id ∧
        (d.saveAll saves).get? name = some (.file text.toUTF8) := by
  induction saves generalizing d with
  | nil => exact .inl rfl
  | cons save saves ih =>
    rcases ih (saveUnder save.1 d save.2).2 with hsame | ⟨later, hmem, htext⟩
    · -- The first save was the last to touch the document, if any was.
      rcases saveUnder_cases save.1 d save.2 with ⟨-, -, hkept⟩ | ⟨-, -, -, text, htext, hget⟩
      · exact .inl (hsame.trans (hkept name hname))
      · have hafter := hsame.trans (hget name hname)
        split at hafter
        · exact .inr ⟨save, List.mem_cons_self, text, htext, ‹_›, hafter⟩
        · exact .inl hafter
    · exact .inr ⟨later, List.mem_cons_of_mem _ hmem, htext⟩

/-- No two ids share a name, and all requests for an id are confined to its names. Whatever the
    directory holds and whichever steps go wrong, a save fails and keeps all that is stored, or it
    succeeds and has replaced one document as a whole. -/
theorem saves_confined_and_whole (id : String) (faults : Faults) (d : Directory)
    (rule : StoredRule) :
    OwnsNames id ∧ Confined (namesOf id) (fun d => (d.load id, d)) ∧
      Confined (namesOf id) (tryDelete · id) ∧
      Confined (namesOf rule.id) (saveUnder faults · rule) ∧
      ((∃ e, (saveUnder faults d rule).1 = .error e ∧
          IsKept rule.id d (saveUnder faults d rule).2) ∨
        ((saveUnder faults d rule).1 = .ok () ∧
          IsReplaced rule d (saveUnder faults d rule).2)) := by
  refine ⟨ownsNames id, confined_load id, confined_tryDelete id, confined_saveUnder faults rule, ?_⟩
  cases h : (saveUnder faults d rule).1 with
  | error e => exact .inl ⟨e, rfl, isKept_of_saveUnder h⟩
  | ok => exact .inr ⟨rfl, isReplaced_of_saveUnder h⟩

end Criteria.Directory
