import Criteria.Proofs.Store.Directory
import Criteria.Proofs.Text.Run

/-!
# Names of files

A rule has two names in a directory. That of its document ends in the extension `json`, by which
documents are told from other entries; that of its draft has another extension in its place.

* `splitExtension_eq_some_iff`: a name in front of its extension, and the extension;
* `draftName_eq_withExtension`: the name of a draft, from that of the document;
* `namesOf`: the names for an id, which stand in the directory itself;
* `eq_of_mem_namesOf`: no two ids share a name.
-/

namespace Criteria.Directory

variable {id other name : String}

/-! ## Extensions -/

/-- The name of an entry in front of its last dot, and the extension behind the dot. There is none
    behind a dot that comes first. -/
def splitExtension (cs : List Char) : List Char × Option (List Char) :=
  match cs.reverse.dropWhile (· ≠ '.') with
  | _ :: c :: stem => ((c :: stem).reverse, some (cs.reverse.takeWhile (· ≠ '.')).reverse)
  | _ => (cs, none)

/-- The name of an entry with another extension. -/
def withExtension (name extension : String) : String :=
  String.ofList ((splitExtension name.toList).1 ++ '.' :: extension.toList)

theorem splitExtension_eq_some_iff {cs stem extension : List Char} :
    splitExtension cs = (stem, some extension) ↔
      stem ≠ [] ∧ '.' ∉ extension ∧ cs = stem ++ '.' :: extension := by
  constructor
  · intro h
    rw [splitExtension] at h
    split at h
    · rename_i dot c rest hdrop
      obtain ⟨rfl, hextension⟩ := Prod.mk.inj h
      obtain rfl := Option.some.inj hextension
      have hdot : dot = '.' := by
        have hstops := Text.stops_dropWhile (· ≠ '.') cs.reverse
        rw [hdrop, Text.stops_cons] at hstops
        simpa using hstops
      -- From behind, the name is the extension, the dot and what stands in front of it.
      have hcs := List.takeWhile_append_dropWhile (p := (· ≠ '.')) (l := cs.reverse)
      rw [hdrop, hdot] at hcs
      have hall := List.all_eq_true.1 (List.all_takeWhile (p := (· ≠ '.')) (l := cs.reverse))
      generalize cs.reverse.takeWhile (· ≠ '.') = front at hcs hall ⊢
      refine ⟨by simp, fun hmem => ?_, ?_⟩
      · simpa using hall _ (List.mem_reverse.1 hmem)
      · rw [← List.reverse_reverse cs, ← hcs]
        simp
    · simp at h
  · rintro ⟨hstem, hextension, rfl⟩
    obtain ⟨c, rest, hrest⟩ := List.exists_cons_of_ne_nil (List.reverse_ne_nil_iff.2 hstem)
    have hrun : ∀ c ∈ extension.reverse, decide (c ≠ '.') := by
      intro c hc
      have hne : c ≠ '.' := fun heq => hextension (heq ▸ List.mem_reverse.1 hc)
      simpa using hne
    have hstop : Text.Stops (· ≠ '.') ('.' :: c :: rest) := by simp
    have hreverse : (stem ++ '.' :: extension).reverse = extension.reverse ++ '.' :: c :: rest := by
      simp [hrest]
    simp only [splitExtension, hreverse, Text.dropWhile_run hrun hstop,
      Text.takeWhile_run hrun hstop]
    rw [← hrest, List.reverse_reverse, List.reverse_reverse]

/-- The draft has the name of the document with another extension. -/
theorem draftName_eq_withExtension (h : isFileId id) :
    draftName id = withExtension (documentName id) "json.tmp" := by
  have hne : id.toList ≠ [] := by
    rintro hnil
    rw [isFileId, hnil] at h
    simp at h
  have hsplit : splitExtension (documentName id).toList = (id.toList, some "json".toList) :=
    splitExtension_eq_some_iff.2 ⟨hne, by decide, toList_documentName id⟩
  rw [withExtension, hsplit, ← String.toList_inj, String.toList_ofList]
  exact String.toList_append

/-! ## The names for an id -/

/-- The names for an id: those of its document and its draft, or none if it cannot name a file. -/
def namesOf (id : String) : List String :=
  if isFileId id then [documentName id, draftName id] else []

theorem mem_namesOf :
    name ∈ namesOf id ↔ isFileId id ∧ (name = documentName id ∨ name = draftName id) := by
  rw [namesOf]
  split <;> simp_all

theorem draftName_inj : draftName id = draftName other ↔ id = other := by
  rw [← String.toList_inj, draftName, draftName, String.toList_append, String.toList_append,
    List.append_cancel_right_eq, String.toList_inj]

/-- No document has the name of a draft. -/
theorem documentName_ne_draftName (h : isFileId id) (other : String) :
    documentName id ≠ draftName other :=
  ne_draftName (isDocument_documentName h) other

/-- No two ids share a name. -/
theorem eq_of_mem_namesOf (h : name ∈ namesOf id) (h' : name ∈ namesOf other) : id = other := by
  obtain ⟨hid, h⟩ := mem_namesOf.1 h
  obtain ⟨hother, h'⟩ := mem_namesOf.1 h'
  -- A document and a draft never have one name, so both names are of one kind.
  rcases h with rfl | rfl
  · rcases h' with heq | heq
    · exact documentName_inj.1 heq
    · exact absurd heq (documentName_ne_draftName hid other)
  · rcases h' with heq | heq
    · exact absurd heq.symm (documentName_ne_draftName hother id)
    · exact draftName_inj.1 heq

/-- The names for an id are those of entries of the directory itself. -/
theorem slash_not_mem_of_mem_namesOf (h : name ∈ namesOf id) : '/' ∉ name.toList := by
  obtain ⟨hid, h⟩ := mem_namesOf.1 h
  have hdocument := (isDocument_documentName hid).2
  rcases h with rfl | rfl
  · exact hdocument
  · rw [toList_documentName, List.mem_append, not_or] at hdocument
    rw [draftName, String.toList_append, List.mem_append, not_or]
    exact ⟨hdocument.1, by decide⟩

end Criteria.Directory
