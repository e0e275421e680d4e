import Criteria.Proofs.Store.Orderly
import Mathlib.Logic.Function.Basic

/-!
# Requests to a store

A store is asked one thing after another. As long as only rules are meant that a directory
can keep, a store in memory answers like a map from ids to the rules that were saved last, and
one in a directory like a map to these rules restored. So both give the same answers if the
rules that are saved are restored as they are.

* `Request.IsProper`, `Request.restored`: what a directory can be asked, and what it makes of it;
* `Store.answers`: what a store answers to a list of requests;
* `Kept`, `Kept.Gives`, `Kept.GivesAll`: a map of rules, and what it answers;
* `Store.Represents`: a store that answers like a map;
* `Store.Represents.gives`, `Store.Represents.after`: one request to such a store;
* `Store.answers_eq_of_isProper`: all requests to either kind of store.
-/

namespace Criteria

/-- What a store can be asked. -/
inductive Request
  | save (rule : StoredRule)
  | load (id : String)
  | delete (id : String)
  | holds (id : String)
  | list

/-- What a store answers. -/
inductive Answer
  | done (answer : Except StoreError Unit)
  | rule (answer : Except StoreError StoredRule)
  | flag (answer : Except StoreError Bool)
  | rules (answer : Except StoreError (List StoredRule))

/-- A request for rules that a directory can keep, under ids that can name a file. -/
def Request.IsProper : Request → Prop
  | save rule => Directory.Storable rule
  | load id | delete id | holds id =>
    Directory.isFileId id ∧ Directory.fits (Directory.documentName id)
  | list => True

/-- A request with another rule in place of the one that it saves. -/
def Request.mapRule (f : StoredRule → StoredRule) : Request → Request
  | save rule => save (f rule)
  | load id => load id
  | delete id => delete id
  | holds id => holds id
  | list => list

/-- A request with the rule restored that it saves. -/
def Request.restored : Request → Request := mapRule StoredRule.restored

theorem Request.IsProper.restored {request : Request} (h : request.IsProper) :
    request.restored.IsProper := by
  cases request with
  | save rule => exact Directory.Storable.restored h
  | load | delete | holds | list => exact h

/-! ## Stores -/

namespace Store

/-- The answer to a request. -/
def answer (store : Store) : Request → Answer
  | .save rule => .done (store.save rule).1
  | .load id => .rule (store.load id)
  | .delete id => .done (store.delete id).1
  | .holds id => .flag (store.holds id)
  | .list => .rules store.list

/-- The store after a request. -/
def after (store : Store) : Request → Store
  | .save rule => (store.save rule).2
  | .delete id => (store.delete id).2
  | .load _ | .holds _ | .list => store

/-- The answers to requests, each made of the store as the one before leaves it. -/
def answers (store : Store) : List Request → List Answer
  | [] => []
  | request :: requests => store.answer request :: (store.after request).answers requests

end Store

/-! ## Maps -/

/-- Rules under the ids under which they are kept. -/
abbrev Kept := String → Option StoredRule

namespace Kept

/-- The rules that are kept after a request. -/
def after (kept : Kept) : Request → Kept
  | .save rule => Function.update kept rule.id (some rule)
  | .delete id => Function.update kept id none
  | .load _ | .holds _ | .list => kept

/-- The answer to a request, where some rules are kept. All are listed once, by the times
    of their creation and their ids. -/
inductive Gives (kept : Kept) : Request → Answer → Prop
  | save {rule : StoredRule} : Gives kept (.save rule) (.done (.ok ()))
  | load {id : String} {rule : StoredRule} (h : kept id = some rule) :
      Gives kept (.load id) (.rule (.ok rule))
  | loadMissing {id : String} (h : kept id = none) :
      Gives kept (.load id) (.rule (.error (.notFound id)))
  | delete {id : String} {rule : StoredRule} (h : kept id = some rule) :
      Gives kept (.delete id) (.done (.ok ()))
  | deleteMissing {id : String} (h : kept id = none) :
      Gives kept (.delete id) (.done (.error (.notFound id)))
  | holds {id : String} : Gives kept (.holds id) (.flag (.ok (kept id).isSome))
  | list {rules : List StoredRule} (hmem : ∀ rule, rule ∈ rules ↔ ∃ id, kept id = some rule)
      (horder : rules.Pairwise (InvImage StoredRule.Before StoredRule.place)) :
      Gives kept .list (.rules (.ok rules))

/-- The answers to requests, each where those rules are kept that the one before leaves. -/
inductive GivesAll : Kept → List Request → List Answer → Prop
  | nil {kept : Kept} : GivesAll kept [] []
  | cons {kept : Kept} {request : Request} {answer : Answer} {requests : List Request}
      {answers : List Answer} (h : kept.Gives request answer)
      (hs : GivesAll (kept.after request) requests answers) :
      GivesAll kept (request :: requests) (answer :: answers)

variable {kept : Kept} {request : Request} {answer answer' : Answer}

/-- What is kept determines the answer. -/
theorem Gives.eq (h : kept.Gives request answer) (h' : kept.Gives request answer') :
    answer = answer' := by
  cases h with
  | save | holds =>
    cases h'
    rfl
  | load h | loadMissing h =>
    cases h' with
    | load h' | loadMissing h' => simp_all
  | delete h | deleteMissing h =>
    cases h' with
    | delete h' | deleteMissing h' => simp_all
  | list hmem horder =>
    cases h' with
    | list hmem' horder' =>
      have heq := horder.eq_of_mem_iff horder' fun rule => (hmem rule).trans (hmem' rule).symm
      rw [heq]

theorem GivesAll.eq {requests : List Request} {answers answers' : List Answer}
    (h : kept.GivesAll requests answers) (h' : kept.GivesAll requests answers') :
    answers = answers' := by
  induction h generalizing answers' with
  | nil =>
    cases h'
    rfl
  | cons h _ ih =>
    cases h' with
    | cons h' hs' => rw [h.eq h', ih hs']

end Kept

/-! ## Stores as maps -/

namespace Store

variable {kept : Kept} {store : Store} {request : Request}

/-- A store that loads the rules that are kept, each under its id, and no others. -/
structure Represents (kept : Kept) (store : Store) : Prop where
  orderly : store.Orderly
  load : ∀ id rule, store.load id = .ok rule ↔ kept id = some rule

theorem represents_of_isEmpty (h : store.IsEmpty) : store.Represents fun _ => none where
  orderly := orderly_of_isEmpty h
  load _ _ := iff_of_false (load_ne_ok_of_isEmpty h) nofun

/-- Where no rule is kept under the id of a file, there is none to load. -/
theorem Represents.load_of_none (h : store.Represents kept) {id : String}
    (hid : Directory.isFileId id) (hf : Directory.fits (Directory.documentName id))
    (hnone : kept id = none) : store.load id = .error (.notFound id) := by
  rcases h.orderly.load_cases hid hf with ⟨rule, hload⟩ | hload
  · simp [(h.load id rule).1 hload] at hnone
  · exact hload

theorem restored_after (store : Store) (request : Request) :
    (store.after request).restored = store.restored := by
  refine restored_congr ?_
  cases request with
  | save rule => exact store.restoredValue_save rule
  | delete id => exact store.restoredValue_delete id
  | load | holds | list => rfl

/-- A store that represents a map gives the answers of the map. -/
theorem Represents.gives (h : store.Represents kept) (hp : request.IsProper) :
    kept.Gives (request.mapRule store.restored) (store.answer request) := by
  cases request with
  | save rule =>
    rw [answer, h.orderly.save_fst hp]
    exact .save
  | load id =>
    rw [answer]
    cases hk : kept id with
    | none =>
      rw [h.load_of_none hp.1 hp.2 hk]
      exact .loadMissing hk
    | some rule =>
      rw [(h.load id rule).2 hk]
      exact .load hk
  | delete id =>
    rw [answer, h.orderly.delete_fst]
    cases hk : kept id with
    | none =>
      rw [h.load_of_none hp.1 hp.2 hk]
      exact .deleteMissing hk
    | some rule =>
      rw [(h.load id rule).2 hk]
      exact .delete hk
  | holds id =>
    have hholds : store.holds id = .ok (kept id).isSome := by
      rw [Store.holds]
      cases hk : kept id with
      | none => rw [h.load_of_none hp.1 hp.2 hk]; rfl
      | some rule => rw [(h.load id rule).2 hk]; rfl
    rw [answer, hholds]
    exact .holds
  | list =>
    obtain ⟨rules, hlist, horder, hmem⟩ := h.orderly.exists_list
    rw [answer, hlist]
    refine .list (fun rule => ?_) horder
    rw [hmem, h.load]
    refine ⟨fun hk => ⟨_, hk⟩, fun ⟨id, hk⟩ => ?_⟩
    rwa [h.orderly.id_of_load ((h.load id rule).2 hk)]

/-- After a request, a store represents what is then kept. -/
theorem Represents.after (h : store.Represents kept) (hp : request.IsProper) :
    (store.after request).Represents (kept.after (request.mapRule store.restored)) := by
  cases request with
  | save rule =>
    refine ⟨h.orderly.save hp.depth, fun id rule' => ?_⟩
    have hload := load_of_save (Directory.height_lt_of_depth_le hp.depth) (h.orderly.save_fst hp) id
    rw [Store.after, hload, Request.mapRule, Kept.after, Function.update_apply]
    change _ ↔ (if id = rule.id then _ else _) = _
    split
    · simp
    · exact h.load id rule'
  | delete id =>
    refine ⟨h.orderly.delete id, fun other rule => ?_⟩
    rw [Store.after, h.orderly.load_delete, Request.mapRule, Kept.after, Function.update_apply, h.load]
    split <;> simp [*]
  | load | holds | list => exact h

theorem Represents.givesAll {requests : List Request} (h : store.Represents kept)
    (hp : ∀ request ∈ requests, request.IsProper) :
    kept.GivesAll (requests.map (Request.mapRule store.restored)) (store.answers requests) := by
  induction requests generalizing store kept with
  | nil => exact .nil
  | cons request requests ih =>
    obtain ⟨hrequest, hrequests⟩ := List.forall_mem_cons.1 hp
    have hrest := ih (h.after hrequest) hrequests
    rw [restored_after] at hrest
    exact .cons (h.gives hrequest) hrest

/-- An empty store in memory answers like a map from ids to the rules that were saved last. -/
theorem givesAll_memory {requests : List Request} (hp : ∀ request ∈ requests, request.IsProper) :
    Kept.GivesAll (fun _ => none) requests ((memory .empty).answers requests) := by
  have h := (represents_of_isEmpty (show IsEmpty (memory .empty) from rfl)).givesAll hp
  have hself : Request.mapRule (memory .empty).restored = id := by
    rw [funext (restored_memory .empty)]
    funext request
    cases request <;> rfl
  rwa [hself, List.map_id] at h

/-- An empty directory answers like a map from ids to what is restored of these rules. -/
theorem givesAll_directory {requests : List Request}
    (hp : ∀ request ∈ requests, request.IsProper) :
    Kept.GivesAll (fun _ => none) (requests.map Request.restored)
      ((directory .empty).answers requests) :=
  (represents_of_isEmpty (show IsEmpty (directory .empty) from rfl)).givesAll hp

/-- As long as only rules are meant that a directory can keep, under ids that can name a
    file, an empty store in memory answers any requests like a map from ids to the rules that
    were saved last. An empty store in a directory gives the same answers, if every rule that
    is saved is restored as it is; and in any case it gives those that the store in memory
    gives where the restored rules are saved. -/
theorem answers_eq_of_isProper {requests : List Request}
    (hp : ∀ request ∈ requests, request.IsProper) :
    ((∀ request ∈ requests, request.restored = request) →
      (directory .empty).answers requests = (memory .empty).answers requests) ∧
    (directory .empty).answers requests =
      (memory .empty).answers (requests.map Request.restored) ∧
    Kept.GivesAll (fun _ => none) requests ((memory .empty).answers requests) := by
  have hrestored : (directory .empty).answers requests =
      (memory .empty).answers (requests.map Request.restored) :=
    (givesAll_directory hp).eq <| givesAll_memory <|
      List.forall_mem_map.2 fun request hrequest => (hp request hrequest).restored
  refine ⟨fun hsame => ?_, hrestored, givesAll_memory hp⟩
  rw [hrestored, List.map_congr_left hsame, List.map_id']

theorem answers_eq_of_isProper_saves :
    let morning : Timestamp := ⟨2026, 1, 1, 8, 30, 0, 0, by decide⟩
    let noon : Timestamp := ⟨2026, 1, 1, 12, 0, 0, 0, by decide⟩
    let leaf := Tree.leaf ⟨"age", .greater, .number (.ofInt 30)⟩
    let first : StoredRule := ⟨"b", "age > 30", none, morning, morning, leaf⟩
    let second : StoredRule := ⟨"a", "age > 30", some "again", morning, morning, leaf⟩
    let edited : StoredRule := { first with updated := noon, tree := .join .or leaf leaf }
    let requests : List Request := [.save first, .save second, .save edited, .delete "a",
      .delete "a", .holds "a", .load "b", .list]
    (∀ request ∈ requests, request.IsProper) ∧ (∀ request ∈ requests, request.restored = request) ∧
      (directory .empty).answers requests = [.done (.ok ()), .done (.ok ()), .done (.ok ()),
        .done (.ok ()), .done (.error (.notFound "a")), .flag (.ok false), .rule (.ok edited),
        .rules (.ok [edited])] := by
  intro morning noon leaf first second edited requests
  have hfirst : Directory.Storable first :=
    ⟨by decide, by decide, by decide +kernel, by rw [Tree.depth_eq_height]; decide⟩
  have hsecond : Directory.Storable second :=
    ⟨by decide, by decide, by decide +kernel, by rw [Tree.depth_eq_height]; decide⟩
  have hedited : Directory.Storable edited :=
    ⟨by decide, by decide, by decide +kernel, by rw [Tree.depth_eq_height]; decide⟩
  have hfile : (Directory.isFileId "a" ∧ Directory.fits (Directory.documentName "a")) ∧
      Directory.isFileId "b" ∧ Directory.fits (Directory.documentName "b") :=
    ⟨⟨by decide, by decide⟩, by decide, by decide⟩
  have hp : ∀ request ∈ requests, request.IsProper := by
    simp only [requests, List.forall_mem_cons, Request.IsProper]
    exact ⟨hfirst, hsecond, hedited, hfile.1, hfile.1, hfile.1, hfile.2, trivial,
      List.forall_mem_nil _⟩
  have hsame : ∀ request ∈ requests, request.restored = request := by
    have hrules : first.restored = first ∧ second.restored = second ∧
        edited.restored = edited := by
      decide +kernel
    simp only [requests, List.forall_mem_cons, Request.restored, Request.mapRule, hrules, true_and]
    exact List.forall_mem_nil _
  refine ⟨hp, hsame, ((answers_eq_of_isProper hp).1 hsame).trans ?_⟩
  simp [requests, answers, answer, after, Store.save, Store.delete, Store.load, Store.holds,
    Store.list, Memory.save, Memory.delete, Memory.load, Memory.list, Table.insert, Table.erase,
    Table.get?, Table.contains, Table.empty, StoredRule.inOrder, List.lookup_cons, first, second,
    edited]

end Store

end Criteria
