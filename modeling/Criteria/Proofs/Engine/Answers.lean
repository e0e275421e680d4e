import Criteria.Proofs.Engine.Run
import Criteria.Proofs.Store.Effect

/-!
# What an engine answers

A command ends with an answer and with the engine as it then is. Where files fail to be
written, renamed or removed, it may end otherwise than where all goes well. But a call
that fails leaves all stored rules as they were.

* `Engine.Ends`: how a command may end;
* `Engine.Effect`, `Engine.Ends.effect`: what this means for the rules that are stored;
* `Engine.Fails`: the calls that fail;
* `Engine.rules_of_fails`: what they leave as it was.
-/

namespace Criteria.Engine

variable {e e' : Engine} {event : Event} {rule : StoredRule}
  {reply : Except EngineError (Option StoredRule)}

/-! ## Commands -/

/-- The answer to a command that saves a rule. -/
def savedReply (rule : StoredRule) : Except StoreError Unit → Except EngineError (Option StoredRule)
  | .ok () => .ok (some rule)
  | .error cause => .error (.store cause)

theorem map_save_fst (e : Engine) (rule : StoredRule) :
    (e.save rule).1.map some = savedReply rule (e.store.save rule).1 := by
  rw [save]
  split
  · rename_i h
    rw [h]
    rfl
  · rename_i h
    rw [h]
    rfl

/-- The answer to a command that removes a rule. -/
def deletedReply : Except StoreError Unit → Except EngineError (Option StoredRule)
  | .ok () => .ok none
  | .error cause => .error (.store cause)

theorem map_delete_fst (e : Engine) (id : String) :
    ((e.delete id).1.map fun _ => none) = deletedReply (e.store.delete id).1 := by
  rw [delete]
  split
  · rename_i h
    rw [h]
    rfl
  · rename_i h
    rw [h]
    rfl

/-- How a command may end: all goes well, or something goes wrong in saving a rule to a
    directory. -/
inductive Ends (e : Engine) (event : Event) : Except EngineError (Option StoredRule) → Engine → Prop
  | done : Ends e event (e.reply event) (e.step event)
  | faulty {d : Directory} {rule : StoredRule} (faults : Directory.Faults)
      (hd : e.store = .directory d) (hs : e.Saves event rule) :
      Ends e event (savedReply rule (d.saveUnder faults rule).1)
        { e with store := .directory (d.saveUnder faults rule).2 }

/-- A command leaves an engine where it may. -/
theorem Ends.yields (h : e.Ends event reply e') : e.Yields event e' := by
  cases h with
  | done => exact .done
  | faulty faults hd hs => exact .faulty faults hd hs

/-- What a command comes to for the rules that are stored. -/
inductive Effect (e : Engine) (event : Event) :
    Except EngineError (Option StoredRule) → Store → Prop
  /-- It fails, and nothing is stored otherwise. -/
  | none {cause : EngineError} {store : Store} (h : e.store.SameRules store) :
      Effect e event (.error cause) store
  /-- It edits a rule to an equal one, and nothing is stored. -/
  | keep {edit : Edit} {id : String} {rule : StoredRule} (hc : event.command = edit.command id) :
      Effect e event (.ok (some rule)) e.store
  /-- It saves a rule, which is stored as the store restores it. -/
  | save {rule : StoredRule} {store : Store} (hs : e.Saves event rule)
      (hload : rule.tree.height < Json.nestingLimit - 1 → ∀ id,
        store.load id = if id = rule.id then .ok (e.store.restored rule) else e.store.load id) :
      Effect e event (.ok (some rule)) store
  /-- It removes a rule. -/
  | delete {id : String} {store : Store} (hc : event.command = .delete id)
      (hload : ∀ other, store.load other =
        if other = id then .error (.notFound id) else e.store.load other) :
      Effect e event (.ok none) store

theorem effect_of_saves (hs : e.Saves event rule) :
    e.Effect event (savedReply rule (e.store.save rule).1) (e.store.save rule).2 := by
  cases h : (e.store.save rule).1 with
  | ok => exact .save hs fun hd => Store.load_of_save hd h
  | error cause => exact .none (Store.sameRules_of_save h)

theorem effect_of_saveUnder {d : Directory} {faults : Directory.Faults}
    (hd : e.store = .directory d) (hs : e.Saves event rule) :
    e.Effect event (savedReply rule (d.saveUnder faults rule).1)
      (.directory (d.saveUnder faults rule).2) := by
  cases h : (d.saveUnder faults rule).1 with
  | ok => exact .save hs fun hheight id => hd ▸ Directory.load_of_saveUnder hheight h id
  | error cause => exact .none (hd ▸ Store.sameRules_of_saveUnder h)

theorem effect_of_delete {id : String} (hc : event.command = .delete id) :
    e.Effect event (deletedReply (e.store.delete id).1) (e.store.delete id).2 := by
  cases h : (e.store.delete id).1 with
  | ok => exact .delete hc (Store.load_of_delete h)
  | error cause => exact .none (Store.sameRules_of_delete h)

theorem Ends.effect (h : e.Ends event reply e') : e.Effect event reply e'.store := by
  cases h with
  | done =>
    cases does e event with
    | refuse hreply hstep =>
      rw [hreply, hstep]
      exact .none (.refl _)
    | keep hc _ _ hreply hstep =>
      rw [hreply, hstep]
      exact .keep hc
    | save hs hreply hstep =>
      rw [hreply, hstep, map_save_fst, save_snd]
      exact effect_of_saves hs
    | delete hc hreply hstep =>
      rw [hreply, hstep, map_delete_fst, delete_snd]
      exact effect_of_delete hc
  | faulty faults hd hs => exact effect_of_saveUnder hd hs

/-! ## Calls that fail -/

/-- What an engine can be called for: a command, or a question about a rule. -/
inductive Call
  | tell (event : Event)
  | get (id : String)
  | evaluate (id : String) (record : Record)

/-- A call that fails, for a cause, and the engine after it. -/
inductive Fails (e : Engine) : Call → EngineError → Engine → Prop
  | tell {event : Event} {cause : EngineError} {e' : Engine}
      (h : e.Ends event (.error cause) e') : Fails e (.tell event) cause e'
  | get {id : String} {cause : EngineError} (h : e.get id = .error cause) :
      Fails e (.get id) cause e
  | evaluate {id : String} {record : Record} {cause : EngineError}
      (h : e.evaluateRule id record = .error cause) : Fails e (.evaluate id record) cause e

theorem get_of_sameRules (h : e.store.SameRules e'.store) (id : String) : e'.get id = e.get id := by
  rw [get, get, h.load]

theorem list_of_sameRules (h : e.store.SameRules e'.store) : e'.list = e.list := by
  rw [list, list, h.list]

/-- A call that fails leaves all stored rules as they were, whatever it is and for whatever
    cause it fails. -/
theorem rules_of_fails {call : Call} {cause : EngineError} (h : e.Fails call cause e') :
    e'.settings = e.settings ∧ (∀ id, e'.get id = e.get id) ∧ e'.list = e.list := by
  cases h with
  | tell h =>
    have hsettings := settings_of_yields h.yields
    cases h.effect with
    | none hsame => exact ⟨hsettings, get_of_sameRules hsame, list_of_sameRules hsame⟩
  | get | evaluate => exact ⟨rfl, fun _ => rfl, rfl⟩

/-- The draft of a second rule is cut short and cannot be removed either. -/
theorem rules_of_fails_cut :
    let morning : Timestamp := ⟨2026, 1, 1, 8, 30, 0, 0, by decide⟩
    let old : StoredRule := ⟨"a", "age > 30", none, morning, morning,
      .leaf ⟨"age", .greater, .number (.ofInt 30)⟩⟩
    let new : StoredRule := ⟨"b", "dept = 'HR'", none, morning, morning,
      .leaf ⟨"dept", .equal, .text "HR"⟩⟩
    let d := (Directory.empty.save old).2
    let faults : Directory.Faults := { write := some (.cut "\x7b".toUTF8), remove := true }
    let e : Engine := ⟨{ storage := .directory "rules" }, .directory d⟩
    let e' : Engine := { e with store := .directory (d.saveUnder faults new).2 }
    (e.Fails (.tell ⟨.create "dept = 'HR'" none, "b", morning⟩) (.store .inaccessible) e' ∧
        e.get "a" = .ok old ∧ (d.saveUnder faults new).2.entries.names = ["b.json.tmp", "a.json"]) ∧
      e'.settings = e.settings ∧ (∀ id, e'.get id = e.get id) ∧ e'.list = e.list := by
  intro morning old new d faults e e'
  have hsaves : e.Saves ⟨.create "dept = 'HR'" none, "b", morning⟩ new :=
    .create (by decide +kernel)
  have hfault : (d.saveUnder faults new).1 = .error .inaccessible := by decide +kernel
  have hends : e.Ends ⟨.create "dept = 'HR'" none, "b", morning⟩
      (.error (.store .inaccessible)) e' := by
    have h := Ends.faulty faults rfl hsaves
    rwa [hfault] at h
  -- What was stored before is read back by the laws of saving, not by reading the file.
  have hold : e.get "a" = .ok old := by
    have hsaved : (Directory.empty.save old).1 = .ok () := by decide +kernel
    have hrestored : old.restored = old := by decide +kernel
    have hload := Directory.load_of_saveUnder (by decide) hsaved "a"
    rw [hrestored] at hload
    exact get_eq_ok_iff.2 hload
  exact ⟨⟨.tell hends, hold, by decide +kernel⟩, rules_of_fails (.tell hends)⟩

end Criteria.Engine
