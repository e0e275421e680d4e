import Criteria.Engine.Basic
import Criteria.Proofs.Store.Effect

/-!
# Runs of an engine

An engine is built over a store, and is then given one command after another. What a
command does to the store is one of three things: nothing, a save or a removal. Files
may fail to be read, written, renamed or removed meanwhile.

* `Engine.Built`: the engines that can be built;
* `Engine.reply`, `Engine.step`, `Engine.run`: the answer to a command, and an engine after
  one and after a list of them;
* `Edit`: the commands that edit a rule;
* `Engine.Saves`, `Engine.get_of_save`: the rules that a command may save, and what is then
  found;
* `Engine.does`, `Engine.step_cases`: what a command does;
* `Engine.restored_of_yields`, `Engine.all_of_yields`: what a command keeps, of the store and
  of all stored rules;
* `Engine.Reaches`: an engine after a list of commands of which any may go wrong.
-/

namespace Criteria

/-- An engine can work with settings that allow for some depth, but not for more than a
    document can hold. -/
theorem Settings.check_eq_ok_iff {settings : Settings} :
    settings.check = .ok () ↔
      0 < settings.limits.depth ∧ settings.limits.depth ≤ maxDocumentDepth := by
  rw [check]
  split
  · rename_i h
    exact iff_of_false (by simp) fun hlimit => Nat.not_lt.2 hlimit.2 h
  · rename_i hle
    split
    · rename_i h
      exact iff_of_false (by simp) fun hlimit => hlimit.1.ne' h
    · rename_i hne
      exact iff_of_true rfl ⟨Nat.pos_of_ne_zero hne, Nat.le_of_not_lt hle⟩

/-- What an engine can be told that may change its store. -/
inductive Command
  | create (text : String) (description : Option String)
  | combine (texts : List String) (ops : List Connective)
  | modifyRoot (id : String) (op : Connective)
  | modifyField (id field : String) (value : Value)
  | delete (id : String)

/-- An edit of a rule: another connective at the root, or another value for a field. -/
inductive Edit
  | root (op : Connective)
  | field (name : String) (value : Value)

namespace Edit

/-- The tree after an edit. -/
def change : Edit → Tree → Tree
  | root op => Tree.setRoot op
  | field name value => Tree.assign name value

/-- Whether an edit puts no number into a tree that is not finite. -/
def IsFinite : Edit → Prop
  | root _ => True
  | field _ value => value.isFinite

/-- The command to edit the rule with an id. -/
def command (id : String) : Edit → Command
  | root op => .modifyRoot id op
  | field name value => .modifyField id name value

end Edit

/-- A command, with the id of the rule that it may make and the time at which it is
    given. -/
structure Event where
  command : Command
  id : String
  now : Timestamp

namespace Engine

/-- The engines that can be built, over a store that is given or over the one that the
    settings ask for. -/
inductive Built : Engine → Prop
  | overStore {settings : Settings} {store : Store} {e : Engine}
      (h : buildOver settings store = .ok e) : Built e
  | overSite {settings : Settings} {site : Site} {e : Engine}
      (h : build settings site = .ok e) : Built e

/-- The engine after a command, whether it succeeds or fails. -/
def step (e : Engine) : Event → Engine
  | ⟨.create text description, id, now⟩ => (e.create text description id now).2
  | ⟨.combine texts ops, id, now⟩ => (e.combine texts ops id now).2
  | ⟨.modifyRoot id op, _, now⟩ => (e.modifyRoot id op now).2
  | ⟨.modifyField id field value, _, now⟩ => (e.modifyField id field value now).2
  | ⟨.delete id, _, _⟩ => (e.delete id).2

/-- What an engine answers to a command: the rule that was made or edited, and none where
    one was removed. -/
def reply (e : Engine) : Event → Except EngineError (Option StoredRule)
  | ⟨.create text description, id, now⟩ => (e.create text description id now).1.map some
  | ⟨.combine texts ops, id, now⟩ => (e.combine texts ops id now).1.map some
  | ⟨.modifyRoot id op, _, now⟩ => (e.modifyRoot id op now).1.map some
  | ⟨.modifyField id field value, _, now⟩ => (e.modifyField id field value now).1.map some
  | ⟨.delete id, _, _⟩ => (e.delete id).1.map fun _ => none

/-- The engine after commands, of which the first comes first. -/
def run (e : Engine) (events : List Event) : Engine := events.foldl step e

/-- A rule that an engine stores: one that it finds under some id, or that it lists. -/
def Stores (e : Engine) (rule : StoredRule) : Prop :=
  (∃ id, e.get id = .ok rule) ∨ ∃ rules, e.list = .ok rules ∧ rule ∈ rules

variable {e e' : Engine} {event : Event} {rule : StoredRule}

/-! ## Asking -/

theorem get_eq_ok_iff {id : String} : e.get id = .ok rule ↔ e.store.load id = .ok rule := by
  rw [get]
  cases e.store.load id <;> simp

theorem list_eq_ok_iff {rules : List StoredRule} :
    e.list = .ok rules ↔ e.store.list = .ok rules := by
  rw [list]
  cases e.store.list <;> simp

/-- A rule that is stored is found under its own id and no other, and has what property
    all rules of the store have. -/
theorem Stores.get {P : StoredRule → Prop} (h : e.store.All P) (hr : e.Stores rule) :
    (∀ id, e.get id = .ok rule ↔ id = rule.id) ∧ P rule := by
  have hload : e.store.load rule.id = .ok rule := by
    rcases hr with ⟨id, hget⟩ | ⟨rules, hlist, hmem⟩
    · have hload := get_eq_ok_iff.1 hget
      rwa [(h.load hload).1]
    · exact h.load_of_mem_list (list_eq_ok_iff.1 hlist) hmem
  refine ⟨fun id => ⟨fun hget => ?_, fun hid => ?_⟩, (h.load hload).2⟩
  · exact (h.load (get_eq_ok_iff.1 hget)).1.symm
  · rw [hid]
    exact get_eq_ok_iff.2 hload

/-! ## Building -/

/-- An engine that is built can work with its settings. -/
theorem Built.check (h : e.Built) : e.settings.check = .ok () := by
  cases h with
  | overStore h =>
    rw [buildOver] at h
    split at h
    · simp at h
    · rename_i hcheck
      rwa [← Except.ok.inj h]
  | overSite h =>
    rw [build] at h
    split at h
    · simp at h
    · rename_i hcheck
      split at h
      · rwa [← Except.ok.inj h]
      · split at h
        · simp at h
        · rwa [← Except.ok.inj h]

/-! ## One command -/

/-- The rule that an edit of a rule saves. -/
def edited (rule : StoredRule) (now : Timestamp) (change : Tree → Tree) : StoredRule :=
  { rule with tree := change rule.tree, name := (change rule.tree).text, updated := now }

/-- The rules that a command may save. -/
inductive Saves (e : Engine) : Event → StoredRule → Prop
  | create {text : String} {description : Option String} {id : String} {now : Timestamp}
      {tree : Tree} (h : e.parse text = .ok tree) :
      Saves e ⟨.create text description, id, now⟩ ⟨id, text, description, now, now, tree⟩
  | combine {texts : List String} {ops : List Connective} {id : String} {now : Timestamp}
      {trees : List Tree} {tree : Tree} (hp : e.parseAll texts = .ok trees)
      (hj : Tree.joinAll e.settings.limits.depth trees ops = .ok tree) :
      Saves e ⟨.combine texts ops, id, now⟩ ⟨id, tree.text, none, now, now, tree⟩
  | modifyRoot {id new : String} {op : Connective} {now : Timestamp} {rule : StoredRule}
      (h : e.store.load id = .ok rule) (hne : (rule.tree.setRoot op == rule.tree) = false) :
      Saves e ⟨.modifyRoot id op, new, now⟩ (edited rule now (Tree.setRoot op))
  | modifyField {id new field : String} {value : Value} {now : Timestamp} {rule : StoredRule}
      (hv : value.isFinite) (h : e.store.load id = .ok rule)
      (hne : (rule.tree.assign field value == rule.tree) = false) :
      Saves e ⟨.modifyField id field value, new, now⟩ (edited rule now (Tree.assign field value))

theorem save_snd (e : Engine) (rule : StoredRule) :
    (e.save rule).2 = { e with store := (e.store.save rule).2 } := by
  rw [save]
  split
  · rename_i h
    rw [h]
  · rename_i h
    rw [h]

theorem delete_snd (e : Engine) (id : String) :
    (e.delete id).2 = { e with store := (e.store.delete id).2 } := by
  rw [delete]
  split
  · rename_i h
    rw [h]
  · rename_i h
    rw [h]

/-- An engine answers with a rule that is saved just if its store saves it. -/
theorem save_fst_eq_ok_iff : (e.save rule).1 = .ok rule ↔ (e.store.save rule).1 = .ok () := by
  rw [save]
  split
  · rename_i h
    simp [h]
  · rename_i h
    simp [h]

/-- A rule that has been saved is found under its id as the store restores it: in a directory
    if its tree is not too deep for a document, and in memory at any depth. -/
theorem get_of_save (h : (e.store.save rule).1 = .ok ())
    (hd : rule.tree.depth < Json.nestingLimit - 1 ∨ ∃ m, e.store = .memory m) :
    (e.save rule).2.get rule.id = .ok (e.store.restored rule) := by
  rw [get_eq_ok_iff, save_snd]
  change (e.store.save rule).2.load rule.id = _
  rcases hd with hd | ⟨m, hm⟩
  · rw [Tree.depth_eq_height] at hd
    rw [Store.load_of_save hd h, if_pos rfl]
  · rw [hm, Store.restored_memory]
    exact (m.load_of_save rule rule.id).trans (if_pos rfl)

/-- A rule that has been created is found as the store restores it. -/
theorem get_of_create {text id : String} {description : Option String} {now : Timestamp}
    {tree : Tree} (hp : e.parse text = .ok tree)
    (h : (e.store.save ⟨id, text, description, now, now, tree⟩).1 = .ok ())
    (hd : tree.depth < Json.nestingLimit - 1) :
    (e.step ⟨.create text description, id, now⟩).get id =
      .ok (e.store.restored ⟨id, text, description, now, now, tree⟩) := by
  have hstep : e.step ⟨.create text description, id, now⟩ =
      (e.save ⟨id, text, description, now, now, tree⟩).2 := by
    simp only [step, create, hp]
  rw [hstep]
  exact get_of_save h (.inl hd)

section

variable {id : String} {now : Timestamp} {change : Tree → Tree}

theorem edit_of_error {cause : StoreError} (h : e.store.load id = .error cause) :
    e.edit id now change = (.error (.store cause), e) := by
  rw [edit, h]

/-- An edit to an equal tree leaves the engine as it is. -/
theorem edit_of_beq (h : e.store.load id = .ok rule)
    (heq : (change rule.tree == rule.tree) = true) :
    e.edit id now change = (.ok { rule with tree := change rule.tree }, e) := by
  simp only [edit, h, heq, if_true]

/-- An edit to another tree saves the edited rule. -/
theorem edit_of_ne (h : e.store.load id = .ok rule)
    (hne : (change rule.tree == rule.tree) = false) :
    e.edit id now change = e.save (edited rule now change) := by
  simp only [edit, h, hne, Bool.false_eq_true, if_false]
  rfl

end

/-- What a command may do: fail before it changes anything, edit a rule to an equal one,
    save a rule, or remove one. -/
inductive Does (e : Engine) (event : Event) : Prop
  | refuse {cause : EngineError} (hreply : e.reply event = .error cause)
      (hstep : e.step event = e)
  | keep {edit : Edit} {id : String} {rule : StoredRule} (hc : event.command = edit.command id)
      (hload : e.store.load id = .ok rule)
      (heq : (edit.change rule.tree == rule.tree) = true)
      (hreply : e.reply event = .ok (some { rule with tree := edit.change rule.tree }))
      (hstep : e.step event = e)
  | save {rule : StoredRule} (hs : e.Saves event rule)
      (hreply : e.reply event = (e.save rule).1.map some) (hstep : e.step event = (e.save rule).2)
  | delete {id : String} (hc : event.command = .delete id)
      (hreply : e.reply event = (e.delete id).1.map fun _ => none)
      (hstep : e.step event = (e.delete id).2)

/-- A command that fails at once, or saves a rule. -/
theorem does_of_eq {answer : Except EngineError StoredRule × Engine}
    (hreply : e.reply event = answer.1.map some) (hstep : e.step event = answer.2)
    (h : (∃ cause, answer = (.error cause, e)) ∨
      ∃ rule, e.Saves event rule ∧ answer = e.save rule) : e.Does event := by
  rcases h with ⟨cause, rfl⟩ | ⟨rule, hs, rfl⟩
  · exact .refuse hreply hstep
  · exact .save hs hreply hstep

theorem does_create (e : Engine) (text : String) (description : Option String) (id : String)
    (now : Timestamp) : e.Does ⟨.create text description, id, now⟩ := by
  refine does_of_eq rfl rfl ?_
  rw [create]
  split
  · exact .inl ⟨_, rfl⟩
  · rename_i tree hparse
    exact .inr ⟨_, .create hparse, rfl⟩

theorem does_combine (e : Engine) (texts : List String) (ops : List Connective) (id : String)
    (now : Timestamp) : e.Does ⟨.combine texts ops, id, now⟩ := by
  refine does_of_eq rfl rfl ?_
  rw [combine]
  split
  · exact .inl ⟨_, rfl⟩
  · split
    · exact .inl ⟨_, rfl⟩
    · split
      · exact .inl ⟨_, rfl⟩
      · rename_i trees hparse
        split
        · exact .inl ⟨_, rfl⟩
        · rename_i tree hjoin
          exact .inr ⟨_, .combine hparse hjoin, rfl⟩

/-! ### Edits -/

section

variable {edit : Edit} {id new : String} {now : Timestamp}

theorem modifyField_of_isFinite {field : String} {value : Value} (hv : value.isFinite) :
    e.modifyField id field value now = e.edit id now (Tree.assign field value) := by
  cases value with
  | number x => exact if_pos hv
  | text s => rfl

/-- An edit with a finite value is not refused before the rule is looked up. -/
theorem reply_edit (hv : edit.IsFinite) :
    e.reply ⟨edit.command id, new, now⟩ = (e.edit id now edit.change).1.map some := by
  cases edit with
  | root op => rfl
  | field name value =>
    exact congrArg (fun answer => answer.1.map some) (modifyField_of_isFinite hv)

theorem step_edit (hv : edit.IsFinite) :
    e.step ⟨edit.command id, new, now⟩ = (e.edit id now edit.change).2 := by
  cases edit with
  | root op => rfl
  | field name value => exact congrArg Prod.snd (modifyField_of_isFinite hv)

theorem saves_edited (hv : edit.IsFinite) (hload : e.store.load id = .ok rule)
    (hne : (edit.change rule.tree == rule.tree) = false) :
    e.Saves ⟨edit.command id, new, now⟩ (edited rule now edit.change) := by
  cases edit with
  | root op => exact .modifyRoot hload hne
  | field name value => exact .modifyField hv hload hne

theorem does_edit (edit : Edit) (hv : edit.IsFinite) (e : Engine) (id new : String)
    (now : Timestamp) : e.Does ⟨edit.command id, new, now⟩ := by
  cases hload : e.store.load id with
  | error cause => exact does_of_eq (reply_edit hv) (step_edit hv) (.inl ⟨_, edit_of_error hload⟩)
  | ok rule =>
    cases heq : edit.change rule.tree == rule.tree with
    | true =>
      refine .keep rfl hload heq ?_ ?_
      · rw [reply_edit hv, edit_of_beq hload heq]
        rfl
      · rw [step_edit hv, edit_of_beq hload heq]
    | false =>
      exact does_of_eq (reply_edit hv) (step_edit hv)
        (.inr ⟨_, saves_edited hv hload heq, edit_of_ne hload heq⟩)

end

theorem does (e : Engine) (event : Event) : e.Does event := by
  obtain ⟨command, new, now⟩ := event
  cases command with
  | create text description => exact does_create e text description new now
  | combine texts ops => exact does_combine e texts ops new now
  | modifyRoot id op => exact does_edit (.root op) trivial e id new now
  | modifyField id field value =>
    by_cases hv : value.isFinite
    · exact does_edit (.field field value) hv e id new now
    · cases value with
      | number x => exact does_of_eq rfl rfl (.inl ⟨.tree (.nonFinite x), if_neg hv⟩)
      | text s => exact absurd rfl hv
  | delete id => exact .delete rfl rfl rfl

/-- A command leaves the engine as it is, saves a rule or removes one. -/
theorem step_cases (e : Engine) (event : Event) :
    e.step event = e ∨ (∃ rule, e.Saves event rule ∧ e.step event = (e.save rule).2) ∨
      ∃ id, event.command = .delete id ∧ e.step event = (e.delete id).2 := by
  cases does e event with
  | refuse _ hstep => exact .inl hstep
  | keep _ _ _ _ hstep => exact .inl hstep
  | save hs _ hstep => exact .inr (.inl ⟨_, hs, hstep⟩)
  | delete hc _ hstep => exact .inr (.inr ⟨_, hc, hstep⟩)

theorem settings_step (e : Engine) (event : Event) : (e.step event).settings = e.settings := by
  rcases step_cases e event with h | ⟨rule, -, h⟩ | ⟨id, -, h⟩
  · rw [h]
  · rw [h, save_snd]
  · rw [h, delete_snd]

/-- Where a command may leave an engine: all goes well, or the command fails before it
    changes anything, or something goes wrong in saving a rule to a directory. -/
inductive Yields (e : Engine) (event : Event) : Engine → Prop
  | done : Yields e event (e.step event)
  | refused : Yields e event e
  | faulty {d : Directory} {rule : StoredRule} (faults : Directory.Faults)
      (hd : e.store = .directory d) (hs : e.Saves event rule) :
      Yields e event { e with store := .directory (d.saveUnder faults rule).2 }

theorem settings_of_yields (h : e.Yields event e') : e'.settings = e.settings := by
  cases h with
  | done => exact settings_step e event
  | refused | faulty => rfl

/-- A command makes no difference to what the store gives back of what is saved. -/
theorem restoredValue_of_yields (h : e.Yields event e') :
    e'.store.restoredValue = e.store.restoredValue := by
  cases h with
  | done =>
    rcases step_cases e event with hstep | ⟨rule, -, hstep⟩ | ⟨id, -, hstep⟩
    · rw [hstep]
    · rw [hstep, save_snd]
      exact e.store.restoredValue_save rule
    · rw [hstep, delete_snd]
      exact e.store.restoredValue_delete id
  | refused => rfl
  | faulty _ hd =>
    rw [hd]
    rfl

theorem restored_of_yields (h : e.Yields event e') : e'.store.restored = e.store.restored :=
  Store.restored_congr (restoredValue_of_yields h)

/-- After a command, all rules have a property if those before it have it, and what is restored
    of what the command may save has it, and is not too deep for a document. -/
theorem all_of_yields {P Q : StoredRule → Prop} (hy : e.Yields event e') (h : e.store.All P)
    (hPQ : ∀ rule, P rule → Q rule)
    (hs : ∀ rule, e.Saves event rule →
      Q (e.store.restored rule) ∧ rule.tree.height < Json.nestingLimit - 1) :
    e'.store.All Q := by
  have hQ := h.imp hPQ
  cases hy with
  | done =>
    rcases step_cases e event with hstep | ⟨rule, hsaves, hstep⟩ | ⟨id, -, hstep⟩
    · rwa [hstep]
    · rw [hstep, save_snd]
      exact hQ.save (hs rule hsaves).1 (hs rule hsaves).2
    · rw [hstep, delete_snd]
      exact hQ.delete id
  | refused => exact hQ
  | faulty faults hd hsaves =>
    obtain ⟨hrestored, hheight⟩ := hs _ hsaves
    rw [hd] at hQ hrestored
    exact Directory.All.saveUnder hQ hrestored hheight faults

/-! ## Commands in a row -/

/-- Where commands may leave an engine, of which the first comes first. -/
inductive Reaches : Engine → List Event → Engine → Prop
  | nil {e : Engine} : Reaches e [] e
  | cons {e next e' : Engine} {event : Event} {events : List Event} (h : e.Yields event next)
      (hs : Reaches next events e') : Reaches e (event :: events) e'

theorem restoredValue_of_reaches {events : List Event} (h : e.Reaches events e') :
    e'.store.restoredValue = e.store.restoredValue := by
  induction h with
  | nil => rfl
  | cons hy _ ih => rw [ih, restoredValue_of_yields hy]

/-- One place where commands may leave an engine is that where all goes well. -/
theorem reaches_run (e : Engine) (events : List Event) : e.Reaches events (e.run events) := by
  induction events generalizing e with
  | nil => exact .nil
  | cons event events ih => exact .cons .done (ih (e.step event))

end Engine

end Criteria
