import Criteria.Proofs.Engine.Answers
import Criteria.Proofs.Engine.Healthy

/-!
# What an engine lists

An engine that is given commands by a clock that advances lists its rules in the order in
which they were made, whatever was edited in between. A log of the commands and their
answers tells which rules those are: the rules that were made and have not been removed.

* `Engine.Entry`, `Engine.Records`: a log of commands, of which any may go wrong;
* `Engine.alive`: the rules that are there after a log, by times and ids;
* `Engine.Healthy.exists_lists_of_effect`: one command;
* `Engine.list_of_records`: commands in a row.
-/

namespace Criteria

/-- Whether a command makes a rule with a new id. -/
def Command.makes : Command → Bool
  | create _ _ | combine _ _ => true
  | modifyRoot _ _ | modifyField _ _ _ | delete _ => false

namespace Engine

open StoredRule (place)

/-- A command with the answer to it. -/
structure Entry where
  event : Event
  reply : Except EngineError (Option StoredRule)

/-- The rules that are there after a command, each by the time when it was made and its id:
    one that was made comes last, and one that was removed is gone. -/
def Entry.track (places : List (Timestamp × String)) : Entry → List (Timestamp × String)
  | ⟨_, .error _⟩ => places
  | ⟨⟨.create _ _, id, now⟩, .ok _⟩ | ⟨⟨.combine _ _, id, now⟩, .ok _⟩ => places ++ [(now, id)]
  | ⟨⟨.modifyRoot _ _, _, _⟩, .ok _⟩ | ⟨⟨.modifyField _ _ _, _, _⟩, .ok _⟩ => places
  | ⟨⟨.delete id, _, _⟩, .ok _⟩ => places.filter (·.2 ≠ id)

/-- The rules that are there after a log that begins with nothing. -/
def alive (log : List Entry) : List (Timestamp × String) := log.foldl Entry.track []

/-- A log of commands, of which the first comes first, and where they may leave an engine. -/
inductive Records : Engine → List Entry → Engine → Prop
  | nil {e : Engine} : Records e [] e
  | cons {e next e' : Engine} {entry : Entry} {log : List Entry}
      (h : e.Ends entry.event entry.reply next) (hs : Records next log e') :
      Records e (entry :: log) e'

/-- The log of commands of which none goes wrong. -/
def log (e : Engine) : List Event → List Entry
  | [] => []
  | event :: events => ⟨event, e.reply event⟩ :: (e.step event).log events

theorem records_log (e : Engine) (events : List Event) :
    e.Records (e.log events) (e.run events) := by
  induction events generalizing e with
  | nil => exact .nil
  | cons event events ih => exact .cons .done (ih (e.step event))

variable {e e' : Engine} {entry : Entry} {rules : List StoredRule}
  {places : List (Timestamp × String)}

/-! ## One command -/

theorem Entry.track_edit {edit : Edit} {id : String} (hc : entry.event.command = edit.command id) :
    entry.track places = places := by
  obtain ⟨⟨command, fresh, now⟩, reply⟩ := entry
  obtain rfl : command = edit.command id := hc
  cases reply <;> cases edit <;> rfl

/-- What is there after a command was there before or was made by it. -/
theorem Entry.mem_track {p : Timestamp × String} (hp : p ∈ entry.track places) :
    p ∈ places ∨ entry.event.command.makes ∧ p = (entry.event.now, entry.event.id) := by
  obtain ⟨⟨command, id, now⟩, reply⟩ := entry
  cases reply with
  | error cause => exact .inl hp
  | ok answer =>
    cases command with
    | create | combine =>
      rcases List.mem_append.1 hp with hp | hp
      · exact .inl hp
      · exact .inr ⟨rfl, List.mem_singleton.1 hp⟩
    | modifyRoot | modifyField => exact .inl hp
    | delete => exact .inl (List.mem_filter.1 hp).1

/-- A command that is given after a rule was made, and makes none with the same id. -/
structure Follows (event : Event) (rule : StoredRule) : Prop where
  later : rule.created.position < event.now.position
  fresh : event.command.makes → rule.id ≠ event.id

/-- What an engine lists after a command that follows all rules that it lists. -/
theorem Healthy.exists_lists_of_effect (h : e.Healthy) {store : Store}
    (hlists : e.store.Lists rules) (hf : ∀ rule ∈ rules, Follows entry.event rule)
    (heffect : e.Effect entry.event entry.reply store) :
    ∃ rules', store.Lists rules' ∧ rules'.map place = entry.track (rules.map place) := by
  obtain ⟨event, reply⟩ := entry
  cases heffect with
  | none hsame => exact ⟨rules, hlists.congr hsame.load, rfl⟩
  | keep hc => exact ⟨rules, hlists, (Entry.track_edit hc).symm⟩
  | @save rule _ hs hload =>
    have hload := hload (h.height_lt_of_saves hs)
    rw [← e.store.id_restored rule] at hload
    cases hs with
    | create | combine =>
      exact ⟨_, hlists.append hload (fun rule hrule => (hf rule hrule).later)
        fun rule hrule => (hf rule hrule).fresh rfl, List.map_append⟩
    | modifyRoot hold | modifyField _ hold =>
      obtain ⟨rfl, -⟩ := h.restored.load hold
      refine ⟨_, hlists.replace hload hold rfl, ?_⟩
      rw [List.map_map]
      exact List.map_congr_left (hlists.place_replace hold rfl)
  | delete hc hload =>
    obtain ⟨command, fresh, now⟩ := event
    obtain rfl := hc
    refine ⟨_, hlists.remove hload, ?_⟩
    rw [Entry.track, List.filter_map]
    rfl

/-! ## Commands in a row -/

/-- What an engine lists after commands that follow all rules that it lists, and of which
    each is given after those before it. -/
theorem exists_lists_of_records {log : List Entry} (h : e.Healthy) (hlists : e.store.Lists rules)
    (hf : ∀ rule ∈ rules, ∀ entry ∈ log, Follows entry.event rule)
    (hclock : log.Pairwise fun p q => p.event.now.position < q.event.now.position)
    (hids : log.Pairwise fun p q =>
      p.event.command.makes → q.event.command.makes → p.event.id ≠ q.event.id)
    (hr : e.Records log e') :
    e'.Healthy ∧ ∃ rules', e'.store.Lists rules' ∧
      rules'.map place = log.foldl Entry.track (rules.map place) := by
  induction hr generalizing rules with
  | nil => exact ⟨h, rules, hlists, rfl⟩
  | @cons e next e' entry log hends _ ih =>
    rw [List.pairwise_cons] at hclock hids
    obtain ⟨rules', hlists', hplaces⟩ := h.exists_lists_of_effect hlists
      (fun rule hrule => hf rule hrule entry List.mem_cons_self) hends.effect
    rw [List.foldl_cons, ← hplaces]
    refine ih (h.yields hends.yields) hlists' (fun rule hrule later hlater => ?_) hclock.2 hids.2
    -- What is listed now was listed before, or was made by the first command.
    have hmem : rule.place ∈ entry.track (rules.map place) := hplaces ▸ List.mem_map_of_mem hrule
    rcases Entry.mem_track hmem with hold | ⟨hmakes, hplace⟩
    · obtain ⟨old, hold, hplace⟩ := List.mem_map.1 hold
      obtain ⟨hcreated, hid⟩ := Prod.mk.inj hplace
      have hfollows := hf old hold later (List.mem_cons_of_mem _ hlater)
      exact ⟨hcreated ▸ hfollows.later, hid ▸ hfollows.fresh⟩
    · obtain ⟨hcreated, hid⟩ := Prod.mk.inj hplace
      exact ⟨hcreated ▸ hclock.1 later hlater, hid ▸ hids.1 later hlater hmakes⟩

/-- Whatever an engine over an empty store is told by a clock that advances, and whatever
    goes wrong: if all rules are made with different ids, the engine lists those that were
    made and have not been removed, each once, in the order in which they were made, also
    where they were edited since. What it lists is what it finds. -/
theorem list_of_records (hb : e.Built) (he : e.store.IsEmpty) {log : List Entry}
    (hclock : log.Pairwise fun p q => p.event.now.position < q.event.now.position)
    (hids : ((log.filter (·.event.command.makes)).map (·.event.id)).Nodup)
    (hr : e.Records log e') :
    ∃ rules, e'.list = .ok rules ∧ rules.map place = alive log ∧ (rules.map (·.id)).Nodup ∧
      ∀ rule, rule ∈ rules ↔ e'.get rule.id = .ok rule := by
  rw [List.Nodup, List.pairwise_map, List.pairwise_filter] at hids
  obtain ⟨h, rules, hlists, hplaces⟩ := exists_lists_of_records (healthy_of_isEmpty hb he)
    (Store.lists_nil_of_isEmpty he) (fun _ => nofun) hclock hids hr
  refine ⟨rules, h.list_eq_ok_iff.2 hlists, hplaces, hlists.nodup_ids, fun rule => ?_⟩
  rw [hlists.mem, get_eq_ok_iff]

/-- Three rules, of which the first is edited and the second removed. -/
theorem list_of_records_three :
    let events : List Event := [
      ⟨.create "age > 30" none, "c", day 0⟩,
      ⟨.create "dept = 'HR'" none, "b", day 1⟩,
      ⟨.combine ["age > 30", "dept = 'HR'"] [.or], "a", day 2⟩,
      ⟨.modifyField "c" "age" (.text "30"), "d", day 3⟩,
      ⟨.delete "b", "d", day 4⟩]
    let log := standard.log events
    (standard.Built ∧ standard.store.IsEmpty ∧
      log.Pairwise (fun p q => p.event.now.position < q.event.now.position) ∧
      ((log.filter (·.event.command.makes)).map (·.event.id)).Nodup ∧
      standard.Records log (standard.run events)) ∧
    ∃ rules, (standard.run events).list = .ok rules ∧
      rules.map place = [(day 0, "c"), (day 2, "a")] ∧ (rules.map (·.id)).Nodup ∧
      ∀ rule, rule ∈ rules ↔ (standard.run events).get rule.id = .ok rule := by
  intro events log
  have hclock : log.Pairwise fun p q => p.event.now.position < q.event.now.position := by
    decide +kernel
  have hids : ((log.filter (·.event.command.makes)).map (·.event.id)).Nodup := by
    decide +kernel
  have halive : alive log = [(day 0, "c"), (day 2, "a")] := by decide +kernel
  have hrecords := records_log standard events
  refine ⟨⟨built_standard, rfl, hclock, hids, hrecords⟩, ?_⟩
  rw [← halive]
  exact list_of_records built_standard rfl hclock hids hrecords

end Engine

end Criteria
