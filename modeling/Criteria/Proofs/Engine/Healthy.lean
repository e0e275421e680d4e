import Criteria.Proofs.Engine.Rules
import Criteria.Proofs.Store.Listing

/-!
# Engines over a store that was empty

Whatever an engine over an empty store is told, and whatever goes wrong, its store stays
orderly, and its rules stay what the store gives back of sound ones. Then the engine lists just
the rules that it finds.

* `Engine.Healthy`: the invariant, and `Engine.Healthy.list_eq_ok_iff`: what is listed;
* `Engine.healthy_of_isEmpty`, `Engine.Healthy.yields`: it holds at first, and a command
  keeps it;
* `Engine.healthy_of_reaches`: it holds after any commands.
-/

namespace Criteria.Engine

variable {e e' : Engine} {event : Event} {rule : StoredRule} {rules : List StoredRule}

/-- An engine that can work with its settings, over an orderly store that gives back sound
    rules. -/
structure Healthy (e : Engine) : Prop where
  check : e.settings.check = .ok ()
  restored : e.store.All (·.IsRestored e)
  orderly : e.store.Orderly

theorem healthy_of_isEmpty (hb : e.Built) (he : e.store.IsEmpty) : e.Healthy where
  check := hb.check
  restored := Store.all_of_list
    ((Store.orderly_of_isEmpty he).list_eq_ok_iff.2 (Store.lists_nil_of_isEmpty he)) _
  orderly := Store.orderly_of_isEmpty he

/-- An engine over an orderly store lists the rules that it loads. -/
theorem Healthy.list_eq_ok_iff (h : e.Healthy) : e.list = .ok rules ↔ e.store.Lists rules :=
  Engine.list_eq_ok_iff.trans h.orderly.list_eq_ok_iff

/-! ## One command -/

theorem Healthy.sound_of_saves (h : e.Healthy) (hs : e.Saves event rule) : rule.Sound e :=
  hs.sound (Settings.check_eq_ok_iff.1 h.check).1 h.restored

/-- What a command may save can be stored in a document. -/
theorem Healthy.height_lt_of_saves (h : e.Healthy) (hs : e.Saves event rule) :
    rule.tree.height < Json.nestingLimit - 1 :=
  height_lt_of_sound h.check (h.sound_of_saves hs)

theorem Healthy.depth_le_of_saves (h : e.Healthy) (hs : e.Saves event rule) :
    rule.tree.depth ≤ 125 :=
  Directory.depth_le_of_height_lt (h.height_lt_of_saves hs)

theorem Healthy.orderly_step (h : e.Healthy) (event : Event) : (e.step event).store.Orderly := by
  rcases step_cases e event with hstep | ⟨rule, hs, hstep⟩ | ⟨id, -, hstep⟩
  · rw [hstep]
    exact h.orderly
  · rw [hstep, save_snd]
    exact h.orderly.save (h.depth_le_of_saves hs)
  · rw [hstep, delete_snd]
    exact h.orderly.delete id

theorem Healthy.yields (h : e.Healthy) (hy : e.Yields event e') : e'.Healthy where
  check := settings_of_yields hy ▸ h.check
  restored := isRestored_of_yields h.check h.restored hy
  orderly := by
    cases hy with
    | done => exact h.orderly_step event
    | refused => exact h.orderly
    | faulty faults hd hs =>
      have horderly := h.orderly
      rw [hd] at horderly
      exact Directory.Orderly.saveUnder horderly (h.depth_le_of_saves hs) faults

theorem Healthy.step (h : e.Healthy) (event : Event) : (e.step event).Healthy := h.yields .done

/-! ## Commands in a row -/

theorem healthy_of_reaches {events : List Event} (h : e.Healthy) (hr : e.Reaches events e') :
    e'.Healthy := by
  induction hr with
  | nil => exact h
  | cons hy _ ih => exact ih (h.yields hy)

end Criteria.Engine
