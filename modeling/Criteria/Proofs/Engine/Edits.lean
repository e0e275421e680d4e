import Criteria.Proofs.Engine.Answers
import Criteria.Proofs.Engine.Healthy
import Criteria.Proofs.Tree.Equality

/-!
# Edits of stored rules

An edit of a stored rule puts the edited tree in the place of the old one, names the rule
by it and notes the time, and leaves all other rules as they are. Where the edited tree
equals the old one it stores nothing, so that an edit made again changes nothing. In a directory
the edited tree is stored as it is restored, and may not equal the edited one then.

* `Edit.IsKept`, `Edit.mapValues_change`: edits that make no difference between a tree and what
  is restored of it;
* `Edit.changeAll`: a tree after edits;
* `Engine.Replaces`: one rule in the place of another, and nothing else changed;
* `Engine.keeps_of_edit`, `Engine.Healthy.replaces_of_edit`: what an edit stores;
* `Engine.Healthy.exists_load_run`: the tree that is stored after edits in a row;
* `Engine.edits_of_reaches`: edits after any commands;
* `Engine.not_forall_replaces`: an edit whose value is not stored as it is given.
-/

namespace Criteria

/-! ## Edited trees -/

section

variable {edit : Edit} {t u : Tree} {limits : Limits}

theorem Tree.Admissible.change (h : t.Admissible limits) (hv : edit.IsFinite) :
    (edit.change t).Admissible limits := by
  cases edit with
  | root op => exact h.setRoot op
  | field name value => exact h.assign name hv

namespace Edit

/-- A tree that was edited is not changed by the same edit. -/
theorem change_change (edit : Edit) (t : Tree) : edit.change (edit.change t) = edit.change t := by
  cases edit with
  | root op => exact Tree.setRoot_setRoot t
  | field name value => exact Tree.assign_assign t

/-- Equal trees are equal after the same edit. -/
theorem change_beq_change (hv : edit.IsFinite) (h : (t == u) = true) :
    (edit.change t == edit.change u) = true := by
  cases edit with
  | root op => exact Tree.setRoot_beq_setRoot h
  | field name value => exact Tree.assign_beq_assign hv h

/-- Whether the value that an edit puts into a tree is kept, where values are changed. -/
def IsKept (f : Value → Value) : Edit → Prop
  | root _ => True
  | field _ value => f value = value

/-- It makes no difference whether values are changed before or after such an edit. -/
theorem mapValues_change {f : Value → Value} (hk : edit.IsKept f) (t : Tree) :
    (edit.change t).mapValues f = edit.change (t.mapValues f) := by
  cases edit with
  | root op => exact t.mapValues_setRoot f op
  | field name value =>
    refine (t.mapValues_assign f name value).trans ?_
    rw [show f value = value from hk]
    rfl

/-- The tree after edits, of which the first comes first. -/
def changeAll (edits : List Edit) (t : Tree) : Tree := edits.foldl (fun t edit => edit.change t) t

theorem changeAll_beq_changeAll {edits : List Edit} (hv : ∀ edit ∈ edits, edit.IsFinite)
    (h : (t == u) = true) : (changeAll edits t == changeAll edits u) = true := by
  induction edits generalizing t u with
  | nil => exact h
  | cons edit edits ih =>
    rw [List.forall_mem_cons] at hv
    exact ih hv.2 (change_beq_change hv.1 h)

end Edit

end

namespace Engine

variable {e e' : Engine} {event : Event} {edit : Edit} {id : String} {rule new : StoredRule}

/-! ## One edit -/

theorem step_reply_of_beq (hv : edit.IsFinite) (hc : event.command = edit.command id)
    (hload : e.store.load id = .ok rule) (heq : (edit.change rule.tree == rule.tree) = true) :
    e.step event = e ∧ e.reply event = .ok (some { rule with tree := edit.change rule.tree }) := by
  obtain ⟨command, fresh, now⟩ := event
  obtain rfl : command = edit.command id := hc
  rw [step_edit hv, reply_edit hv, edit_of_beq hload heq]
  exact ⟨rfl, rfl⟩

theorem step_reply_of_ne (hv : edit.IsFinite) (hc : event.command = edit.command id)
    (hload : e.store.load id = .ok rule) (hne : (edit.change rule.tree == rule.tree) = false) :
    e.Saves event (edited rule event.now edit.change) ∧
      e.step event = (e.save (edited rule event.now edit.change)).2 ∧
      e.reply event = (e.save (edited rule event.now edit.change)).1.map some := by
  obtain ⟨command, fresh, now⟩ := event
  obtain rfl : command = edit.command id := hc
  rw [step_edit hv, reply_edit hv, edit_of_ne hload hne]
  exact ⟨saves_edited hv hload hne, rfl, rfl⟩

/-- An edit may save a rule only where it makes another tree. -/
theorem Saves.of_edit (hc : event.command = edit.command id) (hs : e.Saves event new) :
    ∃ rule, e.store.load id = .ok rule ∧ (edit.change rule.tree == rule.tree) = false := by
  cases hs with
  | create | combine => cases edit <;> cases hc
  | modifyRoot hload hne | modifyField _ hload hne =>
    cases edit <;> cases hc
    exact ⟨_, hload, hne⟩

/-- An edit to an equal tree stores nothing, so that nothing can go wrong either. -/
theorem keeps_of_edit (hv : edit.IsFinite) (hc : event.command = edit.command id)
    (hload : e.store.load id = .ok rule) (heq : (edit.change rule.tree == rule.tree) = true)
    (hy : e.Yields event e') : e' = e := by
  cases hy with
  | done => exact (step_reply_of_beq hv hc hload heq).1
  | refused => rfl
  | faulty _ _ hs =>
    obtain ⟨rule', hload', hne⟩ := hs.of_edit hc
    obtain rfl := Except.ok.inj (hload.symm.trans hload')
    simp [heq] at hne

/-- A rule in the place of another one, and nothing else changed. -/
structure Replaces (e e' : Engine) (rule new : StoredRule) : Prop where
  settings : e'.settings = e.settings
  get : ∀ id, e'.get id = if id = rule.id then .ok new else e.get id
  list : ∃ rules, e.list = .ok rules ∧ rule ∈ rules ∧
    e'.list = .ok (rules.map fun other => if other.id = rule.id then new else other)

/-- A command that saves a stored rule with another content puts it in the place of the old
    one, as the store restores it. -/
theorem Healthy.replaces_of_save (h : e.Healthy) (hs : e.Saves event new)
    (hstep : e.step event = (e.save new).2) (hload : e.store.load rule.id = .ok rule)
    (hplace : new.place = rule.place) (hok : (e.store.save new).1 = .ok ()) :
    e.Replaces (e.step event) rule (e.store.restored new) := by
  have hid : new.id = rule.id := congrArg Prod.snd hplace
  have hstored := Store.load_of_save (h.height_lt_of_saves hs) hok
  rw [← e.store.id_restored new] at hstored hid
  have hnext := h.step event
  obtain ⟨rules, hlist, -⟩ := h.orderly.exists_list
  have hlists := h.orderly.list_eq_ok_iff.1 hlist
  rw [hstep, save_snd] at hnext ⊢
  refine ⟨rfl, fun id => ?_, rules, h.list_eq_ok_iff.2 hlists, (hlists.mem rule).2 hload, ?_⟩
  · rw [get, hstored, hid]
    by_cases heq : id = rule.id
    · rw [if_pos heq, if_pos heq]
    · rw [if_neg heq, if_neg heq, get]
  · rw [← hid]
    exact hnext.list_eq_ok_iff.2 (hlists.replace hstored hload hplace)

/-- A rule that is stored can be saved again with what an edit makes of it. -/
theorem Healthy.save_fst_of_edit (h : e.Healthy) (hs : e.Saves event new)
    (hload : e.store.load id = .ok rule) (hid : new.id = rule.id) :
    (e.store.save new).1 = .ok () :=
  h.orderly.save_fst_of_load hload hid (h.sound_of_saves hs).tree.value (h.depth_le_of_saves hs)

/-- An edit to another tree puts the edited rule in the place of the old one, as the store
    restores it. -/
theorem Healthy.replaces_of_edit (h : e.Healthy) (hv : edit.IsFinite)
    (hc : event.command = edit.command id) (hload : e.store.load id = .ok rule)
    (hne : (edit.change rule.tree == rule.tree) = false) :
    e.reply event = .ok (some (edited rule event.now edit.change)) ∧
      e.Replaces (e.step event) rule (e.store.restored (edited rule event.now edit.change)) := by
  obtain ⟨hs, hstep, hreply⟩ := step_reply_of_ne hv hc hload hne
  have hok := h.save_fst_of_edit hs hload rfl
  obtain ⟨rfl, -⟩ := h.restored.load hload
  refine ⟨?_, h.replaces_of_save hs hstep hload rfl hok⟩
  rw [hreply, map_save_fst, hok]
  rfl

theorem Healthy.load_step_of_ne (h : e.Healthy) (hv : edit.IsFinite)
    (hc : event.command = edit.command id) (hload : e.store.load id = .ok rule)
    (hne : (edit.change rule.tree == rule.tree) = false) :
    (e.step event).store.load id =
      .ok (e.store.restored (edited rule event.now edit.change)) := by
  refine get_eq_ok_iff.1 ?_
  rw [(h.replaces_of_edit hv hc hload hne).2.get, if_pos (h.restored.load hload).1.symm]

/-- No edit puts not-a-number into a stored tree, so that the edited tree equals itself. -/
theorem Healthy.change_beq_self (h : e.Healthy) (hv : edit.IsFinite)
    (hload : e.store.load id = .ok rule) :
    (edit.change rule.tree == edit.change rule.tree) = true :=
  Tree.beq_self ((h.restored.load hload).2.admissible.change hv).value

/-- A stored tree to which an edit was made is not changed by the same edit, if its value is
    kept. -/
theorem Healthy.change_beq_of_mapValues (h : e.Healthy) (hload : e.store.load id = .ok rule)
    {f : Value → Value} {t : Tree} (hk : edit.IsKept f)
    (htree : rule.tree = (edit.change t).mapValues f) :
    (edit.change rule.tree == rule.tree) = true := by
  have hself := Tree.beq_self (h.restored.load hload).2.admissible.value
  rw [htree, Edit.mapValues_change hk] at hself ⊢
  rwa [Edit.change_change]

/-! ## Edits in a row -/

/-- A rule that is kept is so after an edit whose value is kept, and the tree that is stored
    then equals the edited one. -/
theorem Healthy.exists_load_step (h : e.Healthy) (hv : edit.IsFinite)
    (hk : edit.IsKept e.store.restoredValue) (hc : event.command = edit.command id)
    (hload : e.store.load id = .ok rule) (hkept : e.store.restored rule = rule) :
    ∃ new, (e.step event).store.load id = .ok new ∧ e.store.restored new = new ∧
      (new.tree == edit.change rule.tree) = true := by
  cases heq : edit.change rule.tree == rule.tree with
  | true =>
    rw [(step_reply_of_beq hv hc hload heq).1]
    exact ⟨rule, hload, hkept, BEq.symm heq⟩
  | false =>
    have hrestored : e.store.restored (edited rule event.now edit.change) =
        edited rule event.now edit.change := by
      have htree := congrArg StoredRule.tree hkept
      simp only [Store.restored, edited, Edit.mapValues_change hk] at htree ⊢
      rw [htree]
    refine ⟨_, h.load_step_of_ne hv hc hload heq, ?_, ?_⟩
    · rw [hrestored, hrestored]
    · rw [hrestored]
      exact h.change_beq_self hv hload

/-- The tree that is stored after edits in a row equals the edited one, if the rule and all
    values are kept. -/
theorem Healthy.exists_load_run (h : e.Healthy) (edits : List Edit) {events : List Event}
    (hv : ∀ edit ∈ edits, edit.IsFinite ∧ edit.IsKept e.store.restoredValue)
    (hc : events.map (·.command) = edits.map (Edit.command id))
    (hload : e.store.load id = .ok rule) (hkept : e.store.restored rule = rule) :
    ∃ new, (e.run events).store.load id = .ok new ∧
      (new.tree == Edit.changeAll edits rule.tree) = true := by
  induction edits generalizing e events rule with
  | nil =>
    obtain rfl := List.map_eq_nil_iff.1 hc
    exact ⟨rule, hload, Tree.beq_self (h.restored.load hload).2.admissible.value⟩
  | cons edit edits ih =>
    obtain ⟨event, events, rfl, hcommand, hcommands⟩ := List.map_eq_cons_iff.1 hc
    obtain ⟨⟨hfinite, hk⟩, hedits⟩ := List.forall_mem_cons.1 hv
    obtain ⟨next, hnext, hkept, heq⟩ := h.exists_load_step hfinite hk hcommand hload hkept
    have hfinites : ∀ edit ∈ edits, edit.IsFinite := fun edit hedit => (hedits edit hedit).1
    -- The store after the edit is of the same kind, and keeps the same values.
    have hy : e.Yields event (e.step event) := .done
    rw [← restoredValue_of_yields hy] at hedits
    rw [← restored_of_yields hy] at hkept
    obtain ⟨new, hnew, heq'⟩ := ih (h.step event) hedits hcommands hnext hkept
    exact ⟨new, hnew, BEq.trans heq' (Edit.changeAll_beq_changeAll hfinites heq)⟩

/-- An edit that is made again stores nothing, if its value is kept. -/
theorem Healthy.keeps_of_again (h : e.Healthy) {again : Event} (hv : edit.IsFinite)
    (hk : edit.IsKept e.store.restoredValue) (hc : event.command = edit.command id)
    (hagain : again.command = edit.command id) (hload : e.store.load id = .ok rule)
    (hy : (e.step event).Yields again e') : e' = e.step event := by
  cases heq : edit.change rule.tree == rule.tree with
  | true =>
    rw [(step_reply_of_beq hv hc hload heq).1] at hy ⊢
    exact keeps_of_edit hv hagain hload heq hy
  | false =>
    have hnew := h.load_step_of_ne hv hc hload heq
    exact keeps_of_edit hv hagain hnew ((h.step event).change_beq_of_mapValues hnew hk rfl) hy

/-- Whatever an engine over an empty store was told, and whatever went wrong: an edit, with a
    finite value, of a rule that is then stored succeeds. If the edited tree equals the old
    one, nothing is stored. Else the rule that is stored is what the store restores of the rule
    with the edited tree, its text as the name and the time of the edit, and all else stays as
    it was. The same edit again stores nothing if the store keeps its value, and edits of two
    fields lead to equal trees in either order if it keeps the rule and both values. Short values
    and rules with such values are kept, and in memory all are. -/
theorem edits_of_reaches (hb : e.Built) (he : e.store.IsEmpty) {events : List Event}
    (hr : e.Reaches events e') (hget : e'.get id = .ok rule) :
    (∀ (edit : Edit) (event : Event), edit.IsFinite → event.command = edit.command id →
      (∃ answer, e'.reply event = .ok (some answer) ∧ answer.tree = edit.change rule.tree) ∧
      ((edit.change rule.tree == rule.tree) = true → ∀ next, e'.Yields event next → next = e') ∧
      ((edit.change rule.tree == rule.tree) = false →
        e'.Replaces (e'.step event) rule
          (e.store.restored { rule with
            tree := edit.change rule.tree
            name := (edit.change rule.tree).text
            updated := event.now })) ∧
      (edit.IsKept e.store.restoredValue → ∀ (again : Event) (next : Engine),
        again.command = edit.command id → (e'.step event).Yields again next →
          next = e'.step event)) ∧
    (∀ (field other : String) (value new : Value) (there back : List Event), field ≠ other →
      value.isFinite → new.isFinite → e.store.restored rule = rule →
      e.store.restoredValue value = value → e.store.restoredValue new = new →
      there.map (·.command) = [.modifyField id field value, .modifyField id other new] →
      back.map (·.command) = [.modifyField id other new, .modifyField id field value] →
      ∃ r s, (e'.run there).get id = .ok r ∧ (e'.run back).get id = .ok s ∧
        (r.tree == s.tree) = true) ∧
    ((∀ v : Value, v.IsShort → e.store.restoredValue v = v) ∧
      ∀ rule : StoredRule, rule.tree.HasShortValues → e.store.restored rule = rule) ∧
    ∀ m, e.store = .memory m →
      (∀ v, e.store.restoredValue v = v) ∧ ∀ rule, e.store.restored rule = rule := by
  have h := healthy_of_reaches (healthy_of_isEmpty hb he) hr
  have hload := get_eq_ok_iff.1 hget
  have hvalue := restoredValue_of_reaches hr
  have hrestored := Store.restored_congr hvalue
  rw [← hvalue, ← hrestored]
  refine ⟨fun edit event hv hc => ?_, ?_, ⟨fun v hshort => ?_, fun rule hshort => ?_⟩,
    fun m hm => ?_⟩
  · refine ⟨?_, fun heq _ hy => keeps_of_edit hv hc hload heq hy,
      fun hne => (h.replaces_of_edit hv hc hload hne).2,
      fun hk again next hagain hy => h.keeps_of_again hv hk hc hagain hload hy⟩
    cases heq : edit.change rule.tree == rule.tree with
    | true => exact ⟨_, (step_reply_of_beq hv hc hload heq).2, rfl⟩
    | false => exact ⟨_, (h.replaces_of_edit hv hc hload heq).1, rfl⟩
  · intro field other value new there back hne hvalue hnew hkept hvk hnk hthere hback
    obtain ⟨r, hr, heqr⟩ := h.exists_load_run [.field field value, .field other new]
      (by simp [Edit.IsFinite, Edit.IsKept, hvalue, hnew, hvk, hnk]) hthere hload hkept
    obtain ⟨s, hs, heqs⟩ := h.exists_load_run [.field other new, .field field value]
      (by simp [Edit.IsFinite, Edit.IsKept, hvalue, hnew, hvk, hnk]) hback hload hkept
    have hcomm : Edit.changeAll [.field field value, .field other new] rule.tree =
        Edit.changeAll [.field other new, .field field value] rule.tree :=
      Tree.assign_comm hne rule.tree
    rw [hcomm] at heqr
    exact ⟨r, s, get_eq_ok_iff.2 hr, get_eq_ok_iff.2 hs, BEq.trans heqr (BEq.symm heqs)⟩
  · exact Store.restoredValue_eq_self _ hshort
  · exact Store.restored_eq_self (.inr hshort)
  · rw [hvalue, hrestored, hm]
    exact ⟨fun _ => rfl, Store.restored_memory m⟩

/-- A rule whose value is edited twice, whose root gets the connective that it has, and whose
    two fields are edited in either order. -/
theorem edits_of_reaches_joined :
    let e := standard.run (edits.take 2)
    let age : Command := .modifyField "b" "age" (.text "30")
    let dept : Command := .modifyField "b" "dept" (.text "IT")
    let after : StoredRule :=
      { joined with
        tree := .join .and (.leaf ⟨"age", .greater, .text "30"⟩)
          (.leaf ⟨"dept", .equal, .text "HR"⟩)
        name := "age > '30' AND dept = 'HR'"
        updated := day 2 }
    (standard.Built ∧ standard.store.IsEmpty ∧ standard.Reaches (edits.take 2) e ∧
      e.get "b" = .ok joined) ∧
    e.Replaces (e.step ⟨age, "c", day 2⟩) joined after ∧
    (e.step ⟨age, "c", day 2⟩).step ⟨age, "c", day 3⟩ = e.step ⟨age, "c", day 2⟩ ∧
    e.step ⟨.modifyRoot "b" .and, "c", day 2⟩ = e ∧
    ∃ r s, (e.run [⟨age, "c", day 2⟩, ⟨dept, "c", day 3⟩]).get "b" = .ok r ∧
      (e.run [⟨dept, "c", day 2⟩, ⟨age, "c", day 3⟩]).get "b" = .ok s ∧
      (r.tree == s.tree) = true := by
  intro e age dept after
  have hreaches := reaches_run standard (edits.take 2)
  have hget : e.get "b" = .ok joined := by decide +kernel
  have hne : ((Edit.field "age" (.text "30")).change joined.tree == joined.tree) = false := by
    decide +kernel
  have hafter : edited joined (day 2) (Edit.field "age" (.text "30")).change = after := by
    decide +kernel
  have heq : ((Edit.root .and).change joined.tree == joined.tree) = true := by decide +kernel
  obtain ⟨hedit, hfields, -, hmemory⟩ := edits_of_reaches built_standard rfl hreaches hget
  obtain ⟨hvalues, hrules⟩ := hmemory _ rfl
  obtain ⟨-, -, hreplaces, hagain⟩ := hedit (.field "age" (.text "30")) ⟨age, "c", day 2⟩ rfl rfl
  obtain ⟨-, hkeeps, -, -⟩ := hedit (.root .and) ⟨.modifyRoot "b" .and, "c", day 2⟩ trivial rfl
  have hafter' := hreplaces hne
  rw [hrules] at hafter'
  exact ⟨⟨built_standard, rfl, hreaches, hget⟩, hafter ▸ hafter',
    hagain (hvalues _) ⟨age, "c", day 3⟩ _ rfl .done, hkeeps heq _ .done,
    hfields "age" "dept" (.text "30") (.text "IT") _ _ (by decide) rfl rfl (hrules joined)
      (hvalues _) (hvalues _) rfl rfl⟩

/-! ## An edit in a directory -/

/-- A rule that is restored as it is. -/
def low : StoredRule :=
  { steep with name := "balance < 1", tree := .leaf ⟨"balance", .less, .ofLiteral "1"⟩ }

/-- The command that makes it. -/
def createLow : Event := ⟨.create "balance < 1" none, "a", low.created⟩

theorem get_createLow : (filed.step createLow).get "a" = .ok low := by
  have hparse : filed.parse "balance < 1" = .ok low.tree := by decide +kernel
  have hsave : (filed.store.save low).1 = .ok () := by decide +kernel
  have hdepth : low.tree.depth < Json.nestingLimit - 1 :=
    (Tree.depth_leaf _).trans_lt (by decide)
  have hrestored : filed.store.restored low = low := by decide +kernel
  exact (get_of_create hparse hsave hdepth).trans (congrArg Except.ok hrestored)

/-- A value that is read back from its file as another one is not stored as it was given. -/
theorem not_forall_replaces :
    ¬∀ (e e' : Engine) (events : List Event) (id : String) (rule : StoredRule) (edit : Edit)
      (event : Event), e.Built → e.store.IsEmpty → e.Reaches events e' → e'.get id = .ok rule →
      edit.IsFinite → event.command = edit.command id →
      (edit.change rule.tree == rule.tree) = false →
      e'.Replaces (e'.step event) rule
        { rule with
          tree := edit.change rule.tree
          name := (edit.change rule.tree).text
          updated := event.now } := by
  intro h
  let edit : Edit := .field "balance" (.ofLiteral "3e23")
  let event : Event := ⟨edit.command "a", "b", day 1⟩
  have hv : edit.IsFinite := show (Value.ofLiteral "3e23").isFinite by decide +kernel
  have hne : (edit.change low.tree == low.tree) = false := by decide +kernel
  have hreaches := reaches_run filed [createLow]
  have hreplaces := h filed _ [createLow] "a" low edit event built_filed rfl hreaches
    get_createLow hv rfl hne
  have hhealthy := healthy_of_reaches (healthy_of_isEmpty built_filed rfl) hreaches
  have hload : ((filed.run [createLow]).step event).store.load "a" =
      .ok ((filed.run [createLow]).store.restored (edited low (day 1) edit.change)) :=
    hhealthy.load_step_of_ne hv rfl (get_eq_ok_iff.1 get_createLow) hne
  have hget := hreplaces.get "a"
  rw [if_pos (by decide), get_eq_ok_iff, hload, Except.ok.injEq] at hget
  exact absurd (congrArg StoredRule.tree hget) (by decide +kernel)

end Engine

end Criteria
