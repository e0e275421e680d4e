import Criteria.Proofs.Engine.Run
import Criteria.Proofs.Tree.Edit
import Criteria.Proofs.Tree.Joining
import Criteria.Proofs.Tree.Text

/-!
# What an engine stores

Every rule that an engine over an empty store comes to hold can be stored and evaluated: its
tree is no deeper than allowed, and its conditions have proper fields and finite values. It can
be told by its name when it is saved, which is what the tree was read from or the text of the
tree; a directory may give back other numbers then.

* `Tree.Admissible`: the trees that reading, joining and editing make;
* `StoredRule.Sound`: the rules that are saved;
* `StoredRule.IsRestored`, `StoredRule.Timely`: the two invariants of stored rules;
* `Engine.isRestored_of_yields`, `Engine.timely_of_yields`: a command keeps them;
* `Engine.stored_of_reaches`: all rules after any commands;
* `Engine.not_forall_named`: a rule that is not told by its name any more.
-/

namespace Criteria

theorem Timestamp.le_refl (t : Timestamp) : t ≤ t := Int.le_refl t.position

theorem Timestamp.le_trans {s t u : Timestamp} (hst : s ≤ t) (htu : t ≤ u) : s ≤ u :=
  @Int.le_trans s.position t.position u.position hst htu

/-! ## Trees -/

namespace Tree

variable {limits : Limits} {t : Tree}

/-- A tree that is no deeper than allowed, and whose conditions have proper fields and
    finite values. -/
structure Admissible (limits : Limits) (t : Tree) : Prop where
  depth : t.depth ≤ limits.depth
  field : ∀ c ∈ t.leaves, IsFieldName c.field
  value : ∀ c ∈ t.leaves, c.value.isFinite

theorem admissible_of_read {s : String} (hl : 0 < limits.depth) (h : read limits s = .ok t) :
    t.Admissible limits where
  depth := by
    rw [depth_eq_height]
    rcases height_le_of_read h with hleaf | hle
    · cases t with
      | leaf c => exact hl
      | join op left right => simp [isLeaf] at hleaf
    · exact hle
  field c hc := (plain_of_read h c hc).1.field
  value c hc := (plain_of_read h c hc).2

theorem admissible_of_joinAll {trees : List Tree} {ops : List Connective}
    (ht : ∀ t ∈ trees, t.Admissible limits) (h : joinAll limits.depth trees ops = .ok t) :
    t.Admissible limits where
  depth := by
    rw [depth_eq_height]
    exact height_le_of_joinAll h
  field c hc := by
    rw [leaves_of_joinAll h, List.mem_flatMap] at hc
    obtain ⟨part, hpart, hc⟩ := hc
    exact (ht part hpart).field c hc
  value c hc := by
    rw [leaves_of_joinAll h, List.mem_flatMap] at hc
    obtain ⟨part, hpart, hc⟩ := hc
    exact (ht part hpart).value c hc

theorem Admissible.setRoot (h : t.Admissible limits) (op : Connective) :
    (t.setRoot op).Admissible limits where
  depth := by
    rw [depth_eq_height, height_setRoot, ← depth_eq_height]
    exact h.depth
  field := by
    rw [leaves_setRoot]
    exact h.field
  value := by
    rw [leaves_setRoot]
    exact h.value

theorem Admissible.assign (h : t.Admissible limits) (field : String) {value : Value}
    (hv : value.isFinite) : (t.assign field value).Admissible limits where
  depth := by
    rw [assign_eq_mapLeaves, depth_eq_height, height_mapLeaves, ← depth_eq_height]
    exact h.depth
  field c hc := by
    rw [assign_eq_mapLeaves, leaves_mapLeaves, List.mem_map] at hc
    obtain ⟨d, hd, rfl⟩ := hc
    rw [Condition.assign]
    split <;> exact h.field d hd
  value c hc := by
    rw [assign_eq_mapLeaves, leaves_mapLeaves, List.mem_map] at hc
    obtain ⟨d, hd, rfl⟩ := hc
    rw [Condition.assign]
    split
    · exact hv
    · exact h.value d hd

theorem Admissible.mapValues (h : t.Admissible limits) {f : Value → Value}
    (hf : ∀ v : Value, v.isFinite → (f v).isFinite) : (t.mapValues f).Admissible limits where
  depth := (t.depth_mapValues f).trans_le h.depth
  field := forall_leaves_mapValues.2 h.field
  value := forall_leaves_mapValues.2 fun c hc => hf c.value (h.value c hc)

end Tree

/-! ## Rules -/

namespace StoredRule

/-- A rule that is told by its name: this is read as exactly the tree, or is the text of the
    tree. -/
def IsNamed (e : Engine) (rule : StoredRule) : Prop :=
  e.parse rule.name = .ok rule.tree ∨ rule.name = rule.tree.text

instance (e : Engine) (rule : StoredRule) : Decidable (rule.IsNamed e) := by
  unfold IsNamed
  infer_instance

/-- A rule that an engine may save: its tree is admissible, and it is told by its name. -/
structure Sound (e : Engine) (rule : StoredRule) : Prop where
  tree : rule.tree.Admissible e.settings.limits
  name : rule.IsNamed e

/-- A rule that an engine may find in its store: what the store gives back of a sound rule. -/
def IsRestored (e : Engine) (rule : StoredRule) : Prop :=
  ∃ saved : StoredRule, saved.Sound e ∧ e.store.restored saved = rule

/-- A rule that was created before it was changed, and changed before a given time. -/
structure Timely (now : Timestamp) (rule : StoredRule) : Prop where
  created : rule.created ≤ rule.updated
  updated : rule.updated ≤ now

/-- What is sound for an engine is so for any with the same settings. -/
theorem Sound.of_settings {e e' : Engine} {rule : StoredRule} (h : rule.Sound e)
    (he : e'.settings = e.settings) : rule.Sound e' := by
  obtain ⟨settings, store⟩ := e
  obtain ⟨settings', store'⟩ := e'
  obtain rfl : settings' = settings := he
  exact ⟨h.tree, h.name⟩

section

variable {e e' : Engine} {rule : StoredRule}

theorem Sound.isRestored (h : rule.Sound e) : (e.store.restored rule).IsRestored e :=
  ⟨rule, h, rfl⟩

theorem IsRestored.admissible (h : rule.IsRestored e) :
    rule.tree.Admissible e.settings.limits := by
  obtain ⟨saved, hsound, rfl⟩ := h
  exact hsound.tree.mapValues fun v hv => Store.isFinite_restoredValue hv

theorem IsRestored.of_settings (h : rule.IsRestored e) (he : e'.settings = e.settings)
    (hr : e'.store.restored = e.store.restored) : rule.IsRestored e' := by
  obtain ⟨saved, hsound, rfl⟩ := h
  exact ⟨saved, hsound.of_settings he, by rw [hr]⟩

end

end StoredRule

namespace Engine

variable {e e' : Engine} {event : Event} {rule : StoredRule} {now : Timestamp}

/-! ## One command -/

/-- Behind the pre-check, a rule string is read within the limits. -/
theorem read_of_parse {text : String} {tree : Tree} (h : e.parse text = .ok tree) :
    Tree.read e.settings.limits text = .ok tree := by
  rw [parse] at h
  split at h
  · simp at h
  · split at h
    · rename_i hread
      rwa [← Except.ok.inj h]
    · simp at h

theorem admissible_of_parseAll {texts : List String} {trees : List Tree}
    (hl : 0 < e.settings.limits.depth) (h : e.parseAll texts = .ok trees) :
    ∀ tree ∈ trees, tree.Admissible e.settings.limits := by
  induction texts generalizing trees with
  | nil => simp [← Except.ok.inj h]
  | cons text texts ih =>
    rw [parseAll] at h
    split at h
    · simp at h
    · rename_i tree hparse
      split at h
      · simp at h
      · rename_i rest hrest
        obtain rfl := Except.ok.inj h
        exact List.forall_mem_cons.2
          ⟨Tree.admissible_of_read hl (read_of_parse hparse), ih hrest⟩

/-- What a command may save is sound if all stored rules are what is given back of sound ones. -/
theorem Saves.sound (hl : 0 < e.settings.limits.depth) (h : e.store.All (·.IsRestored e))
    (hs : e.Saves event rule) : rule.Sound e := by
  cases hs with
  | create hparse => exact ⟨Tree.admissible_of_read hl (read_of_parse hparse), .inl hparse⟩
  | combine hparse hjoin =>
    exact ⟨Tree.admissible_of_joinAll (admissible_of_parseAll hl hparse) hjoin, .inr rfl⟩
  | modifyRoot hload => exact ⟨(h.load hload).2.admissible.setRoot _, .inr rfl⟩
  | modifyField hv hload => exact ⟨(h.load hload).2.admissible.assign _ hv, .inr rfl⟩

/-- What a command may save is changed at its time, and not created later. -/
theorem Saves.timely (h : e.store.All (·.Timely now)) (hnow : now ≤ event.now)
    (hs : e.Saves event rule) : rule.Timely event.now := by
  cases hs with
  | create | combine => exact ⟨Timestamp.le_refl _, Timestamp.le_refl _⟩
  | modifyRoot hload | modifyField _ hload =>
    obtain ⟨-, hcreated, hupdated⟩ := h.load hload
    exact ⟨Timestamp.le_trans hcreated (Timestamp.le_trans hupdated hnow), Timestamp.le_refl _⟩

/-- A sound rule is not too deep for a document. -/
theorem height_lt_of_sound (hc : e.settings.check = .ok ()) (h : rule.Sound e) :
    rule.tree.height < Json.nestingLimit - 1 := by
  have hdepth := h.tree.depth
  rw [Tree.depth_eq_height] at hdepth
  exact Nat.lt_of_le_of_lt (hdepth.trans (Settings.check_eq_ok_iff.1 hc).2) (by decide)

theorem isRestored_of_yields (hc : e.settings.check = .ok ()) (h : e.store.All (·.IsRestored e))
    (hy : e.Yields event e') : e'.store.All (·.IsRestored e') := by
  have hsettings := settings_of_yields hy
  have hrestored := restored_of_yields hy
  refine all_of_yields hy h (fun _ hrule => hrule.of_settings hsettings hrestored) fun _ hs => ?_
  have hrule := hs.sound (Settings.check_eq_ok_iff.1 hc).1 h
  exact ⟨hrule.isRestored.of_settings hsettings hrestored, height_lt_of_sound hc hrule⟩

theorem timely_of_yields (hc : e.settings.check = .ok ()) (h : e.store.All (·.IsRestored e))
    (ht : e.store.All (·.Timely now)) (hnow : now ≤ event.now) (hy : e.Yields event e') :
    e'.store.All (·.Timely event.now) := by
  refine all_of_yields hy ht
    (fun _ hrule => ⟨hrule.created, Timestamp.le_trans hrule.updated hnow⟩) fun _ hs => ?_
  have hrule := hs.sound (Settings.check_eq_ok_iff.1 hc).1 h
  obtain ⟨hcreated, hupdated⟩ := hs.timely ht hnow
  exact ⟨⟨hcreated, hupdated⟩, height_lt_of_sound hc hrule⟩

/-! ## Commands in a row -/

theorem isRestored_of_reaches {events : List Event} (hc : e.settings.check = .ok ())
    (h : e.store.All (·.IsRestored e)) (hr : e.Reaches events e') :
    e'.store.All (·.IsRestored e) := by
  induction hr with
  | nil => exact h
  | cons hy _ ih =>
    have hsettings := settings_of_yields hy
    have hrestored := restored_of_yields hy
    exact (ih (hsettings ▸ hc) (isRestored_of_yields hc h hy)).imp fun _ hrule =>
      hrule.of_settings hsettings.symm hrestored.symm

/-- Where the clock does not go back, rules are not changed before they are created. -/
theorem timely_of_reaches {events : List Event} (hc : e.settings.check = .ok ())
    (h : e.store.All (·.IsRestored e)) (ht : e.store.All (·.Timely now))
    (hnow : ∀ event ∈ events, now ≤ event.now) (hclock : events.Pairwise (·.now ≤ ·.now))
    (hr : e.Reaches events e') : e'.store.All fun rule => rule.created ≤ rule.updated := by
  induction hr generalizing now with
  | nil => exact ht.imp fun _ hrule => hrule.created
  | cons hy _ ih =>
    rw [List.pairwise_cons] at hclock
    exact ih (settings_of_yields hy ▸ hc) (isRestored_of_yields hc h hy)
      (timely_of_yields hc h ht (hnow _ List.mem_cons_self) hy) hclock.1 hclock.2

/-- Whatever an engine over an empty store is told, every rule that it stores is what the store
    gives back of a sound rule. -/
theorem isRestored_of_stores (hb : e.Built) (he : e.list = .ok []) {events : List Event}
    (hr : e.Reaches events e') (hs : e'.Stores rule) : rule.IsRestored e :=
  (hs.get (isRestored_of_reaches hb.check (Store.all_of_list (list_eq_ok_iff.1 he) _) hr)).2

/-- Whatever an engine over an empty store is told, by a clock that does not go back, and
    whatever goes wrong: every rule that it stores is found under its own id and no other,
    has a tree that is admissible, and so can be stored in a document, and was not changed
    before it was created. It is what the store gives back of a rule that is told by its name;
    and it is told by its name itself if it is in memory, or if that rule has short values. -/
theorem stored_of_reaches (hb : e.Built) (he : e.list = .ok []) {events : List Event}
    (hclock : events.Pairwise (·.now ≤ ·.now)) (hr : e.Reaches events e') (hs : e'.Stores rule) :
    (∀ id, e'.get id = .ok rule ↔ id = rule.id) ∧ rule.tree.Admissible e.settings.limits ∧
      rule.tree.depth ≤ maxDocumentDepth ∧ rule.created ≤ rule.updated ∧
      ∃ saved : StoredRule, saved.Sound e ∧ e.store.restored saved = rule ∧
        ((∃ m, e.store = .memory m) ∨ saved.tree.HasShortValues → rule.IsNamed e) := by
  have hempty := list_eq_ok_iff.1 he
  have hrestored := isRestored_of_stores hb he hr hs
  have htimely : e'.store.All fun rule => rule.created ≤ rule.updated := by
    cases events with
    | nil =>
      cases hr
      exact Store.all_of_list hempty _
    | cons event events =>
      refine timely_of_reaches hb.check (Store.all_of_list hempty _)
        (Store.all_of_list hempty (·.Timely event.now)) ?_ hclock hr
      exact List.forall_mem_cons.2 ⟨Timestamp.le_refl _, (List.pairwise_cons.1 hclock).1⟩
  obtain ⟨hget, htimes⟩ := hs.get htimely
  have hadmissible := hrestored.admissible
  obtain ⟨saved, hsound, hsame⟩ := hrestored
  refine ⟨hget, hadmissible, hadmissible.depth.trans (Settings.check_eq_ok_iff.1 hb.check).2,
    htimes, saved, hsound, hsame, fun h => ?_⟩
  rw [← hsame, Store.restored_eq_self h]
  exact hsound.name

/-! ## An engine with the default settings -/

/-- The engine that the default settings ask for. -/
def standard : Engine := ⟨{}, .memory Table.empty⟩

theorem built_standard : Built standard :=
  .overSite (show build {} .vacant = .ok standard from rfl)

theorem list_standard : standard.list = .ok [] := by
  simp [list, standard, Store.list, Memory.list, Table.empty, StoredRule.inOrder]

/-- A day of a month, counted from zero. -/
def day (n : Fin 31) : Timestamp :=
  ⟨2024, 1, n + 1, 0, 0, 0, 0, by decide, by decide, ⟨Nat.le_add_left 1 n, n.isLt⟩, by decide⟩

/-- Commands that make a rule of two parts, edit it twice and remove another rule. -/
def edits : List Event := [
  ⟨.create "age > 30 OR dept = 'HR'" none, "a", day 0⟩,
  ⟨.combine ["age > 30", "dept = 'HR'"] [.and], "b", day 1⟩,
  ⟨.modifyField "b" "age" (.text "30"), "c", day 2⟩,
  ⟨.modifyRoot "b" .or, "c", day 3⟩,
  ⟨.delete "a", "c", day 4⟩]

/-- The rule that is made of two parts, before it is edited. -/
def joined : StoredRule where
  id := "b"
  name := "age > 30 AND dept = 'HR'"
  description := none
  created := day 1
  updated := day 1
  tree := .join .and (.leaf ⟨"age", .greater, .ofLiteral "30"⟩) (.leaf ⟨"dept", .equal, .text "HR"⟩)

/-- The rule that is left after the edits. -/
def remaining : StoredRule where
  id := "b"
  name := "age > '30' OR dept = 'HR'"
  description := none
  created := day 1
  updated := day 3
  tree := .join .or (.leaf ⟨"age", .greater, .text "30"⟩) (.leaf ⟨"dept", .equal, .text "HR"⟩)

theorem stores_joined : (standard.run (edits.take 2)).Stores joined :=
  .inl ⟨"b", by decide +kernel⟩

theorem stores_remaining : (standard.run edits).Stores remaining :=
  .inl ⟨"b", by decide +kernel⟩

theorem stored_of_reaches_edits :
    (standard.Built ∧ standard.list = .ok [] ∧ edits.Pairwise (·.now ≤ ·.now) ∧
      standard.Reaches edits (standard.run edits) ∧ (standard.run edits).Stores remaining) ∧
    (∀ id, (standard.run edits).get id = .ok remaining ↔ id = "b") ∧
      remaining.tree.Admissible standard.settings.limits ∧
      remaining.tree.depth ≤ maxDocumentDepth ∧ remaining.created ≤ remaining.updated ∧
      remaining.IsNamed standard := by
  have hclock : edits.Pairwise (·.now ≤ ·.now) := by decide
  have hreaches := reaches_run standard edits
  obtain ⟨hget, htree, hdepth, htimes, _, -, -, hnamed⟩ :=
    stored_of_reaches built_standard list_standard hclock hreaches stores_remaining
  exact ⟨⟨built_standard, list_standard, hclock, hreaches, stores_remaining⟩,
    hget, htree, hdepth, htimes, hnamed (.inl ⟨_, rfl⟩)⟩

/-! ## An engine over a directory -/

/-- An engine that keeps its rules in a directory, in which nothing stands yet. -/
def filed : Engine := ⟨{ storage := .directory "rules" }, .directory .empty⟩

theorem built_filed : Built filed :=
  .overSite (show build filed.settings .vacant = .ok filed from rfl)

theorem list_filed : filed.list = .ok [] := by decide +kernel

/-- A rule with a number that is restored as another one. -/
def steep : StoredRule where
  id := "a"
  name := "balance < 3e23"
  description := none
  created := day 0
  updated := day 0
  tree := .leaf ⟨"balance", .less, .ofLiteral "3e23"⟩

/-- The command that makes it. -/
def createSteep : Event := ⟨.create "balance < 3e23" none, "a", day 0⟩

theorem save_steep : (filed.store.save steep).1 = .ok () := by decide +kernel

theorem depth_steep_lt : steep.tree.depth < Json.nestingLimit - 1 :=
  (Tree.depth_leaf _).trans_lt (by decide)

theorem get_createSteep : (filed.step createSteep).get "a" = .ok steep.restored := by
  have hparse : filed.parse "balance < 3e23" = .ok steep.tree := by decide +kernel
  exact get_of_create hparse save_steep depth_steep_lt

/-- A number that is read back from its file as another one is in the name as it was given. -/
theorem not_forall_named :
    ¬∀ (e : Engine) (events : List Event) (rule : StoredRule), e.Built → e.list = .ok [] →
      events.Pairwise (·.now ≤ ·.now) → (e.run events).Stores rule → rule.IsNamed e := by
  intro h
  have hstores : (filed.run [createSteep]).Stores steep.restored := .inl ⟨"a", get_createSteep⟩
  have hnamed := h filed [createSteep] steep.restored built_filed list_filed
    (List.pairwise_singleton _ _) hstores
  exact absurd hnamed (by decide +kernel)

end Engine

end Criteria
