import BoringPanel.QueryService.Rules.Manager
import BoringPanel.QueryService.Rules.ThresholdRule

/-!
# The alerts of an edited rule

`CopyState` of `rules/rule_task.go`, which a new task takes the alerts of the old one over with, as
`editTask` of `rules/manager.go` calls it once the old task has stopped. Rules are matched by the text of
their name and their labels, the first with the first, the second with the second (`getElem?_copyRules`).

A firing alert is there after an edit if the text is the same and both rules are threshold rules; nothing
is sent for one that is not (`kept_iff`).
-/

namespace QueryService.Rules

variable {F : Type}

/-- A rule of a task. Rules of the other types keep alerts of their own, which nothing here reads. -/
inductive Rule (F : Type) where
  | threshold (rule : ThresholdRule) (state : RuleState F)
  | other (name : String) (labels : Labels)

def Rule.name : Rule F → String
  | .threshold rule _ => rule.name
  | .other name _ => name

def Rule.labels : Rule F → Labels
  | .threshold rule _ => rule.labels
  | .other _ labels => labels

structure ChTask (F : Type) where
  name : String
  rules : List (Rule F)
  evaluationTime : Go.Duration
  lastEvaluation : Go.Time

/-- A task of rules on ClickHouse, or one of PromQL rules. -/
inductive RunningTask (F : Type) where
  | ch (task : ChTask F)
  | prom (name : String)

section Text

variable (quote : String → String)

/-- `Labels.String`; `quote` is `strconv.Quote`. -/
def Labels.text (ls : Labels) : String :=
  "\x7b" ++ Go.join ", " (ls.map fun l => l.name ++ "=" ++ quote l.value) ++ "\x7d"

def nameAndLabels (rule : Rule F) : String := rule.name ++ Labels.text quote rule.labels

end Text

/-- The alerts of a rule, put among those of another one. -/
def Rule.copyFrom (rule far : Rule F) : Rule F :=
  match rule, far with
  | .threshold r state, .threshold _ old =>
    .threshold r
      { active := old.active.entries.foldl (fun active e => active.set e.1 e.2) state.active
        handledRestart := old.handledRestart }
  | rule, _ => rule

section Copy

variable (text : Rule F → String)

/-- The loop over the new rules; `ruleMap` holds the old ones that are left, by their texts. -/
def copyRules (ruleMap : String → List (Rule F)) : List (Rule F) → List (Rule F)
  | [] => []
  | rule :: rest =>
    match ruleMap (text rule) with
    | [] => rule :: copyRules ruleMap rest
    | far :: others => rule.copyFrom far :: copyRules (Function.update ruleMap (text rule) others) rest

/-- The old rules by their texts. -/
def ruleMapOf (rules : List (Rule F)) (key : String) : List (Rule F) :=
  rules.filter fun rule => text rule = key

/-- `CopyState`; a task of the other kind is refused. -/
def ChTask.copyState (g : ChTask F) (fromTask : RunningTask F) : Except String (ChTask F) :=
  match fromTask with
  | .prom _ => .error "invalid from task for copy"
  | .ch task =>
    .ok { g with
      rules := copyRules text (ruleMapOf text task.rules) g.rules
      evaluationTime := task.evaluationTime
      lastEvaluation := task.lastEvaluation }

/-- What `editTask` makes of the new task: an error is not looked at. -/
def RunningTask.copied (newTask oldTask : RunningTask F) : RunningTask F :=
  match newTask with
  | .prom name => .prom name
  | .ch g =>
    match g.copyState text oldTask with
    | .ok g => .ch g
    | .error _ => .ch g

end Copy

/-- The manager after `editTask`, and the alerts that the notifier has been given. -/
structure Edited (F : Type) where
  manager : Manager (RunningTask F)
  notified : List (Alert F)

/-- `editTask`: it calls no `NotifyFunc`. The old task is as it is when it has stopped. -/
def editRuleTask (quote : String → String) (m : Manager (RunningTask F)) (taskName : String)
    (newTask : Except TaskError (RunningTask F)) : Edited F where
  manager := (m.editTask taskName (RunningTask.copied (nameAndLabels quote)) newTask).1
  notified := []

/-! ### Matched rules -/

section Matched

variable {text : Rule F → String}

/-- **The first rule of a text is matched with the first, the second one with the second.** -/
theorem getElem?_copyRules (ruleMap : String → List (Rule F)) (rules : List (Rule F)) (k : Nat) :
    (copyRules text ruleMap rules)[k]? = rules[k]?.map fun rule =>
      (ruleMap (text rule))[((rules.take k).filter fun r => text r = text rule).length]?.elim rule
        rule.copyFrom := by
  induction rules generalizing ruleMap k with
  | nil => rfl
  | cons rule rest ih =>
    unfold copyRules
    cases hmap : ruleMap (text rule) with
    | nil =>
      simp only
      cases k with
      | zero => simp [hmap]
      | succ k =>
        rw [List.getElem?_cons_succ, ih, List.getElem?_cons_succ, List.take_succ_cons]
        refine congrArg (Option.map · rest[k]?) (funext fun r => ?_)
        by_cases hr : text rule = text r
        · rw [← hr, hmap]
          rfl
        · rw [List.filter_cons_of_neg (by simpa using hr)]
    | cons far others =>
      simp only
      cases k with
      | zero => simp [hmap]
      | succ k =>
        rw [List.getElem?_cons_succ, ih, List.getElem?_cons_succ, List.take_succ_cons]
        refine congrArg (Option.map · rest[k]?) (funext fun r => ?_)
        by_cases hr : text rule = text r
        · rw [List.filter_cons_of_pos (by simpa using hr), ← hr, hmap, Function.update_self]
          rfl
        · rw [List.filter_cons_of_neg (by simpa using hr), Function.update_of_ne (Ne.symm hr)]

/-- A rule alone is matched with a rule alone of the same text. -/
theorem copyRules_singleton (text : Rule F → String) (rule far : Rule F) :
    copyRules text (ruleMapOf text [far]) [rule] =
      [if text far = text rule then rule.copyFrom far else rule] := by
  refine List.ext_getElem? fun k => ?_
  rw [getElem?_copyRules]
  cases k with
  | zero =>
    by_cases h : text far = text rule
    · simp [ruleMapOf, h]
    · simp [ruleMapOf, h]
  | succ k => rfl

end Matched

/-! ### Edits -/

/-- What the constructors of the rules make for an edit. -/
inductive PreparedRule where
  | threshold (rule : ThresholdRule)
  | other (name : String) (labels : Labels)
  | prom

/-- The task that `prepareTaskFunc` makes: of one rule, which has no alerts. -/
def PreparedRule.task (taskName : String) : PreparedRule → RunningTask F
  | .threshold rule => .ch ⟨taskName, [.threshold rule .init], 0, Go.Time.zero⟩
  | .other name labels => .ch ⟨taskName, [.other name labels], 0, Go.Time.zero⟩
  | .prom => .prom taskName

/-- Each firing alert is among those of the task's rule under its key, and fires, or it has been sent as
resolved. -/
def Kept (taskName : String) (state : RuleState F) (edited : Edited F) : Prop :=
  ∀ h a, (h, a) ∈ state.active.entries → a.state = .firing →
    (∃ task rule state' a', edited.manager.tasks taskName = some (.ch task) ∧
      .threshold rule state' ∈ task.rules ∧ state'.active.lookup h = some a' ∧ a'.state = .firing) ∨
    ∃ a' ∈ edited.notified, a'.labels = a.labels ∧ a'.resolvedAt.isZero = false

/-- The text that a threshold rule is matched by. -/
def ThresholdRule.matchText (quote : String → String) (rule : ThresholdRule) : String :=
  rule.name ++ Labels.text quote rule.labels

section Edit

variable {quote : String → String} {m : Manager (RunningTask F)} {taskName : String} {task : ChTask F}
  {old rule : ThresholdRule} {state : RuleState F} {prepared : PreparedRule}

/-- The alerts of the old rule are there, each under its key. -/
theorem lookup_copyFrom (rule old : ThresholdRule) {h : UInt64} {a : Alert F} (ha : (h, a) ∈ state.active.entries) :
    ∃ state', Rule.copyFrom (.threshold rule .init) (.threshold old state) = .threshold rule state' ∧
      state'.active.lookup h = some a := by
  refine ⟨_, rfl, ?_⟩
  have hall := Go.Table.lookup_setAll (fun _ a => a) state.active (RuleState.init : RuleState F).active h
  rw [Go.Table.lookup_eq_some.mpr ha] at hall
  exact hall

/-- The task after an edit. -/
theorem tasks_editRuleTask (hold : m.tasks taskName = some (.ch { task with rules := [.threshold old state] })) :
    (editRuleTask quote m taskName (.ok (prepared.task taskName))).manager.tasks taskName =
      some ((prepared.task taskName).copied (nameAndLabels quote)
        (.ch { task with rules := [.threshold old state] })) := by
  show Function.update m.tasks taskName
    (some (Manager.copied (RunningTask.copied (nameAndLabels quote)) (m.tasks taskName) (prepared.task taskName)))
      taskName = _
  rw [Function.update_self, hold]
  rfl

/-- The rules of the task after an edit that prepares a threshold rule. -/
theorem rules_copied_threshold {task' : ChTask F}
    (h : ((PreparedRule.threshold rule).task taskName).copied (nameAndLabels quote)
      (.ch { task with rules := [.threshold old state] }) = .ch task') :
    task'.rules = [if old.matchText quote = rule.matchText quote then
      Rule.copyFrom (.threshold rule .init) (.threshold old state) else .threshold rule .init] := by
  obtain rfl := RunningTask.ch.inj h
  exact copyRules_singleton (nameAndLabels quote) (.threshold rule .init) (.threshold old state)

/-- Where the texts are the same, every alert is taken over. -/
theorem kept_of_same (hold : m.tasks taskName = some (.ch { task with rules := [.threshold old state] }))
    (htext : old.matchText quote = rule.matchText quote) :
    Kept taskName state (editRuleTask quote m taskName (.ok ((PreparedRule.threshold rule).task taskName))) := by
  intro h a ha hfiring
  obtain ⟨state', hcopied, hlookup⟩ := lookup_copyFrom rule old ha
  refine .inl ⟨_, rule, state', a, tasks_editRuleTask hold, ?_, hlookup, hfiring⟩
  rw [rules_copied_threshold rfl, if_pos htext, hcopied]
  exact List.mem_singleton.mpr rfl

/-- A task without an alert under a key has none that fires. -/
theorem not_kept {newTask : Except TaskError (RunningTask F)} {h : UInt64} {a : Alert F}
    (ha : (h, a) ∈ state.active.entries) (hfiring : a.state = .firing)
    (hnone : ∀ task' rule' state', (editRuleTask quote m taskName newTask).manager.tasks taskName =
      some (.ch task') → .threshold rule' state' ∈ task'.rules → state'.active.lookup h = none) :
    ¬ Kept taskName state (editRuleTask quote m taskName newTask) := by
  intro hkept
  obtain ⟨task', rule', state', a', htask, hrule, hlookup, -⟩ | ⟨a', ha', -⟩ := hkept h a ha hfiring
  · rw [hnone task' rule' state' htask hrule] at hlookup
    cases hlookup
  · exact List.not_mem_nil ha'

theorem kept_prepared_iff (hold : m.tasks taskName = some (.ch { task with rules := [.threshold old state] })) :
    Kept taskName state (editRuleTask quote m taskName (.ok (prepared.task taskName))) ↔
      (∀ e ∈ state.active.entries, e.2.state ≠ .firing) ∨
      ∃ rule, prepared = .threshold rule ∧ old.matchText quote = rule.matchText quote := by
  by_cases hquiet : ∀ e ∈ state.active.entries, e.2.state ≠ .firing
  · exact iff_of_true (fun h a ha hfiring => absurd hfiring (hquiet (h, a) ha)) (.inl hquiet)
  · rw [or_iff_right hquiet]
    simp only [not_forall, not_not] at hquiet
    obtain ⟨⟨h, a⟩, ha, hfiring⟩ := hquiet
    cases prepared with
    | threshold rule =>
      by_cases htext : old.matchText quote = rule.matchText quote
      · exact iff_of_true (kept_of_same hold htext) ⟨rule, rfl, htext⟩
      · refine iff_of_false (not_kept ha hfiring fun task' rule' state' htask hrule => ?_) ?_
        · -- the rule is as it was prepared
          have hrules := rules_copied_threshold (Option.some.inj ((tasks_editRuleTask hold).symm.trans htask))
          rw [hrules, if_neg htext] at hrule
          obtain ⟨-, rfl⟩ := Rule.threshold.inj (List.mem_singleton.mp hrule)
          rfl
        · rintro ⟨rule', hrule', htext'⟩
          obtain rfl := PreparedRule.threshold.inj hrule'
          exact htext htext'
    | other name labels =>
      refine iff_of_false (not_kept ha hfiring fun task' rule' state' htask hrule => ?_) ?_
      · have htask' := RunningTask.ch.inj (Option.some.inj ((tasks_editRuleTask hold).symm.trans htask))
        rw [← htask'] at hrule
        have hrules := copyRules_singleton (nameAndLabels quote) (.other name labels) (.threshold old state)
        have hrule : Rule.threshold rule' state' ∈ copyRules (nameAndLabels quote)
            (ruleMapOf (nameAndLabels quote) [.threshold old state]) [.other name labels] := hrule
        rw [hrules] at hrule
        split at hrule
        · cases List.mem_singleton.mp hrule
        · cases List.mem_singleton.mp hrule
      · rintro ⟨rule, hrule, -⟩
        cases hrule
    | prom =>
      refine iff_of_false (not_kept ha hfiring fun task' rule' state' htask _ => ?_) ?_
      · cases (tasks_editRuleTask hold).symm.trans htask
      · rintro ⟨rule, hrule, -⟩
        cases hrule

/-- **A firing alert survives an edit that fails, or that leaves a threshold rule of the same text.** -/
theorem kept_iff (quote : String → String) (m : Manager (RunningTask F)) (taskName : String)
    (task : ChTask F) (old : ThresholdRule) (state : RuleState F)
    (hold : m.tasks taskName = some (.ch { task with rules := [.threshold old state] }))
    (newTask : Except TaskError PreparedRule) :
    Kept taskName state
        (editRuleTask quote m taskName (newTask.map fun prepared => prepared.task taskName)) ↔
      (∀ e ∈ state.active.entries, e.2.state ≠ .firing) ∨ (∃ err, newTask = .error err) ∨
      ∃ rule, newTask = .ok (.threshold rule) ∧ old.matchText quote = rule.matchText quote := by
  cases newTask with
  | error err =>
    refine iff_of_true (fun h a ha hfiring => ?_) (.inr (.inl ⟨err, rfl⟩))
    -- the old task goes on
    have hsame : (editRuleTask quote m taskName (.error err)).manager = m := by
      cases err <;> rfl
    refine .inl ⟨{ task with rules := [.threshold old state] }, old, state, a, ?_, List.mem_singleton.mpr rfl,
      Go.Table.lookup_eq_some.mpr ha, hfiring⟩
    exact (congrFun (congrArg Manager.tasks hsame) taskName).trans hold
  | ok prepared =>
    have hok : (∃ err, (Except.ok prepared : Except TaskError PreparedRule) = .error err) ↔ False := by
      refine iff_of_false ?_ id
      rintro ⟨err, herr⟩
      cases herr
    rw [hok, false_or]
    simp only [Except.ok.injEq]
    exact kept_prepared_iff hold

end Edit

/-- A quoted text without characters to escape. -/
def plainQuote (s : String) : String := "\"" ++ s ++ "\""

/-- The alert of a rule that fires. -/
def firingAlert : Alert Int :=
  ⟨.firing, [], [], [], "", [], 0, .unix 0, .unix 0, .zero, .unix 0, .unix 0, false⟩

/-- A rule by its name alone. -/
def namedRule (name : String) : ThresholdRule := .new "1" name "" [] [] []

def firingState : RuleState Int := ⟨Go.Table.empty.set 7 firingAlert, true⟩

/-- The manager with a task of a rule that fires. -/
def firingManager : Manager (RunningTask Int) where
  tasks n := if n = "1-groupname" then
      some (.ch ⟨"1-groupname", [.threshold (namedRule "cpu") firingState], 0, .unix 0⟩) else none
  rules _ := none

theorem kept_renamed :
    Kept "1-groupname" firingState (editRuleTask plainQuote firingManager "1-groupname"
        ((Except.ok (PreparedRule.threshold (namedRule "cpu high"))).map
          fun prepared => prepared.task "1-groupname")) ↔
      (∀ e ∈ firingState.active.entries, e.2.state ≠ .firing) ∨
      (∃ err, (Except.ok (.threshold (namedRule "cpu high")) : Except TaskError PreparedRule) = .error err) ∨
      ∃ rule, (Except.ok (.threshold (namedRule "cpu high")) : Except TaskError PreparedRule) =
          .ok (.threshold rule) ∧
        (namedRule "cpu").matchText plainQuote = rule.matchText plainQuote :=
  kept_iff plainQuote firingManager "1-groupname" ⟨"1-groupname", [], 0, .unix 0⟩ (namedRule "cpu") firingState rfl
    (.ok (.threshold (namedRule "cpu high")))

/-- Another name: the alert is gone, and nobody is told. -/
theorem dropped_by_renaming : ¬ ∀ (quote : String → String) (m : Manager (RunningTask Int)) (taskName : String)
    (task : ChTask Int) (old rule : ThresholdRule) (state : RuleState Int),
    m.tasks taskName = some (.ch { task with rules := [.threshold old state] }) →
    Kept taskName state (editRuleTask quote m taskName (.ok ((PreparedRule.threshold rule).task taskName))) := by
  intro h
  have htask : firingManager.tasks "1-groupname" = some (.ch { (⟨"1-groupname", [], 0, .unix 0⟩ : ChTask Int)
      with rules := [.threshold (namedRule "cpu") firingState] }) := rfl
  have hkept := h plainQuote firingManager "1-groupname" ⟨"1-groupname", [], 0, .unix 0⟩ (namedRule "cpu")
    (namedRule "cpu high") firingState htask
  obtain hquiet | ⟨rule, hrule, htext⟩ := (kept_prepared_iff htask).mp hkept
  · exact hquiet (7, firingAlert) (List.mem_singleton.mpr rfl) rfl
  · obtain rfl := PreparedRule.threshold.inj hrule
    exact absurd htext (by decide)

end QueryService.Rules
