import BoringPanel.QueryService.Rules.Repatched

/-!
# The rule that a patch stores

An accepted patch stores the overwritten rule as its task leaves it (`patchRule_written`): the constructor
of the task may have negated the target.
-/

namespace QueryService.Rules

variable {F : Type}

/-! ### The parsed copy -/

section Parse

variable {parseTest : String → String → Option String} {p : RulePatch F} {r y : PostableRule F}

theorem parseIntoRule_ok (h : parsedRule parseTest p r = .ok y) :
    ∃ m, parseIntoRule parseTest (Memory.copied r) p = .ok m ∧ m.rule .copy = y ∧ m.Keeps r p := by
  have hcopy := parseIntoRule_copy parseTest (Memory.copied r) p
  rw [Memory.rule_copied, h] at hcopy
  cases hm : parseIntoRule parseTest (Memory.copied r) p with
  | error err =>
    rw [hm] at hcopy
    cases hcopy
  | ok m =>
    rw [hm] at hcopy
    refine ⟨m, rfl, Except.ok.inj hcopy, ?_⟩
    rw [parseIntoRule] at hm
    cases hdefaults : ((Memory.copied r).decode p).withDefaults with
    | error err => simp [hdefaults] at hm
    | ok m' =>
      simp only [hdefaults] at hm
      split at hm
      · obtain rfl := Except.ok.inj hm
        exact (Memory.keeps_decode r p).withDefaults hdefaults
      · cases hm

theorem parseIntoRule_error {err : RuleError} (h : parsedRule parseTest p r = .error err) :
    parseIntoRule parseTest (Memory.copied r) p = .error err := by
  have hcopy := parseIntoRule_copy parseTest (Memory.copied r) p
  rw [Memory.rule_copied, h] at hcopy
  cases hm : parseIntoRule parseTest (Memory.copied r) p with
  | error err' =>
    rw [hm] at hcopy
    rw [Except.error.inj hcopy]
  | ok m =>
    rw [hm] at hcopy
    cases hcopy

end Parse

/-! ### A rule and its task -/

section Negation

variable [Neg F]

/-- A rule after its constructor. -/
def PostableRule.constructed (r : PostableRule F) : PostableRule F :=
  if r.negates then { r with ruleCondition := r.ruleCondition.map RuleCondition.negateTarget } else r

/-- A rule after its task was made, unless it is disabled. -/
def PostableRule.withTask (r : PostableRule F) : PostableRule F :=
  if r.disabled then r else r.constructed

theorem PostableRule.fields_constructed (r : PostableRule F) :
    r.constructed.toRuleFields = r.toRuleFields := by
  rw [PostableRule.constructed]
  split <;> rfl

theorem PostableRule.fields_withTask (r : PostableRule F) :
    r.withTask.toRuleFields = r.toRuleFields := by
  rw [PostableRule.withTask]
  split
  · rfl
  · exact r.fields_constructed

theorem Memory.rule_constructed (m : Memory F) (v : Var) :
    (m.constructed v).rule v = (m.rule v).constructed := by
  rw [Memory.constructed, PostableRule.constructed]
  split
  · rw [Memory.rule]
    simp only [Pointers.get_modify_self]
    rfl
  · rfl

/-- A rule that runs, with what its pointers point to. -/
structure RunningRule (F : Type) where
  frequency : Int
  ruleType : String
  name : String
  source : String
  typ : String
  ruleCondition : Option (RuleCondition F)
  evalWindow : Int
  labels : Option (Go.Map String)
  annotations : Option (Go.Map String)
  preferredChannels : Option (List String)
  version : String

def Memory.running (m : Memory F) (t : Task) : RunningRule F where
  frequency := t.frequency
  ruleType := t.ruleType
  name := t.name
  source := t.source
  typ := t.typ
  ruleCondition := m.ruleCondition.get t.ruleCondition
  evalWindow := t.evalWindow
  labels := t.labels
  annotations := t.annotations
  preferredChannels := m.preferredChannels t.preferredChannels
  version := t.version

/-- A rule that runs as it is stored. -/
def PostableRule.running (r : PostableRule F) : RunningRule F where
  frequency := r.frequency
  ruleType := r.ruleType
  name := r.alertName
  source := r.source
  typ := r.alertType
  ruleCondition := r.constructed.ruleCondition
  evalWindow := if r.evalWindow = 0 then fiveMinutes else r.evalWindow
  labels := r.labels
  annotations := r.annotations
  preferredChannels := r.preferredChannels
  version := if r.ruleType = ruleTypeThreshold then r.version else ""

theorem Memory.running_constructed (m : Memory F) (v : Var) :
    (m.constructed v).running (m.task v) = (m.rule v).running := by
  have hcondition : (m.constructed v).ruleCondition.get v = (m.rule v).constructed.ruleCondition :=
    congrArg PostableRule.ruleCondition (m.rule_constructed v)
  have hchannels : (m.constructed v).preferredChannels v = m.preferredChannels v := by
    rw [Memory.constructed]
    split <;> rfl
  rw [Memory.running, PostableRule.running, ← hcondition]
  simp only [Memory.task, hchannels]
  rfl

/-! ### The sync -/

section Sync

variable {m : Memory F} {v : Var} (tasks : Option Running)

theorem sync_disabled (h : (m.fields v).disabled = true) :
    syncRuleStateWithTask m tasks v = (m, .ok none) :=
  if_pos h

theorem sync_enabled (h : (m.fields v).disabled = false) (htask : (m.rule v).taskError = none) :
    syncRuleStateWithTask m tasks v = (m.constructed v, .ok (some (.made (m.task v)))) := by
  rw [syncRuleStateWithTask, if_neg (by rw [h]; decide), prepareTaskFunc_ok htask]

theorem sync_failed {err : TaskError} (h : (m.fields v).disabled = false)
    (htask : (m.rule v).taskError = some err) :
    ∃ m' err', syncRuleStateWithTask m tasks v = (m', .error err') ∧ (m' = m ∨
      m' = { m with ruleCondition := m.ruleCondition.modify RuleCondition.negateTarget v }) := by
  obtain ⟨m', hm', hmemory⟩ := prepareTaskFunc_error htask
  rw [syncRuleStateWithTask, if_neg (by rw [h]; decide), hm']
  cases err with
  | panic => exact ⟨m', _, rfl, hmemory⟩
  | error message =>
    by_cases hnone : tasks.isNone
    · simp only [hnone, if_true]
      exact ⟨m', _, rfl, hmemory⟩
    · simp only [hnone]
      exact ⟨m', _, rfl, hmemory⟩

end Sync

/-! ### Accepted patches -/

section Patch

variable {parseTest : String → String → Option String} {p : RulePatch F} {r y : PostableRule F}

/-- The patched rule is valid, and it has a task or needs none. -/
def Accepted (parseTest : String → String → Option String) (p : RulePatch F) (r y : PostableRule F) :
    Prop :=
  parsedRule parseTest p r = .ok y ∧ (y.disabled = false → y.taskError = none)

/-- The state after the task of the patched rule was made, or removed. -/
theorem sync_copy {m : Memory F} (htask : (m.rule .copy).disabled = false →
    (m.rule .copy).taskError = none) (tasks : Option Running) :
    ∃ m', syncRuleStateWithTask m tasks .copy =
        (m', .ok (if (m.rule .copy).disabled then none else some (.made (m.task .copy)))) ∧
      m'.rule .copy = (m.rule .copy).withTask ∧ (m' = m ∨
        m' = { m with ruleCondition := m.ruleCondition.modify RuleCondition.negateTarget .copy }) := by
  cases hdisabled : (m.rule .copy).disabled with
  | true =>
    refine ⟨m, sync_disabled tasks hdisabled, ?_, .inl rfl⟩
    rw [PostableRule.withTask, if_pos hdisabled]
  | false =>
    refine ⟨m.constructed .copy, sync_enabled tasks hdisabled (htask hdisabled), ?_, ?_⟩
    · rw [PostableRule.withTask, if_neg (by rw [hdisabled]; decide), Memory.rule_constructed]
    · rw [Memory.constructed]
      split
      · exact .inr rfl
      · exact .inl rfl

/-- An accepted patch stores the overwritten rule as its task leaves it. -/
theorem patchRule_written (h : Accepted parseTest p r y) (tasks : Option Running) :
    (patchRule parseTest r tasks true p).stored = y.withTask.json ∧
      ∃ response, (patchRule parseTest r tasks true p).result = .ok response := by
  obtain ⟨m, hm, rfl, -⟩ := parseIntoRule_ok h.1
  obtain ⟨m', hm', hrule, -⟩ := sync_copy h.2 tasks
  rw [patchRule]
  simp only [hm, hm', hrule, if_true]
  exact ⟨trivial, _, rfl⟩

/-- Patches that are accepted are those that return a rule. -/
theorem accepted_iff (tasks : Option Running) :
    (∃ response, (patchRule parseTest r tasks true p).result = .ok response) ↔
      ∃ y, Accepted parseTest p r y := by
  refine ⟨fun ⟨response, hresponse⟩ => ?_, fun ⟨y, hy⟩ => (patchRule_written hy tasks).2⟩
  cases hparsed : parsedRule parseTest p r with
  | error err =>
    rw [patchRule] at hresponse
    simp [parseIntoRule_error hparsed] at hresponse
  | ok y =>
    refine ⟨y, hparsed, fun hdisabled => ?_⟩
    obtain ⟨m, hm, rfl, -⟩ := parseIntoRule_ok hparsed
    cases htask : (m.rule .copy).taskError with
    | none => rfl
    | some err =>
      obtain ⟨m', err', hm', -⟩ := sync_failed tasks hdisabled htask
      rw [patchRule] at hresponse
      simp [hm, hm'] at hresponse

end Patch

end Negation

end QueryService.Rules
