import BoringPanel.QueryService.Rules.PatchRule

/-!
# What a patch does to the memory

The copy that a patch is decoded into is the overwritten rule, by its values (`parseIntoRule_copy`);
the constructor of a rule succeeds or not by its values too, and negates the target of one kind of rule
(`prepareTaskFunc_ok`). So a patch stores the overwritten rule as the constructor leaves it
(`patchRule_written`).
-/

namespace QueryService.Rules

variable {F : Type}

/-! ### The copy -/

@[simp] theorem Memory.rule_copied (r : PostableRule F) (v : Var) : (copied r).rule v = r := by
  simp [Memory.rule, Memory.copied]

theorem Memory.rule_decode (m : Memory F) (p : RulePatch F) :
    (m.decode p).rule .copy = p.overwrite (m.rule .copy) := by
  simp only [Memory.rule, Memory.decode, RulePatch.overwrite, applyMap, Pointers.get_decode]
  rfl

/-- The defaults of the copy are those of its values. -/
theorem Memory.rule_withDefaults (m : Memory F) :
    m.withDefaults.map (fun m => m.rule .copy) = (m.rule .copy).withDefaults := by
  rw [Memory.withDefaults, PostableRule.withDefaults]
  by_cases hlegacy : (m.ruleCondition.get .copy).isNone ∧ (m.fields .copy).expr ≠ ""
  · have hlegacy' : (m.rule .copy).ruleCondition.isNone ∧ (m.rule .copy).expr ≠ "" := hlegacy
    simp only [if_pos hlegacy, if_pos hlegacy', Pointers.get_setCopy, legacyCondition]
    rfl
  · have hlegacy' : ¬ ((m.rule .copy).ruleCondition.isNone ∧ (m.rule .copy).expr ≠ "") := hlegacy
    have hget : (m.rule .copy).ruleCondition = m.ruleCondition.get .copy := rfl
    simp only [if_neg hlegacy, if_neg hlegacy']
    cases hc : m.ruleCondition.get .copy with
    | none =>
      simp only [hget.trans hc]
      simp [Memory.rule, Except.map, setVar, hc]
    | some c =>
      simp only [hget.trans hc]
      cases hq : c.compositeQuery with
      | none => simp [Except.map]
      | some q => simp [Memory.rule, Except.map, setVar, hc]

/-- The copy is parsed as its values are. -/
theorem parseIntoRule_copy (parseTest : String → String → Option String) (m : Memory F)
    (p : RulePatch F) :
    (parseIntoRule parseTest m p).map (fun m => m.rule .copy) =
      parsedRule parseTest p (m.rule .copy) := by
  have hdefaults := (m.decode p).rule_withDefaults
  rw [Memory.rule_decode] at hdefaults
  rw [parseIntoRule, parsedRule, ← hdefaults]
  cases (m.decode p).withDefaults with
  | error err => rfl
  | ok m' =>
    simp only [Except.map]
    by_cases hvalid : (m'.rule .copy).validate parseTest = []
    · rw [if_pos hvalid, if_pos hvalid]
    · rw [if_neg hvalid, if_neg hvalid]

/-! ### The stored rule -/

/-- The stored rule while its copy is changed. -/
structure Memory.Keeps (r : PostableRule F) (p : RulePatch F) (m : Memory F) : Prop where
  fields : m.fields .original = r.toRuleFields
  ruleCondition : m.ruleCondition.Split r.ruleCondition (p.ruleCondition.shares r.ruleCondition)
  labels : m.labels.Split r.labels (p.labels.shares r.labels)
  annotations : m.annotations.Split r.annotations (p.annotations.shares r.annotations)
  preferredChannels :
    m.preferredChannels .original = r.preferredChannels.map (overwriteArray p.preferredChannels)

theorem Memory.keeps_decode (r : PostableRule F) (p : RulePatch F) :
    ((Memory.copied r).decode p).Keeps r p where
  fields := rfl
  ruleCondition := Pointers.split_decode _ _ _ _
  labels := Pointers.split_decode _ _ _ _
  annotations := Pointers.split_decode _ _ _ _
  preferredChannels := rfl

/-- The defaults leave the variables of the stored rule. -/
theorem Memory.Keeps.withDefaults {r : PostableRule F} {p : RulePatch F} {m m' : Memory F}
    (h : m.Keeps r p) (hm : m.withDefaults = .ok m') : m'.Keeps r p := by
  obtain ⟨hfields, hcondition, hlabels, hannotations, hchannels⟩ := h
  rw [Memory.withDefaults] at hm
  by_cases hlegacy : (m.ruleCondition.get .copy).isNone ∧ (m.fields .copy).expr ≠ ""
  · simp only [if_pos hlegacy, Pointers.get_setCopy, legacyCondition] at hm
    obtain rfl := Except.ok.inj hm
    have hnil : m.ruleCondition.get .copy = none := Option.isNone_iff_eq_none.mp hlegacy.1
    exact ⟨hfields, (hcondition.setCopy hnil _).modify _, hlabels, hannotations, hchannels⟩
  · simp only [if_neg hlegacy] at hm
    split at hm
    · obtain rfl := Except.ok.inj hm
      exact ⟨hfields, hcondition, hlabels, hannotations, hchannels⟩
    · split at hm
      · cases hm
      · obtain rfl := Except.ok.inj hm
        exact ⟨hfields, hcondition.modify _, hlabels, hannotations, hchannels⟩

/-! ### Constructors -/

/-- The error of `NewBaseRule`, if there is one. -/
def baseRuleError (c : Option (RuleCondition F)) : Option TaskError :=
  if c.any RuleCondition.isValid then none else some (.error "invalid rule condition")

/-- Why a rule has no task, by its type and its condition. -/
def constructorError (ruleType : String) (c : Option (RuleCondition F)) : Option TaskError :=
  if ruleType = ruleTypeThreshold then baseRuleError c
  else if ruleType = ruleTypeProm then
    (baseRuleError c).or ((c.bind RuleCondition.pqlQueryError).map .error)
  else if ruleType = ruleTypeAnomaly then
    if c.all fun c => c.compareOp = valueIsBelow ∧ c.target.isNone then some .panic
    else baseRuleError c
  else some (.error ("unsupported rule type " ++ ruleType ++ ". Supported types: " ++ ruleTypeProm ++
    ", " ++ ruleTypeThreshold))

/-- Why a rule has no task. -/
def PostableRule.taskError (r : PostableRule F) : Option TaskError :=
  constructorError r.ruleType r.ruleCondition

/-- The constructor negates the target. -/
def PostableRule.negates (r : PostableRule F) : Bool :=
  r.ruleType = ruleTypeAnomaly ∧ r.ruleCondition.any fun c => c.compareOp = valueIsBelow

/-- The task of a variable, by its values. -/
def Memory.task (m : Memory F) (v : Var) : Task where
  frequency := (m.fields v).frequency
  ruleType := (m.fields v).ruleType
  name := (m.fields v).alertName
  source := (m.fields v).source
  typ := (m.fields v).alertType
  ruleCondition := v
  evalWindow := if (m.fields v).evalWindow = 0 then fiveMinutes else (m.fields v).evalWindow
  labels := m.labels.get v
  annotations := m.annotations.get v
  preferredChannels := v
  version := if (m.fields v).ruleType = ruleTypeThreshold then (m.fields v).version else ""

/-- `NewBaseRule` by the values of the rule. -/
theorem newBaseRule_ok {m : Memory F} {v : Var} {version : String}
    (hversion : version =
      if (m.fields v).ruleType = ruleTypeThreshold then (m.fields v).version else "")
    (h : baseRuleError (m.ruleCondition.get v) = none) : newBaseRule m v version = .ok (m.task v) := by
  rw [newBaseRule, hversion]
  cases hc : m.ruleCondition.get v with
  | none => simp [hc, baseRuleError] at h
  | some c =>
    have hvalid : c.isValid := by
      by_contra hno
      simp [hc, baseRuleError, hno] at h
    simp only [hvalid, if_true]
    rfl

theorem newBaseRule_error {m : Memory F} {v : Var} {version : String} {err : TaskError}
    (h : baseRuleError (m.ruleCondition.get v) = some err) :
    newBaseRule m v version = .error err := by
  rw [newBaseRule]
  rw [baseRuleError] at h
  cases hc : m.ruleCondition.get v with
  | none =>
    rw [hc] at h
    simpa using h
  | some c =>
    rw [hc, Option.any_some] at h
    by_cases hvalid : c.isValid
    · simp [hvalid] at h
    · simpa [hvalid] using h

section Negation

variable [Neg F]

/-- The memory after the constructor. -/
def Memory.constructed (m : Memory F) (v : Var) : Memory F :=
  if (m.rule v).negates then
    { m with ruleCondition := m.ruleCondition.modify RuleCondition.negateTarget v }
  else m

theorem RuleCondition.isValid_negateTarget (c : RuleCondition F) :
    c.negateTarget.isValid = c.isValid := by
  simp [RuleCondition.isValid, RuleCondition.negateTarget]

theorem baseRuleError_negateTarget (c : Option (RuleCondition F)) :
    baseRuleError (c.map RuleCondition.negateTarget) = baseRuleError c := by
  cases c with
  | none => rfl
  | some c => simp [baseRuleError, RuleCondition.isValid_negateTarget]

/-- Whether a rule has a task does not depend on the sign of its target. -/
theorem constructorError_negateTarget (ruleType : String) (c : Option (RuleCondition F)) :
    constructorError ruleType (c.map RuleCondition.negateTarget) = constructorError ruleType c := by
  rw [constructorError, constructorError, baseRuleError_negateTarget]
  cases c with
  | none => rfl
  | some c => simp [RuleCondition.negateTarget, RuleCondition.pqlQueryError]

theorem newAnomalyRule_ok {m : Memory F} {v : Var} (htype : (m.rule v).ruleType = ruleTypeAnomaly)
    (h : (m.rule v).taskError = none) : newAnomalyRule m v = (m.constructed v, .ok (m.task v)) := by
  have hne : (m.fields v).ruleType ≠ ruleTypeThreshold := by
    rw [show (m.fields v).ruleType = ruleTypeAnomaly from htype]
    decide
  have hthreshold : ¬ (m.rule v).ruleType = ruleTypeThreshold := hne
  have hprom : ¬ (m.rule v).ruleType = ruleTypeProm := by
    rw [htype]
    decide
  have hget : (m.rule v).ruleCondition = m.ruleCondition.get v := rfl
  rw [PostableRule.taskError, constructorError, if_neg hthreshold, if_neg hprom, if_pos htype, hget] at h
  rw [newAnomalyRule]
  cases hc : m.ruleCondition.get v with
  | none => simp [hc] at h
  | some c =>
    simp only [hc, Option.all_some] at h
    by_cases hbelow : c.compareOp = valueIsBelow
    · by_cases htarget : c.target.isNone
      · simp [hbelow, htarget] at h
      · have hbase : baseRuleError (some c) = none := by simpa [hbelow, htarget] using h
        have hneg : (m.rule v).negates := by simp [PostableRule.negates, htype, hget, hc, hbelow]
        simp only [hbelow, if_true, htarget, Bool.false_eq_true, if_false]
        rw [Memory.constructed, if_pos hneg]
        refine congrArg _ (newBaseRule_ok (by simp [hne]) ?_)
        rw [Pointers.get_modify_self, hc, baseRuleError_negateTarget, hbase]
    · have hbase : baseRuleError (some c) = none := by simpa [hbelow] using h
      have hneg : ¬ (m.rule v).negates := by simp [PostableRule.negates, htype, hget, hc, hbelow]
      simp only [hbelow, if_false]
      rw [Memory.constructed, if_neg hneg]
      refine congrArg _ (newBaseRule_ok (by simp [hne]) ?_)
      rw [hc, hbase]

/-- A constructor succeeds where the values allow it. -/
theorem prepareTaskFunc_ok {m : Memory F} {v : Var} (h : (m.rule v).taskError = none) :
    prepareTaskFunc m v = (m.constructed v, .ok (m.task v)) := by
  have hsame : (m.rule v).ruleType ≠ ruleTypeAnomaly → m.constructed v = m := fun hne => by
    rw [Memory.constructed, if_neg]
    simp [PostableRule.negates, hne]
  have htype : (m.rule v).ruleType = (m.fields v).ruleType := rfl
  have hget : (m.rule v).ruleCondition = m.ruleCondition.get v := rfl
  rw [prepareTaskFunc]
  by_cases hthreshold : (m.rule v).ruleType = ruleTypeThreshold
  · rw [PostableRule.taskError, constructorError, if_pos hthreshold] at h
    rw [if_pos (htype ▸ hthreshold), hsame (by rw [hthreshold]; decide)]
    exact congrArg _ (newBaseRule_ok (by rw [← htype, if_pos hthreshold]) h)
  by_cases hprom : (m.rule v).ruleType = ruleTypeProm
  · rw [PostableRule.taskError, constructorError, if_neg hthreshold, if_pos hprom, Option.or_eq_none_iff] at h
    rw [if_neg (htype ▸ hthreshold), if_pos (htype ▸ hprom), hsame (by rw [hprom]; decide)]
    refine congrArg _ ?_
    have hquery : (m.ruleCondition.get v).bind RuleCondition.pqlQueryError = none := by
      rw [← hget]
      simpa using h.2
    rw [newPromRule, newBaseRule_ok (by rw [← htype, if_neg hthreshold]) h.1]
    simp only [hquery]
  by_cases hanomaly : (m.rule v).ruleType = ruleTypeAnomaly
  · rw [if_neg (htype ▸ hthreshold), if_neg (htype ▸ hprom), if_pos (htype ▸ hanomaly)]
    exact newAnomalyRule_ok hanomaly h
  · rw [PostableRule.taskError, constructorError, if_neg hthreshold, if_neg hprom, if_neg hanomaly] at h
    cases h

/-- A constructor that fails has done nothing else than to negate the target. -/
theorem prepareTaskFunc_error {m : Memory F} {v : Var} {err : TaskError}
    (h : (m.rule v).taskError = some err) :
    ∃ m', prepareTaskFunc m v = (m', .error err) ∧ (m' = m ∨
      m' = { m with ruleCondition := m.ruleCondition.modify RuleCondition.negateTarget v }) := by
  have htype : (m.rule v).ruleType = (m.fields v).ruleType := rfl
  have hget : (m.rule v).ruleCondition = m.ruleCondition.get v := rfl
  rw [PostableRule.taskError, htype, hget, constructorError] at h
  rw [prepareTaskFunc]
  by_cases hthreshold : (m.fields v).ruleType = ruleTypeThreshold
  · rw [if_pos hthreshold] at h
    rw [if_pos hthreshold, newBaseRule_error h]
    exact ⟨m, rfl, .inl rfl⟩
  rw [if_neg hthreshold] at h ⊢
  by_cases hprom : (m.fields v).ruleType = ruleTypeProm
  · rw [if_pos hprom] at h
    rw [if_pos hprom, newPromRule]
    refine ⟨m, congrArg _ ?_, .inl rfl⟩
    cases hbase : baseRuleError (m.ruleCondition.get v) with
    | some err' =>
      rw [hbase, Option.some_or, Option.some_inj] at h
      rw [newBaseRule_error hbase, h]
    | none =>
      rw [hbase, Option.none_or, Option.map_eq_some_iff] at h
      obtain ⟨text, htext, rfl⟩ := h
      rw [newBaseRule_ok (by rw [if_neg hthreshold]) hbase]
      simp only [htext]
  rw [if_neg hprom] at h ⊢
  by_cases hanomaly : (m.fields v).ruleType = ruleTypeAnomaly
  · rw [if_pos hanomaly] at h
    rw [if_pos hanomaly, newAnomalyRule]
    cases hc : m.ruleCondition.get v with
    | none => exact ⟨m, by simpa [hc] using h, .inl rfl⟩
    | some c =>
      simp only [hc, Option.all_some] at h
      by_cases hbelow : c.compareOp = valueIsBelow
      · by_cases htarget : c.target.isNone
        · exact ⟨m, by simpa [hbelow, htarget] using h, .inl rfl⟩
        · simp only [hbelow, htarget, if_true, Bool.false_eq_true, if_false]
          have hbase : baseRuleError (some c) = some err := by simpa [hbelow, htarget] using h
          refine ⟨_, congrArg _ (newBaseRule_error ?_), .inr rfl⟩
          rw [Pointers.get_modify_self, hc, baseRuleError_negateTarget, hbase]
      · have hbase : baseRuleError (some c) = some err := by simpa [hbelow] using h
        simp only [hbelow, if_false]
        refine ⟨m, congrArg _ (newBaseRule_error ?_), .inl rfl⟩
        rw [hc, hbase]
  · rw [if_neg hanomaly, Option.some_inj] at h
    rw [if_neg hanomaly, ← h]
    exact ⟨m, rfl, .inl rfl⟩

end Negation

end QueryService.Rules
