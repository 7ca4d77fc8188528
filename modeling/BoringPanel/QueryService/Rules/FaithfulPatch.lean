import BoringPanel.QueryService.Rules.RestoredTask

/-!
# What a patch is to store

`FaithfulPatch` says what a patch is to store, and when it does so is `faithfulPatch_iff`: the constructor
of an anomaly rule negates the target of the rule that is stored afterwards.
-/

namespace QueryService.Rules

variable {F : Type}

/-- The constructor does not change the target of the rule. -/
def KeepsTarget [Neg F] (y : PostableRule F) : Prop :=
  ∀ c t, y.disabled = false → y.ruleType = ruleTypeAnomaly → y.ruleCondition = some c →
    c.compareOp = valueIsBelow → c.target = some t → -t = t

section Negation

variable [Neg F] {y y' : PostableRule F}

theorem KeepsTarget.withTask_eq (h : KeepsTarget y) : y.withTask = y := by
  rw [PostableRule.withTask]
  split
  · rfl
  · rename_i henabled
    rw [PostableRule.constructed]
    split
    · rename_i hnegates
      simp only [PostableRule.negates, decide_eq_true_eq] at hnegates
      obtain ⟨htype, hbelow⟩ := hnegates
      obtain ⟨c, hc, hcompare⟩ := Option.any_eq_true _ _ |>.mp hbelow
      have hneg : c.negateTarget = c := by
        rw [RuleCondition.negateTarget]
        cases ht : c.target with
        | none => rw [Option.map_none, ← ht]
        | some t =>
          have hsame := h c t (by simpa using henabled) htype hc (by simpa using hcompare) ht
          rw [Option.map_some, hsame, ← ht]
      rw [hc, Option.map_some, hneg, ← hc]
    · rfl

theorem keepsTarget_of_json (h : y.withTask.json = y.json) : KeepsTarget y := by
  intro c t henabled htype hc hbelow ht
  have hnegates : y.negates := by simp [PostableRule.negates, htype, hc, hbelow]
  rw [PostableRule.withTask, if_neg (by rw [henabled]; decide), PostableRule.constructed,
    if_pos hnegates] at h
  have hcondition := congrArg PostableRule.ruleCondition h
  simp only [PostableRule.json, hc, Option.map_some, Option.some_inj] at hcondition
  have htarget := congrArg RuleCondition.target hcondition
  simpa [RuleCondition.json, RuleCondition.negateTarget, ht] using htarget

/-- The target is kept of a rule that is read back, too. -/
theorem KeepsTarget.trims (h : KeepsTarget y) (htrims : y.Trims y') : KeepsTarget y' := by
  intro c' t henabled htype hc' hbelow ht
  rw [htrims.fields] at henabled htype
  obtain ⟨-, hnone⟩ | ⟨a, b, ha, hb, hc⟩ := htrims.ruleCondition.none_or_some
  · rw [hc'] at hnone
    cases hnone
  · obtain rfl := Option.some.inj (hc'.symm.trans hb)
    rw [hc.others] at hbelow ht
    exact h a t henabled htype ha hbelow ht

end Negation

section Faithful

variable [Neg F]

/-- An accepted patch stores the overwritten rule with its defaults: it keeps a condition that it does
not mention, and it stores the same rule when it is applied again. -/
structure FaithfulPatch (parseTest : String → String → Option String) (tasks : Option Running)
    (p : RulePatch F) (r y : PostableRule F) : Prop where
  overwritten : (patchRule parseTest r tasks true p).stored = y.json
  condition : p.ruleCondition = .keep → ∀ c, r.ruleCondition = some c →
    (patchRule parseTest r tasks true p).stored.ruleCondition = some c.withExpressions.json
  accepted : ∃ response, (patchRule parseTest (patchRule parseTest r tasks true p).stored
    (patchRule parseTest r tasks true p).tasks true p).result = .ok response
  again : (patchRule parseTest (patchRule parseTest r tasks true p).stored
    (patchRule parseTest r tasks true p).tasks true p).stored =
      (patchRule parseTest r tasks true p).stored

variable {parseTest : String → String → Option String} {p : RulePatch F} {r y : PostableRule F}

omit [Neg F] in
/-- A condition that is not mentioned gets its defaults only. -/
theorem parsedRule_condition (h : parsedRule parseTest p r = .ok y) (hkeep : p.ruleCondition = .keep)
    {c : RuleCondition F} (hc : r.ruleCondition = some c) :
    y.ruleCondition = some c.withExpressions := by
  have hoverwrite : (p.overwrite r).ruleCondition = some c := by
    simp [RulePatch.overwrite, hkeep, Change.apply, hc]
  obtain ⟨-, ⟨c', q, hc', hq, rfl⟩ | ⟨hnone, -, -⟩⟩ := parsedRule_cases h
  · obtain rfl := Option.some.inj (hoverwrite.symm.trans hc')
    rfl
  · rw [hoverwrite] at hnone
    cases hnone

/-- The second patch stores the windows of the patch, where the first has stored the defaults. -/
theorem not_replacedWindows_of_again (h : Accepted parseTest p r y) (htask : y.withTask = y)
    {tasks : Option Running}
    (haccepted : ∃ response, (patchRule parseTest y.json tasks true p).result = .ok response)
    (hagain : (patchRule parseTest y.json tasks true p).stored = y.json) :
    ¬ ReplacedWindows r p := by
  rintro ⟨hnone, hkeep, hwindows⟩
  obtain ⟨y', hy'⟩ := (accepted_iff tasks).mp haccepted
  rw [(patchRule_written hy' tasks).1] at hagain
  have hfields : y'.toRuleFields = y.toRuleFields := by
    rw [← y'.fields_withTask]
    show y'.withTask.json.toRuleFields = y.json.toRuleFields
    rw [hagain]
  -- The first patch has found a legacy rule, the second a rule with the condition of one.
  obtain ⟨-, ⟨c, q, hc, -, -⟩ | ⟨-, -, rfl⟩⟩ := parsedRule_cases h.1
  · simp [RulePatch.overwrite, hkeep, Change.apply, hnone] at hc
  have hcondition : (p.overwrite (p.overwrite r).fromLegacy.json).ruleCondition =
      some (legacyCondition (p.overwrite r).expr).json := by
    simp [RulePatch.overwrite, hkeep, Change.apply, PostableRule.fromLegacy, PostableRule.json]
  obtain ⟨-, ⟨c, q, hc, hq, rfl⟩ | ⟨hc, -, -⟩⟩ := parsedRule_cases hy'.1
  · obtain rfl := Option.some.inj (hcondition.symm.trans hc)
    obtain rfl := Option.some.inj hq
    exact hwindows ((p.fields_legacy_filled r.toRuleFields).mp hfields)
  · rw [hcondition] at hc
    cases hc

end Faithful

variable [InvolutiveNeg F] {parseTest : String → String → Option String} {p : RulePatch F}
  {r y : PostableRule F}

/-- A patch stores what it says if and only if the constructor keeps the target of the patched rule, and
no window of the patch is replaced; the task is restored if and only if the patch has left what the
stored rule points to. -/
theorem faithfulPatch_iff (h : Accepted parseTest p r y) (tasks : Option Running) :
    (FaithfulPatch parseTest tasks p r y ↔ KeepsTarget y ∧ ¬ ReplacedWindows r p) ∧
      ((patchRule parseTest r tasks false p).restores r ↔
        r.disabled = true ∨ (r.taskError = none ∧ Untouched p r y)) := by
  refine ⟨⟨fun hfaithful => ?_, fun ⟨htarget, hwindows⟩ => ?_⟩, patchRule_restores_iff h tasks⟩
  · have hstored := hfaithful.overwritten
    have htarget : KeepsTarget y := by
      rw [(patchRule_written h tasks).1] at hstored
      exact keepsTarget_of_json hstored
    have haccepted := hfaithful.accepted
    have hagain := hfaithful.again
    rw [hstored] at haccepted hagain
    exact ⟨htarget, not_replacedWindows_of_again h htarget.withTask_eq haccepted hagain⟩
  · have hstored : (patchRule parseTest r tasks true p).stored = y.json := by
      rw [(patchRule_written h tasks).1, htarget.withTask_eq]
    obtain ⟨y', hy', htrims⟩ := parsedRule_json_again h.1 hwindows
    have haccepted : Accepted parseTest p y.json y' := by
      refine ⟨hy', fun hdisabled => ?_⟩
      rw [htrims.taskError_eq]
      exact h.2 (htrims.fields ▸ hdisabled)
    refine ⟨hstored, fun hkeep c hc => ?_, ?_, ?_⟩
    · rw [hstored, PostableRule.json, parsedRule_condition h.1 hkeep hc]
      rfl
    · rw [hstored]
      exact (patchRule_written haccepted _).2
    · rw [hstored, (patchRule_written haccepted _).1, (htarget.trims htrims).withTask_eq,
        htrims.json_eq]

/-! ### A threshold rule, and an anomaly rule -/

/-- A rule that watches one query for values below 3. -/
def belowThree (ruleType : String) : PostableRule Int where
  alertName := "low"
  alertType := "METRIC_BASED_ALERT"
  description := ""
  ruleType := ruleType
  evalWindow := fiveMinutes
  frequency := oneMinute
  disabled := false
  source := ""
  version := "v4"
  expr := ""
  oldYaml := ""
  ruleCondition := some { (RuleCondition.zero : RuleCondition Int) with
    compositeQuery := some { CompositeQuery.zero with
      builderQueries := some (Go.Map.empty.set "A" ⟨"", "A", false, ""⟩)
      queryType := queryTypeBuilder }
    compareOp := valueIsBelow
    target := some 3
    matchType := "1" }
  labels := none
  annotations := none
  preferredChannels := none

/-- A patch with a description. -/
def describePatch : RulePatch Int where
  alertName := none
  alertType := none
  description := some "values are low"
  ruleType := none
  evalWindow := none
  frequency := none
  disabled := none
  source := none
  version := none
  expr := none
  oldYaml := none
  ruleCondition := .keep
  labels := .keep
  annotations := .keep
  preferredChannels := .keep

theorem accepted_describe :
    Accepted (fun _ _ => none) describePatch (belowThree ruleTypeThreshold)
      { belowThree ruleTypeThreshold with description := "values are low" } :=
  ⟨rfl, fun _ => rfl⟩

/-- A threshold rule gets its description, and nothing else. -/
theorem faithfulPatch_describe :
    FaithfulPatch (fun _ _ => none) none describePatch (belowThree ruleTypeThreshold)
        { belowThree ruleTypeThreshold with description := "values are low" } ∧
      (patchRule (fun _ _ => none) (belowThree ruleTypeThreshold) none false
        describePatch).restores (belowThree ruleTypeThreshold) := by
  have h := faithfulPatch_iff accepted_describe none
  refine ⟨h.1.mpr ⟨fun c t _ htype => absurd htype (by decide), fun hw => ?_⟩,
    h.2.mpr (.inr ⟨rfl, fun _ => rfl, fun _ => rfl, fun _ => rfl, rfl⟩)⟩
  cases hw.1

/-- An anomaly rule with the same patch stores the negative of its target, and the same patch again stores
the target; where the database fails, the restored task has the target of the rule itself, and not
its negative. -/
theorem not_faithfulPatch_describe :
    Accepted (fun _ _ => none) describePatch (belowThree ruleTypeAnomaly)
        { belowThree ruleTypeAnomaly with description := "values are low" } ∧
      ¬ FaithfulPatch (fun _ _ => none) none describePatch (belowThree ruleTypeAnomaly)
        { belowThree ruleTypeAnomaly with description := "values are low" } ∧
      ((patchRule (fun _ _ => none) (belowThree ruleTypeAnomaly) none true
        describePatch).stored.ruleCondition.bind RuleCondition.target) = some (-3) ∧
      ¬ (patchRule (fun _ _ => none) (belowThree ruleTypeAnomaly) none false
        describePatch).restores (belowThree ruleTypeAnomaly) := by
  have haccepted : Accepted (fun _ _ => none) describePatch (belowThree ruleTypeAnomaly)
      { belowThree ruleTypeAnomaly with description := "values are low" } := ⟨rfl, fun _ => rfl⟩
  refine ⟨haccepted, fun h => ?_, rfl, fun h => ?_⟩
  · have htarget := congrArg (fun y : PostableRule Int => y.ruleCondition.bind RuleCondition.target)
      h.overwritten
    revert htarget
    decide
  · rcases (patchRule_restores_iff haccepted none).mp h with hdisabled | ⟨-, huntouched⟩
    · cases hdisabled
    · have htarget := congrArg (fun c : Option (RuleCondition Int) => c.bind RuleCondition.target)
        (huntouched.ruleCondition rfl)
      revert htarget
      decide

end QueryService.Rules
