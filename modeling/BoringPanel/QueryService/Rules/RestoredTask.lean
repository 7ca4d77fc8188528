import BoringPanel.QueryService.Rules.PatchedRule

/-!
# The task after a write that failed

Where the database fails, the task is made again for the stored rule, in which the patch may have been
decoded (`PostableRule.touched`). The task is restored only if the patch has left what the stored rule
points to (`patchRule_restores_iff`).
-/

namespace QueryService.Rules

variable {F : Type}

section Negation

variable [Neg F]

/-! ### The stored rule after a patch -/

/-- The stored rule, in which a patch was decoded where the copy shares an object with it. -/
def PostableRule.touched (r : PostableRule F) (p : RulePatch F) (y : PostableRule F) :
    PostableRule F where
  toRuleFields := r.toRuleFields
  ruleCondition := if p.ruleCondition.shares r.ruleCondition then y.ruleCondition else r.ruleCondition
  labels := if p.labels.shares r.labels then y.labels else r.labels
  annotations := if p.annotations.shares r.annotations then y.annotations else r.annotations
  preferredChannels := r.preferredChannels.map (overwriteArray p.preferredChannels)

omit [Neg F] in
theorem Memory.Keeps.rule_original {r : PostableRule F} {p : RulePatch F} {m : Memory F}
    (h : m.Keeps r p) : m.rule .original = r.touched p (m.rule .copy) := by
  rw [Memory.rule, PostableRule.touched, h.fields, h.ruleCondition.get_original,
    h.labels.get_original, h.annotations.get_original, h.preferredChannels]
  rfl

/-- The patch has left everything that the stored rule points to. -/
structure Untouched (p : RulePatch F) (r y : PostableRule F) : Prop where
  ruleCondition : p.ruleCondition.shares r.ruleCondition → y.withTask.ruleCondition = r.ruleCondition
  labels : p.labels.shares r.labels → y.labels = r.labels
  annotations : p.annotations.shares r.annotations → y.annotations = r.annotations
  preferredChannels :
    r.preferredChannels.map (overwriteArray p.preferredChannels) = r.preferredChannels

theorem PostableRule.withTask_others (y : PostableRule F) :
    y.withTask = { y with ruleCondition := y.withTask.ruleCondition } := by
  rw [PostableRule.withTask, PostableRule.constructed]
  split
  · rfl
  · split <;> rfl

theorem untouched_iff {p : RulePatch F} {r y : PostableRule F} :
    Untouched p r y ↔ r.touched p y.withTask = r := by
  have hif : ∀ {α : Type} (shares : Bool) (a b : α), (shares = true → a = b) ↔
      (if shares then a else b) = b := by
    intro α shares a b
    cases shares <;> simp
  rw [y.withTask_others]
  constructor
  · rintro ⟨hcondition, hlabels, hannotations, hchannels⟩
    rw [PostableRule.touched, (hif _ _ _).mp hcondition, (hif _ _ _).mp hlabels,
      (hif _ _ _).mp hannotations, hchannels]
  · intro h
    exact ⟨(hif _ _ _).mpr (congrArg PostableRule.ruleCondition h),
      (hif _ _ _).mpr (congrArg PostableRule.labels h),
      (hif _ _ _).mpr (congrArg PostableRule.annotations h),
      congrArg PostableRule.preferredChannels h⟩

/-- The task of the outcome is one of the rule as it is stored, or there is none if it is disabled. -/
def Outcome.restores (o : Outcome F) (r : PostableRule F) : Prop :=
  if r.disabled then o.tasks = none
  else ∃ t, o.tasks = some (.made t) ∧ o.memory.running t = r.running

/-- A condition has a task whatever the sign of its target is. -/
theorem constructorError_eq {ruleType : String} {c c' : Option (RuleCondition F)}
    (h : c' = c ∨ c' = c.map RuleCondition.negateTarget) :
    constructorError ruleType c' = constructorError ruleType c := by
  rcases h with rfl | rfl
  · rfl
  · exact constructorError_negateTarget ruleType c

theorem PostableRule.taskError_constructed (r : PostableRule F) (ruleType : String) :
    constructorError ruleType r.constructed.ruleCondition =
      constructorError ruleType r.ruleCondition := by
  refine constructorError_eq ?_
  rw [PostableRule.constructed]
  split
  · exact .inr rfl
  · exact .inl rfl

theorem PostableRule.taskError_withTask (r : PostableRule F) (ruleType : String) :
    constructorError ruleType r.withTask.ruleCondition =
      constructorError ruleType r.ruleCondition := by
  rw [PostableRule.withTask]
  split
  · rfl
  · exact r.taskError_constructed ruleType

/-- The condition that the constructor of a type of rules leaves. -/
def constructedCondition (ruleType : String) (c : Option (RuleCondition F)) :
    Option (RuleCondition F) :=
  if ruleType = ruleTypeAnomaly ∧ c.any fun c => c.compareOp = valueIsBelow then
    c.map RuleCondition.negateTarget
  else c

theorem PostableRule.ruleCondition_constructed (r : PostableRule F) :
    r.constructed.ruleCondition = constructedCondition r.ruleType r.ruleCondition := by
  rw [PostableRule.constructed, constructedCondition, PostableRule.negates]
  by_cases h : r.ruleType = ruleTypeAnomaly ∧ r.ruleCondition.any fun c => c.compareOp = valueIsBelow
  · rw [if_pos h, if_pos (decide_eq_true h)]
  · rw [if_neg h, if_neg (by simpa using h)]

/-- The restored task runs what is left of the stored rule. -/
theorem restores_constructed {m : Memory F} {r : PostableRule F} {o : Outcome F}
    (hdisabled : r.disabled = false) (ho : o.memory = m.constructed .original)
    (htasks : o.tasks = some (.made (m.task .original))) :
    o.restores r ↔ (m.rule .original).running = r.running := by
  rw [Outcome.restores, if_neg (by rw [hdisabled]; decide), ho, htasks]
  constructor
  · rintro ⟨t, ht, hrunning⟩
    obtain rfl := Running.made.inj (Option.some.inj ht)
    rw [← hrunning, Memory.running_constructed]
  · intro h
    exact ⟨_, rfl, by rw [Memory.running_constructed, h]⟩

end Negation

/-! ### The restored task -/

section Restored

variable [InvolutiveNeg F]

theorem RuleCondition.negateTarget_negateTarget (c : RuleCondition F) :
    c.negateTarget.negateTarget = c := by
  rw [RuleCondition.negateTarget, RuleCondition.negateTarget]
  cases hc : c.target with
  | none => simp [← hc]
  | some t => simp [← hc]

theorem constructedCondition_involutive (ruleType : String) :
    Function.Involutive (constructedCondition (F := F) ruleType) := by
  intro c
  cases c with
  | none => simp [constructedCondition]
  | some c =>
    by_cases h : ruleType = ruleTypeAnomaly ∧ c.compareOp = valueIsBelow
    · have hneg : ruleType = ruleTypeAnomaly ∧ c.negateTarget.compareOp = valueIsBelow := h
      simp only [constructedCondition, Option.any_some, decide_eq_true_eq, if_pos h, if_pos hneg,
        Option.map_some, c.negateTarget_negateTarget]
    · simp only [constructedCondition, Option.any_some, decide_eq_true_eq, if_neg h]

/-- A stored rule that runs as before is as it was. -/
theorem running_touched_iff {p : RulePatch F} {r y : PostableRule F} :
    (r.touched p y).running = r.running ↔ r.touched p y = r := by
  refine ⟨fun h => ?_, fun h => by rw [h]⟩
  have hcondition : (r.touched p y).ruleCondition = r.ruleCondition := by
    have hconstructed : (r.touched p y).constructed.ruleCondition = r.constructed.ruleCondition :=
      congrArg RunningRule.ruleCondition h
    rw [PostableRule.ruleCondition_constructed, PostableRule.ruleCondition_constructed]
      at hconstructed
    exact (constructedCondition_involutive r.ruleType).injective hconstructed
  have hlabels : (r.touched p y).labels = r.labels := congrArg RunningRule.labels h
  have hannotations : (r.touched p y).annotations = r.annotations :=
    congrArg RunningRule.annotations h
  have hchannels : (r.touched p y).preferredChannels = r.preferredChannels :=
    congrArg RunningRule.preferredChannels h
  calc r.touched p y
      = { r with
          ruleCondition := (r.touched p y).ruleCondition, labels := (r.touched p y).labels
          annotations := (r.touched p y).annotations
          preferredChannels := (r.touched p y).preferredChannels } := rfl
    _ = r := by rw [hcondition, hlabels, hannotations, hchannels]

variable {parseTest : String → String → Option String} {p : RulePatch F} {r y : PostableRule F}

/-- Where the database fails, the task is restored if and only if the rule is disabled, or it has a task
and the patch has left everything that it points to. -/
theorem patchRule_restores_iff (h : Accepted parseTest p r y) (tasks : Option Running) :
    (patchRule parseTest r tasks false p).restores r ↔
      r.disabled = true ∨ (r.taskError = none ∧ Untouched p r y) := by
  obtain ⟨m, hm, rfl, hkeeps⟩ := parseIntoRule_ok h.1
  obtain ⟨m', hsync, hrule, hmemory⟩ := sync_copy h.2 tasks
  have hkeeps' : m'.Keeps r p := by
    rcases hmemory with rfl | rfl
    · exact hkeeps
    · exact { hkeeps with ruleCondition := hkeeps.ruleCondition.modify _ }
  have horiginal : m'.rule .original = r.touched p (m.rule .copy).withTask :=
    hrule ▸ hkeeps'.rule_original
  have hfields : (m'.fields .original).disabled = r.disabled :=
    congrArg RuleFields.disabled hkeeps'.fields
  rw [untouched_iff]
  cases hdisabled : r.disabled with
  | true =>
    -- A disabled rule has no task, whatever it looks like now.
    rw [patchRule]
    simp only [hm, hsync, sync_disabled _ (hfields.trans hdisabled), Outcome.restores, hdisabled,
      Bool.false_eq_true, if_true, if_false, true_or]
  | false =>
    simp only [Bool.false_eq_true, false_or]
    cases htask : (m'.rule .original).taskError with
    | none =>
      have houtcome : patchRule parseTest r tasks false p = ⟨r, m'.constructed .original,
          some (.made (m'.task .original)), .error .database⟩ := by
        rw [patchRule]
        simp only [hm, hsync, sync_enabled _ (hfields.trans hdisabled) htask, Bool.false_eq_true,
          if_false]
      rw [houtcome, restores_constructed hdisabled rfl rfl, horiginal, running_touched_iff]
      refine ⟨fun heq => ⟨?_, heq⟩, And.right⟩
      rw [← heq, ← horiginal, htask]
    | some err =>
      obtain ⟨m'', err', hsync', hmemory'⟩ := sync_failed
        (if (m.rule .copy).disabled then none else some (.made (m.task .copy)))
        (hfields.trans hdisabled) htask
      have houtcome : patchRule parseTest r tasks false p = ⟨r, m'',
          if (m.rule .copy).disabled then none else some (.made (m.task .copy)),
          .error .database⟩ := by
        rw [patchRule]
        simp only [hm, hsync, hsync', Bool.false_eq_true, if_false]
      constructor
      · -- What runs is the patched rule. If it were the stored one, that would have a task.
        intro hrestores
        rw [houtcome, Outcome.restores, if_neg (by rw [hdisabled]; decide)] at hrestores
        obtain ⟨t, ht, hrunning⟩ := hrestores
        split at ht
        · cases ht
        · rename_i henabled
          obtain rfl := Running.made.inj (Option.some.inj ht)
          have htype : (m.rule .copy).ruleType = r.ruleType := congrArg RunningRule.ruleType hrunning
          have hcondition : m''.ruleCondition.get .copy = r.constructed.ruleCondition :=
            congrArg RunningRule.ruleCondition hrunning
          have hcopy : constructorError r.ruleType (m'.ruleCondition.get .copy) = none := by
            have hget : m'.ruleCondition.get .copy = (m.rule .copy).withTask.ruleCondition :=
              congrArg PostableRule.ruleCondition hrule
            rw [hget, PostableRule.taskError_withTask, ← htype]
            exact h.2 (by simpa using henabled)
          have hstored : constructorError r.ruleType r.ruleCondition = none := by
            rw [← PostableRule.taskError_constructed, ← hcondition]
            refine (constructorError_eq ?_).trans hcopy
            rcases hmemory' with rfl | rfl
            · exact .inl rfl
            · exact Pointers.get_modify_original _ _
          have htouched : (m'.rule .original).taskError = none := by
            rw [PostableRule.taskError, horiginal]
            simp only [PostableRule.touched]
            split
            · rw [← hrule]
              exact hcopy
            · exact hstored
          rw [htouched] at htask
          cases htask
      · rintro ⟨hstored, heq⟩
        rw [horiginal, heq, hstored] at htask
        cases htask

end Restored

end QueryService.Rules
