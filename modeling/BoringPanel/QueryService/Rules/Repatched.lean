import BoringPanel.QueryService.Rules.RuleMemory

/-!
# A patch that is applied again

A rule that a patch was applied to is not changed when it is applied again (`parsedRule_again`), except
for the windows that the defaults of a legacy rule have replaced (`ReplacedWindows`). The rule is read
back from its JSON, in which empty maps are left out (`Trims`).
-/

namespace QueryService.Rules

variable {F : Type}

/-! ### Defaults -/

/-- The defaults of the fields, for the kind of the queries. -/
def RuleFields.filled (r : RuleFields) (queryType : String) : RuleFields :=
  { r.withWindows with ruleType := defaultRuleType queryType r.ruleType }

def PostableRule.filled (r : PostableRule F) (c : RuleCondition F) (q : CompositeQuery) :
    PostableRule F :=
  { r with
    toRuleFields := r.toRuleFields.filled q.queryType
    ruleCondition := some c.withExpressions }

/-- A legacy rule with its condition. -/
def PostableRule.fromLegacy (r : PostableRule F) : PostableRule F :=
  { r with toRuleFields := r.toRuleFields.legacy, ruleCondition := some (legacyCondition r.expr) }

theorem PostableRule.withDefaults_filled {r : PostableRule F} {c : RuleCondition F}
    {q : CompositeQuery} (hc : r.ruleCondition = some c) (hq : c.compositeQuery = some q) :
    r.withDefaults = .ok (r.filled c q) := by
  have hlegacy : ¬ (r.ruleCondition.isNone ∧ r.expr ≠ "") := by simp [hc]
  rw [PostableRule.withDefaults]
  simp only [if_neg hlegacy]
  simp only [hc, hq]
  rfl

theorem PostableRule.withDefaults_legacy {r : PostableRule F} (hc : r.ruleCondition = none)
    (hexpr : r.expr ≠ "") : r.withDefaults = .ok r.fromLegacy := by
  have hlegacy : r.ruleCondition.isNone ∧ r.expr ≠ "" := ⟨by rw [hc]; rfl, hexpr⟩
  rw [PostableRule.withDefaults]
  simp only [if_pos hlegacy, legacyCondition]
  rfl

theorem PostableRule.withDefaults_none {r : PostableRule F} (hc : r.ruleCondition = none)
    (hexpr : r.expr = "") :
    r.withDefaults = .ok { r with toRuleFields := r.toRuleFields.withWindows } := by
  have hlegacy : ¬ (r.ruleCondition.isNone ∧ r.expr ≠ "") := fun h => h.2 hexpr
  rw [PostableRule.withDefaults]
  simp only [if_neg hlegacy]
  simp only [hc]

/-- A rule that is valid has a condition with a query, or is a legacy rule. -/
theorem parsedRule_cases {parseTest : String → String → Option String} {p : RulePatch F}
    {r y : PostableRule F} (h : parsedRule parseTest p r = .ok y) :
    y.validate parseTest = [] ∧
      ((∃ c q, (p.overwrite r).ruleCondition = some c ∧ c.compositeQuery = some q ∧
          y = (p.overwrite r).filled c q) ∨
        ((p.overwrite r).ruleCondition = none ∧ (p.overwrite r).expr ≠ "" ∧
          y = (p.overwrite r).fromLegacy)) := by
  rw [parsedRule] at h
  cases hd : (p.overwrite r).withDefaults with
  | error err => simp [hd] at h
  | ok y' =>
    simp only [hd] at h
    split at h
    · rename_i hvalid
      obtain rfl := Except.ok.inj h
      refine ⟨hvalid, ?_⟩
      cases hc : (p.overwrite r).ruleCondition with
      | some c =>
        left
        cases hq : c.compositeQuery with
        | some q =>
          rw [PostableRule.withDefaults_filled hc hq] at hd
          exact ⟨c, q, rfl, hq, (Except.ok.inj hd).symm⟩
        | none =>
          -- `parseIntoRule` reads the queries of a condition without a check.
          simp [PostableRule.withDefaults, hc, hq] at hd
      | none =>
        right
        by_cases hexpr : (p.overwrite r).expr = ""
        · -- Without a condition and without an expression nothing is made up.
          rw [PostableRule.withDefaults_none hc hexpr] at hd
          have hnone : y'.ruleCondition = none := by
            rw [← Except.ok.inj hd]
            exact hc
          simp [PostableRule.validate, hnone] at hvalid
        · rw [PostableRule.withDefaults_legacy hc hexpr] at hd
          exact ⟨rfl, hexpr, (Except.ok.inj hd).symm⟩
    · cases h

/-! ### Attributes that are set again -/

theorem defaultRuleType_defaultRuleType (queryType ruleType : String) :
    defaultRuleType queryType (defaultRuleType queryType ruleType) =
      defaultRuleType queryType ruleType := by
  unfold defaultRuleType
  by_cases hbuilder : queryType = queryTypeBuilder
  · by_cases hempty : ruleType = ""
    · simp [hbuilder, hempty, ruleTypeThreshold]
    · simp [hbuilder, hempty]
  · by_cases hprom : queryType = queryTypePromQL
    · simp only [if_neg hbuilder, if_pos hprom]
    · simp only [if_neg hbuilder, if_neg hprom]

theorem withExpression_withExpression (qLabel : String) (q : BuilderQuery) :
    withExpression qLabel (withExpression qLabel q) = withExpression qLabel q := by
  by_cases h : q.aggregateAttributeKey ≠ "" ∧ q.expression = ""
  · rw [withExpression, withExpression, if_pos h]
    split <;> rfl
  · rw [withExpression, withExpression, if_neg h, if_neg h]

theorem Option.getD_getD {α : Type} (p : Option α) (a : α) : p.getD (p.getD a) = p.getD a := by
  cases p <;> rfl

theorem RulePatch.fields_filled_again (p : RulePatch F) (r : RuleFields) (queryType : String) :
    (p.fields ((p.fields r).filled queryType)).filled queryType =
      (p.fields r).filled queryType := by
  have hruleType : defaultRuleType queryType
      (p.ruleType.getD (defaultRuleType queryType (p.ruleType.getD r.ruleType))) =
      defaultRuleType queryType (p.ruleType.getD r.ruleType) := by
    cases p.ruleType with
    | none => exact defaultRuleType_defaultRuleType _ _
    | some t => rfl
  have hwindow : ∀ (given : Option Int) (old default : Int),
      (if given.getD (if given.getD old = 0 then default else given.getD old) = 0 then default
        else given.getD (if given.getD old = 0 then default else given.getD old)) =
      if given.getD old = 0 then default else given.getD old := by
    intro given old default
    cases given with
    | none => by_cases hold : old = 0 <;> simp [hold]
    | some d => rfl
  simp only [RuleFields.filled, RuleFields.withWindows, RulePatch.fields, Option.getD_getD, hruleType,
    RuleFields.mk.injEq, true_and, and_true]
  exact ⟨hwindow _ _ _, hwindow _ _ _⟩

theorem applyMap_applyMap {V : Type} (c : Change (Go.Map V)) (m : Option (Go.Map V)) :
    applyMap c (applyMap c m) = applyMap c m := by
  cases c with
  | keep => rfl
  | null => rfl
  | set new => exact congrArg some (Go.Map.setAll_setAll new.nodup _)

theorem CompositeQuery.withExpressions_withExpressions (q : CompositeQuery) :
    q.withExpressions.withExpressions = q.withExpressions := by
  rw [CompositeQuery.withExpressions, CompositeQuery.withExpressions]
  cases hq : q.builderQueries with
  | none => rfl
  | some m => simp [Go.Map.mapKeyValues_mapKeyValues withExpression_withExpression]

theorem RuleCondition.withExpressions_withExpressions (c : RuleCondition F) :
    c.withExpressions.withExpressions = c.withExpressions := by
  rw [RuleCondition.withExpressions, RuleCondition.withExpressions]
  cases c.compositeQuery with
  | none => rfl
  | some q => simp [CompositeQuery.withExpressions_withExpressions]

/-- Queries that were patched, and got their expressions, are patched again. -/
theorem CompositeQueryPatch.apply_again (p : CompositeQueryPatch) (q : CompositeQuery) :
    (p.apply (p.apply q).withExpressions).withExpressions = (p.apply q).withExpressions := by
  have hbuilder : (applyMap p.builderQueries ((applyMap p.builderQueries q.builderQueries).map
      (Go.Map.mapKeyValues withExpression))).map (Go.Map.mapKeyValues withExpression) =
      (applyMap p.builderQueries q.builderQueries).map (Go.Map.mapKeyValues withExpression) := by
    cases p.builderQueries with
    | keep =>
      rw [applyMap, Change.apply, Option.map_map]
      refine congrArg (fun f => Option.map f q.builderQueries) ?_
      exact funext (Go.Map.mapKeyValues_mapKeyValues withExpression_withExpression)
    | null => rfl
    | set new =>
      exact congrArg some (Go.Map.mapKeyValues_setAll_again withExpression_withExpression new.nodup _)
  simp only [CompositeQuery.withExpressions, CompositeQueryPatch.apply, Option.getD_getD,
    applyMap_applyMap, hbuilder]

/-- A condition that was patched, and got its expressions, is patched again. -/
theorem RuleConditionPatch.apply_again (p : RuleConditionPatch F) (c : RuleCondition F) :
    (p.apply (p.apply c).withExpressions).withExpressions = (p.apply c).withExpressions := by
  have hquery : ((p.compositeQuery.apply CompositeQueryPatch.apply CompositeQuery.zero
      ((p.compositeQuery.apply CompositeQueryPatch.apply CompositeQuery.zero c.compositeQuery).map
        CompositeQuery.withExpressions)).map CompositeQuery.withExpressions) =
      (p.compositeQuery.apply CompositeQueryPatch.apply CompositeQuery.zero c.compositeQuery).map
        CompositeQuery.withExpressions := by
    cases p.compositeQuery with
    | keep =>
      rw [Change.apply, Option.map_map]
      refine congrArg (fun f => Option.map f c.compositeQuery) ?_
      exact funext CompositeQuery.withExpressions_withExpressions
    | null => rfl
    | set b => exact congrArg some (CompositeQueryPatch.apply_again b _)
  simp only [RuleCondition.withExpressions, RuleConditionPatch.apply, Option.getD_getD,
    Change.replace_replace, hquery]

/-! ### The patch again -/

theorem PostableRule.filled_again {p : RulePatch F} {r : PostableRule F} {c : RuleCondition F}
    {q : CompositeQuery} (hc : (p.overwrite r).ruleCondition = some c)
    (hq : c.compositeQuery = some q) :
    ∃ c' q', (p.overwrite ((p.overwrite r).filled c q)).ruleCondition = some c' ∧
      c'.compositeQuery = some q' ∧
      (p.overwrite ((p.overwrite r).filled c q)).filled c' q' = (p.overwrite r).filled c q := by
  -- It is enough that the condition that is patched again gets the same expressions.
  suffices hagain : ∃ c', (p.overwrite ((p.overwrite r).filled c q)).ruleCondition = some c' ∧
      c'.withExpressions = c.withExpressions by
    obtain ⟨c', hc', hexpr⟩ := hagain
    have hq' : c'.compositeQuery.map CompositeQuery.withExpressions = some q.withExpressions := by
      have h := congrArg RuleCondition.compositeQuery hexpr
      simpa [RuleCondition.withExpressions, hq] using h
    obtain ⟨q', hq', hqexpr⟩ := Option.map_eq_some_iff.mp hq'
    have htype : q'.queryType = q.queryType := by
      simpa [CompositeQuery.withExpressions] using congrArg CompositeQuery.queryType hqexpr
    refine ⟨c', q', hc', hq', ?_⟩
    simp only [PostableRule.filled, hexpr, htype, RulePatch.overwrite, applyMap_applyMap,
      Change.replace_replace, RulePatch.fields_filled_again]
  have hoverwrite : p.ruleCondition.apply RuleConditionPatch.apply RuleCondition.zero
      r.ruleCondition = some c := hc
  change ∃ c', p.ruleCondition.apply RuleConditionPatch.apply RuleCondition.zero
      (some c.withExpressions) = some c' ∧ _
  cases hp : p.ruleCondition with
  | keep => exact ⟨_, rfl, c.withExpressions_withExpressions⟩
  | null =>
    rw [hp] at hoverwrite
    cases hoverwrite
  | set b =>
    rw [hp] at hoverwrite
    obtain rfl := Option.some.inj hoverwrite
    exact ⟨_, rfl, b.apply_again _⟩

/-- The windows of a patch that the defaults of a legacy rule replace. -/
def ReplacedWindows (r : PostableRule F) (p : RulePatch F) : Prop :=
  r.ruleCondition = none ∧ p.ruleCondition = .keep ∧
    ¬ ((∀ d, p.evalWindow = some d → d = 0 ∨ d = fiveMinutes) ∧
      ∀ d, p.frequency = some d → d = 0 ∨ d = oneMinute)

theorem RulePatch.fields_legacy_again (p : RulePatch F) (r : RuleFields) :
    (p.fields (p.fields r).legacy).legacy = (p.fields r).legacy := by
  simp only [RuleFields.legacy, RulePatch.fields, Option.getD_getD]

/-- The windows of a legacy rule are set again unless the patch has its own. -/
theorem RulePatch.fields_legacy_filled (p : RulePatch F) (r : RuleFields) :
    (p.fields (p.fields r).legacy).filled queryTypePromQL = (p.fields r).legacy ↔
      (∀ d, p.evalWindow = some d → d = 0 ∨ d = fiveMinutes) ∧
        ∀ d, p.frequency = some d → d = 0 ∨ d = oneMinute := by
  have hruleType : ∀ t, defaultRuleType queryTypePromQL t = ruleTypeProm := fun _ => rfl
  have hwindow : ∀ (given : Option Int) (default : Int), default ≠ 0 →
      ((if given.getD default = 0 then default else given.getD default) = default ↔
        ∀ d, given = some d → d = 0 ∨ d = default) := by
    intro given default hdefault
    cases given with
    | none => simp [hdefault]
    | some d => by_cases hd : d = 0 <;> simp [hd]
  simp only [RuleFields.filled, RuleFields.withWindows, RuleFields.legacy, RulePatch.fields,
    Option.getD_getD, hruleType, RuleFields.mk.injEq, true_and, and_true]
  exact and_congr (hwindow _ _ (by decide)) (hwindow _ _ (by decide))

/-- The condition of a legacy rule that is patched again. -/
theorem PostableRule.legacy_again {p : RulePatch F} {r : PostableRule F}
    (hc : (p.overwrite r).ruleCondition = none) :
    p.ruleCondition = .null ∨ (p.ruleCondition = .keep ∧ r.ruleCondition = none) := by
  have hoverwrite : p.ruleCondition.apply RuleConditionPatch.apply RuleCondition.zero
      r.ruleCondition = none := hc
  cases hp : p.ruleCondition with
  | keep =>
    rw [hp] at hoverwrite
    exact .inr ⟨rfl, hoverwrite⟩
  | null => exact .inl rfl
  | set b =>
    rw [hp] at hoverwrite
    cases hoverwrite

/-- A rule that a patch was applied to is the same with the patch applied again. -/
theorem parsedRule_again {parseTest : String → String → Option String} {p : RulePatch F}
    {r y : PostableRule F} (h : parsedRule parseTest p r = .ok y) (hwindows : ¬ ReplacedWindows r p) :
    (p.overwrite y).withDefaults = .ok y := by
  obtain ⟨-, ⟨c, q, hc, hq, rfl⟩ | ⟨hc, hexpr, rfl⟩⟩ := parsedRule_cases h
  · obtain ⟨c', q', hc', hq', hagain⟩ := PostableRule.filled_again hc hq
    rw [PostableRule.withDefaults_filled hc' hq', hagain]
  · have hexpr' : (p.overwrite (p.overwrite r).fromLegacy).expr = (p.overwrite r).expr :=
      Option.getD_getD _ _
    rcases PostableRule.legacy_again hc with hnull | ⟨hkeep, hnone⟩
    · have hc' : (p.overwrite (p.overwrite r).fromLegacy).ruleCondition = none := by
        simp [RulePatch.overwrite, hnull, Change.apply]
      rw [PostableRule.withDefaults_legacy hc' (hexpr' ▸ hexpr), PostableRule.fromLegacy, hexpr']
      simp only [PostableRule.fromLegacy, RulePatch.overwrite, RulePatch.fields_legacy_again,
        applyMap_applyMap, Change.replace_replace]
    · have hc' : (p.overwrite (p.overwrite r).fromLegacy).ruleCondition =
          some (legacyCondition (p.overwrite r).expr) := by
        simp [RulePatch.overwrite, hkeep, Change.apply, PostableRule.fromLegacy]
      have hfields : (p.fields (p.fields r.toRuleFields).legacy).filled queryTypePromQL =
          (p.fields r.toRuleFields).legacy := by
        rw [RulePatch.fields_legacy_filled]
        by_contra hno
        exact hwindows ⟨hnone, hkeep, hno⟩
      rw [PostableRule.withDefaults_filled hc' rfl]
      simp only [PostableRule.filled, PostableRule.fromLegacy, RulePatch.overwrite, applyMap_applyMap,
        Change.replace_replace]
      rw [hfields]
      rfl

/-! ### Empty maps -/

/-- A map, and what is read of it in a document that may leave it out where it is empty. -/
def TrimsMap {V : Type} (a b : Option (Go.Map V)) : Prop := b = a ∨ a = some Go.Map.empty ∧ b = none

theorem trimsMap_omitEmptyMap {V : Type} (a : Option (Go.Map V)) : TrimsMap a (omitEmptyMap a) := by
  cases a with
  | none => exact .inl rfl
  | some m =>
    by_cases hempty : m.entries = []
    · refine .inr ⟨congrArg some (Go.Map.ext hempty), ?_⟩
      simp [omitEmptyMap, Option.filter, hempty]
    · left
      simp [omitEmptyMap, Option.filter, hempty]

section TrimsMap

variable {V : Type} {a b : Option (Go.Map V)}

theorem TrimsMap.omitEmptyMap_eq (h : TrimsMap a b) : omitEmptyMap b = omitEmptyMap a := by
  obtain rfl | ⟨rfl, rfl⟩ := h <;> rfl

theorem TrimsMap.applyMap (h : TrimsMap a b) (c : Change (Go.Map V)) :
    TrimsMap (applyMap c a) (Rules.applyMap c b) := by
  obtain rfl | ⟨rfl, rfl⟩ := h
  · exact .inl rfl
  · cases c with
    | keep => exact .inr ⟨rfl, rfl⟩
    | null => exact .inl rfl
    | set new => exact .inl rfl

theorem TrimsMap.mapKeyValues (h : TrimsMap a b) (f : String → V → V) :
    TrimsMap (a.map (Go.Map.mapKeyValues f)) (b.map (Go.Map.mapKeyValues f)) := by
  obtain rfl | ⟨rfl, rfl⟩ := h
  · exact .inl rfl
  · exact .inr ⟨rfl, rfl⟩

theorem TrimsMap.isNone (h : TrimsMap a b) (hnone : a.isNone) : b.isNone := by
  obtain rfl | ⟨rfl, rfl⟩ := h
  · exact hnone
  · rfl

theorem TrimsMap.mapKeys_eq (h : TrimsMap a b) : mapKeys b = mapKeys a := by
  obtain rfl | ⟨rfl, rfl⟩ := h <;> rfl

theorem TrimsMap.mapValues_eq (h : TrimsMap a b) : mapValues b = mapValues a := by
  obtain rfl | ⟨rfl, rfl⟩ := h <;> rfl

theorem TrimsMap.allDisabled_eq (h : TrimsMap a b) (disabled : V → Bool) :
    allDisabled disabled b = allDisabled disabled a := by
  obtain rfl | ⟨rfl, rfl⟩ := h <;> rfl

theorem TrimsMap.lookup_eq (h : TrimsMap a b) (k : String) :
    (b.bind fun m => m.lookup k) = a.bind fun m => m.lookup k := by
  obtain rfl | ⟨rfl, rfl⟩ := h <;> rfl

end TrimsMap

/-- Queries that are read back, with their maps trimmed. -/
structure CompositeQuery.Trims (a b : CompositeQuery) : Prop where
  builderQueries : TrimsMap a.builderQueries b.builderQueries
  clickHouseQueries : TrimsMap a.clickHouseQueries b.clickHouseQueries
  promQueries : TrimsMap a.promQueries b.promQueries
  panelType : b.panelType = a.panelType
  queryType : b.queryType = a.queryType
  unit : b.unit = a.unit
  fillGaps : b.fillGaps = a.fillGaps

theorem CompositeQuery.trims_json (q : CompositeQuery) : q.Trims q.json :=
  ⟨trimsMap_omitEmptyMap _, trimsMap_omitEmptyMap _, trimsMap_omitEmptyMap _, rfl, rfl, rfl, rfl⟩

theorem CompositeQuery.trims_self (q : CompositeQuery) : q.Trims q :=
  ⟨.inl rfl, .inl rfl, .inl rfl, rfl, rfl, rfl, rfl⟩

section CompositeQuery

variable {a b : CompositeQuery}

theorem CompositeQuery.Trims.apply (h : a.Trims b) (p : CompositeQueryPatch) :
    (p.apply a).Trims (p.apply b) where
  builderQueries := h.builderQueries.applyMap _
  clickHouseQueries := h.clickHouseQueries.applyMap _
  promQueries := h.promQueries.applyMap _
  panelType := congrArg p.panelType.getD h.panelType
  queryType := congrArg p.queryType.getD h.queryType
  unit := congrArg p.unit.getD h.unit
  fillGaps := congrArg p.fillGaps.getD h.fillGaps

theorem CompositeQuery.Trims.withExpressions (h : a.Trims b) :
    a.withExpressions.Trims b.withExpressions :=
  { h with builderQueries := h.builderQueries.mapKeyValues _ }

theorem CompositeQuery.Trims.json_eq (h : a.Trims b) : b.json = a.json := by
  simp only [CompositeQuery.json, h.builderQueries.omitEmptyMap_eq,
    h.clickHouseQueries.omitEmptyMap_eq, h.promQueries.omitEmptyMap_eq, h.panelType, h.queryType,
    h.unit, h.fillGaps]

theorem CompositeQuery.Trims.hasPromQueries_eq (h : a.Trims b) :
    b.hasPromQueries = a.hasPromQueries := by
  obtain hp | ⟨ha, hb⟩ := h.promQueries
  · rw [CompositeQuery.hasPromQueries, CompositeQuery.hasPromQueries, hp]
  · rw [CompositeQuery.hasPromQueries, CompositeQuery.hasPromQueries, ha, hb]
    rfl

/-- Maps that are left out do not disable a query. -/
theorem CompositeQuery.Trims.allDisabled (h : a.Trims b)
    (ha : isAllQueriesDisabled (some a) = false) : isAllQueriesDisabled (some b) = false := by
  simp only [isAllQueriesDisabled, h.queryType, h.builderQueries.allDisabled_eq,
    h.promQueries.allDisabled_eq, h.clickHouseQueries.allDisabled_eq] at ha ⊢
  split
  · rfl
  · rename_i hsome
    rwa [if_neg] at ha
    rintro ⟨hbuilder, hprom, hclickHouse⟩
    exact hsome ⟨h.builderQueries.isNone hbuilder, h.promQueries.isNone hprom,
      h.clickHouseQueries.isNone hclickHouse⟩

end CompositeQuery

/-- A condition that is read back. -/
structure RuleCondition.Trims (a b : RuleCondition F) : Prop where
  compositeQuery : Option.Rel CompositeQuery.Trims a.compositeQuery b.compositeQuery
  others : b = { a with compositeQuery := b.compositeQuery }

theorem RuleCondition.trims_json (c : RuleCondition F) : c.Trims c.json := by
  refine ⟨?_, rfl⟩
  cases hq : c.compositeQuery with
  | none => simp [RuleCondition.json, hq]
  | some q => simpa [RuleCondition.json, hq] using Option.Rel.some q.trims_json

theorem RuleCondition.trims_self (c : RuleCondition F) : c.Trims c := by
  refine ⟨?_, rfl⟩
  cases c.compositeQuery with
  | none => exact .none
  | some q => exact .some q.trims_self

section RuleCondition

variable {a b : RuleCondition F}

theorem RuleCondition.Trims.apply (h : a.Trims b) (p : RuleConditionPatch F) :
    (p.apply a).Trims (p.apply b) where
  compositeQuery := p.compositeQuery.apply_rel CompositeQuery.zero.trims_self
    (fun q _ _ hxy => hxy.apply q) h.compositeQuery
  others := by
    rw [h.others]
    rfl

theorem RuleCondition.Trims.withExpressions (h : a.Trims b) :
    a.withExpressions.Trims b.withExpressions where
  compositeQuery := by
    simp only [RuleCondition.withExpressions]
    obtain ⟨ha, hb⟩ | ⟨qa, qb, ha, hb, hq⟩ := h.compositeQuery.none_or_some
    · rw [ha, hb]
      exact .none
    · rw [ha, hb]
      exact .some hq.withExpressions
  others := by
    rw [h.others]
    rfl

theorem RuleCondition.Trims.json_eq (h : a.Trims b) : b.json = a.json := by
  have hquery : b.compositeQuery.map CompositeQuery.json =
      a.compositeQuery.map CompositeQuery.json := by
    obtain ⟨ha, hb⟩ | ⟨qa, qb, ha, hb, hq⟩ := h.compositeQuery.none_or_some
    · rw [ha, hb]
    · rw [ha, hb]
      exact congrArg some hq.json_eq
  rw [RuleCondition.json, hquery, h.others]
  rfl

theorem RuleCondition.Trims.isValid_eq (h : a.Trims b) : b.isValid = a.isValid := by
  rw [h.others, RuleCondition.isValid, RuleCondition.isValid]
  obtain ⟨ha, hb⟩ | ⟨qa, qb, ha, hb, hq⟩ := h.compositeQuery.none_or_some
  · simp only [ha, hb]
  · simp only [ha, hb, hq.queryType, hq.hasPromQueries_eq]

theorem RuleCondition.Trims.pqlQueryError_eq (h : a.Trims b) :
    b.pqlQueryError = a.pqlQueryError := by
  rw [h.others, RuleCondition.pqlQueryError, RuleCondition.pqlQueryError]
  obtain ⟨ha, hb⟩ | ⟨qa, qb, ha, hb, hq⟩ := h.compositeQuery.none_or_some
  · simp only [ha, hb]
  · simp only [ha, hb, hq.queryType, hq.hasPromQueries_eq, hq.promQueries.lookup_eq]

end RuleCondition

/-- A rule that is read back. -/
structure PostableRule.Trims (a b : PostableRule F) : Prop where
  fields : b.toRuleFields = a.toRuleFields
  ruleCondition : Option.Rel RuleCondition.Trims a.ruleCondition b.ruleCondition
  labels : TrimsMap a.labels b.labels
  annotations : TrimsMap a.annotations b.annotations
  preferredChannels : b.preferredChannels = a.preferredChannels ∨
    a.preferredChannels = some [] ∧ b.preferredChannels = none

theorem PostableRule.trims_json (r : PostableRule F) : r.Trims r.json where
  fields := rfl
  ruleCondition := by
    cases hc : r.ruleCondition with
    | none => simp [PostableRule.json, hc]
    | some c => simpa [PostableRule.json, hc] using Option.Rel.some c.trims_json
  labels := trimsMap_omitEmptyMap _
  annotations := trimsMap_omitEmptyMap _
  preferredChannels := by
    cases hl : r.preferredChannels with
    | none => exact .inl (by simp [PostableRule.json, hl])
    | some l => cases l with
      | nil => exact .inr ⟨rfl, by simp [PostableRule.json, hl, Option.filter]⟩
      | cons e l => exact .inl (by simp [PostableRule.json, hl, Option.filter])

section PostableRule

variable {a b : PostableRule F}

theorem PostableRule.Trims.overwrite (h : a.Trims b) (p : RulePatch F) :
    (p.overwrite a).Trims (p.overwrite b) where
  fields := congrArg p.fields h.fields
  ruleCondition := p.ruleCondition.apply_rel RuleCondition.zero.trims_self
    (fun c _ _ hxy => hxy.apply c) h.ruleCondition
  labels := h.labels.applyMap _
  annotations := h.annotations.applyMap _
  preferredChannels := by
    simp only [RulePatch.overwrite]
    cases p.preferredChannels with
    | keep => exact h.preferredChannels
    | null => exact .inl rfl
    | set l => exact .inl rfl

theorem PostableRule.Trims.json_eq (h : a.Trims b) : b.json = a.json := by
  have hcondition : b.ruleCondition.map RuleCondition.json =
      a.ruleCondition.map RuleCondition.json := by
    obtain ⟨ha, hb⟩ | ⟨ca, cb, ha, hb, hc⟩ := h.ruleCondition.none_or_some
    · rw [ha, hb]
    · rw [ha, hb]
      exact congrArg some hc.json_eq
  have hchannels : (b.preferredChannels.filter fun l => !l.isEmpty) =
      a.preferredChannels.filter fun l => !l.isEmpty := by
    rcases h.preferredChannels with hl | ⟨ha, hb⟩
    · rw [hl]
    · rw [ha, hb]
      rfl
  simp only [PostableRule.json, h.fields, hcondition, h.labels.omitEmptyMap_eq,
    h.annotations.omitEmptyMap_eq, hchannels]

theorem PostableRule.Trims.validate (h : a.Trims b)
    {parseTest : String → String → Option String} (ha : a.validate parseTest = []) :
    b.validate parseTest = [] := by
  have htemplates : testTemplateParsing parseTest b = testTemplateParsing parseTest a := by
    rw [testTemplateParsing, testTemplateParsing, h.fields, h.labels.mapValues_eq,
      h.annotations.mapValues_eq]
  rw [PostableRule.validate] at ha ⊢
  rw [htemplates, h.fields, h.labels.mapKeys_eq, h.annotations.mapKeys_eq]
  obtain ⟨hca, hcb⟩ | ⟨ca, cb, hca, hcb, hc⟩ := h.ruleCondition.none_or_some
  · simp [hca] at ha
  · simp only [hca, List.append_eq_nil_iff] at ha
    simp only [hcb, List.append_eq_nil_iff]
    have hothers := hc.others
    obtain ⟨⟨⟨⟨⟨hquery, hdisabled⟩, hthreshold⟩, hlabels⟩, hannotations⟩, htexts⟩ := ha
    refine ⟨⟨⟨⟨⟨?_, ?_⟩, ?_⟩, hlabels⟩, hannotations⟩, htexts⟩
    · obtain ⟨hqa, hqb⟩ | ⟨qa, qb, hqa, hqb, hq⟩ := hc.compositeQuery.none_or_some
      · simp [hqa, errorIf] at hquery
      · simp [hqb, errorIf]
    · obtain ⟨hqa, hqb⟩ | ⟨qa, qb, hqa, hqb, hq⟩ := hc.compositeQuery.none_or_some
      · rw [hqb]
        rfl
      · have hfalse : isAllQueriesDisabled (some qa) = false := by
          by_contra htrue
          simp [hqa, errorIf, htrue] at hdisabled
        rw [hqb, hq.allDisabled hfalse]
        rfl
    · rw [hothers]
      exact hthreshold

theorem PostableRule.Trims.taskError_eq (h : a.Trims b) : b.taskError = a.taskError := by
  rw [PostableRule.taskError, PostableRule.taskError, h.fields]
  obtain ⟨ha, hb⟩ | ⟨ca, cb, ha, hb, hc⟩ := h.ruleCondition.none_or_some
  · rw [ha, hb]
  · rw [ha, hb]
    simp only [constructorError, baseRuleError, Option.any_some, Option.all_some, Option.bind_some,
      hc.isValid_eq, hc.pqlQueryError_eq]
    rw [hc.others]

/-- The defaults of a rule that is read back. -/
theorem PostableRule.Trims.withDefaults (h : a.Trims b) {a' : PostableRule F}
    (ha : a.withDefaults = .ok a') : ∃ b', b.withDefaults = .ok b' ∧ a'.Trims b' := by
  obtain ⟨hca, hcb⟩ | ⟨ca, cb, hca, hcb, hc⟩ := h.ruleCondition.none_or_some
  · by_cases hexpr : a.expr = ""
    · rw [PostableRule.withDefaults_none hca hexpr] at ha
      obtain rfl := Except.ok.inj ha
      refine ⟨_, PostableRule.withDefaults_none hcb (h.fields ▸ hexpr), ?_⟩
      exact { h with fields := congrArg RuleFields.withWindows h.fields }
    · rw [PostableRule.withDefaults_legacy hca hexpr] at ha
      obtain rfl := Except.ok.inj ha
      refine ⟨_, PostableRule.withDefaults_legacy hcb (h.fields ▸ hexpr), ?_⟩
      refine ⟨congrArg RuleFields.legacy h.fields, ?_, h.labels, h.annotations,
        h.preferredChannels⟩
      rw [PostableRule.fromLegacy, PostableRule.fromLegacy, h.fields]
      exact .some (RuleCondition.trims_self _)
  · obtain ⟨hqa, hqb⟩ | ⟨qa, qb, hqa, hqb, hq⟩ := hc.compositeQuery.none_or_some
    · simp [PostableRule.withDefaults, hca, hqa] at ha
    · rw [PostableRule.withDefaults_filled hca hqa] at ha
      obtain rfl := Except.ok.inj ha
      refine ⟨_, PostableRule.withDefaults_filled hcb hqb, ?_⟩
      refine ⟨?_, .some hc.withExpressions, h.labels, h.annotations, h.preferredChannels⟩
      rw [PostableRule.filled, PostableRule.filled, h.fields, hq.queryType]

end PostableRule

/-- The rule as it was stored is patched again. -/
theorem parsedRule_json_again {parseTest : String → String → Option String} {p : RulePatch F}
    {r y : PostableRule F} (h : parsedRule parseTest p r = .ok y) (hwindows : ¬ ReplacedWindows r p) :
    ∃ y', parsedRule parseTest p y.json = .ok y' ∧ y.Trims y' := by
  have hagain := parsedRule_again h hwindows
  obtain ⟨y', hy', htrims⟩ := (y.trims_json.overwrite p).withDefaults hagain
  refine ⟨y', ?_, htrims⟩
  rw [parsedRule, hy']
  exact if_pos (htrims.validate (parsedRule_cases h).1)

end QueryService.Rules
