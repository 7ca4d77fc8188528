import BoringPanel.Lib.GoText
import BoringPanel.Lib.Pointers

/-!
# Alert rules as they are posted and stored

`PostableRule` of `rules/api_params.go`, the defaults that `parseIntoRule` fills in, and `Validate`. A
patch is the JSON document of a request: what it says of each attribute. Attributes inside of the
condition and of its composite query are attributes of their own, and so are the entries of a map, as
`encoding/json` decodes into what is there.
-/

namespace QueryService.Rules

/-! ### Rules -/

/-- What the rules read of a builder query; `other` is the JSON of its other fields. -/
structure BuilderQuery where
  aggregateAttributeKey : String
  expression : String
  disabled : Bool
  other : String
deriving DecidableEq

structure ClickHouseQuery where
  query : String
  disabled : Bool
  legend : String
deriving DecidableEq

structure PromQuery where
  query : String
  stats : String
  disabled : Bool
  legend : String
deriving DecidableEq

structure CompositeQuery where
  builderQueries : Option (Go.Map BuilderQuery)
  clickHouseQueries : Option (Go.Map ClickHouseQuery)
  promQueries : Option (Go.Map PromQuery)
  panelType : String
  queryType : String
  unit : String
  fillGaps : Bool

/-- The `QueryType` constants. -/
def queryTypeBuilder : String := "builder"
def queryTypeClickHouseSQL : String := "clickhouse_sql"
def queryTypePromQL : String := "promql"

/-- `ValueIsBelow`, of the compare operators. -/
def valueIsBelow : String := "2"

structure RuleCondition (F : Type) where
  compositeQuery : Option CompositeQuery
  compareOp : String
  target : Option F
  alertOnAbsent : Bool
  absentFor : Nat
  matchType : String
  targetUnit : String
  algorithm : String
  seasonality : String
  selectedQuery : String
  requireMinPoints : Bool
  requiredNumPoints : Int

/-- The `RuleType` constants. -/
def ruleTypeThreshold : String := "threshold_rule"
def ruleTypeProm : String := "promql_rule"
def ruleTypeAnomaly : String := "anomaly_rule"

/-- The fields of a rule that hold no pointer. Durations are in nanoseconds. -/
structure RuleFields where
  alertName : String
  alertType : String
  description : String
  ruleType : String
  evalWindow : Int
  frequency : Int
  disabled : Bool
  source : String
  version : String
  expr : String
  oldYaml : String
deriving DecidableEq

structure PostableRule (F : Type) extends RuleFields where
  ruleCondition : Option (RuleCondition F)
  labels : Option (Go.Map String)
  annotations : Option (Go.Map String)
  preferredChannels : Option (List String)

/-! ### Patches -/

structure CompositeQueryPatch where
  builderQueries : Change (Go.Map BuilderQuery)
  clickHouseQueries : Change (Go.Map ClickHouseQuery)
  promQueries : Change (Go.Map PromQuery)
  panelType : Option String
  queryType : Option String
  unit : Option String
  fillGaps : Option Bool

structure RuleConditionPatch (F : Type) where
  compositeQuery : Change CompositeQueryPatch
  compareOp : Option String
  target : Change F
  alertOnAbsent : Option Bool
  absentFor : Option Nat
  matchType : Option String
  targetUnit : Option String
  algorithm : Option String
  seasonality : Option String
  selectedQuery : Option String
  requireMinPoints : Option Bool
  requiredNumPoints : Option Int

structure RulePatch (F : Type) where
  alertName : Option String
  alertType : Option String
  description : Option String
  ruleType : Option String
  evalWindow : Option Int
  frequency : Option Int
  disabled : Option Bool
  source : Option String
  version : Option String
  expr : Option String
  oldYaml : Option String
  ruleCondition : Change (RuleConditionPatch F)
  labels : Change (Go.Map String)
  annotations : Change (Go.Map String)
  preferredChannels : Change (List String)

/-- The entries of an object are put into a map. -/
def setEntries {V : Type} (new m : Go.Map V) : Go.Map V := m.setAll new.entries

/-- A map attribute with what a patch says of it. -/
def applyMap {V : Type} (c : Change (Go.Map V)) (m : Option (Go.Map V)) : Option (Go.Map V) :=
  c.apply setEntries Go.Map.empty m

def CompositeQueryPatch.apply (p : CompositeQueryPatch) (q : CompositeQuery) : CompositeQuery where
  builderQueries := applyMap p.builderQueries q.builderQueries
  clickHouseQueries := applyMap p.clickHouseQueries q.clickHouseQueries
  promQueries := applyMap p.promQueries q.promQueries
  panelType := p.panelType.getD q.panelType
  queryType := p.queryType.getD q.queryType
  unit := p.unit.getD q.unit
  fillGaps := p.fillGaps.getD q.fillGaps

/-- `CompositeQuery{}`. -/
def CompositeQuery.zero : CompositeQuery := ⟨none, none, none, "", "", "", false⟩

section Condition

variable {F : Type}

def RuleConditionPatch.apply (p : RuleConditionPatch F) (c : RuleCondition F) : RuleCondition F where
  compositeQuery :=
    p.compositeQuery.apply CompositeQueryPatch.apply CompositeQuery.zero c.compositeQuery
  compareOp := p.compareOp.getD c.compareOp
  target := p.target.replace c.target
  alertOnAbsent := p.alertOnAbsent.getD c.alertOnAbsent
  absentFor := p.absentFor.getD c.absentFor
  matchType := p.matchType.getD c.matchType
  targetUnit := p.targetUnit.getD c.targetUnit
  algorithm := p.algorithm.getD c.algorithm
  seasonality := p.seasonality.getD c.seasonality
  selectedQuery := p.selectedQuery.getD c.selectedQuery
  requireMinPoints := p.requireMinPoints.getD c.requireMinPoints
  requiredNumPoints := p.requiredNumPoints.getD c.requiredNumPoints

/-- `RuleCondition{}`. -/
def RuleCondition.zero : RuleCondition F :=
  ⟨none, "", none, false, 0, "", "", "", "", "", false, 0⟩

def RulePatch.fields (p : RulePatch F) (r : RuleFields) : RuleFields where
  alertName := p.alertName.getD r.alertName
  alertType := p.alertType.getD r.alertType
  description := p.description.getD r.description
  ruleType := p.ruleType.getD r.ruleType
  evalWindow := p.evalWindow.getD r.evalWindow
  frequency := p.frequency.getD r.frequency
  disabled := p.disabled.getD r.disabled
  source := p.source.getD r.source
  version := p.version.getD r.version
  expr := p.expr.getD r.expr
  oldYaml := p.oldYaml.getD r.oldYaml

/-- A rule overwritten with a patch, attribute by attribute. -/
def RulePatch.overwrite (p : RulePatch F) (r : PostableRule F) : PostableRule F where
  toRuleFields := p.fields r.toRuleFields
  ruleCondition := p.ruleCondition.apply RuleConditionPatch.apply RuleCondition.zero r.ruleCondition
  labels := applyMap p.labels r.labels
  annotations := applyMap p.annotations r.annotations
  preferredChannels := p.preferredChannels.replace r.preferredChannels

end Condition

/-! ### Defaults -/

/-- `5 * time.Minute` and `1 * time.Minute`. -/
def fiveMinutes : Int := 5 * 60 * 10 ^ 9
def oneMinute : Int := 60 * 10 ^ 9

section Defaults

variable {F : Type}

/-- The condition of a legacy rule, of which there is only an expression. -/
def legacyCondition (expr : String) : RuleCondition F :=
  { RuleCondition.zero with
    compositeQuery := some { CompositeQuery.zero with
      queryType := queryTypePromQL
      promQueries := some (Go.Map.empty.set "A" ⟨expr, "", false, ""⟩) } }

/-- A query that aggregates an attribute is its own expression where it has none. -/
def withExpression (qLabel : String) (q : BuilderQuery) : BuilderQuery :=
  if q.aggregateAttributeKey ≠ "" ∧ q.expression = "" then { q with expression := qLabel } else q

def CompositeQuery.withExpressions (q : CompositeQuery) : CompositeQuery :=
  { q with builderQueries := q.builderQueries.map (Go.Map.mapKeyValues withExpression) }

def RuleCondition.withExpressions (c : RuleCondition F) : RuleCondition F :=
  { c with compositeQuery := c.compositeQuery.map CompositeQuery.withExpressions }

/-- The rule type that a kind of query implies. -/
def defaultRuleType (queryType ruleType : String) : String :=
  if queryType = queryTypeBuilder then if ruleType = "" then ruleTypeThreshold else ruleType
  else if queryType = queryTypePromQL then ruleTypeProm
  else ruleType

/-- The fields of a legacy rule. -/
def RuleFields.legacy (r : RuleFields) : RuleFields :=
  { r with ruleType := ruleTypeProm, evalWindow := fiveMinutes, frequency := oneMinute }

/-- The windows that are not given. -/
def RuleFields.withWindows (r : RuleFields) : RuleFields :=
  { r with
    evalWindow := if r.evalWindow = 0 then fiveMinutes else r.evalWindow
    frequency := if r.frequency = 0 then oneMinute else r.frequency }

end Defaults

/-! ### Validation -/

/-- Why a rule is refused: the texts of the errors, or a panic. -/
inductive RuleError where
  | invalid (errors : List String)
  | panic
deriving DecidableEq

def isLabelLetter (c : Char) : Bool := ('a' ≤ c ∧ c ≤ 'z') ∨ ('A' ≤ c ∧ c ≤ 'Z') ∨ c = '_'

def isValidLabelName (ln : String) : Bool :=
  match ln.toList with
  | [] => false
  | c :: rest => isLabelLetter c && rest.all fun d => isLabelLetter d || ('0' ≤ d ∧ d ≤ '9')

/-- The queries of a kind are all disabled, and there are some. -/
def allDisabled {V : Type} (disabled : V → Bool) (queries : Option (Go.Map V)) : Bool :=
  match queries with
  | none => false
  | some m => !m.entries.isEmpty && m.entries.all fun e => disabled e.2

def isAllQueriesDisabled (compositeQuery : Option CompositeQuery) : Bool :=
  match compositeQuery with
  | none => false
  | some q =>
    if q.builderQueries.isNone ∧ q.promQueries.isNone ∧ q.clickHouseQueries.isNone then false
    else if q.queryType = queryTypeBuilder then allDisabled BuilderQuery.disabled q.builderQueries
    else if q.queryType = queryTypePromQL then allDisabled PromQuery.disabled q.promQueries
    else if q.queryType = queryTypeClickHouseSQL then
      allDisabled ClickHouseQuery.disabled q.clickHouseQueries
    -- The switch has no other case, and the function ends with true.
    else true

section Validate

variable {F : Type}

/-- The text of an error where a condition holds. -/
def errorIf (b : Bool) (text : String) : List String := if b then [text] else []

/-- The keys of a map, or its values. -/
def mapKeys {V : Type} (m : Option (Go.Map V)) : List String :=
  m.toList.flatMap fun m => m.entries.map Prod.fst

def mapValues {V : Type} (m : Option (Go.Map V)) : List V :=
  m.toList.flatMap fun m => m.entries.map Prod.snd

/-- `testTemplateParsing`: `parseTest` is the template parser, for the name of an alert. -/
def testTemplateParsing (parseTest : String → String → Option String) (r : PostableRule F) :
    List String :=
  if r.alertName = "" then []
  else (mapValues r.labels ++ mapValues r.annotations).filterMap fun text =>
    (parseTest r.alertName text).map fun err => "msg=" ++ err

/-- The errors of `Validate`. Label values are texts, and so valid UTF-8. -/
def PostableRule.validate (parseTest : String → String → Option String) (r : PostableRule F) :
    List String :=
  match r.ruleCondition with
  | none => ["rule condition is required"]
  | some c =>
    errorIf c.compositeQuery.isNone "composite metric query is required" ++
      errorIf (isAllQueriesDisabled c.compositeQuery) "all queries are disabled in rule condition" ++
      (if r.ruleType = ruleTypeThreshold then
        errorIf c.target.isNone "rule condition missing the threshold" ++
          errorIf (c.compareOp = "") "rule condition missing the compare op" ++
          errorIf (c.matchType = "") "rule condition missing the match option"
      else []) ++
      ((mapKeys r.labels).filter fun k => !isValidLabelName k).map ("invalid label name: " ++ ·) ++
      ((mapKeys r.annotations).filter fun k => !isValidLabelName k).map
        ("invalid annotation name: " ++ ·) ++
      testTemplateParsing parseTest r

/-- The defaults of `parseIntoRule`, on a rule that has been decoded. -/
def PostableRule.withDefaults (r : PostableRule F) : Except RuleError (PostableRule F) :=
  let r := if r.ruleCondition.isNone ∧ r.expr ≠ "" then
      { r with toRuleFields := r.toRuleFields.legacy, ruleCondition := some (legacyCondition r.expr) }
    else r
  let r := { r with toRuleFields := r.toRuleFields.withWindows }
  match r.ruleCondition with
  | none => .ok r
  | some c =>
    match c.compositeQuery with
    | none => .error .panic
    | some q => .ok { r with
        ruleType := defaultRuleType q.queryType r.ruleType
        ruleCondition := some c.withExpressions }

/-- The rule that a document overwrites another one to, with the defaults and if it is valid. -/
def parsedRule (parseTest : String → String → Option String) (p : RulePatch F)
    (r : PostableRule F) : Except RuleError (PostableRule F) :=
  match (p.overwrite r).withDefaults with
  | .error err => .error err
  | .ok r => if r.validate parseTest = [] then .ok r else .error (.invalid (r.validate parseTest))

end Validate

end QueryService.Rules
