import BoringPanel.QueryService.Rules.ApiParams

/-!
# Patching a rule

`PatchRule` of `rules/manager.go`. The stored rule is decoded, the patch is decoded into a copy of its
struct (`parseIntoRule`), the task of the rule is replaced by one for the copy, and the copy is written
to the database; if that fails, the task is replaced by one for the stored rule again.

The struct and its copy share what their pointers point to (`Memory`), and so does a task, whose rule
keeps the pointer to the condition. The constructor of an anomaly rule changes the target of the
condition that it is given.
-/

namespace QueryService.Rules

variable {F : Type}

/-! ### Memory -/

/-- The stored rule and its copy, which gets the patch. -/
structure Memory (F : Type) where
  fields : Var → RuleFields
  ruleCondition : Pointers (RuleCondition F)
  labels : Pointers (Go.Map String)
  annotations : Pointers (Go.Map String)
  preferredChannels : Var → Option (List String)

/-- A struct with what its pointers point to. -/
def Memory.rule (m : Memory F) (v : Var) : PostableRule F where
  toRuleFields := m.fields v
  ruleCondition := m.ruleCondition.get v
  labels := m.labels.get v
  annotations := m.annotations.get v
  preferredChannels := m.preferredChannels v

/-- A rule that has been decoded, and copied. -/
def Memory.copied (r : PostableRule F) : Memory F where
  fields _ := r.toRuleFields
  ruleCondition := Pointers.copied r.ruleCondition
  labels := Pointers.copied r.labels
  annotations := Pointers.copied r.annotations
  preferredChannels _ := r.preferredChannels

/-- One of two variables is set. -/
def setVar {α : Type} (f : Var → α) (v : Var) (a : α) : Var → α := fun w => if w = v then a else f w

/-- What is left of a slice when another one is decoded into its array. -/
def overwriteArray (new : Change (List String)) (old : List String) : List String :=
  match new with
  | .set l => l.take old.length ++ old.drop l.length
  | _ => old

/-- The patch is decoded into the copy. -/
def Memory.decode (m : Memory F) (p : RulePatch F) : Memory F where
  fields := setVar m.fields .copy (p.fields (m.fields .copy))
  ruleCondition :=
    m.ruleCondition.decode RuleConditionPatch.apply RuleCondition.zero p.ruleCondition
  labels := m.labels.decode setEntries Go.Map.empty p.labels
  annotations := m.annotations.decode setEntries Go.Map.empty p.annotations
  preferredChannels
    | .original => (m.preferredChannels .original).map (overwriteArray p.preferredChannels)
    | .copy => p.preferredChannels.replace (m.preferredChannels .copy)

/-- The defaults are filled into the copy. -/
def Memory.withDefaults (m : Memory F) : Except RuleError (Memory F) :=
  let m := if (m.ruleCondition.get .copy).isNone ∧ (m.fields .copy).expr ≠ "" then
      { m with
        fields := setVar m.fields .copy (m.fields .copy).legacy
        ruleCondition := m.ruleCondition.setCopy (some (legacyCondition (m.fields .copy).expr)) }
    else m
  let m := { m with fields := setVar m.fields .copy (m.fields .copy).withWindows }
  match m.ruleCondition.get .copy with
  | none => .ok m
  | some c =>
    match c.compositeQuery with
    | none => .error .panic
    | some q => .ok { m with
        fields := setVar m.fields .copy { m.fields .copy with
          ruleType := defaultRuleType q.queryType (m.fields .copy).ruleType }
        ruleCondition := m.ruleCondition.modify RuleCondition.withExpressions .copy }

def parseIntoRule (parseTest : String → String → Option String) (m : Memory F) (p : RulePatch F) :
    Except RuleError (Memory F) :=
  match (m.decode p).withDefaults with
  | .error err => .error err
  | .ok m =>
    if (m.rule .copy).validate parseTest = [] then .ok m
    else .error (.invalid ((m.rule .copy).validate parseTest))

/-! ### Tasks -/

/-- Why there is no task. -/
inductive TaskError where
  | error (message : String)
  | panic
deriving DecidableEq

/-- A task with its rule, which keeps the pointer to the condition of a variable. -/
structure Task where
  frequency : Int
  ruleType : String
  name : String
  source : String
  typ : String
  ruleCondition : Var
  evalWindow : Int
  labels : Option (Go.Map String)
  annotations : Option (Go.Map String)
  preferredChannels : Var
  version : String

def CompositeQuery.hasPromQueries (q : CompositeQuery) : Bool :=
  match q.promQueries with
  | none => false
  | some m => !m.entries.isEmpty

/-- `RuleCondition.IsValid`. -/
def RuleCondition.isValid (c : RuleCondition F) : Bool :=
  match c.compositeQuery with
  | none => false
  | some q =>
    if q.queryType = queryTypeBuilder ∧ (c.target.isNone ∨ c.compareOp = "") then false
    else if q.queryType = queryTypePromQL ∧ ¬ q.hasPromQueries then false
    else true

/-- `getPqlQuery`: the text of an error, if there is no query. -/
def RuleCondition.pqlQueryError (c : RuleCondition F) : Option String :=
  match c.compositeQuery with
  | none => some "invalid promql rule query"
  | some q =>
    let selectedQuery := if c.selectedQuery ≠ "" then c.selectedQuery else "A"
    if q.queryType = queryTypePromQL ∧ q.hasPromQueries then
      match q.promQueries.bind fun m => m.lookup selectedQuery with
      | none => some "invalid promql rule query"
      | some promQuery =>
        if promQuery.query = "" then some "a promquery needs to be set for this rule to function"
        else none
    else some "invalid promql rule query"

/-- `NewBaseRule`, with the task around it. -/
def newBaseRule (m : Memory F) (v : Var) (version : String) : Except TaskError Task :=
  match m.ruleCondition.get v with
  | none => .error (.error "invalid rule condition")
  | some c =>
    if c.isValid then
      let r := m.fields v
      .ok { frequency := r.frequency, ruleType := r.ruleType, name := r.alertName, source := r.source,
            typ := r.alertType, ruleCondition := v,
            evalWindow := if r.evalWindow = 0 then fiveMinutes else r.evalWindow,
            labels := m.labels.get v, annotations := m.annotations.get v, preferredChannels := v,
            version := version }
    else .error (.error "invalid rule condition")

def newPromRule (m : Memory F) (v : Var) : Except TaskError Task :=
  match newBaseRule m v "" with
  | .error err => .error err
  | .ok task =>
    match (m.ruleCondition.get v).bind RuleCondition.pqlQueryError with
    | none => .ok task
    | some text => .error (.error text)

section Negation

variable [Neg F]

/-- The condition with its target negated. -/
def RuleCondition.negateTarget (c : RuleCondition F) : RuleCondition F :=
  { c with target := c.target.map (- ·) }

/-- `NewAnomalyRule`: below a negative bound is above its negative. -/
def newAnomalyRule (m : Memory F) (v : Var) : Memory F × Except TaskError Task :=
  match m.ruleCondition.get v with
  | none => (m, .error .panic)
  | some c =>
    if c.compareOp = valueIsBelow then
      if c.target.isNone then (m, .error .panic)
      else
        let m := { m with ruleCondition := m.ruleCondition.modify RuleCondition.negateTarget v }
        (m, newBaseRule m v "")
    else (m, newBaseRule m v "")

def prepareTaskFunc (m : Memory F) (v : Var) : Memory F × Except TaskError Task :=
  let ruleType := (m.fields v).ruleType
  if ruleType = ruleTypeThreshold then (m, newBaseRule m v (m.fields v).version)
  else if ruleType = ruleTypeProm then (m, newPromRule m v)
  else if ruleType = ruleTypeAnomaly then newAnomalyRule m v
  else (m, .error (.error ("unsupported rule type " ++ ruleType ++ ". Supported types: " ++
    ruleTypeProm ++ ", " ++ ruleTypeThreshold)))

/-- The task that runs under the name of the rule: one from before, or one that was made here. -/
inductive Running where
  | before
  | made (task : Task)

/-- `syncRuleStateWithTask`, with `addTask` and `editTask`. -/
def syncRuleStateWithTask (m : Memory F) (tasks : Option Running) (v : Var) :
    Memory F × Except TaskError (Option Running) :=
  if (m.fields v).disabled then (m, .ok none)
  else
    match prepareTaskFunc m v with
    | (m, .ok task) => (m, .ok (some (.made task)))
    | (m, .error .panic) => (m, .error .panic)
    | (m, .error (.error _)) =>
      if tasks.isNone then (m, .error (.error "error loading rules, previous rule set restored"))
      else (m, .error (.error
        "error preparing rule with given parameters, previous rule set restored"))

/-! ### The patch -/

/-- A map that is left out of a document where it is empty. -/
def omitEmptyMap {V : Type} (m : Option (Go.Map V)) : Option (Go.Map V) :=
  m.filter fun m => !m.entries.isEmpty

def CompositeQuery.json (q : CompositeQuery) : CompositeQuery :=
  { q with
    builderQueries := omitEmptyMap q.builderQueries
    clickHouseQueries := omitEmptyMap q.clickHouseQueries
    promQueries := omitEmptyMap q.promQueries }

def RuleCondition.json (c : RuleCondition F) : RuleCondition F :=
  { c with compositeQuery := c.compositeQuery.map CompositeQuery.json }

/-- The rule as `encoding/json` writes it, and reads it again. -/
def PostableRule.json (r : PostableRule F) : PostableRule F :=
  { r with
    ruleCondition := r.ruleCondition.map RuleCondition.json
    labels := omitEmptyMap r.labels
    annotations := omitEmptyMap r.annotations
    preferredChannels := r.preferredChannels.filter fun l => !l.isEmpty }

inductive PatchError where
  | rule (err : RuleError)
  | task (err : TaskError)
  | database
deriving DecidableEq

/-- What a patch leaves, and what it returns: the patched rule, disabled if it has no task. -/
structure Outcome (F : Type) where
  stored : PostableRule F
  memory : Memory F
  tasks : Option Running
  result : Except PatchError (PostableRule F)

/-- `PatchRule` for a rule that is stored; `written` says whether the database takes the new one. -/
def patchRule (parseTest : String → String → Option String) (stored : PostableRule F)
    (tasks : Option Running) (written : Bool) (ruleStr : RulePatch F) : Outcome F :=
  let m := Memory.copied stored
  match parseIntoRule parseTest m ruleStr with
  | .error err => ⟨stored, m, tasks, .error (.rule err)⟩
  | .ok m =>
    match syncRuleStateWithTask m tasks .copy with
    | (m, .error err) => ⟨stored, m, tasks, .error (.task err)⟩
    | (m, .ok tasks) =>
      if written then
        let patchedRule := m.rule .copy
        let response := if tasks.isNone then
            { patchedRule with toRuleFields := { patchedRule.toRuleFields with disabled := true } }
          else patchedRule
        ⟨patchedRule.json, m, tasks, .ok response⟩
      else
        -- The error of the restoration is only logged.
        match syncRuleStateWithTask m tasks .original with
        | (m, .ok tasks) => ⟨stored, m, tasks, .error .database⟩
        | (m, .error _) => ⟨stored, m, tasks, .error .database⟩

end Negation

end QueryService.Rules
