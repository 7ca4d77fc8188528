import BoringPanel.Lib.Go
import BoringPanel.QueryService.Rules.Alerting

/-!
# The evaluation of a threshold rule

`ThresholdRule.Eval` of `rules/threshold_rule.go`, from the result of the query on, and the parts of
`rules/base_rule.go` that it shares with other rules: the alerts in memory, `SendAlerts`, and
`RecordRuleStateHistory`. A `range` over the alerts visits them in any order (`RangeOrder`). Templates
and number formats are a parameter, and so is what the store of the history answers.
-/

namespace QueryService.Rules

variable {F : Type}

/-! ### The rule -/

/-- What texts with templates are expanded with: labels, value and threshold. -/
structure Templates (F : Type) where
  /-- `valueFormatter.Format` of a value and of the threshold. -/
  format : F → String
  threshold : String
  expand : Go.Time → Labels → String → String → String → String
  /-- The annotation with a link to traces or logs, if the rule has one. -/
  relatedLink : Go.Time → Labels → Option Label

/-- What a threshold rule keeps of its definition. -/
structure ThresholdRule where
  id : String
  name : String
  generatorURL : String
  labels : Labels
  annotations : Labels
  preferredChannels : List String
  holdDuration : Go.Duration

/-- `NewBaseRule`: no duration for which an alert is held is ever set. -/
def ThresholdRule.new (id name generatorURL : String) (labels annotations : Labels)
    (preferredChannels : List String) : ThresholdRule :=
  { id, name, generatorURL, labels, annotations, preferredChannels, holdDuration := 0 }

/-- What a rule keeps between evaluations. -/
structure RuleState (F : Type) where
  active : Go.Table UInt64 (Alert F)
  handledRestart : Bool

def RuleState.init : RuleState F := ⟨Go.Table.empty, false⟩

/-- `State`. -/
def maxState (active : Go.Table UInt64 (Alert F)) : AlertState :=
  active.entries.foldl (fun s e => if s.toNat < e.2.state.toNat then e.2.state else s) .inactive

/-! ### Recording the history -/

/-- What the store of the history does: the last saved row of each fingerprint, or an error, and
whether it takes new rows. -/
structure HistoryStore (F : Type) where
  lastSaved : Option (List (RuleStateHistory F))
  writes : Bool
  now : Go.Time

/-- The rows by their fingerprints. The last one of a fingerprint stays. -/
def byFingerprint (items : List (RuleStateHistory F)) : Go.Table UInt64 (RuleStateHistory F) :=
  items.foldl (fun l item => l.set item.fingerprint item) Go.Table.empty

/-- The change that the last saved row of a fingerprint needs, if it needs one. -/
def savedChange (now : Go.Time) (l : Go.Table UInt64 (RuleStateHistory F))
    (item : RuleStateHistory F) : Option (RuleStateHistory F) :=
  match l.lookup item.fingerprint with
  | none =>
    -- the fingerprint was alerting, and is not any more
    if item.state.alerting then
      some { item with state := .inactive, stateChanged := true, unixMilli := now.unixMilli }
    else none
  | some currentState =>
    if item.state ≠ currentState.state then
      some { item with
        state := currentState.state, stateChanged := true, unixMilli := now.unixMilli }
    else none

/-- A saved row is changed if it needs to be. -/
def addChange (now : Go.Time) (l revised : Go.Table UInt64 (RuleStateHistory F))
    (item : RuleStateHistory F) : Go.Table UInt64 (RuleStateHistory F) :=
  match savedChange now l item with
  | some item => revised.set item.fingerprint item
  | none => revised

/-- A row of the evaluation is added if its fingerprint is not done with. -/
def addUnsaved (shouldSkip : List UInt64) (revised : Go.Table UInt64 (RuleStateHistory F))
    (item : RuleStateHistory F) : Go.Table UInt64 (RuleStateHistory F) :=
  if (revised.lookup item.fingerprint).isNone ∧ item.fingerprint ∉ shouldSkip then
    revised.set item.fingerprint item
  else revised

/-- The rows to write at the first evaluation, for rows that are saved. -/
def reviseItems (now : Go.Time) (lastSavedState items : List (RuleStateHistory F)) :
    Go.Table UInt64 (RuleStateHistory F) :=
  let revised := lastSavedState.foldl (addChange now (byFingerprint items)) Go.Table.empty
  items.foldl (addUnsaved (lastSavedState.map RuleStateHistory.fingerprint)) revised

/-- The overall state after a restart, from the rows that are written. -/
def revisedState (revised : Go.Table UInt64 (RuleStateHistory F)) : AlertState :=
  if revised.entries.any fun e => e.2.state.alerting then .firing else .inactive

/-- The rows of a restart, with the overall state where it is not that of the first saved row. -/
def restartItems (now : Go.Time) (first : RuleStateHistory F)
    (lastSavedState items : List (RuleStateHistory F)) : Go.Table UInt64 (RuleStateHistory F) :=
  let revised := reviseItems now lastSavedState items
  let newState := revisedState revised
  if first.overallState ≠ newState then
    revised.sweep fun _ item => some { item with overallState := newState, overallStateChanged := true }
  else revised

/-- The rows to write. Where nothing is saved, there is nothing to make up for. -/
def revisedItems (now : Go.Time) (handledRestart : Bool)
    (lastSavedState items : List (RuleStateHistory F)) : Go.Table UInt64 (RuleStateHistory F) :=
  match handledRestart, lastSavedState with
  | false, first :: _ => restartItems now first lastSavedState items
  | _, _ => byFingerprint items

/-- `RecordRuleStateHistory`: the rows that are written, and whether a restart has been handled. -/
def recordRuleStateHistory (store : HistoryStore F) (handledRestart : Bool)
    (itemsToAdd : List (RuleStateHistory F)) : List (RuleStateHistory F) × Bool :=
  match store.lastSaved with
  -- the error is returned to `Eval`, which goes on
  | none => ([], handledRestart)
  | some lastSavedState =>
    let revised := revisedItems store.now handledRestart lastSavedState itemsToAdd
    (if store.writes then revised.entries.map Prod.snd else [], true)

/-! ### Evaluation -/

/-- A sample of the result of the query. -/
structure Sample (F : Type) where
  metric : Labels
  v : F
  isMissing : Bool

inductive EvalError where
  | query
  | duplicate
deriving DecidableEq, Repr

namespace ThresholdRule

section Alerts

variable (xxhash : List UInt8 → UInt64) (rule : ThresholdRule) (templates : Templates F) (ts : Go.Time)

/-- The labels of a sample without the ones of the query. -/
def resultLabels (smpl : Sample F) : Labels :=
  (((Builder.new smpl.metric).delete metricNameLabel).delete temporalityLabel).labels

def expand (smpl : Sample F) (text : String) : String :=
  templates.expand ts smpl.metric (templates.format smpl.v) templates.threshold text

/-- The labels of the alert for a sample. -/
def alertLabels (smpl : Sample F) : Labels :=
  let lb := ((Builder.new smpl.metric).delete metricNameLabel).delete temporalityLabel
  let lb := rule.labels.foldl (fun lb l => lb.set l.name (expand templates ts smpl l.value)) lb
  let lb := lb.set alertNameLabel rule.name
  let lb := lb.set alertRuleIdLabel rule.id
  let lb := lb.set ruleSourceLabel rule.generatorURL
  let lb := if smpl.isMissing then lb.set alertNameLabel ("[No data] " ++ rule.name) else lb
  lb.labels

/-- The alert for a sample. -/
def newAlert (smpl : Sample F) : Alert F where
  state := .pending
  labels := rule.alertLabels templates ts smpl
  annotations := (rule.annotations.map fun l => ⟨l.name, expand templates ts smpl l.value⟩) ++
    (templates.relatedLink ts smpl.metric).toList
  queryResultLables := resultLabels smpl
  generatorURL := rule.generatorURL
  receivers := rule.preferredChannels
  value := smpl.v
  activeAt := ts
  firedAt := Go.Time.zero
  resolvedAt := Go.Time.zero
  lastSentAt := Go.Time.zero
  validUntil := Go.Time.zero
  missing := smpl.isMissing

/-- The alert for one more sample, by the hash of its labels. -/
def addResult (alerts : Go.Table UInt64 (Alert F)) (smpl : Sample F) :
    Except EvalError (Go.Table UInt64 (Alert F)) :=
  let a := rule.newAlert templates ts smpl
  if (alerts.lookup (Labels.hash xxhash a.labels)).isSome then .error .duplicate
  else .ok (alerts.set (Labels.hash xxhash a.labels) a)

def resultAlerts : List (Sample F) → Except EvalError (Go.Table UInt64 (Alert F)) :=
  List.foldlM (rule.addResult xxhash templates ts) Go.Table.empty

/-- An alert of the result enters the alerts in memory, or updates the one that is there. -/
def addAlert (active : Go.Table UInt64 (Alert F)) (h : UInt64) (a : Alert F) :
    Go.Table UInt64 (Alert F) :=
  match active.lookup h with
  | some alert =>
    if alert.state ≠ .inactive then
      active.set h { alert with
        value := a.value, annotations := a.annotations, receivers := rule.preferredChannels }
    else active.set h a
  | none => active.set h a

/-- A row of the history, before the overall state is known. -/
def historyItem (a : Alert F) (state : AlertState) : RuleStateHistory F where
  ruleID := rule.id
  ruleName := rule.name
  overallState := .inactive
  overallStateChanged := false
  state := state
  stateChanged := true
  unixMilli := ts.unixMilli
  labels := a.queryResultLables
  fingerprint := Labels.hash xxhash a.queryResultLables
  value := a.value

/-- What becomes of an alert in memory, of which the result has one with the same hash or not. -/
def visit (inResult : Bool) (a : Alert F) : Option (Alert F) :=
  if inResult then
    if a.state = .pending ∧ rule.holdDuration.toInt ≤ ts.sub a.activeAt then
      some { a with state := .firing, firedAt := ts }
    else some a
  else if a.state = .pending ∨ a.resolvedAt.isZero = false ∧ resolvedRetention < ts.sub a.resolvedAt then
    none
  else if a.state ≠ .inactive then some { a with state := .inactive, resolvedAt := ts }
  else some a

/-- The row of the history for what becomes of an alert. -/
def visitItem (inResult : Bool) (a : Alert F) : Option (RuleStateHistory F) :=
  if inResult then
    if a.state = .pending ∧ rule.holdDuration.toInt ≤ ts.sub a.activeAt then
      some (rule.historyItem xxhash ts a (if a.missing then .noData else .firing))
    else none
  else if a.state ≠ .inactive then some (rule.historyItem xxhash ts a .inactive)
  else none

end Alerts

/-- `Eval`, for the result of the query: the rows that are written, and the state that is left. -/
def eval (xxhash : List UInt8 → UInt64) (rule : ThresholdRule) (templates : Templates F)
    (range : Go.Table.RangeOrder UInt64 (Alert F)) (store : HistoryStore F) (ts : Go.Time)
    (res : Except EvalError (List (Sample F))) (s : RuleState F) :
    Except EvalError (RuleState F × List (RuleStateHistory F)) := do
  let prevState := maxState s.active
  let samples ← res
  let alerts ← rule.resultAlerts xxhash templates ts samples
  let active := alerts.entries.foldl (fun active e => rule.addAlert active e.1 e.2) s.active
  let visited := range.visited active
  let active := visited.sweep fun h a => rule.visit ts (alerts.lookup h).isSome a
  let itemsToAdd := visited.entries.filterMap fun e =>
    rule.visitItem xxhash ts (alerts.lookup e.1).isSome e.2
  let currentState := maxState active
  let itemsToAdd := itemsToAdd.map fun item => { item with
    overallStateChanged := currentState ≠ prevState, overallState := currentState }
  let (written, handledRestart) := recordRuleStateHistory store s.handledRestart itemsToAdd
  return (⟨active, handledRestart⟩, written)

/-- An alert that is sent. -/
def markSent (ts : Go.Time) (resendDelay interval : Go.Duration) (a : Alert F) : Alert F :=
  let delta := if interval > resendDelay then interval else resendDelay
  { a with lastSentAt := ts, validUntil := ts.add (4 * delta) }

/-- `SendAlerts`: the alerts that the notifier gets, and the alerts in memory after it. -/
def sendAlerts (range : Go.Table.RangeOrder UInt64 (Alert F)) (ts : Go.Time)
    (resendDelay interval : Go.Duration) (active : Go.Table UInt64 (Alert F)) :
    List (Alert F) × Go.Table UInt64 (Alert F) :=
  let visited := range.visited active
  ((visited.entries.filter fun e => e.2.needsSending ts resendDelay).map fun e =>
      markSent ts resendDelay interval e.2,
    visited.sweep fun _ a =>
      if a.needsSending ts resendDelay then some (markSent ts resendDelay interval a) else some a)

end ThresholdRule

end QueryService.Rules
