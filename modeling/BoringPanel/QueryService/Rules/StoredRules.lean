import BoringPanel.QueryService.Rules.Alerting
import BoringPanel.QueryService.Rules.Manager
import BoringPanel.QueryService.Rules.RestoredTask

/-!
# The stored rules and their tasks

`CreateRule`, `EditRule`, `PatchRule` and `DeleteRule` of `rules/manager.go`, one call at a time, with
what the database answers. A rule that runs has alerts, of type `A`; a task that replaces another one
may take them over (`CopyState`).
-/

namespace QueryService.Rules

variable {F A : Type}

/-! ### Rules that run -/

structure EvaluatedRule (F A : Type) where
  runs : RunningRule F
  alerts : A

/-- What `CopyState` compares. -/
structure RuleKey where
  ruleType : String
  name : String
  labels : Labels
deriving DecidableEq

/-- `FromMap`. -/
def fromMap (m : Option (Go.Map String)) : Labels :=
  Labels.sort ((m.toList.flatMap Go.Map.entries).map fun e => ⟨e.1, e.2⟩)

def RunningRule.key (r : RunningRule F) : RuleKey := ⟨r.ruleType, r.name, fromMap r.labels⟩

def Task.key (t : Task) : RuleKey := ⟨t.ruleType, t.name, fromMap t.labels⟩

/-- `CopyState` copies the alerts: both are threshold rules, or both are rules of Prometheus, with one
name and the same labels. -/
def RuleKey.copies (old new : RuleKey) : Bool :=
  new = old ∧ (new.ruleType = ruleTypeThreshold ∨ new.ruleType = ruleTypeProm)

/-- A rule that the manager holds while a call runs: one from before, or one that was made for a task in
the memory of the call. -/
inductive HeldRule (F A : Type) where
  | before (rule : EvaluatedRule F A)
  | made (task : Task) (alerts : A)

namespace HeldRule

def key : HeldRule F A → RuleKey
  | before rule => rule.runs.key
  | made task _ => task.key

def alerts : HeldRule F A → A
  | before rule => rule.alerts
  | made _ alerts => alerts

def copyState (new old : HeldRule F A) : HeldRule F A :=
  match new with
  | before rule => before rule
  | made task alerts => made task (if old.key.copies task.key then old.alerts else alerts)

/-- The rule with what its pointers point to. -/
def resolve (m : Memory F) : HeldRule F A → EvaluatedRule F A
  | before rule => rule
  | made task alerts => ⟨m.running task, alerts⟩

end HeldRule

def Manager.map {O O' : Type} (f : O → O') (m : Manager O) : Manager O' where
  tasks n := (m.tasks n).map f
  rules id := (m.rules id).map f

section Sync

variable [Neg F] (noAlerts : A)

/-- `prepareTaskFunc`, for a rule without alerts. -/
def prepareHeldRule (m : Memory F) (v : Var) : Memory F × Except TaskError (HeldRule F A) :=
  let p := prepareTaskFunc m v
  (p.1, p.2.map fun task => .made task noAlerts)

/-- `syncRuleStateWithTask`. -/
def Manager.syncRuleStateWithTask (mgr : Manager (HeldRule F A)) (m : Memory F) (taskName : String)
    (v : Var) : Memory F × Manager (HeldRule F A) × Except TaskError Unit :=
  if (m.fields v).disabled then
    (m, if (mgr.tasks taskName).isSome then mgr.deleteTask taskName else mgr, .ok ())
  else
    let p := prepareHeldRule noAlerts m v
    if (mgr.tasks taskName).isNone then (p.1, mgr.addTask taskName p.2)
    else (p.1, mgr.editTask taskName HeldRule.copyState p.2)

end Sync

/-! ### Calls -/

/-- `PostableRule{}`. -/
def PostableRule.zero : PostableRule F where
  alertName := ""
  alertType := ""
  description := ""
  ruleType := ""
  evalWindow := 0
  frequency := 0
  disabled := false
  source := ""
  version := ""
  expr := ""
  oldYaml := ""
  ruleCondition := none
  labels := none
  annotations := none
  preferredChannels := none

/-- The stored rules, by their ids, with the tasks and the rules of the manager. -/
structure ManagerState (F A : Type) where
  stored : Int → Option (PostableRule F)
  manager : Manager (EvaluatedRule F A)

inductive CallError where
  /-- The text is not the document of a rule. -/
  | json
  | rule (err : RuleError)
  | id (message : String)
  | task (err : TaskError)
  | database
deriving DecidableEq

/-- The call does not return. -/
def CallError.panics : CallError → Bool
  | .rule .panic => true
  | .task .panic => true
  | _ => false

/-- The calls, with what the database answers. The text of a rule is a document, or is not. -/
inductive Call (F : Type) where
  /-- The id of the new row, and whether the transaction is committed. -/
  | create (ruleStr : Option (RulePatch F)) (lastInsertId : Option Int) (committed : Bool)
  | edit (ruleStr : Option (RulePatch F)) (id : String) (written : Bool)
  | patch (ruleStr : Option (RulePatch F)) (ruleId : String) (read written : Bool)
  | delete (id : String) (written : Bool)

section Calls

variable [Neg F] (noAlerts : A) (disableRules : Bool) (parseTest : String → String → Option String)

/-- `ParsePostableRule`. -/
def parsePostableRule (ruleStr : Option (RulePatch F)) : Except CallError (Memory F) :=
  match ruleStr with
  | none => .error .json
  | some p =>
    match parseIntoRule parseTest (Memory.copied PostableRule.zero) p with
    | .error err => .error (.rule err)
    | .ok m => .ok m

/-- The row that the text makes, which is stored as it is. -/
def storedRow (ruleStr : Option (RulePatch F)) : PostableRule F :=
  (ruleStr.map fun p => p.overwrite PostableRule.zero).getD PostableRule.zero

namespace ManagerState

variable (s : ManagerState F A)

/-- The manager at the start of a call. -/
def held : Manager (HeldRule F A) := s.manager.map .before

/-- The manager at the end of a call. -/
def resolved (m : Memory F) (mgr : Manager (HeldRule F A)) : Manager (EvaluatedRule F A) :=
  mgr.map (HeldRule.resolve m)

def createRule (ruleStr : Option (RulePatch F)) (lastInsertId : Option Int) (committed : Bool) :
    ManagerState F A × Except CallError Unit :=
  match parsePostableRule parseTest ruleStr with
  | .error err => (s, .error err)
  | .ok m =>
    match lastInsertId with
    | none => (s, .error .database)
    | some id =>
      let inserted := Function.update s.stored id (some (storedRow ruleStr))
      if disableRules then
        if committed then ({ s with stored := inserted }, .ok ()) else (s, .error .database)
      else
        let p := prepareHeldRule noAlerts m .copy
        match s.held.addTask (prepareTaskName (toString id)) p.2 with
        -- `tx.Rollback()`
        | (mgr, .error err) => ({ s with manager := resolved p.1 mgr }, .error (.task err))
        | (mgr, .ok ()) =>
          if committed then ({ stored := inserted, manager := resolved p.1 mgr }, .ok ())
          else ({ s with manager := resolved p.1 mgr }, .error .database)

/-- `UPDATE rules SET data=$3 WHERE id=$4`. -/
def updateRow (id : Int) (row : PostableRule F) : Int → Option (PostableRule F) :=
  Function.update s.stored id ((s.stored id).map fun _ => row)

def editRule (ruleStr : Option (RulePatch F)) (id : String) (written : Bool) :
    ManagerState F A × Except CallError Unit :=
  match parsePostableRule parseTest ruleStr with
  | .error err => (s, .error err)
  | .ok m =>
    -- `EditRuleTx` does not look at the error of `strconv.Atoi`.
    if Go.atoi id = 0 then (s, .error (.id "failed to read alert id from parameters"))
    else if written then
      let row := s.updateRow (Go.atoi id) (storedRow ruleStr)
      if disableRules then ({ s with stored := row }, .ok ())
      else
        match s.held.syncRuleStateWithTask noAlerts m
            (prepareTaskName (toString (Go.atoi id))) .copy with
        | (m, mgr, .error err) => ({ stored := row, manager := resolved m mgr }, .error (.task err))
        | (m, mgr, .ok ()) => ({ stored := row, manager := resolved m mgr }, .ok ())
    else (s, .error .database)

def patchRule (ruleStr : Option (RulePatch F)) (ruleId : String) (read written : Bool) :
    ManagerState F A × Except CallError Unit :=
  if ruleId = "" then (s, .error (.id "id is mandatory for patching rule"))
  else
    match Go.parseInt ruleId with
    | none => (s, .error (.id "invalid id parameter"))
    | some id =>
      match if read then s.stored id else none with
      | none => (s, .error .database)
      | some storedRule =>
        match ruleStr with
        | none => (s, .error .json)
        | some p =>
          match parseIntoRule parseTest (Memory.copied storedRule) p with
          | .error err => (s, .error (.rule err))
          | .ok m =>
            match s.held.syncRuleStateWithTask noAlerts m
                (prepareTaskName ruleId) .copy with
            | (m, mgr, .error err) => ({ s with manager := resolved m mgr }, .error (.task err))
            | (m, mgr, .ok ()) =>
              if written then
                ({ stored := s.updateRow id (m.rule .copy).json, manager := resolved m mgr }, .ok ())
              else
                -- The error of the restoration is only logged.
                match mgr.syncRuleStateWithTask noAlerts m (prepareTaskName ruleId) .original with
                | (m, mgr, .error .panic) =>
                  ({ s with manager := resolved m mgr }, .error (.task .panic))
                | (m, mgr, _) => ({ s with manager := resolved m mgr }, .error .database)

def deleteRule (id : String) (written : Bool) : ManagerState F A × Except CallError Unit :=
  match Go.parseInt id with
  | none => (s, .error
      (.id "delete rule received an rule id in invalid format, must be a number"))
  | some n =>
    let mgr := if disableRules then s.manager else s.manager.deleteTask (prepareTaskName (toString n))
    if written then (⟨Function.update s.stored n none, mgr⟩, .ok ())
    else ({ s with manager := mgr }, .error .database)

def run : Call F → ManagerState F A × Except CallError Unit
  | .create ruleStr lastInsertId committed =>
    s.createRule noAlerts disableRules parseTest ruleStr lastInsertId committed
  | .edit ruleStr id written => s.editRule noAlerts disableRules parseTest ruleStr id written
  | .patch ruleStr ruleId read written => s.patchRule noAlerts parseTest ruleStr ruleId read written
  | .delete id written => s.deleteRule disableRules id written

end ManagerState

end Calls

end QueryService.Rules
