import BoringPanel.Lib.GoText
import BoringPanel.Lib.Runs

/-!
# The manager of the debug mode

`Manager` of `app/debugmode/manager.go`: for each organisation a stored configuration, and a worker
goroutine that generates data until its context is cancelled. Calls of `Update`, `Cleanup` and `Close`
run side by side; the statements on the table, `stopWorker` and `startWorker` are one step each. The
table of the scenarios, `CanonicalScenarioID`, is a parameter.
-/

namespace QueryService.DebugMode

/-! ### Configurations -/

structure Signals where
  traces : Bool
  logs : Bool
  metrics : Bool
  infrastructure : Bool
  messaging : Bool
deriving DecidableEq, Repr

structure Config where
  enabled : Bool
  profile : String
  scenario : String
  intervalSeconds : Int
  backfillMinutes : Int
  signals : Signals
deriving DecidableEq, Repr

def defaultConfig : Config where
  enabled := false
  profile := "standard"
  scenario := "case-000"
  intervalSeconds := 10
  backfillMinutes := 30
  signals := ⟨true, true, true, true, true⟩

/-- `validateConfig`, for a scenario that is known. -/
def validateConfig (config : Config) : Except String Unit :=
  if config.profile ≠ "light" ∧ config.profile ≠ "standard" ∧ config.profile ≠ "high" then
    .error ("invalid profile: " ++ config.profile)
  else if config.intervalSeconds < 5 ∨ config.intervalSeconds > 60 then
    .error "intervalSeconds must be between 5 and 60"
  else if config.backfillMinutes < 0 ∨ config.backfillMinutes > 1440 then
    .error "backfillMinutes must be between 0 and 1440"
  else if config.signals = ⟨false, false, false, false, false⟩ then
    .error "at least one signal must be enabled"
  else .ok ()

/-- The checks at the beginning of `Update`: the configuration that is stored. -/
def checkConfig (canonicalScenarioID : String → Option String) (config : Config) :
    Except String Config :=
  match canonicalScenarioID config.scenario with
  | none => .error ("invalid scenario: " ++ config.scenario)
  | some scenario => do
    let config := { config with scenario := scenario }
    validateConfig config
    return config

/-! ### The state -/

/-- A context with its worker goroutine, which ends when the context is cancelled. -/
structure WorkerContext where
  orgID : String
  cancelled : Bool
deriving DecidableEq, Repr

/-- `workerState`, as far as the worker goes: `cancel` is the context that the manager can cancel. -/
structure WorkerState where
  cancel : Option Nat
deriving DecidableEq, Repr

/-- Where an `Update` stands: the step that comes next. -/
inductive Stage where
  | read
  | write
  | stop
  | start
deriving DecidableEq, Repr

/-- An `Update` in progress. -/
structure UpdateCall where
  orgID : String
  config : Config
  stage : Stage

/-- The table `debug_mode_config`, the workers that the manager knows, the contexts that were made,
and the calls of `Update` in progress. -/
structure State where
  stored : Go.Map Config
  workers : String → Option WorkerState
  contexts : List WorkerContext
  updates : Nat → Option UpdateCall
  /-- `Close` has been called. -/
  closed : Bool

namespace State

variable (s : State)

/-- The configuration of an organisation as the table has it, or the default one. -/
def config (orgID : String) : Config := (s.stored.lookup orgID).getD defaultConfig

/-- `getConfig`, where the statement succeeds. -/
def getConfig (canonicalScenarioID : String → Option String) (orgID : String) :
    Except String Config :=
  match s.stored.lookup orgID with
  | none => .ok defaultConfig
  | some config =>
    match canonicalScenarioID config.scenario with
    | none => .error ("invalid stored scenario: " ++ config.scenario)
    | some scenario => .ok { config with scenario := scenario }

/-- The context whose cancel function the manager holds. -/
def held (orgID : String) : Option Nat := (s.workers orgID).bind WorkerState.cancel

/-- `ensureStateLocked`. -/
def ensureState (orgID : String) : State :=
  { s with
    workers :=
      Function.update s.workers orgID (some ((s.workers orgID).getD { cancel := none })) }

/-- `startWorker`. The cancel function that was there is overwritten. -/
def startWorker (orgID : String) : State :=
  { s with
    workers := Function.update s.workers orgID (some { cancel := some s.contexts.length })
    contexts := s.contexts ++ [{ orgID, cancelled := false }] }

/-- `stopWorker`. -/
def stopWorker (orgID : String) : State :=
  match s.workers orgID with
  | none => s
  | some worker =>
    { s with
      workers := Function.update s.workers orgID (some { cancel := none })
      contexts := match worker.cancel with
        | some i => s.contexts.modify i fun c => { c with cancelled := true }
        | none => s.contexts }

/-- `Close`: every worker that the manager knows is cancelled, and all are forgotten. -/
def close : State :=
  { s with
    workers := fun _ => none
    contexts := s.contexts.mapIdx fun i c =>
      if s.held c.orgID = some i then { c with cancelled := true } else c
    closed := true }

/-- The statement of `Update` that inserts the row of the organisation or overwrites it. -/
def write (orgID : String) (config : Config) : State :=
  { s with stored := s.stored.set orgID config }

/-- The stage of an `Update`; `none` when it has returned. -/
def setUpdate (id : Nat) (call : Option UpdateCall) : State :=
  { s with updates := Function.update s.updates id call }

/-- `NewManager`, where it succeeds: it starts the workers of the organisations that are enabled
(`resumeEnabled`). -/
def newManager (stored : Go.Map Config) : State :=
  (stored.entries.filter fun e => e.2.enabled).foldl (fun s e => s.startWorker e.1)
    { stored, workers := fun _ => none, contexts := [], updates := fun _ => none, closed := false }

end State

/-! ### Steps -/

inductive Action where
  /-- `Update` is called, and its checks pass. -/
  | update (id : Nat) (orgID : String) (config : Config)
  /-- `Cleanup` is called: it reads the configuration and calls `Update` to disable it. -/
  | cleanup (id : Nat) (orgID : String)
  | read (id : Nat) (ok : Bool)
  | write (id : Nat) (ok : Bool)
  | stopWorker (id : Nat)
  | startWorker (id : Nat)
  | close
  /-- A worker, `GenerateNow` or `runCleanup` records its result. -/
  | record (orgID : String)
deriving DecidableEq, Repr

inductive Step (canonicalScenarioID : String → Option String) (s : State) : Action → State → Prop
  | update {id : Nat} {orgID : String} {config config' : Config} (hnew : s.updates id = none)
      (hcheck : checkConfig canonicalScenarioID config = .ok config') :
      Step canonicalScenarioID s (.update id orgID config)
        (s.setUpdate id (some ⟨orgID, config', .read⟩))
  | cleanup {id : Nat} {orgID : String} {config config' : Config} (hnew : s.updates id = none)
      (hconfig : s.getConfig canonicalScenarioID orgID = .ok config)
      (hcheck : checkConfig canonicalScenarioID { config with enabled := false } = .ok config') :
      Step canonicalScenarioID s (.cleanup id orgID)
        (s.setUpdate id (some ⟨orgID, config', .read⟩))
  /-- The configuration so far decides on the backfill only. -/
  | read {id : Nat} {call : UpdateCall} {config : Config} (hcall : s.updates id = some call)
      (hstage : call.stage = .read)
      (hconfig : s.getConfig canonicalScenarioID call.orgID = .ok config) :
      Step canonicalScenarioID s (.read id true) (s.setUpdate id (some { call with stage := .write }))
  | readFails {id : Nat} {call : UpdateCall} (hcall : s.updates id = some call)
      (hstage : call.stage = .read) :
      Step canonicalScenarioID s (.read id false) (s.setUpdate id none)
  | write {id : Nat} {call : UpdateCall} (hcall : s.updates id = some call)
      (hstage : call.stage = .write) :
      Step canonicalScenarioID s (.write id true)
        ((s.write call.orgID call.config).setUpdate id (some { call with stage := .stop }))
  | writeFails {id : Nat} {call : UpdateCall} (hcall : s.updates id = some call)
      (hstage : call.stage = .write) :
      Step canonicalScenarioID s (.write id false) (s.setUpdate id none)
  | stopWorker {id : Nat} {call : UpdateCall} (hcall : s.updates id = some call)
      (hstage : call.stage = .stop) :
      Step canonicalScenarioID s (.stopWorker id)
        ((s.stopWorker call.orgID).setUpdate id
          (if call.config.enabled then some { call with stage := .start } else none))
  | startWorker {id : Nat} {call : UpdateCall} (hcall : s.updates id = some call)
      (hstage : call.stage = .start) :
      Step canonicalScenarioID s (.startWorker id)
        ((s.startWorker call.orgID).setUpdate id none)
  | close : Step canonicalScenarioID s .close s.close
  | record {orgID : String} : Step canonicalScenarioID s (.record orgID) (s.ensureState orgID)

/-! ### Workers that can be stopped -/

/-- A worker goroutine of the organisation whose context is not cancelled. -/
def Live (s : State) (orgID : String) (i : Nat) : Prop := s.contexts[i]? = some ⟨orgID, false⟩

/-- No `Update` for the organisation is in progress. -/
def Quiet (s : State) (orgID : String) : Prop :=
  ∀ id call, s.updates id = some call → call.orgID ≠ orgID

/-- **At most one worker generates data for the organisation, the one that the manager can stop, and
one does exactly when the stored configuration is enabled and the manager is not closed.** -/
structure WorkerOk (s : State) (orgID : String) : Prop where
  held : ∀ i, Live s orgID i → s.held orgID = some i
  runs : (∃ i, Live s orgID i) ↔ (s.config orgID).enabled ∧ ¬ s.closed

/-- Between its write and its last step. -/
def Stage.applying : Stage → Bool
  | .stop => true
  | .start => true
  | _ => false

/-- An `Update` writes its configuration when no other one of the organisation is between its write and
its last step, and starts no worker after `Close`. -/
def Orderly (s : State) : Action → Prop
  | .write id _ => ∀ call, s.updates id = some call → ∀ id' call', s.updates id' = some call' →
      call'.orgID = call.orgID → call'.stage.applying = false
  | .startWorker _ => ¬ s.closed
  | _ => True

end QueryService.DebugMode
