import BoringPanel.AgentService.Evidence.Requests

/-!
# Endpoints that reach evidence

The requests of HTTP that read, record or change evidence, one after the other, each by an authenticated
user. An answer is represented by the items that it is made of. What an agent or a history of messages
gives to record is part of the request.

The functions of `evidence.ts` do here at once what their programs do statement by statement
(`recordTurn_iterate`, `updateTurn_iterate`).
-/

namespace AgentService.Evidence

variable {N : Type}

/-- A row of `scry_workflow_runs`. -/
structure WorkflowRun where
  id : JsText
  threadId : JsText
  userId : JsText

structure ServerState (N : Type) where
  db : EvidenceDb N
  runs : List WorkflowRun

/-- The tools that record what the query service gives. -/
inductive CaptureTool where
  | listServices
  | listAlerts
  | listDashboards
  | querySignals

def CaptureTool.sourceType : CaptureTool → EvidenceSourceType
  | listServices => .service
  | listAlerts => .alert
  | listDashboards => .dashboard
  | querySignals => .telemetry

def CaptureTool.sourceName : CaptureTool → String
  | listServices => "list-services"
  | listAlerts => "list-alerts"
  | listDashboards => "list-dashboards"
  | querySignals => "query-signals"

def CaptureTool.title : CaptureTool → String
  | listServices => "服务状态证据"
  | listAlerts => "告警证据"
  | listDashboards => "仪表盘证据"
  | querySignals => "可观测信号证据"

/-- A call of a tool; `data` is `none` if the query service refuses. -/
inductive McpTool (N : Type) where
  | capture (tool : CaptureTool) (data : Option (JsValue N))
  | listEvidence (includeInactive : Bool)
  | getEvidenceChain
  | searchMemory
  | remember (evidenceIds : List JsText)
  | other

/-- A capture, with what is drawn for it. -/
abbrev Capture (N : Type) := RecordInput N × Turn

inductive HttpRequest (N : Type) where
  | createThread (id : JsText)
  | deleteThread (threadId : JsText)
  | listEvidence (threadId : JsText) (history : List (Capture N))
  | patchEvidence (evidenceId : JsText) (patch : EvidencePatch)
  | reviseEvidence (threadId : JsText) (evidenceIds : List JsText) (instruction : JsText)
  | chat (threadId : JsText) (captures : List (Capture N))
  | streamWorkflow (threadId runId : JsText) (captures : List (Capture N))
  | resumeWorkflow (runId : JsText) (captures : List (Capture N))
  | createMemory (threadId : JsText) (evidenceIds : List JsText)
  | searchMemories (threadId : JsText)
  | threadMemories (threadId : JsText)
  /-- The headers are those of the evidence context. -/
  | mcp (threadId traceId query : JsText) (tool : McpTool N)

variable [JsNumber N] (lib : EvidenceLibrary N) (t : Turn) (user : AuthenticatedUser)

/-! ### Functions of `evidence.ts` -/

/-- `recordEvidence`, if no other request runs. -/
def recordEvidence (input : RecordInput N) (db : EvidenceDb N) : EvidenceDb N × Option (EvidenceItem N) :=
  if db.accepts input then
    let row := input.row lib.toTexts t
    let db' := db.insertOrIgnore row
    match db'.selectByKey row.key with
    | none => (db', none)
    | some item =>
      (if db.conflicts row then db' else db'.addAction (captureAction input row item), some item)
  else (db, none)

/-- `updateEvidence`, if no other request runs. -/
def updateEvidence (input : UpdateInput) (db : EvidenceDb N) : EvidenceDb N × Option (EvidenceItem N) :=
  match db.selectById input.evidenceId input.user.orgId with
  | none => (db, none)
  | some current =>
    let written := db.updateItem current.id (EvidencePatch.write (input.patch, t.now) current.toEvidenceRow)
    let db' := (actionsOf input.patch current.toEvidenceRow).foldl
      (fun db action => db.addAction (input.action current action t.now)) written
    (db', (getEvidenceByIds lib db' current.threadId input.user.orgId [current.id]).head?)

/-- The program of `recordEvidence` does what the function does, if it runs alone. -/
theorem recordTurn_iterate (input : RecordInput N) (db : EvidenceDb N) :
    (fun p => recordTurn lib t p.1 input p.2)^[4] (db, .check) =
      ((recordEvidence lib t input db).1, .done (recordEvidence lib t input db).2) := by
  have hcheck : recordTurn lib t db input .check =
      (db, if db.accepts input then .insert else .done none) := rfl
  rw [Function.iterate_succ_apply, hcheck, recordEvidence]
  cases db.accepts input with
  | false => rfl
  | true =>
    -- the row is inserted, and looked for
    show (fun p => recordTurn lib t p.1 input p.2)^[2]
      (db.insertOrIgnore (input.row lib.toTexts t),
        .select (!db.conflicts (input.row lib.toTexts t)) (input.row lib.toTexts t)) = _
    rw [Function.iterate_succ_apply, recordTurn, if_pos rfl]
    dsimp only
    cases (db.insertOrIgnore (input.row lib.toTexts t)).selectByKey (input.row lib.toTexts t).key with
    | none => rfl
    | some item =>
      cases db.conflicts (input.row lib.toTexts t) with
      | true => rfl
      | false => rfl

omit [JsNumber N] in
/-- The same for `updateEvidence`, whose log has any length. -/
theorem updateTurn_iterate (input : UpdateInput) (db : EvidenceDb N) :
    ∃ n, (fun p => updateTurn lib t p.1 input p.2)^[n] (db, .read) =
      ((updateEvidence lib t input db).1, .done (updateEvidence lib t input db).2) := by
  have hlog : ∀ (current : EvidenceItem N) (actions : List String) (db : EvidenceDb N),
      (fun p => updateTurn lib t p.1 input p.2)^[actions.length] (db, .log current actions) =
        (actions.foldl (fun db action => db.addAction (input.action current action t.now)) db,
          .log current []) := by
    intro current actions
    induction actions with
    | nil => exact fun _ => rfl
    | cons action actions ih => exact fun db => ih _
  cases hselect : db.selectById input.evidenceId input.user.orgId with
  | none =>
    refine ⟨1, ?_⟩
    show updateTurn lib t db input .read = _
    rw [updateTurn, updateEvidence, hselect]
  | some current =>
    have hwrite : (fun p => updateTurn lib t p.1 input p.2)^[2] (db, .read) =
        (db.updateItem current.id (EvidencePatch.write (input.patch, t.now) current.toEvidenceRow),
          .log current (actionsOf input.patch current.toEvidenceRow)) := by
      rw [Function.iterate_succ_apply, updateTurn, hselect]
      rfl
    refine ⟨(2 + (actionsOf input.patch current.toEvidenceRow).length) + 2, ?_⟩
    rw [Function.iterate_add_apply, hwrite, Function.iterate_add_apply, hlog, updateEvidence, hselect]
    rfl

/-- The context that the server gives a capture. -/
def RecordInput.within (input : RecordInput N) (threadId : JsText) : RecordInput N :=
  { input with user := user, context := { input.context with threadId := threadId } }

def recordAll (threadId : JsText) (captures : List (Capture N)) (db : EvidenceDb N) : EvidenceDb N :=
  captures.foldl (fun db capture =>
    (recordEvidence lib capture.2 (capture.1.within user threadId) db).1) db

/-! ### Handlers -/

/-- The state after a request, and the items of evidence that its answer is made of. -/
abbrev Answer (N : Type) := ServerState N × List (EvidenceItem N)

/-- A handler that asks `ownsThread` first. -/
def ifOwner (threadId : JsText) (s : ServerState N) (handle : Answer N) : Answer N :=
  if s.db.ownsThread threadId user.id user.orgId then handle else (s, [])

def ServerState.withDb (s : ServerState N) (db : EvidenceDb N) : ServerState N := { s with db := db }

/-- `POST /api/threads`; the primary key refuses an identifier that is there. -/
def createThread (id : JsText) (s : ServerState N) : ServerState N :=
  if s.db.threads.any fun thread => thread.id = id then s
  else s.withDb { s.db with threads := s.db.threads ++ [⟨id, user.id, user.orgId⟩] }

/-- The batch of `DELETE /api/threads/:threadId`. -/
def deleteThread (threadId : JsText) (s : ServerState N) : ServerState N where
  runs := s.runs.filter fun run => run.threadId ≠ threadId
  db :=
    { threads := s.db.threads.filter fun thread => thread.id ≠ threadId
      items := s.db.items.filter fun item => item.threadId ≠ threadId
      actions := s.db.actions.filter fun action => action.threadId ≠ threadId
      revisions := s.db.revisions.filter fun revision => revision.threadId ≠ threadId }

/-- `GET /api/threads/:threadId/evidence`. -/
def listThreadEvidence (threadId : JsText) (history : List (Capture N)) (s : ServerState N) : Answer N :=
  let evidence := listEvidence lib s.db threadId user.orgId
  if evidence.isEmpty then
    let db := recordAll lib user threadId history s.db
    (s.withDb db, listEvidence lib db threadId user.orgId)
  else (s, evidence)

/-- `POST /api/threads/:threadId/evidence/revise`. -/
def reviseEvidence (threadId : JsText) (evidenceIds : List JsText) (instruction : JsText)
    (s : ServerState N) : Answer N :=
  let selected := getEvidenceByIds lib s.db threadId user.orgId evidenceIds
  let usable := selected.filter isUsable
  if selected.length ≠ evidenceIds.eraseDups.length ∨ usable = [] then (s, [])
  else
    let excluded := (listEvidence lib s.db threadId user.orgId).filter fun item => !isUsable item
    let revision : EvidenceRevision := ⟨t.uuid, threadId, user.orgId, user.id, t.messageId,
      usable.map EvidenceItem.id, excluded.map EvidenceItem.id, instruction, t.now⟩
    let db := (usable.map EvidenceItem.id).foldl (fun db id => db.addUse id user.id instruction t.now)
      { s.db with revisions := s.db.revisions ++ [revision] }
    (s.withDb db, usable ++ excluded)

/-- The sources of a new memory, if all of them are there and may be one. -/
def memorySources (threadId : JsText) (evidenceIds : List JsText) (count : Nat) (db : EvidenceDb N) :
    List (EvidenceItem N) :=
  let evidence := getEvidenceByIds lib db threadId user.orgId evidenceIds
  if evidence.length = count ∧ evidence.all isUsable then evidence else []

/-- The parameter of `recordEvidence` for what a tool has fetched. -/
def CaptureTool.input (tool : CaptureTool) (context : EvidenceCaptureContext) (data : JsValue N) :
    RecordInput N where
  user := user
  context := context
  messageId := []
  sourceType := tool.sourceType
  sourceName := JsText.of tool.sourceName
  title := JsText.of tool.title
  summary := []
  content := data
  completed := true

/-- A tool that `createScryTools` has made with a context. -/
def callTool (context : EvidenceCaptureContext) (s : ServerState N) : McpTool N → Answer N
  | .capture tool (some data) =>
    (s.withDb (recordEvidence lib t (tool.input user context data) s.db).1, [])
  | .capture _ none => (s, [])
  | .listEvidence includeInactive =>
    (s, (listEvidence lib s.db context.threadId user.orgId).filter fun item =>
      includeInactive || isUsable item)
  | .getEvidenceChain => (s, listEvidence lib s.db context.threadId user.orgId)
  -- a retrieval leaves out evidence that may not be an argument
  | .searchMemory => (s, (listEvidence lib s.db context.threadId user.orgId).filter isUsable)
  | .remember evidenceIds =>
    (s, memorySources lib user context.threadId evidenceIds evidenceIds.eraseDups.length s.db)
  | .other => (s, [])

/-- What `server.ts` and `mcp/server.ts` do for a request of the user. -/
def handle (s : ServerState N) : HttpRequest N → Answer N
  | .createThread id => (createThread user id s, [])
  | .deleteThread threadId => ifOwner user threadId s (deleteThread threadId s, [])
  | .listEvidence threadId history => ifOwner user threadId s (listThreadEvidence lib user threadId history s)
  | .patchEvidence evidenceId patch =>
    let (db, result) := updateEvidence lib t ⟨evidenceId, user, patch⟩ s.db
    (s.withDb db, result.toList)
  | .reviseEvidence threadId evidenceIds instruction =>
    ifOwner user threadId s (reviseEvidence lib t user threadId evidenceIds instruction s)
  | .chat threadId captures =>
    -- the agent is told of the evidence of the thread
    ifOwner user threadId s (s.withDb (recordAll lib user threadId captures s.db),
      listEvidence lib s.db threadId user.orgId)
  | .streamWorkflow threadId runId captures =>
    ifOwner user threadId s
      (⟨recordAll lib user threadId captures s.db, s.runs ++ [⟨runId, threadId, user.id⟩]⟩,
        listEvidence lib s.db threadId user.orgId)
  | .resumeWorkflow runId captures =>
    match s.runs.find? fun run => run.id = runId ∧ run.userId = user.id with
    | none => (s, [])
    | some run =>
      (s.withDb (recordAll lib user run.threadId captures s.db),
        listEvidence lib s.db run.threadId user.orgId)
  | .createMemory threadId evidenceIds =>
    if threadId = [] then (s, [])
    else ifOwner user threadId s
      (s, memorySources lib user threadId evidenceIds evidenceIds.length s.db)
  | .searchMemories threadId =>
    if threadId = [] then (s, [])
    else ifOwner user threadId s (s, (listEvidence lib s.db threadId user.orgId).filter isUsable)
  | .threadMemories threadId =>
    ifOwner user threadId s (s, (listEvidence lib s.db threadId user.orgId).filter isUsable)
  | .mcp threadId traceId query tool =>
    -- without both headers the tools have no context
    if threadId = [] ∨ traceId = [] then (s, []) else callTool lib t user ⟨threadId, traceId, query⟩ s tool

end AgentService.Evidence
