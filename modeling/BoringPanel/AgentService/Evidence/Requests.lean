import BoringPanel.AgentService.Evidence.Items

/-!
# Requests on evidence

`recordEvidence`, `updateEvidence`, and the route that revises an answer with `recordEvidenceRevision`, as
programs that run one statement of the database at a time. Between two statements of a request those of
others run: `EvidenceStep` interleaves any number of requests.

The identifiers of `randomUUID` are new (the guard of a step). Relations, audit events and memories are
left out, and so is the answer of the model.
-/

namespace AgentService.Evidence

variable {N : Type}

def statusText : EvidenceStatus → String
  | .active => "active"
  | .accepted => "accepted"
  | .rejected => "rejected"
  | .suspended => "suspended"

/-- A row of `scry_agent_threads`. -/
structure AgentThread where
  id : JsText
  userId : JsText
  orgId : JsText

/-- A row of `scry_evidence_actions`; the rows are in the order of their identifiers. -/
structure EvidenceAction where
  evidenceId : JsText
  threadId : JsText
  userId : JsText
  action : String
  previousStatus : EvidenceStatus
  nextStatus : EvidenceStatus
  note : JsText
  createdAt : Int

/-- A row of `scry_evidence_revisions`. -/
structure EvidenceRevision where
  id : JsText
  threadId : JsText
  orgId : JsText
  userId : JsText
  assistantMessageId : JsText
  selectedIds : List JsText
  excludedIds : List JsText
  instruction : JsText
  createdAt : Int

structure EvidenceDb (N : Type) where
  threads : List AgentThread
  items : List (EvidenceItem N)
  actions : List EvidenceAction
  revisions : List EvidenceRevision

/-- The functions of the platform, and what `ORDER BY captured_at DESC` makes of rows. -/
structure EvidenceLibrary (N : Type) extends Texts where
  order : RowOrder (EvidenceItem N)

/-! ### Statements -/

namespace EvidenceDb

variable (db : EvidenceDb N)

/-- The thread is one of the organization. -/
def hasThread (threadId orgId : JsText) : Bool :=
  db.threads.any fun thread => thread.id = threadId ∧ thread.orgId = orgId

def ownsThread (threadId userId orgId : JsText) : Bool :=
  db.threads.any fun thread => thread.id = threadId ∧ thread.userId = userId ∧ thread.orgId = orgId

/-- The check of `recordEvidence`. -/
def accepts (input : RecordInput N) : Bool :=
  input.context.threadId ≠ [] ∧ db.hasThread input.context.threadId input.user.orgId

/-- The primary key or the unique index has a row like this one. -/
def conflicts (item : EvidenceItem N) : Bool :=
  db.items.any fun old => old.id = item.id ∨ old.key = item.key

/-- `INSERT OR IGNORE INTO scry_evidence_items`. -/
def insertOrIgnore (item : EvidenceItem N) : EvidenceDb N :=
  if db.conflicts item then db else { db with items := db.items ++ [item] }

/-- `SELECT * ... WHERE thread_id = ? AND trace_id = ? AND source_name = ? AND content_hash = ?` -/
def selectByKey (key : EvidenceKey) : Option (EvidenceItem N) := db.items.find? fun item => item.key = key

/-- `SELECT * ... WHERE id = ? AND org_id = ?` -/
def selectById (id orgId : JsText) : Option (EvidenceItem N) :=
  db.items.find? fun item => item.id = id ∧ item.orgId = orgId

/-- `UPDATE scry_evidence_items SET ... WHERE id = ?` -/
def updateItem (id : JsText) (f : EvidenceRow → EvidenceRow) : EvidenceDb N :=
  { db with items := db.items.map fun item =>
      if item.id = id then item.withRow (f item.toEvidenceRow) else item }

def addAction (action : EvidenceAction) : EvidenceDb N := { db with actions := db.actions ++ [action] }

/-- `INSERT INTO scry_evidence_actions ... SELECT ... WHERE id = ?` -/
def addUse (id userId instruction : JsText) (now : Int) : EvidenceDb N :=
  match db.items.find? fun item => item.id = id with
  | some item =>
    db.addAction ⟨id, item.threadId, userId, "used_for_revision", item.status, item.status, instruction, now⟩
  | none => db

end EvidenceDb

/-- An `UPDATE` leaves what it does not set. -/
theorem map_updateItem {α : Type} {db : EvidenceDb N} (g : EvidenceItem N → α) (id : JsText) (f : EvidenceRow → EvidenceRow)
    (hg : ∀ (item : EvidenceItem N) (row : EvidenceRow), g (item.withRow row) = g item) :
    (db.updateItem id f).items.map g = db.items.map g := by
  show (db.items.map _).map g = _
  rw [List.map_map]
  refine List.map_congr_left fun item _ => ?_
  show g (if item.id = id then _ else item) = g item
  split
  · exact hg _ _
  · rfl

variable (lib : EvidenceLibrary N)

/-- `ORDER BY captured_at DESC` -/
def capturedLater (item item' : EvidenceItem N) : Bool := item'.capturedAt ≤ item.capturedAt

def listEvidence (db : EvidenceDb N) (threadId orgId : JsText) : List (EvidenceItem N) :=
  lib.order.sort capturedLater
    (db.items.filter fun item => item.threadId = threadId ∧ item.orgId = orgId)

def getEvidenceByIds (db : EvidenceDb N) (threadId orgId : JsText) (ids : List JsText) :
    List (EvidenceItem N) :=
  (listEvidence lib db threadId orgId).filter fun item => item.id ∈ ids

/-! ### Programs -/

structure UpdateInput where
  evidenceId : JsText
  user : AuthenticatedUser
  patch : EvidencePatch

structure ReviseInput where
  user : AuthenticatedUser
  threadId : JsText
  evidenceIds : List JsText
  instruction : JsText

/-- The next statement of `recordEvidence`, with what has been read. -/
inductive RecordStage (N : Type) where
  | check
  | insert
  | select (created : Bool) (row : EvidenceItem N)
  | capture (row item : EvidenceItem N)
  | done (result : Option (EvidenceItem N))

/-- The next statement of `updateEvidence`. -/
inductive UpdateStage (N : Type) where
  | read
  | write (current : EvidenceItem N)
  | log (current : EvidenceItem N) (actions : List String)
  | reread (current : EvidenceItem N)
  | done (result : Option (EvidenceItem N))

/-- The next statement of the route for a revision. -/
inductive ReviseStage (N : Type) where
  | check
  | choose
  | exclude (usable : List (EvidenceItem N))
  | insert (usable excluded : List JsText)
  | use (ids : List JsText)
  | done (accepted : Bool)

inductive Request (N : Type) where
  | record (input : RecordInput N) (stage : RecordStage N)
  | update (input : UpdateInput) (stage : UpdateStage N)
  | revise (input : ReviseInput) (stage : ReviseStage N)

/-- What is asked for. -/
inductive Call (N : Type) where
  | record (input : RecordInput N)
  | update (input : UpdateInput)
  | revise (input : ReviseInput)

def Call.request : Call N → Request N
  | record input => .record input .check
  | update input => .update input .read
  | revise input => .revise input .check

/-- The action that says how an item came to be. -/
def captureName (status : EvidenceStatus) : String :=
  if status = .suspended then "auto_suspended" else "captured"

def captureAction (input : RecordInput N) (row item : EvidenceItem N) : EvidenceAction :=
  ⟨item.id, item.threadId, input.user.id, captureName row.status, row.status, row.status, row.note,
    row.capturedAt⟩

/-- The changes that `updateEvidence` logs, if there are any. -/
def changesOf (patch : EvidencePatch) (current : EvidenceRow) : List String :=
  (match patch.status with
    | some status =>
      if status ≠ current.status then [if status = .active then "restored" else statusText status] else []
    | none => []) ++
  (if patch.selected.isSome ∧ patch.nextSelected current ≠ current.selected then
    [if patch.nextSelected current then "selected" else "unselected"] else []) ++
  (if patch.note.isSome ∧ patch.nextNote current ≠ current.note then ["noted"] else [])

/-- `actions.length ? actions : ['updated']` -/
def actionsOf (patch : EvidencePatch) (current : EvidenceRow) : List String :=
  if changesOf patch current = [] then ["updated"] else changesOf patch current

def UpdateInput.action (input : UpdateInput) (current : EvidenceItem N) (action : String) (now : Int) :
    EvidenceAction :=
  ⟨current.id, current.threadId, input.user.id, action, current.status,
    input.patch.nextStatus current.toEvidenceRow,
    if action = "noted" then input.patch.nextNote current.toEvidenceRow else [], now⟩

/-- Evidence that may be an argument. -/
def isUsable (item : EvidenceItem N) : Bool := !item.status.deselects

variable [JsNumber N] (t : Turn) (db : EvidenceDb N)

def recordTurn (input : RecordInput N) : RecordStage N → EvidenceDb N × RecordStage N
  | .check =>
    (db, if db.accepts input then .insert else .done none)
  | .insert =>
    let row := input.row lib.toTexts t
    -- `rowsAffected` is 0 if the row is ignored
    (db.insertOrIgnore row, .select (!db.conflicts row) row)
  | .select created row =>
    match db.selectByKey row.key with
    | none => (db, .done none)
    | some item => (db, if created then .capture row item else .done (some item))
  | .capture row item => (db.addAction (captureAction input row item), .done (some item))
  | .done result => (db, .done result)

def updateTurn (input : UpdateInput) : UpdateStage N → EvidenceDb N × UpdateStage N
  | .read =>
    match db.selectById input.evidenceId input.user.orgId with
    | none => (db, .done none)
    | some current => (db, .write current)
  | .write current =>
    (db.updateItem current.id (EvidencePatch.write (input.patch, t.now) current.toEvidenceRow),
      .log current (actionsOf input.patch current.toEvidenceRow))
  | .log current [] => (db, .reread current)
  | .log current (action :: actions) =>
    (db.addAction (input.action current action t.now), .log current actions)
  | .reread current =>
    (db, .done (getEvidenceByIds lib db current.threadId input.user.orgId [current.id]).head?)
  | .done result => (db, .done result)

def reviseTurn (input : ReviseInput) : ReviseStage N → EvidenceDb N × ReviseStage N
  | .check =>
    (db, if db.ownsThread input.threadId input.user.id input.user.orgId then .choose else .done false)
  | .choose =>
    let selected := getEvidenceByIds lib db input.threadId input.user.orgId input.evidenceIds
    let usable := selected.filter isUsable
    (db, if selected.length ≠ input.evidenceIds.eraseDups.length ∨ usable = [] then .done false
      else .exclude usable)
  | .exclude usable =>
    let excluded := (listEvidence lib db input.threadId input.user.orgId).filter fun item => !isUsable item
    (db, .insert (usable.map EvidenceItem.id) (excluded.map EvidenceItem.id))
  | .insert usable excluded =>
    ({ db with revisions := db.revisions ++ [⟨t.uuid, input.threadId, input.user.orgId, input.user.id,
        t.messageId, usable, excluded, input.instruction, t.now⟩] }, .use usable)
  | .use [] => (db, .done true)
  | .use (id :: ids) => (db.addUse id input.user.id input.instruction t.now, .use ids)
  | .done accepted => (db, .done accepted)

/-- The next statement of a request, and what it does then. -/
def Request.next : Request N → EvidenceDb N × Request N
  | .record input stage => (recordTurn lib t db input stage).map id (.record input)
  | .update input stage => (updateTurn lib t db input stage).map id (.update input)
  | .revise input stage => (reviseTurn lib t db input stage).map id (.revise input)

/-! ### Runs -/

structure EvidenceState (N : Type) where
  db : EvidenceDb N
  requests : Nat → Option (Request N)

inductive EvidenceLabel (N : Type) where
  | start (i : Nat) (call : Call N)
  | turn (i : Nat) (t : Turn)

/-- A request begins, or runs its next statement. -/
inductive EvidenceStep : EvidenceState N → EvidenceLabel N → EvidenceState N → Prop
  | start {s : EvidenceState N} {i : Nat} {call : Call N} (hnew : s.requests i = none) :
      EvidenceStep s (.start i call) ⟨s.db, Function.update s.requests i (some call.request)⟩
  | turn {s : EvidenceState N} {i : Nat} {t : Turn} {r : Request N} (hrequest : s.requests i = some r)
      (hfresh : ∀ item ∈ s.db.items, item.id ≠ t.uuid) :
      EvidenceStep s (.turn i t)
        ⟨(r.next lib t s.db).1, Function.update s.requests i (some (r.next lib t s.db).2)⟩

/-- A label can be taken. -/
def EvidenceState.enabled (s : EvidenceState N) : EvidenceLabel N → Bool
  | .start i _ => (s.requests i).isNone
  | .turn i t => (s.requests i).isSome && s.db.items.all fun item => item.id ≠ t.uuid

/-- Where it leads. -/
def EvidenceState.take (s : EvidenceState N) : EvidenceLabel N → EvidenceState N
  | .start i call => ⟨s.db, Function.update s.requests i (some call.request)⟩
  | .turn i t =>
    match s.requests i with
    | some r => ⟨(r.next lib t s.db).1, Function.update s.requests i (some (r.next lib t s.db).2)⟩
    | none => s

theorem EvidenceStep.of_enabled {s : EvidenceState N} {a : EvidenceLabel N} (h : s.enabled a = true) :
    EvidenceStep lib s a (s.take lib a) := by
  cases a with
  | start i call => exact .start (Option.isNone_iff_eq_none.mp h)
  | turn i t =>
    obtain ⟨hsome, hfresh⟩ := Bool.and_eq_true_iff.mp h
    obtain ⟨r, hr⟩ := Option.isSome_iff_exists.mp hsome
    rw [EvidenceState.take, hr]
    exact .turn hr fun item hitem => of_decide_eq_true (List.all_eq_true.mp hfresh item hitem)

/-- Threads, and no evidence. -/
def EvidenceState.init (threads : List AgentThread) : EvidenceState N := ⟨⟨threads, [], [], []⟩, fun _ => none⟩

end AgentService.Evidence
