import Mathlib.Data.List.Nodup
import BoringPanel.Lib.Runs

/-!
# Versions of the agent configuration

`insertConfig` of `agentConf/db.go`, which `StartNewVersion` calls: it reads the latest version of the
element type, inserts a row for the next one and a row for each element, and deletes what it has
inserted when a statement fails. Calls run side by side, and each SQL statement is one step. The id of
a new version is a fresh UUID.
-/

namespace QueryService.AgentConf

/-! ### The tables -/

/-- A row of `agent_config_versions`. -/
structure VersionRow where
  id : String
  elementType : String
  version : Nat
deriving DecidableEq, Repr

/-- A row of `agent_config_elements`. -/
structure ElementRow where
  versionId : String
  elementType : String
  elementId : String
deriving DecidableEq, Repr

structure Db where
  versions : List VersionRow
  elements : List ElementRow

/-- The primary key, and `UNIQUE(element_type, version)`. -/
def VersionRow.Conflicts (r r' : VersionRow) : Prop :=
  r.id = r'.id ∨ (r.elementType = r'.elementType ∧ r.version = r'.version)

instance (r r' : VersionRow) : Decidable (r.Conflicts r') := inferInstanceAs (Decidable (_ ∨ _))

namespace Db

variable (db : Db)

/-- `GetLatestVersion`: the version of the row that is found, `none` for "not found". -/
def getLatestVersion (elementType : String) : Option Nat :=
  ((db.versions.filter fun r => r.elementType = elementType).map VersionRow.version).max?

/-- The version that `insertConfig` assigns. -/
def nextVersion (elementType : String) : Nat :=
  match db.getLatestVersion elementType with
  | some version => version + 1
  | none => 1

/-- `INSERT INTO agent_config_versions`; `none` where a constraint is violated. -/
def insertVersion (row : VersionRow) : Option Db :=
  if ∃ r ∈ db.versions, r.Conflicts row then none
  else some { db with versions := db.versions ++ [row] }

/-- `INSERT INTO agent_config_elements`; a row stands there once. -/
def insertElement (row : ElementRow) : Option Db :=
  if row ∈ db.elements then none else some { db with elements := db.elements ++ [row] }

/-- `DELETE FROM agent_config_versions WHERE id = $1` -/
def deleteVersion (id : String) : Db :=
  { db with versions := db.versions.filter fun r => r.id ≠ id }

/-- `DELETE FROM agent_config_elements WHERE version_id=$1` -/
def deleteElements (id : String) : Db :=
  { db with elements := db.elements.filter fun r => r.versionId ≠ id }

end Db

/-! ### Calls -/

/-- Where a call stands: the statement that comes next, or how it has ended. -/
inductive Stage where
  | read
  | insertVersion (version : Nat)
  | insertElements (version : Nat) (rest : List String)
  | deleteVersion
  | deleteElements
  | failed
  | succeeded (version : Nat)
deriving DecidableEq, Repr

structure Call where
  elementType : String
  elements : List String
  stage : Stage
  /-- The versions that were there when the call read the latest one. -/
  atRead : List VersionRow

/-- `ElementTypeLogPipelines`. -/
def elementTypeLogPipelines : String := "log_pipelines"

/-- The checks at the beginning of `insertConfig`. -/
def Call.new (elementType : String) (version : Nat) (elements : List String) : Call where
  elementType := elementType
  elements := elements
  stage :=
    if elementType = "" then .failed
    else if elements = [] ∧ elementType ≠ elementTypeLogPipelines then .failed
    else if version ≠ 0 then .failed
    else .read
  atRead := []

/-- After an insert that succeeded: the next element, or the end. -/
def Stage.next (version : Nat) : List String → Stage
  | [] => .succeeded version
  | e :: rest => .insertElements version (e :: rest)

def Stage.finished : Stage → Bool
  | .failed => true
  | .succeeded _ => true
  | _ => false

/-- The version of the row that the call has inserted and not deleted. -/
def Stage.inserted : Stage → Option Nat
  | .insertElements version _ => some version
  | .succeeded version => some version
  | _ => none

/-- The calls, by the ids of their new versions. -/
structure State where
  db : Db
  calls : String → Option Call

namespace State

def init (db : Db) : State where
  db := db
  calls _ := none

def setStage (s : State) (id : String) (call : Call) (db : Db) (stage : Stage) : State where
  db := db
  calls := Function.update s.calls id (some { call with stage := stage })

/-- The id stands nowhere. -/
def Fresh (s : State) (id : String) : Prop :=
  s.calls id = none ∧ (∀ r ∈ s.db.versions, r.id ≠ id) ∧ ∀ r ∈ s.db.elements, r.versionId ≠ id

end State

/-- A step of the call with this id. `ok` says whether the statement gets to the database. -/
inductive Action where
  | start (elementType : String) (version : Nat) (elements : List String)
  | read (ok : Bool)
  | insertVersion (ok : Bool)
  | insertElement (ok : Bool)
  | deleteVersion
  | deleteElements
deriving DecidableEq, Repr

inductive Step (s : State) : String × Action → State → Prop
  | start {id elementType : String} {version : Nat} {elements : List String} (hfresh : s.Fresh id) :
      Step s (id, .start elementType version elements)
        { s with calls := Function.update s.calls id (some (Call.new elementType version elements)) }
  | read {id : String} {call : Call} {ok : Bool} (hcall : s.calls id = some call)
      (hstage : call.stage = .read) :
      Step s (id, .read ok)
        (s.setStage id { call with atRead := s.db.versions } s.db
          (if ok then .insertVersion (s.db.nextVersion call.elementType) else .failed))
  | insertVersion {id : String} {call : Call} {version : Nat} {db : Db}
      (hcall : s.calls id = some call) (hstage : call.stage = .insertVersion version)
      (hinsert : s.db.insertVersion ⟨id, call.elementType, version⟩ = some db) :
      Step s (id, .insertVersion true) (s.setStage id call db (.next version call.elements))
  /-- The insert fails, by itself or on a constraint: the deferred function runs. -/
  | insertVersionFails {id : String} {call : Call} {version : Nat} {ok : Bool}
      (hcall : s.calls id = some call) (hstage : call.stage = .insertVersion version)
      (hfail : ok = false ∨ s.db.insertVersion ⟨id, call.elementType, version⟩ = none) :
      Step s (id, .insertVersion ok) (s.setStage id call s.db .deleteVersion)
  | insertElement {id e : String} {call : Call} {version : Nat} {rest : List String} {db : Db}
      (hcall : s.calls id = some call) (hstage : call.stage = .insertElements version (e :: rest))
      (hinsert : s.db.insertElement ⟨id, call.elementType, e⟩ = some db) :
      Step s (id, .insertElement true) (s.setStage id call db (.next version rest))
  | insertElementFails {id e : String} {call : Call} {version : Nat} {rest : List String} {ok : Bool}
      (hcall : s.calls id = some call) (hstage : call.stage = .insertElements version (e :: rest))
      (hfail : ok = false ∨ s.db.insertElement ⟨id, call.elementType, e⟩ = none) :
      Step s (id, .insertElement ok) (s.setStage id call s.db .deleteVersion)
  | deleteVersion {id : String} {call : Call} (hcall : s.calls id = some call)
      (hstage : call.stage = .deleteVersion) :
      Step s (id, .deleteVersion) (s.setStage id call (s.db.deleteVersion id) .deleteElements)
  | deleteElements {id : String} {call : Call} (hcall : s.calls id = some call)
      (hstage : call.stage = .deleteElements) :
      Step s (id, .deleteElements) (s.setStage id call (s.db.deleteElements id) .failed)

end QueryService.AgentConf
