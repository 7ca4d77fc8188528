import BoringPanel.AgentService.Workflows.Addressable
import BoringPanel.AgentService.Workflows.RunRecord

/-!
# Approvals that wait

The column `suspended_step` of a run, as its steps write it in any interleaving, and the approvals that wait
for a decision. `POST /api/workflow-runs/:runId/resume` resumes the step that the column names. The column is
right in every state of a run where one approval waits at a time, each gets one decision, and no decision is a
denial (`recordsApprovals_of_run`): what the `catch` of a step writes leaves the column as it is.
-/

namespace AgentService

variable {O S : Type} {definition : List WorkflowStep}

/-- The id of a step, as a column has it. -/
def columnText (id : JsText) : String := String.ofList (id.map fun unit => Char.ofNat unit.toNat)

theorem columnText_ne_empty {id : JsText} (h : workflowIdSchema id) : columnText id ≠ "" := by
  rintro hempty
  unfold columnText at hempty
  rw [String.ofList_eq_empty_iff, List.map_eq_nil_iff] at hempty
  rw [hempty] at h
  cases h

/-- The row of a run, the approvals that have been asked for and have no decision on record, and the steps for
which the route has handed over a decision that is not on record. -/
structure ApprovalRun (O S : Type) where
  row : RunRecord O S
  waiting : List String
  submitted : List String

inductive ApprovalEvent where
  /-- A step begins or has an output, or it fails. -/
  | writes (id : JsText) (status : RunStatus)
  | suspends (id : JsText)
  | submits
  | approves (id : JsText)
  /-- A step throws after it has been resumed, as it does when the decision is a denial. -/
  | rejects (id : JsText)
  | finalizes

/-- The `UPDATE` of a step's call with one of the patches of `compileLeafStep`, whatever states its `SELECT`
has read. -/
def RunRecord.patched (row : RunRecord O S) (read : String → Option S) (status : RunStatus) (id : JsText) (state : S)
    (suspendedStep : Option String) : RunRecord O S :=
  row.update ⟨some status, none, some (columnText id, state), suspendedStep⟩ read

/-- An event of a run. Its steps come in any order; the last of them, which is not among the steps of the
definition, is executed when no other one is suspended. -/
inductive ApprovalStep (definition : List WorkflowStep) : ApprovalRun O S → ApprovalEvent → ApprovalRun O S → Prop
  | writes {r} (step : WorkflowStep) (read state) (hstep : step ∈ WorkflowStep.leaves definition) {status : RunStatus}
      (hstatus : status = .running ∨ status = .failed) : ApprovalStep definition r (.writes step.id status)
        ⟨r.row.patched read status step.id state none, r.waiting, r.submitted⟩
  | suspends {r} (step : WorkflowStep) (read state) (hstep : step ∈ WorkflowStep.leaves definition) (htype : step.type = .approval) :
      ApprovalStep definition r (.suspends step.id)
        ⟨r.row.patched read .suspended step.id state (some (columnText step.id)), columnText step.id :: r.waiting,
          r.submitted⟩
  -- the route looks at the column only
  | submits {r} (hcolumn : r.row.suspendedStep ≠ "") : ApprovalStep definition r .submits
      ⟨r.row, r.waiting, r.row.suspendedStep :: r.submitted⟩
  | approves {r} (step : WorkflowStep) (read state) (hsubmitted : columnText step.id ∈ r.submitted) :
      ApprovalStep definition r (.approves step.id)
        ⟨r.row.patched read .running step.id state (some ""), r.waiting.erase (columnText step.id),
          r.submitted.erase (columnText step.id)⟩
  | rejects {r} (step : WorkflowStep) (read state) (hsubmitted : columnText step.id ∈ r.submitted) :
      ApprovalStep definition r (.rejects step.id)
        ⟨r.row.patched read .failed step.id state none, r.waiting.erase (columnText step.id),
          r.submitted.erase (columnText step.id)⟩
  | finalizes {r read output} (hwaiting : r.waiting = []) : ApprovalStep definition r .finalizes
      ⟨r.row.update ⟨some .completed, some output, none, some ""⟩ read, r.waiting, r.submitted⟩

def ApprovalRun.created : ApprovalRun O S := ⟨RunRecord.created, [], []⟩

/-- The column is empty exactly when no approval waits, and names one otherwise, so that each one that waits
can be resumed; no decision is handed over but for an approval that waits, and once. -/
structure RecordsApprovals (r : ApprovalRun O S) : Prop where
  waits : r.row.suspendedStep ≠ "" ↔ r.waiting ≠ []
  names : r.row.suspendedStep ≠ "" → r.row.suspendedStep ∈ r.waiting
  resumed : ∀ id ∈ r.waiting, r.row.suspendedStep = id
  once : ∀ id, r.submitted.count id ≤ r.waiting.count id

/-- One approval waits at a time, with one decision at most, and that is not a denial. -/
def OneByOne (r : ApprovalRun O S) : ApprovalEvent → Prop
  | .suspends _ => r.waiting = []
  | .submits => r.submitted = []
  | .rejects _ => False
  | _ => True

/-- What the approval that waits has come to. -/
inductive Asked : ApprovalRun O S → Prop
  | idle {row} (hcolumn : row.suspendedStep = "") : Asked ⟨row, [], []⟩
  | waits (row) (hcolumn : row.suspendedStep ≠ "") : Asked ⟨row, [row.suspendedStep], []⟩
  | decided (row) (hcolumn : row.suspendedStep ≠ "") : Asked ⟨row, [row.suspendedStep], [row.suspendedStep]⟩

theorem Asked.recordsApprovals {r : ApprovalRun O S} (h : Asked r) : RecordsApprovals r := by
  cases h with
  | idle hcolumn => exact ⟨by simp [hcolumn], fun h => absurd hcolumn h, by simp, by simp⟩
  | waits _ hcolumn => exact ⟨by simp [hcolumn], by simp, by simp, by simp⟩
  | decided _ hcolumn => exact ⟨by simp [hcolumn], by simp, by simp, by simp⟩

/-- A call that leaves the column alone. -/
theorem Asked.patched {r : ApprovalRun O S} (h : Asked r) (read : String → Option S) (status : RunStatus)
    (id : JsText) (state : S) : Asked ⟨r.row.patched read status id state none, r.waiting, r.submitted⟩ := by
  cases h with
  | idle hcolumn => exact .idle hcolumn
  | waits _ hcolumn => exact .waits (RunRecord.patched _ read status id state none) hcolumn
  | decided _ hcolumn => exact .decided (RunRecord.patched _ read status id state none) hcolumn

theorem Asked.step (hdefinition : Accepted definition) {r r' : ApprovalRun O S} {event : ApprovalEvent} (h : Asked r)
    (hstep : ApprovalStep definition r event r') (hone : OneByOne r event) : Asked r' := by
  cases hstep with
  | writes => exact h.patched _ _ _ _
  | suspends step read state hleaf =>
    have hid := columnText_ne_empty (hdefinition.validIds.leaves step hleaf)
    cases h with
    | idle =>
      exact .waits (RunRecord.patched _ read .suspended step.id state (some (columnText step.id))) hid
    | waits => cases hone
    | decided => cases hone
  | submits hcolumn =>
    cases h with
    | idle hempty => exact absurd hempty hcolumn
    | waits => exact .decided _ hcolumn
    | decided => cases hone
  | approves _ _ _ hsubmitted =>
    cases h with
    | idle => cases hsubmitted
    | waits => cases hsubmitted
    | decided =>
      rw [List.mem_singleton.mp hsubmitted, List.erase_cons_head]
      exact .idle rfl
  | rejects => cases hone
  | finalizes hwaiting =>
    cases h with
    | idle => exact .idle rfl
    | waits => cases hwaiting
    | decided => cases hwaiting

/-- **The column and the approvals that wait agree** in every state of a run where they wait one by one. -/
theorem recordsApprovals_of_run (hdefinition : Accepted definition) {events : List ApprovalEvent}
    {r : ApprovalRun O S}
    (h : Run (Guarded (ApprovalStep definition) OneByOne) ApprovalRun.created events r) : RecordsApprovals r := by
  have hasked : Asked r := by
    refine h.invariant (.idle rfl) ?_
    rintro s event t hs ⟨hstep, hone⟩
    exact hs.step hdefinition hstep hone
  exact hasked.recordsApprovals

/-! ### A denial -/

def askStep : WorkflowStep := .mk (JsText.of "ask") .approval none none none

def approvalAlone : List WorkflowStep := [askStep]

theorem accepted_approvalAlone : Accepted approvalAlone where
  sequence := by decide
  steps := by decide
  count := by decide
  depth := by decide
  ids := by decide

/-- The approval has been asked for. -/
def askedRun : ApprovalRun Unit Unit :=
  ⟨RunRecord.created.patched (fun _ => none) .suspended (JsText.of "ask") () (some "ask"), ["ask"], []⟩

theorem suspends_approvalAlone : ApprovalStep approvalAlone ApprovalRun.created (.suspends (JsText.of "ask")) askedRun :=
  .suspends askStep (fun _ => none) () List.mem_cons_self rfl

theorem recordsApprovals_askedRun : RecordsApprovals askedRun :=
  recordsApprovals_of_run accepted_approvalAlone (Run.nil.snoc ⟨suspends_approvalAlone, rfl⟩)

/-- **An approval that has been denied** stays in the column. -/
theorem denial_unrecorded : ¬ ∀ (definition : List WorkflowStep) (events : List ApprovalEvent)
    (r : ApprovalRun Unit Unit), Accepted definition → Run (ApprovalStep definition) ApprovalRun.created events r →
      RecordsApprovals r := by
  intro h
  have hsubmits : ApprovalStep approvalAlone askedRun .submits _ := .submits (by decide)
  have hrejects : ApprovalStep approvalAlone ⟨askedRun.row, ["ask"], ["ask"]⟩ (.rejects askStep.id) _ :=
    .rejects askStep (fun _ => none) () (by decide)
  have hrun := ((Run.nil.snoc suspends_approvalAlone).snoc hsubmits).snoc hrejects
  exact (h _ _ _ accepted_approvalAlone hrun).waits.mp (by decide) (by decide)

end AgentService
