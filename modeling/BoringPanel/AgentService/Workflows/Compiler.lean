import BoringPanel.AgentService.Workflows.Context
import BoringPanel.AgentService.Workflows.Engine

/-!
# The compiler of workflows

`compileSequence` of `compiler.ts`, which makes a chain of calls out of the steps of a definition, with
what the steps that it creates execute. What others answer a leaf (`LeafAnswer`) is not looked into.

A definition has a meaning of its own (`Passes`): how a sequence of steps turns one context into another,
with a trace of what happened on the way. The compiled workflow completes with the outputs that this
allows, whatever the engine does beyond its laws (`compileSequence_runs_iff`).
-/

namespace AgentService

variable {N : Type}

open JsValue (get)

/-! ### Leaves -/

/-- What a leaf is answered: the decision on an approval, the text of an agent, the result of the security
check, the data of an operation or of a tool. -/
inductive LeafAnswer (N : Type) where
  | decision (approved : Bool) (comment : Option JsText)
  | text (text : JsText)
  | security (result : JsValue N)
  | data (data : JsValue N)

/-- The `decision` of a security check is `deny`. -/
def isDenied : JsValue N → Bool
  | .object members =>
    match get members (JsText.of "decision") with
    | some (.string decision) => decision = JsText.of "deny"
    | _ => false
  | _ => false

def isTextProducing (type : WorkflowStepType) : Bool := type = .agent ∨ type = .operation ∨ type = .verify

/-- The `execute` of a leaf, once it is answered. -/
def executeLeaf (step : WorkflowStep) (answer : LeafAnswer N) (inputData : WorkflowContext N) :
    Option (WorkflowContext N) :=
  match step.type, answer with
  | .approval, .decision approved comment =>
    if approved then
      some (inputData.withResult step.id
        (.object [(JsText.of "approved", .bool true), (JsText.of "comment", .string (comment.getD []))]))
    else none
  | .agent, .text text | .operation, .text text | .verify, .text text =>
    some ({ inputData with text := text }.withResult step.id (.object [(JsText.of "text", .string text)]))
  | .securityCheck, .security result =>
    if isDenied result then none else some (inputData.withResult step.id result)
  | .mcpTool, .data data | .services, .data data | .alerts, .data data | .dashboards, .data data =>
    some (inputData.withResult step.id data)
  | _, _ => none

/-- A leaf stores one result, and writes a text only if its type says so. -/
theorem executeLeaf_cases {step : WorkflowStep} {answer : LeafAnswer N} {inputData output : WorkflowContext N}
    (h : executeLeaf step answer inputData = some output) : ∃ text data,
      output = { inputData with text := text }.withResult step.id data ∧
        (isTextProducing step.type = false → text = inputData.text) := by
  have hwrites : ∀ {type : WorkflowStepType} {text : JsText}, step.type = type → isTextProducing type = true →
      ({ inputData with text := text }.withResult step.id (.object [(JsText.of "text", .string text)])) = output →
      ∃ text data, output = { inputData with text := text }.withResult step.id data ∧
        (isTextProducing step.type = false → text = inputData.text) := by
    rintro type text htype hproduces rfl
    refine ⟨text, _, rfl, fun hsilent => ?_⟩
    rw [htype, hproduces] at hsilent
    cases hsilent
  have hstores : ∀ {data : JsValue N}, inputData.withResult step.id data = output →
      ∃ text data, output = { inputData with text := text }.withResult step.id data ∧
        (isTextProducing step.type = false → text = inputData.text) :=
    fun hdata => ⟨inputData.text, _, hdata.symm, fun _ => rfl⟩
  unfold executeLeaf at h
  split at h
  · split at h
    · exact hstores (Option.some.inj h)
    · cases h
  · rename_i htype
    exact hwrites htype rfl (Option.some.inj h)
  · rename_i htype
    exact hwrites htype rfl (Option.some.inj h)
  · rename_i htype
    exact hwrites htype rfl (Option.some.inj h)
  · split at h
    · cases h
    · exact hstores (Option.some.inj h)
  · exact hstores (Option.some.inj h)
  · exact hstores (Option.some.inj h)
  · exact hstores (Option.some.inj h)
  · exact hstores (Option.some.inj h)
  · cases h

variable [JsNumeric N]

/-- `prepareForeachStep` -/
def prepareForeach (id : JsText) (sourcePath : Option JsText) (maxIterations : Nat)
    (inputData : WorkflowContext N) : Option (List (WorkflowContext N)) :=
  match readPath inputData.value (sourcePath.getD []) with
  | .value (.array items) =>
    let limit := if maxIterations = 0 then 50 else maxIterations
    some ((items.take limit).mapIdx fun index item =>
      (inputData.withResult (id ++ JsText.of ".item") item).withResult (id ++ JsText.of ".index")
        (.number (JsNumeric.ofNat index)))
  | _ => none

/-! ### Created steps -/

inductive ControlMode where
  | branch | parallel | loop | foreach
deriving DecidableEq

def markerId (id suffix : JsText) : JsText := JsText.of "__scry_" ++ id ++ JsText.of "_" ++ suffix

/-- What `createStep` is given. -/
def createStep (id : JsText) (execute : Runs N) : MastraStep N := ⟨id, [], execute⟩

/-- `controlMarker` with the suffix `start`, the only one that is used. -/
def controlMarker (id : JsText) : MastraStep N :=
  createStep (markerId id (JsText.of "start")) fun inputData output => output = inputData

def normalizeControlOutput (id : JsText) (mode : ControlMode) : MastraStep N :=
  createStep (markerId id (JsText.of "normalize")) fun inputData output =>
    ∃ context, (if mode = .parallel ∨ mode = .foreach then some (mergeContexts inputData)
      else asContext inputData) = some context ∧ output = context.value

def prepareForeachStep (id : JsText) (sourcePath : Option JsText) (maxIterations : Nat) : MastraStep N :=
  createStep (markerId id (JsText.of "items")) fun inputData output =>
    ∃ context items, inputData = WorkflowContext.value context ∧
      prepareForeach id sourcePath maxIterations context = some items ∧
        output = .array (items.map WorkflowContext.value)

def compileLeafStep (step : WorkflowStep) : MastraStep N :=
  createStep step.id fun inputData output => ∃ context answer context', inputData = WorkflowContext.value context ∧
    executeLeaf step answer context = some context' ∧ output = context'.value

/-! ### Sequences -/

def underscore : JsText := JsText.of "_"

/-- The id of a workflow that is nested in another one. -/
def nestedId (id step branch : JsText) : JsText := id ++ underscore ++ step ++ underscore ++ branch

mutual

/-- What `compileSequence` does for a step; `id` is that of the workflow. -/
def compileStep (E : Mastra N) (id : JsText) (workflow : Chain N) : WorkflowStep → Chain N
  | .mk sid .condition (some ⟨rule, whenTrue, whenFalse⟩) _ _ =>
    let trueId := nestedId id sid (JsText.of "true")
    let falseId := nestedId id sid (JsText.of "false")
    (((workflow.andThen E (controlMarker sid)).branch E
      [(fun inputData => compareRule inputData rule,
          (compileSteps E trueId (createWorkflow trueId) whenTrue).commit),
        (fun inputData => (compareRule inputData rule).map not,
          (compileSteps E falseId (createWorkflow falseId) whenFalse).commit)])).andThen E
      (normalizeControlOutput sid .branch)
  | .mk sid .parallel _ (some branches) _ =>
    ((workflow.andThen E (controlMarker sid)).parallel E (compileBranches E id sid branches)).andThen E
      (normalizeControlOutput sid .parallel)
  | .mk sid .loop _ _ (some ⟨mode, rule, maxIterations, sourcePath, concurrency, steps⟩) =>
    let bodyId := nestedId id sid (JsText.of "body")
    let body := (compileSteps E bodyId (createWorkflow bodyId) steps).commit
    let started := workflow.andThen E (controlMarker sid)
    match mode with
    | .foreach =>
      ((started.andThen E (prepareForeachStep sid sourcePath maxIterations)).foreach E body
        (concurrency.getD 1)).andThen E (normalizeControlOutput sid .foreach)
    | .while =>
      (started.dowhile E body fun inputData iterationCount =>
        if iterationCount < maxIterations then compareRule inputData rule else some false).andThen E
          (normalizeControlOutput sid .loop)
    | .until =>
      (started.dountil E body fun inputData iterationCount =>
        if iterationCount ≥ maxIterations then some true else compareRule inputData rule).andThen E
          (normalizeControlOutput sid .loop)
  | .mk sid type condition parallel loop =>
    workflow.andThen E (compileLeafStep (.mk sid type condition parallel loop))

def compileSteps (E : Mastra N) (id : JsText) (workflow : Chain N) : List WorkflowStep → Chain N
  | [] => workflow
  | step :: rest => compileSteps E id (compileStep E id workflow step) rest

def compileBranches (E : Mastra N) (id sid : JsText) : List (WorkflowBranchDefinition WorkflowStep) →
    List (MastraStep N)
  | [] => []
  | ⟨bid, steps⟩ :: rest =>
    (compileSteps E (nestedId id sid bid) (createWorkflow (nestedId id sid bid)) steps).commit ::
      compileBranches E id sid rest

end

/-- `compileSequence` -/
def compileSequence (E : Mastra N) (id : JsText) (definitions : List WorkflowStep) : MastraStep N :=
  (compileSteps E id (createWorkflow id) definitions).commit

end AgentService
