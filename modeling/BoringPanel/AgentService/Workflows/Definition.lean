import BoringPanel.Lib.JsText

/-!
# Definitions of workflows

The steps of a definition, as `types.ts` has them, and what `workflowInputSchema` of `server.ts` accepts.
A step may come with the data of a control node that its type does not use; `inspectWorkflowSteps` and
`containsStepType` look into it, the compiler does not.

* `WorkflowStep.induction`: an induction over the sequences that are compiled.
* `WorkflowStep.leaves`: the steps that are not control nodes.
-/

namespace AgentService

inductive WorkflowStepType where
  | agent | services | alerts | dashboards | mcpTool | securityCheck | operation | verify | approval
  | condition | parallel | loop
deriving DecidableEq

inductive WorkflowConditionOperator where
  | exists | equals | notEquals | gt | gte | lt | lte
deriving DecidableEq

structure WorkflowConditionRule where
  path : JsText
  operator : WorkflowConditionOperator
  value : Option JsText
deriving DecidableEq

inductive LoopMode where
  | while | until | foreach
deriving DecidableEq

structure ConditionDefinition (Step : Type) where
  rule : WorkflowConditionRule
  whenTrue : List Step
  whenFalse : List Step

structure WorkflowBranchDefinition (Step : Type) where
  id : JsText
  steps : List Step

structure LoopDefinition (Step : Type) where
  mode : LoopMode
  rule : WorkflowConditionRule
  maxIterations : Nat
  sourcePath : Option JsText
  concurrency : Option Nat
  steps : List Step

/-- `WorkflowStepDefinition`, without the texts and the tool that a leaf hands to others. -/
inductive WorkflowStep where
  | mk (id : JsText) (type : WorkflowStepType) (condition : Option (ConditionDefinition WorkflowStep))
      (parallel : Option (List (WorkflowBranchDefinition WorkflowStep)))
      (loop : Option (LoopDefinition WorkflowStep))

namespace WorkflowStep

def id : WorkflowStep → JsText
  | mk id _ _ _ _ => id

def type : WorkflowStep → WorkflowStepType
  | mk _ type _ _ _ => type

/-- The compiler takes the step for none of the control nodes. -/
def IsLeaf : WorkflowStep → Prop
  | mk _ type condition parallel loop =>
    ¬ (type = .condition ∧ condition.isSome) ∧ ¬ (type = .parallel ∧ parallel.isSome) ∧
      ¬ (type = .loop ∧ loop.isSome)

/-- An induction over the sequences of a definition, with a case for each kind of the first step. -/
@[elab_as_elim]
theorem induction {motive : List WorkflowStep → Prop} (nil : motive [])
    (condition : ∀ id rule whenTrue whenFalse parallel loop rest, motive whenTrue → motive whenFalse →
      motive rest → motive (mk id .condition (some ⟨rule, whenTrue, whenFalse⟩) parallel loop :: rest))
    (parallel : ∀ id condition branches loop rest,
      (∀ branch ∈ branches, motive (WorkflowBranchDefinition.steps branch)) → motive rest →
        motive (mk id .parallel condition (some branches) loop :: rest))
    (loop : ∀ id condition parallel (loop : LoopDefinition WorkflowStep) rest, motive loop.steps → motive rest →
      motive (mk id .loop condition parallel (some loop) :: rest))
    (leaf : ∀ step rest, IsLeaf step → motive rest → motive (step :: rest))
    (steps : List WorkflowStep) : motive steps := by
  refine @WorkflowStep.rec_7 (fun step => ∀ rest, motive rest → motive (step :: rest))
    (fun condition => ∀ d ∈ condition, motive d.whenTrue ∧ motive d.whenFalse)
    (fun parallel => ∀ branches ∈ parallel, ∀ branch ∈ branches, motive branch.steps)
    (fun loop => ∀ d ∈ loop, motive d.steps) (fun d => motive d.whenTrue ∧ motive d.whenFalse)
    (fun branches => ∀ branch ∈ branches, motive branch.steps) (fun d => motive d.steps) motive
    (fun branch => motive branch.steps) ?_ ?_ ?_ ?_ ?_ ?_ ?_ ?_ ?_ ?_ ?_ nil ?_ ?_ steps
  · intro id type c p l hc hp hl rest hrest
    by_cases htype : IsLeaf (mk id type c p l)
    · exact leaf _ rest htype hrest
    · by_cases h : type = .condition ∧ c.isSome
      · obtain ⟨rfl, hsome⟩ := h
        obtain ⟨⟨rule, whenTrue, whenFalse⟩, rfl⟩ := Option.isSome_iff_exists.mp hsome
        have hboth := hc _ rfl
        exact condition id rule whenTrue whenFalse p l rest hboth.1 hboth.2 hrest
      · by_cases h' : type = .parallel ∧ p.isSome
        · obtain ⟨rfl, hsome⟩ := h'
          obtain ⟨branches, rfl⟩ := Option.isSome_iff_exists.mp hsome
          exact parallel id c branches l rest (hp _ rfl) hrest
        · have h'' : type = .loop ∧ l.isSome := by
            by_contra h''
            exact htype ⟨h, h', h''⟩
          obtain ⟨rfl, hsome⟩ := h''
          obtain ⟨d, rfl⟩ := Option.isSome_iff_exists.mp hsome
          exact loop id c p d rest (hl _ rfl) hrest
  · simp
  · intro d hd d' hd'
    obtain rfl := Option.mem_some.mp hd'
    exact hd
  · simp
  · intro branches hb branches' hb'
    obtain rfl := Option.mem_some.mp hb'
    exact hb
  · simp
  · intro d hd d' hd'
    obtain rfl := Option.mem_some.mp hd'
    exact hd
  · exact fun _ _ _ ht hf => ⟨ht, hf⟩
  · simp
  · exact fun _ _ hbranch hrest => List.forall_mem_cons.mpr ⟨hbranch, hrest⟩
  · exact fun _ _ _ _ _ _ hsteps => hsteps
  · exact fun step rest hstep hrest => hstep rest hrest
  · exact fun _ _ hsteps => hsteps

/-! ### The compiled steps -/

mutual

/-- The leaves that the compiler comes to, in its order. -/
def leavesOfStep : WorkflowStep → List WorkflowStep
  | mk _ .condition (some ⟨_, whenTrue, whenFalse⟩) _ _ => leaves whenTrue ++ leaves whenFalse
  | mk _ .parallel _ (some branches) _ => leavesOfBranches branches
  | mk _ .loop _ _ (some ⟨_, _, _, _, _, steps⟩) => leaves steps
  | mk id type condition parallel loop => [mk id type condition parallel loop]

def leaves : List WorkflowStep → List WorkflowStep
  | [] => []
  | step :: rest => leavesOfStep step ++ leaves rest

def leavesOfBranches : List (WorkflowBranchDefinition WorkflowStep) → List WorkflowStep
  | [] => []
  | ⟨_, steps⟩ :: rest => leaves steps ++ leavesOfBranches rest

end

theorem leavesOfStep_leaf {step : WorkflowStep} (h : step.IsLeaf) : leavesOfStep step = [step] := by
  obtain ⟨id, type, condition, parallel, loop⟩ := step
  rw [leavesOfStep]
  · rintro _ _ _ rfl rfl
    exact h.1 ⟨rfl, rfl⟩
  · rintro _ rfl rfl
    exact h.2.1 ⟨rfl, rfl⟩
  · rintro _ _ _ _ _ _ rfl rfl
    exact h.2.2 ⟨rfl, rfl⟩

theorem leavesOfBranches_eq (branches : List (WorkflowBranchDefinition WorkflowStep)) :
    leavesOfBranches branches = branches.flatMap fun branch => leaves branch.steps := by
  induction branches with
  | nil => rfl
  | cons branch rest ih => rw [leavesOfBranches, ih, List.flatMap_cons]

/-! ### What is accepted -/

mutual

/-- The steps that `inspectWorkflowSteps` visits, in its order. -/
def visitedOfStep : WorkflowStep → List WorkflowStep
  | mk id type condition parallel loop =>
    mk id type condition parallel loop ::
      ((match condition with
        | some ⟨_, whenTrue, whenFalse⟩ => visited whenTrue ++ visited whenFalse
        | none => []) ++
      (match parallel with
        | some branches => visitedOfBranches branches
        | none => []) ++
      (match loop with
        | some ⟨_, _, _, _, _, steps⟩ => visited steps
        | none => []))

def visited : List WorkflowStep → List WorkflowStep
  | [] => []
  | step :: rest => visitedOfStep step ++ visited rest

def visitedOfBranches : List (WorkflowBranchDefinition WorkflowStep) → List WorkflowStep
  | [] => []
  | ⟨_, steps⟩ :: rest => visited steps ++ visitedOfBranches rest

end

mutual

/-- The depth of `inspectWorkflowSteps`, of a step at the current one. -/
def depthOfStep (currentDepth : Nat) : WorkflowStep → Nat
  | mk _ _ condition parallel loop =>
    max (match condition with
        | some ⟨_, whenTrue, whenFalse⟩ =>
          max (depth (currentDepth + 1) whenTrue) (depth (currentDepth + 1) whenFalse)
        | none => currentDepth)
      (max (match parallel with
        | some branches => depthOfBranches currentDepth branches
        | none => currentDepth)
      (match loop with
        | some ⟨_, _, _, _, _, steps⟩ => depth (currentDepth + 1) steps
        | none => currentDepth))

def depth (currentDepth : Nat) : List WorkflowStep → Nat
  | [] => currentDepth
  | step :: rest => max (depthOfStep currentDepth step) (depth currentDepth rest)

def depthOfBranches (currentDepth : Nat) : List (WorkflowBranchDefinition WorkflowStep) → Nat
  | [] => currentDepth
  | ⟨_, steps⟩ :: rest => max (depth (currentDepth + 1) steps) (depthOfBranches currentDepth rest)

end

end WorkflowStep

/-- `[a-zA-Z0-9_-]` -/
def isIdUnit (c : UInt16) : Bool :=
  (0x61 ≤ c ∧ c ≤ 0x7a) ∨ (0x41 ≤ c ∧ c ≤ 0x5a) ∨ (0x30 ≤ c ∧ c ≤ 0x39) ∨ c = 0x5f ∨ c = 0x2d

/-- `workflowIdSchema` -/
def workflowIdSchema (id : JsText) : Bool := 1 ≤ id.length ∧ id.length ≤ 80 ∧ id.all isIdUnit

/-- A rule's path, and the path of a source. -/
def pathSchema (path : JsText) : Bool := 1 ≤ path.length ∧ path.length ≤ 300

def workflowConditionRuleSchema (rule : WorkflowConditionRule) : Bool :=
  pathSchema rule.path ∧ ∀ value ∈ rule.value, value.length ≤ 2000

def isSequence (steps : List WorkflowStep) : Bool := 1 ≤ steps.length ∧ steps.length ≤ 20

/-- `workflowStepSchema`, of a step without those in it. -/
def workflowStepSchema : WorkflowStep → Bool
  | .mk id type condition parallel loop =>
    workflowIdSchema id ∧
    (∀ d ∈ condition, workflowConditionRuleSchema d.rule ∧ isSequence d.whenTrue ∧ isSequence d.whenFalse) ∧
    (∀ branches ∈ parallel, 2 ≤ branches.length ∧ branches.length ≤ 6 ∧
      ∀ branch ∈ branches, workflowIdSchema branch.id ∧ isSequence branch.steps) ∧
    (∀ d ∈ loop, workflowConditionRuleSchema d.rule ∧ 1 ≤ d.maxIterations ∧ d.maxIterations ≤ 50 ∧
      (∀ path ∈ d.sourcePath, pathSchema path) ∧ (∀ n ∈ d.concurrency, 1 ≤ n ∧ n ≤ 10) ∧
      isSequence d.steps ∧ (d.mode = .foreach → d.sourcePath.isSome)) ∧
    (type = .condition → condition.isSome) ∧ (type = .parallel → parallel.isSome) ∧
    (type = .loop → loop.isSome)

/-- The `definition` of `workflowInputSchema`. -/
structure Accepted (definition : List WorkflowStep) : Prop where
  sequence : isSequence definition
  steps : ∀ step ∈ WorkflowStep.visited definition, workflowStepSchema step
  count : (WorkflowStep.visited definition).length ≤ 100
  depth : WorkflowStep.depth 1 definition ≤ 5
  ids : ((WorkflowStep.visited definition).map WorkflowStep.id).Nodup

end AgentService
