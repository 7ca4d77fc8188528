import BoringPanel.AgentService.Security.InputSecurity
import BoringPanel.AgentService.Workflows.Meaning
import BoringPanel.Lib.Runs

/-!
# Runs with approvals

A run of a definition step by step, where its steps are leaves and conditions: a leaf is executed with an
answer, an approval is left waiting (`suspend`) until it is resumed with a decision, and a condition puts the
branch that it takes in front of what is still to be done. The route that resumes a run looks at its record
only, so that a run that waits may be resumed more than once, and goes on each time.

* `passes_of_run`: what a run completes with is what the meaning of the definition allows.
* `clearedTrace_of_run`: the locked workflow `system-security-decision` of `db.ts` executes its operation only
  after a check that does not deny, and after an approval.

The invariant of the second one (`Locked`) follows the events so far: the policy never allows a request to
operate (`evaluateInputSecurity_operate`), so that the rule of the branch holds and the approval is in the way.
-/

namespace AgentService

variable {N : Type}

open JsValue (get)

/-! ### Steps of a run -/

/-- What is still to be done: a step of the definition, or the end of a condition. -/
inductive Todo where
  | step (step : WorkflowStep)
  | normalize (sid : JsText)

inductive ExecutionStatus where
  | running
  | waiting
  | failed
deriving DecidableEq

structure RunPath (N : Type) where
  context : WorkflowContext N
  todo : List Todo
  status : ExecutionStatus

inductive RunEvent (N : Type) where
  /-- A leaf begins, with the answer that it is given, or with an error. -/
  | executes (sid : JsText) (answer : Option (LeafAnswer N))
  | suspends (sid : JsText)
  | resumes (sid : JsText) (approved : Bool)
  | takes (sid : JsText) (taken : Option Bool)
  | normalizes (sid : JsText)

section Policy

variable [JsNumeric N]

def Decision.text : Decision → JsText
  | .allow => JsText.of "allow"
  | .requireApproval => JsText.of "require-approval"
  | .deny => JsText.of "deny"

def SecurityIntent.text : SecurityIntent → JsText
  | .observe => JsText.of "observe"
  | .diagnose => JsText.of "diagnose"
  | .change => JsText.of "change"
  | .privilegeEscalation => JsText.of "privilege-escalation"
  | .secretAccess => JsText.of "secret-access"
  | .unknown => JsText.of "unknown"

def SecurityDecisionResult.members (result : SecurityDecisionResult) (traceId inputHash : JsText) :
    List (JsText × JsValue N) :=
  [(JsText.of "traceId", .string traceId), (JsText.of "decision", .string result.decision.text),
    (JsText.of "riskScore", .number (JsNumeric.ofNat result.riskScore)),
    (JsText.of "intent", .string result.intent.text),
    (JsText.of "reasons", .array (result.reasons.map fun reason => .string (JsText.of reason))),
    (JsText.of "inputHash", .string inputHash)]

/-- The result of `evaluateInputSecurity`, as it is stored. -/
def SecurityDecisionResult.value (result : SecurityDecisionResult) (traceId inputHash : JsText) : JsValue N :=
  .object (result.members traceId inputHash)

variable (nfkc : JsText → JsText)

/-- What a leaf may be answered at once: a security check by the policy, an approval nothing. -/
def Answers (context : WorkflowContext N) : LeafAnswer N → Prop
  | .security result => ∃ traceId inputHash,
    result = (evaluateInputSecurity nfkc context.message .operate).value traceId inputHash
  | .decision _ _ => False
  | _ => True

/-- What an execution does next. -/
inductive ExecutionStep : RunPath N → RunEvent N → RunPath N → Prop
  | completes {step : WorkflowStep} {rest : List Todo} {context context' : WorkflowContext N}
      {answer : LeafAnswer N} (hleaf : step.IsLeaf) (hanswer : Answers nfkc context answer)
      (houtput : executeLeaf step answer context = some context') :
      ExecutionStep ⟨context, .step step :: rest, .running⟩ (.executes step.id (some answer))
        ⟨context', rest, .running⟩
  | refuses {step : WorkflowStep} {rest : List Todo} {context : WorkflowContext N} {answer : LeafAnswer N}
      (hleaf : step.IsLeaf) (hanswer : Answers nfkc context answer)
      (houtput : executeLeaf step answer context = none) :
      ExecutionStep ⟨context, .step step :: rest, .running⟩ (.executes step.id (some answer))
        ⟨context, .step step :: rest, .failed⟩
  | throws {step : WorkflowStep} {rest : List Todo} {context : WorkflowContext N} (hleaf : step.IsLeaf) :
      ExecutionStep ⟨context, .step step :: rest, .running⟩ (.executes step.id none)
        ⟨context, .step step :: rest, .failed⟩
  | suspends {step : WorkflowStep} {rest : List Todo} {context : WorkflowContext N} (hleaf : step.IsLeaf)
      (happroval : step.type = .approval) :
      ExecutionStep ⟨context, .step step :: rest, .running⟩ (.suspends step.id)
        ⟨context, .step step :: rest, .waiting⟩
  | takes {sid : JsText} {rule : WorkflowConditionRule} {whenTrue whenFalse : List WorkflowStep}
      {parallel : Option _} {loop : Option _} {rest : List Todo} {context : WorkflowContext N} {taken : Bool}
      (hrule : compareRule context.value rule = some taken) :
      ExecutionStep ⟨context, .step (.mk sid .condition (some ⟨rule, whenTrue, whenFalse⟩) parallel loop) :: rest,
          .running⟩ (.takes sid (some taken))
        ⟨context, (if taken = true then whenTrue else whenFalse).map .step ++ .normalize sid :: rest, .running⟩
  -- neither branch is taken, and the node has no context
  | undecided {sid : JsText} {rule : WorkflowConditionRule} {whenTrue whenFalse : List WorkflowStep}
      {parallel : Option _} {loop : Option _} {rest : List Todo} {context : WorkflowContext N}
      (hrule : compareRule context.value rule = none) :
      ExecutionStep ⟨context, .step (.mk sid .condition (some ⟨rule, whenTrue, whenFalse⟩) parallel loop) :: rest,
          .running⟩ (.takes sid none)
        ⟨context, .step (.mk sid .condition (some ⟨rule, whenTrue, whenFalse⟩) parallel loop) :: rest, .failed⟩
  | normalizes {sid : JsText} {rest : List Todo} {context : WorkflowContext N} :
      ExecutionStep ⟨context, .normalize sid :: rest, .running⟩ (.normalizes sid) ⟨context.parsed, rest, .running⟩

/-- What is left of an approval that has been decided on. -/
def resumed (step : WorkflowStep) (rest : List Todo) (context : WorkflowContext N) (approved : Bool)
    (comment : Option JsText) : RunPath N :=
  match executeLeaf step (.decision approved comment) context with
  | some context' => ⟨context', rest, .running⟩
  | none => ⟨context, .step step :: rest, .failed⟩

/-- A step of a run: one of its executions goes on, or one that waits is resumed. -/
inductive RunStep : List (RunPath N) → RunEvent N → List (RunPath N) → Prop
  | advances {before after : List (RunPath N)} {e e' : RunPath N} {event : RunEvent N}
      (hstep : ExecutionStep nfkc e event e') : RunStep (before ++ e :: after) event (before ++ e' :: after)
  | resumes {executions : List (RunPath N)} {step : WorkflowStep} {rest : List Todo}
      {context : WorkflowContext N} (hwaiting : ⟨context, .step step :: rest, .waiting⟩ ∈ executions)
      (approved : Bool) (comment : Option JsText) :
      RunStep executions (.resumes step.id approved) (executions ++ [resumed step rest context approved comment])

/-- A run begins with the steps of its definition. -/
def begun (steps : List WorkflowStep) (context : WorkflowContext N) : List (RunPath N) :=
  [⟨context, steps.map .step, .running⟩]

end Policy

/-! ### What a run completes with -/

section Completes

variable [JsNumeric N] (count : Nat → Nat)

/-- What is still to be done leads from one context to another. -/
def Finishes : List Todo → WorkflowContext N → WorkflowContext N → Prop
  | [], x, z => z = x
  | .step step :: rest, x, z => ∃ y, (∃ trace, PassesStep count step x trace y) ∧ Finishes rest y z
  | .normalize _ :: rest, x, z => Finishes rest x.parsed z

theorem finishes_steps_append {steps : List WorkflowStep} {rest : List Todo} {x z : WorkflowContext N} :
    Finishes count (steps.map .step ++ rest) x z ↔
      ∃ y, (∃ trace, Passes count steps x trace y) ∧ Finishes count rest y z := by
  induction steps generalizing x with
  | nil =>
    constructor
    · intro h
      exact ⟨x, ⟨[], rfl, rfl⟩, h⟩
    · rintro ⟨y, ⟨trace, -, rfl⟩, h⟩
      exact h
  | cons step steps ih =>
    constructor
    · rintro ⟨y, ⟨first, hfirst⟩, h⟩
      obtain ⟨w, ⟨others, hothers⟩, h⟩ := ih.mp h
      exact ⟨w, ⟨first :: others, first, others, y, rfl, hfirst, hothers⟩, h⟩
    · rintro ⟨w, ⟨_, first, others, y, rfl, hfirst, hothers⟩, h⟩
      exact ⟨y, ⟨first, hfirst⟩, ih.mpr ⟨w, ⟨others, hothers⟩, h⟩⟩

variable {nfkc : JsText → JsText} {count}

/-- What an execution may finish with after a step, it could finish with before. -/
theorem ExecutionStep.finishes {e e' : RunPath N} {event : RunEvent N} (hstep : ExecutionStep nfkc e event e')
    {z : WorkflowContext N} (h : Finishes count e'.todo e'.context z) : Finishes count e.todo e.context z := by
  cases hstep with
  | completes hleaf hanswer houtput =>
    exact ⟨_, ⟨_, (passesStep_leaf hleaf _ _ _).mpr ⟨_, rfl, houtput⟩⟩, h⟩
  | refuses => exact h
  | throws => exact h
  | suspends => exact h
  | @takes sid rule whenTrue whenFalse parallel loop rest context taken hrule =>
    obtain ⟨y, ⟨inner, hinner⟩, hrest⟩ := (finishes_steps_append count).mp h
    refine ⟨y.parsed, ⟨.condition inner, ?_⟩, hrest⟩
    rw [PassesStep]
    cases taken with
    | true => exact ⟨inner, y, rfl, rfl, .inl ⟨hrule, hinner⟩⟩
    | false => exact ⟨inner, y, rfl, rfl, .inr ⟨hrule, hinner⟩⟩
  | undecided => exact h
  | normalizes => exact h

/-- An approval that was given is passed with the decision; of one that was not, nothing has changed. -/
theorem finishes_resumed {step : WorkflowStep} (hleaf : step.IsLeaf) {rest : List Todo}
    {context z : WorkflowContext N} {approved : Bool} {comment : Option JsText}
    (h : Finishes count (resumed step rest context approved comment).todo
      (resumed step rest context approved comment).context z) :
    Finishes count (.step step :: rest) context z := by
  unfold resumed at h
  split at h
  · rename_i context' houtput
    exact ⟨context', ⟨_, (passesStep_leaf hleaf _ _ _).mpr ⟨_, rfl, houtput⟩⟩, h⟩
  · exact h

/-- An execution that waits has come to a leaf. -/
def RunPath.WaitsAtLeaf (e : RunPath N) : Prop :=
  e.status = .waiting → ∃ step rest, e.todo = .step step :: rest ∧ step.IsLeaf ∧ step.type = .approval

theorem ExecutionStep.waitsAtLeaf {e e' : RunPath N} {event : RunEvent N}
    (hstep : ExecutionStep nfkc e event e') : e'.WaitsAtLeaf := by
  intro hwaiting
  cases hstep with
  | suspends hleaf happroval => exact ⟨_, _, rfl, hleaf, happroval⟩
  | completes => cases hwaiting
  | refuses => cases hwaiting
  | throws => cases hwaiting
  | takes => cases hwaiting
  | undecided => cases hwaiting
  | normalizes => cases hwaiting

omit [JsNumeric N] in
theorem waitsAtLeaf_resumed {step : WorkflowStep} {rest : List Todo} {context : WorkflowContext N}
    {approved : Bool} {comment : Option JsText} : (resumed step rest context approved comment).WaitsAtLeaf := by
  unfold resumed
  split
  · intro hwaiting
    cases hwaiting
  · intro hwaiting
    cases hwaiting

/-- What a step of a run does to one of the executions that there are after it. -/
theorem RunStep.mem_cases {s s' : List (RunPath N)} {event : RunEvent N} (hstep : RunStep nfkc s event s')
    {e' : RunPath N} (hmem : e' ∈ s') : e' ∈ s ∨ (∃ e ∈ s, ExecutionStep nfkc e event e') ∨
      ∃ step rest context approved comment, ⟨context, .step step :: rest, .waiting⟩ ∈ s ∧
        event = .resumes step.id approved ∧ e' = resumed step rest context approved comment := by
  cases hstep with
  | advances hone =>
    rcases List.mem_append.mp hmem with hbefore | hafter
    · exact .inl (List.mem_append_left _ hbefore)
    · rcases List.mem_cons.mp hafter with rfl | hafter
      · exact .inr (.inl ⟨_, List.mem_append_right _ List.mem_cons_self, hone⟩)
      · exact .inl (List.mem_append_right _ (List.mem_cons_of_mem _ hafter))
  | resumes hwaiting approved comment =>
    rcases List.mem_append.mp hmem with hold | hnew
    · exact .inl hold
    · obtain rfl := List.mem_singleton.mp hnew
      exact .inr (.inr ⟨_, _, _, approved, comment, hwaiting, rfl, rfl⟩)

/-- The executions are on their way through the steps, and wait at leaves only. -/
def OnTheWay (count : Nat → Nat) (steps : List WorkflowStep) (x : WorkflowContext N) (s : List (RunPath N)) :
    Prop :=
  ∀ e ∈ s, e.WaitsAtLeaf ∧ ∀ z, Finishes count e.todo e.context z → Finishes count (steps.map .step) x z

end Completes

/-! ### The locked workflow -/

/-- The leaves of `securityWorkflow` in `db.ts`. -/
def security : WorkflowStep := .mk (JsText.of "security") .securityCheck none none none

def approval : WorkflowStep := .mk (JsText.of "approval") .approval none none none

def readPlan : WorkflowStep := .mk (JsText.of "read_plan") .agent none none none

def operation : WorkflowStep := .mk (JsText.of "operation") .operation none none none

def verify : WorkflowStep := .mk (JsText.of "verify") .verify none none none

def approvalRule : WorkflowConditionRule where
  path := JsText.of "results.security.decision"
  operator := .equals
  value := some (JsText.of "require-approval")

def approvalGate : WorkflowStep :=
  .mk (JsText.of "approval_gate") .condition (some ⟨approvalRule, [approval], [readPlan]⟩) none none

def securityWorkflow : List WorkflowStep := [security, approvalGate, operation, verify]

section Locked

variable [JsNumeric N]

/-- A request to operate is denied, or needs an approval. -/
theorem evaluateInputSecurity_operate (nfkc : JsText → JsText) (text : JsText) :
    (evaluateInputSecurity nfkc text .operate).decision = .deny ∨
      (evaluateInputSecurity nfkc text .operate).decision = .requireApproval := by
  unfold evaluateInputSecurity
  dsimp only
  split
  · exact .inl rfl
  · rw [if_pos (.inr rfl)]
    exact .inr rfl

omit [JsNumeric N] in
theorem Decision.text_inj (d d' : Decision) : d.text = d'.text ↔ d = d' := by
  cases d <;> cases d' <;> decide

/-- The decision that is stored. -/
theorem get_decision (result : SecurityDecisionResult) (traceId inputHash : JsText) :
    get (result.members (N := N) traceId inputHash) (JsText.of "decision") = some (.string result.decision.text) := by
  unfold SecurityDecisionResult.members
  rw [JsValue.get_cons, if_neg (by decide), JsValue.get_cons, if_pos rfl]

theorem isDenied_value (result : SecurityDecisionResult) (traceId inputHash : JsText) :
    isDenied (result.value (N := N) traceId inputHash) = decide (result.decision = .deny) := by
  unfold SecurityDecisionResult.value isDenied
  dsimp only
  rw [get_decision]
  exact decide_eq_decide.mpr (Decision.text_inj result.decision .deny)

/-- The rule of the branch reads the decision. -/
theorem readPath_approvalRule (result : SecurityDecisionResult) (traceId inputHash : JsText)
    (context : WorkflowContext N) :
    readPath (context.withResult (JsText.of "security") (result.value traceId inputHash)).value approvalRule.path =
      .value (.string result.decision.text) := by
  have hpath : ((approvalRule.path.splitOn dot).filter (· ≠ [])) =
      [JsText.of "results", JsText.of "security", JsText.of "decision"] := by decide
  have hmember : ∀ (members : List (JsText × JsValue N)) (segment : JsText) (v : JsValue N),
      get members segment = some v → readSegment (.value (.object members)) segment = .value v := by
    intro members segment v h
    rw [readSegment, h, Option.elim_some]
  have hresults : get [(JsText.of "message", .string context.message), (JsText.of "results",
      .object (JsValue.set context.results (JsText.of "security") (result.value traceId inputHash))),
      (JsText.of "text", .string context.text)] (JsText.of "results") = some (.object (JsValue.set context.results
        (JsText.of "security") (result.value traceId inputHash))) := by
    rw [JsValue.get_cons, if_neg (by decide), JsValue.get_cons, if_pos rfl]
  have hsecurity : get (JsValue.set context.results (JsText.of "security") (result.value traceId inputHash))
      (JsText.of "security") = some (result.value traceId inputHash) := by
    rw [JsValue.get_set, if_pos rfl]
  unfold readPath
  rw [hpath]
  calc [JsText.of "results", JsText.of "security", JsText.of "decision"].foldl readSegment
        (.value (context.withResult (JsText.of "security") (result.value traceId inputHash)).value)
      = [JsText.of "security", JsText.of "decision"].foldl readSegment (.value (.object (JsValue.set context.results
          (JsText.of "security") (result.value traceId inputHash)))) := by
        rw [List.foldl_cons]
        exact congrArg (List.foldl readSegment · _) (hmember _ _ _ hresults)
    _ = [JsText.of "decision"].foldl readSegment (.value (result.value traceId inputHash)) := by
        rw [List.foldl_cons, hmember _ _ _ hsecurity]
    _ = .value (.string result.decision.text) := hmember _ _ _ (get_decision result traceId inputHash)

theorem compareRule_approvalRule (result : SecurityDecisionResult) (traceId inputHash : JsText)
    (context : WorkflowContext N) :
    compareRule (context.withResult (JsText.of "security") (result.value traceId inputHash)).value approvalRule =
      some (decide (result.decision = .requireApproval)) := by
  have hread := readPath_approvalRule result traceId inputHash context
  have hcompare : compareRule (context.withResult (JsText.of "security") (result.value traceId inputHash)).value
      approvalRule = some (decide (result.decision.text = JsText.of "require-approval")) := by
    show (textOrEmpty (readPath _ approvalRule.path)).map _ = _
    rw [hread]
    rfl
  rw [hcompare]
  exact congrArg some (decide_eq_decide.mpr (Decision.text_inj result.decision .requireApproval))

/-! ### What happens before the operation -/

/-- The check has not denied, and the approval was given. -/
structure Cleared (events : List (RunEvent N)) : Prop where
  checked : ∃ result, .executes security.id (some (.security result)) ∈ events ∧ isDenied result = false
  notDenied : ∀ result, .executes security.id (some (.security result)) ∈ events → isDenied result = false
  approved : .resumes approval.id true ∈ events

/-- The operation is executed only when this is so. -/
def ClearedTrace (events : List (RunEvent N)) : Prop :=
  ∀ before answer after, events = before ++ .executes operation.id answer :: after → Cleared before

omit [JsNumeric N] in
theorem ClearedTrace.snoc {events : List (RunEvent N)} {event : RunEvent N} (h : ClearedTrace events)
    (hlast : ∀ answer, event = .executes operation.id answer → Cleared events) :
    ClearedTrace (events ++ [event]) := by
  intro before answer after hsplit
  rcases List.eq_nil_or_concat after with rfl | ⟨after, last, rfl⟩
  · obtain ⟨rfl, hevent⟩ := List.append_inj' hsplit rfl
    exact hlast answer (List.cons.inj hevent).1
  · refine h before answer after ?_
    rw [List.concat_eq_append, ← List.cons_append, ← List.append_assoc] at hsplit
    exact (List.append_inj' hsplit rfl).1

/-- What is to be done once the branch is passed. -/
def afterGate : List Todo := [.step operation, .step verify]

/-- Where an execution stands after the check. -/
inductive Position (events : List (RunEvent N)) : RunPath N → Prop
  | atGate {context : WorkflowContext N} {status : ExecutionStatus}
      (hrule : compareRule context.value approvalRule = some true) :
      Position events ⟨context, .step approvalGate :: afterGate, status⟩
  | atApproval {context : WorkflowContext N} {status : ExecutionStatus} :
      Position events ⟨context, .step approval :: .normalize approvalGate.id :: afterGate, status⟩
  | behind {context : WorkflowContext N} {todo : List Todo} {status : ExecutionStatus}
      (htodo : todo <:+ .normalize approvalGate.id :: afterGate) (happroved : .resumes approval.id true ∈ events) :
      Position events ⟨context, todo, status⟩

variable {nfkc : JsText → JsText}

/-- An event of a leaf is about what was to be done next. -/
theorem ExecutionStep.executes_head {e e' : RunPath N} {sid : JsText} {answer : Option (LeafAnswer N)}
    (hstep : ExecutionStep nfkc e (.executes sid answer) e') :
    ∃ step rest, e.todo = .step step :: rest ∧ step.id = sid := by
  cases hstep with
  | completes => exact ⟨_, _, rfl, rfl⟩
  | refuses => exact ⟨_, _, rfl, rfl⟩
  | throws => exact ⟨_, _, rfl, rfl⟩

/-- Without conditions the steps are taken in their order. -/
theorem ExecutionStep.todo_suffix {e e' : RunPath N} {event : RunEvent N} (hstep : ExecutionStep nfkc e event e')
    (hleaf : ∀ step rest, e.todo = .step step :: rest → step.IsLeaf) : e'.todo <:+ e.todo := by
  cases hstep with
  | completes => exact List.suffix_cons _ _
  | refuses => exact List.suffix_rfl
  | throws => exact List.suffix_rfl
  | suspends => exact List.suffix_rfl
  | takes => exact absurd ⟨rfl, rfl⟩ (hleaf _ _ rfl).1
  | undecided => exact List.suffix_rfl
  | normalizes => exact List.suffix_cons _ _

theorem ExecutionStep.running {e e' : RunPath N} {event : RunEvent N} (hstep : ExecutionStep nfkc e event e') :
    e.status = .running := by
  cases hstep <;> rfl

/-- An approval is not passed at once. -/
theorem not_answers_approval {context context' : WorkflowContext N} {answer : LeafAnswer N}
    (hanswer : Answers nfkc context answer) : executeLeaf approval answer context ≠ some context' := by
  cases answer with
  | decision approved comment => exact hanswer.elim
  | text text => nofun
  | security result => nofun
  | data data => nofun

omit [JsNumeric N] in
theorem isLeaf_of_type {sid : JsText} {type : WorkflowStepType} : (WorkflowStep.mk sid type none none none).IsLeaf :=
  ⟨nofun, nofun, nofun⟩

/-- The steps after the branch. -/
theorem step_of_suffix {todo rest : List Todo} {step : WorkflowStep}
    (h : todo <:+ .normalize approvalGate.id :: afterGate) (htodo : todo = .step step :: rest) :
    step = operation ∨ step = verify := by
  have hmem : Todo.step step ∈ Todo.normalize approvalGate.id :: afterGate := by
    refine h.subset ?_
    rw [htodo]
    exact List.mem_cons_self
  simpa [afterGate] using hmem

theorem Position.mono {events events' : List (RunEvent N)} (hsub : events ⊆ events') {e : RunPath N}
    (h : Position events e) : Position events' e := by
  cases h with
  | atGate hrule => exact .atGate hrule
  | atApproval => exact .atApproval
  | behind htodo happroved => exact .behind htodo (hsub happroved)

/-- A step of an execution that has passed the check. -/
theorem Position.step {events : List (RunEvent N)} {e e' : RunPath N} {event : RunEvent N}
    (h : Position events e) (hstep : ExecutionStep nfkc e event e') : Position events e' := by
  cases h with
  | @atGate context status hrule =>
    -- the rule holds, so that the approval is next
    generalize he : RunPath.mk context (.step approvalGate :: afterGate) status = e at hstep
    cases hstep with
    | completes hleaf => cases he; exact absurd ⟨rfl, rfl⟩ hleaf.1
    | refuses hleaf => cases he; exact absurd ⟨rfl, rfl⟩ hleaf.1
    | throws hleaf => cases he; exact absurd ⟨rfl, rfl⟩ hleaf.1
    | suspends hleaf => cases he; exact absurd ⟨rfl, rfl⟩ hleaf.1
    | takes htaken =>
      cases he
      obtain rfl := Option.some.inj (hrule.symm.trans htaken)
      exact .atApproval
    | undecided hnone =>
      cases he
      rw [hrule] at hnone
      cases hnone
    | normalizes => cases he
  | @atApproval context status =>
    generalize he : RunPath.mk context (.step approval :: .normalize approvalGate.id :: afterGate) status = e
      at hstep
    cases hstep with
    | completes _ hanswer houtput => cases he; exact absurd houtput (not_answers_approval hanswer)
    | refuses => cases he; exact .atApproval
    | throws => cases he; exact .atApproval
    | suspends => cases he; exact .atApproval
    | takes => cases he
    | undecided => cases he
    | normalizes => cases he
  | @behind context todo status htodo happroved =>
    have hleaf : ∀ step rest, todo = .step step :: rest → step.IsLeaf := by
      intro step rest heq
      rcases step_of_suffix htodo heq with rfl | rfl
      · exact isLeaf_of_type
      · exact isLeaf_of_type
    exact .behind ((hstep.todo_suffix hleaf).trans htodo) happroved

/-- Such an execution makes no check, and executes the operation only with the approval. -/
theorem Position.executes {events : List (RunEvent N)} {e e' : RunPath N} {sid : JsText}
    {answer : Option (LeafAnswer N)} (h : Position events e)
    (hstep : ExecutionStep nfkc e (.executes sid answer) e') :
    sid ≠ security.id ∧ (sid = operation.id → .resumes approval.id true ∈ events) := by
  obtain ⟨step, rest, htodo, rfl⟩ := hstep.executes_head
  cases h with
  | atGate =>
    obtain ⟨rfl, -⟩ : step = approvalGate ∧ afterGate = rest := by simpa [eq_comm] using htodo
    exact ⟨by decide, fun h => absurd h (by decide)⟩
  | atApproval =>
    obtain ⟨rfl, -⟩ : step = approval ∧ _ = rest := by simpa [eq_comm] using htodo
    exact ⟨by decide, fun h => absurd h (by decide)⟩
  | behind hsuffix happroved =>
    rcases step_of_suffix hsuffix htodo with rfl | rfl
    · exact ⟨by decide, fun _ => happroved⟩
    · exact ⟨by decide, fun _ => happroved⟩

theorem Position.withStatus {events : List (RunEvent N)} {context : WorkflowContext N} {todo : List Todo}
    {status : ExecutionStatus} (h : Position events ⟨context, todo, status⟩) (status' : ExecutionStatus) :
    Position events ⟨context, todo, status'⟩ := by
  cases h with
  | atGate hrule => exact .atGate hrule
  | atApproval => exact .atApproval
  | behind htodo happroved => exact .behind htodo happroved

/-- An execution that is resumed goes on with the approval only. -/
theorem Position.afterResume {events : List (RunEvent N)} {step : WorkflowStep} {rest : List Todo}
    {context : WorkflowContext N} {status : ExecutionStatus}
    (h : Position events ⟨context, .step step :: rest, status⟩)
    (approved : Bool) (comment : Option JsText) :
    Position (events ++ [.resumes step.id approved]) (resumed step rest context approved comment) := by
  have hsub : events ⊆ events ++ [.resumes step.id approved] := List.subset_append_left _ _
  -- a decision that is not taken leaves the step where it is
  have hrefused : executeLeaf step (.decision approved comment) context = none →
      Position (events ++ [.resumes step.id approved]) (resumed step rest context approved comment) := by
    intro hnone
    rw [resumed, hnone]
    exact (h.withStatus .failed).mono hsub
  generalize he : RunPath.mk context (.step step :: rest) status = e at h
  cases h with
  | atGate =>
    cases he
    exact hrefused rfl
  | atApproval =>
    cases he
    cases approved with
    | false => exact hrefused rfl
    | true => exact .behind List.suffix_rfl (List.mem_append_right _ List.mem_cons_self)
  | behind htodo =>
    cases he
    rcases step_of_suffix htodo rfl with rfl | rfl
    · exact hrefused rfl
    · exact hrefused rfl

/-! ### Runs of the locked workflow -/

/-- A run whose check is still to be made, has stopped it, or has let it go on. -/
inductive Locked : List (RunEvent N) → List (RunPath N) → Prop
  | unchecked (context : WorkflowContext N) : Locked [] (begun securityWorkflow context)
  | stopped {events : List (RunEvent N)} {s : List (RunPath N)} (hfailed : ∀ e ∈ s, e.status = .failed)
      (hcleared : ClearedTrace events) : Locked events s
  | checked {events : List (RunEvent N)} {s : List (RunPath N)} {result : JsValue N}
      (hchecked : .executes security.id (some (.security result)) ∈ events) (hallowed : isDenied result = false)
      (hall : ∀ result, .executes security.id (some (.security result)) ∈ events → isDenied result = false)
      (hposition : ∀ e ∈ s, Position events e) (hcleared : ClearedTrace events) : Locked events s

omit [JsNumeric N] in
theorem clearedTrace_nil : ClearedTrace (N := N) [] := by
  intro before answer after hsplit
  cases before <;> cases hsplit

/-- A check that lets the run go on has asked for an approval. -/
theorem position_checked {context context' : WorkflowContext N} {answer : LeafAnswer N}
    (hanswer : Answers nfkc context answer) (houtput : executeLeaf security answer context = some context') :
    ∃ result, answer = .security result ∧ isDenied result = false ∧
      compareRule context'.value approvalRule = some true := by
  cases answer with
  | decision approved comment => cases houtput
  | text text => cases houtput
  | data data => cases houtput
  | security result =>
    obtain ⟨traceId, inputHash, rfl⟩ := hanswer
    have hexecute : executeLeaf security (.security ((evaluateInputSecurity nfkc context.message .operate).value
        traceId inputHash)) context = if isDenied ((evaluateInputSecurity nfkc context.message .operate).value
          (N := N) traceId inputHash) then none
        else some (context.withResult (JsText.of "security") ((evaluateInputSecurity nfkc context.message
          .operate).value traceId inputHash)) := rfl
    rw [hexecute] at houtput
    split at houtput
    · cases houtput
    · rename_i hallowed
      rw [Bool.not_eq_true] at hallowed
      refine ⟨_, rfl, hallowed, ?_⟩
      rw [← Option.some.inj houtput, compareRule_approvalRule]
      rw [isDenied_value] at hallowed
      have hdecision :=
        (evaluateInputSecurity_operate nfkc context.message).resolve_left (of_decide_eq_false hallowed)
      exact congrArg some (decide_eq_true hdecision)

/-- The first step of a run: the check. -/
theorem locked_check {context : WorkflowContext N} {event : RunEvent N} {s : List (RunPath N)}
    (hstep : RunStep nfkc (begun securityWorkflow context) event s) : Locked [event] s := by
  have hcleared : ∀ answer, ClearedTrace (N := N) [.executes security.id answer] := by
    intro answer
    refine clearedTrace_nil.snoc fun answer' h => ?_
    have hid : security.id = operation.id := (RunEvent.executes.inj h).1
    exact absurd hid (by decide)
  generalize hs : begun securityWorkflow context = s₀ at hstep
  cases hstep with
  | @advances before after e e' event hone =>
    rcases List.append_eq_singleton_iff.mp hs.symm with ⟨rfl, he⟩ | ⟨-, he⟩
    · obtain ⟨he, rfl⟩ := List.cons.inj he
      cases hone with
      | completes _ hanswer houtput =>
        cases he
        obtain ⟨result, rfl, hallowed, hrule⟩ := position_checked hanswer houtput
        refine .checked List.mem_cons_self hallowed ?_ ?_ (hcleared _)
        · intro result' hmem
          obtain rfl : result' = result := by simpa using hmem
          exact hallowed
        · intro e he
          obtain rfl := List.mem_singleton.mp he
          exact .atGate hrule
      | refuses =>
        cases he
        exact .stopped (List.forall_mem_singleton.mpr rfl) (hcleared _)
      | throws =>
        cases he
        exact .stopped (List.forall_mem_singleton.mpr rfl) (hcleared _)
      | suspends _ happroval =>
        cases he
        cases happroval
      | takes => cases he
      | undecided => cases he
      | normalizes => cases he
    · cases he
  | resumes hwaiting =>
    rw [← hs] at hwaiting
    cases List.mem_singleton.mp hwaiting

theorem Locked.step {events : List (RunEvent N)} {s s' : List (RunPath N)} {event : RunEvent N}
    (h : Locked events s) (hstep : RunStep nfkc s event s') : Locked (events ++ [event]) s' := by
  cases h with
  | unchecked context => exact locked_check hstep
  | stopped hfailed hcleared =>
    -- nothing goes on
    exfalso
    cases hstep with
    | advances hone =>
      have hrunning := hone.running
      rw [hfailed _ (List.mem_append_right _ List.mem_cons_self)] at hrunning
      cases hrunning
    | resumes hwaiting => cases hfailed _ hwaiting
  | checked hchecked hallowed hall hposition hcleared =>
    have hevent : ∀ sid answer, event = .executes sid answer →
        sid ≠ security.id ∧ (sid = operation.id → .resumes approval.id true ∈ events) := by
      rintro sid answer rfl
      generalize hexecutes : RunEvent.executes sid answer = event at hstep
      cases hstep with
      | advances hone =>
        rw [← hexecutes] at hone
        exact (hposition _ (List.mem_append_right _ List.mem_cons_self)).executes hone
      | resumes => cases hexecutes
    have hsub : events ⊆ events ++ [event] := List.subset_append_left _ _
    refine .checked (hsub hchecked) hallowed ?_ ?_ ?_
    · intro result hmem
      rcases List.mem_append.mp hmem with hmem | hmem
      · exact hall result hmem
      · exact absurd rfl (hevent _ _ (List.mem_singleton.mp hmem).symm).1
    · intro e' he'
      rcases hstep.mem_cases he' with hold | ⟨e, he, hone⟩ |
        ⟨step, rest, context, approved, comment, hwaiting, rfl, rfl⟩
      · exact (hposition e' hold).mono hsub
      · exact ((hposition e he).step hone).mono hsub
      · exact (hposition _ hwaiting).afterResume approved comment
    · exact hcleared.snoc fun answer h => ⟨⟨_, hchecked, hallowed⟩, hall, (hevent _ _ h).2 rfl⟩

/-- **The operation is executed only after a check that does not deny, and after an approval**, in every run of
the locked workflow. -/
theorem clearedTrace_of_run {context : WorkflowContext N} {events : List (RunEvent N)} {s : List (RunPath N)}
    (h : Run (RunStep nfkc) (begun securityWorkflow context) events s) : ClearedTrace events := by
  have hlocked : Locked events s :=
    h.invariant_history (.unchecked context) fun _ _ _ _ hinv hstep => hinv.step hstep
  cases hlocked with
  | unchecked => exact clearedTrace_nil
  | stopped _ hcleared => exact hcleared
  | checked _ _ _ _ hcleared => exact hcleared

theorem RunStep.single {e e' : RunPath N} {event : RunEvent N} (h : ExecutionStep nfkc e event e') :
    RunStep nfkc [e] event [e'] := @RunStep.advances N _ nfkc [] [] e e' event h

/-- The events of a run in which the approval is given. -/
def approvedEvents (result : JsValue N) : List (RunEvent N) :=
  [.executes security.id (some (.security result)), .takes approvalGate.id (some true), .suspends approval.id,
    .resumes approval.id true, .normalizes approvalGate.id]

/-- A request that is not denied can be approved, and is executed then. -/
theorem exists_run_operation {context : WorkflowContext N}
    (h : (evaluateInputSecurity nfkc context.message .operate).decision = .requireApproval) (text : JsText) :
    ∃ result s, Run (RunStep nfkc) (begun securityWorkflow context)
      (approvedEvents result ++ [.executes operation.id (some (.text text))]) s := by
  let result : JsValue N := (evaluateInputSecurity nfkc context.message .operate).value [] []
  let checked := context.withResult (JsText.of "security") result
  have hallowed : isDenied result = false := by
    rw [isDenied_value, h]
    rfl
  have hexecute : executeLeaf security (.security result) context = some checked := by
    show (if isDenied result then none else some checked) = some checked
    rw [hallowed]
    rfl
  have hrule : compareRule checked.value approvalRule = some true := by
    rw [compareRule_approvalRule, h]
    rfl
  let approved := checked.withResult approval.id
    (.object [(JsText.of "approved", .bool true), (JsText.of "comment", .string [])])
  let waiting : RunPath N := ⟨checked, .step approval :: .normalize approvalGate.id :: afterGate, .waiting⟩
  have hcheck : RunStep nfkc (begun securityWorkflow context) (.executes security.id (some (.security result)))
      [⟨checked, .step approvalGate :: afterGate, .running⟩] :=
    .single (.completes isLeaf_of_type ⟨[], [], rfl⟩ hexecute)
  have htake : RunStep nfkc [⟨checked, .step approvalGate :: afterGate, .running⟩]
      (.takes approvalGate.id (some true))
      [⟨checked, .step approval :: .normalize approvalGate.id :: afterGate, .running⟩] := .single (.takes hrule)
  have hsuspend : RunStep nfkc [⟨checked, .step approval :: .normalize approvalGate.id :: afterGate, .running⟩]
      (.suspends approval.id) [waiting] := .single (.suspends isLeaf_of_type rfl)
  have hresume : RunStep nfkc [waiting] (.resumes approval.id true)
      [waiting, ⟨approved, .normalize approvalGate.id :: afterGate, .running⟩] :=
    .resumes List.mem_cons_self true none
  have hnormalize : RunStep nfkc [waiting, ⟨approved, .normalize approvalGate.id :: afterGate, .running⟩]
      (.normalizes approvalGate.id) [waiting, ⟨approved.parsed, afterGate, .running⟩] :=
    @RunStep.advances N _ nfkc [waiting] [] _ _ _ .normalizes
  have hoperate : RunStep nfkc [waiting, ⟨approved.parsed, afterGate, .running⟩]
      (.executes operation.id (some (.text text))) [waiting, ⟨{ approved.parsed with text := text }.withResult
        operation.id (.object [(JsText.of "text", .string text)]), [.step verify], .running⟩] :=
    @RunStep.advances N _ nfkc [waiting] [] _ _ _ (.completes isLeaf_of_type trivial rfl)
  exact ⟨result, _, (((((Run.nil.snoc hcheck).snoc htake).snoc hsuspend).snoc hresume).snoc hnormalize).snoc hoperate⟩

/-- An approved run of a request for nothing in particular. -/
theorem clearedTrace_of_run_approved : ∃ result : JsValue (Option Int), Cleared (approvedEvents result) := by
  let context : WorkflowContext (Option Int) := ⟨JsText.of "x", [], []⟩
  have hdecision : (evaluateInputSecurity id context.message .operate).decision = .requireApproval := by decide
  obtain ⟨result, s, hrun⟩ := exists_run_operation hdecision []
  exact ⟨result, clearedTrace_of_run hrun _ _ _ rfl⟩

end Locked

end AgentService
