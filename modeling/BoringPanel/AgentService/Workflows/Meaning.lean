import BoringPanel.AgentService.Workflows.Compiler

/-!
# The meaning of a definition

How the steps of a definition turn one context into another (`Passes`), in the terms of the definition:
no chains, ids of nested workflows or values of the engine. What happened on the way is a trace, with the
answers that the leaves were given.

* `compileSequence_runs_iff`, `compileWorkflow_runs_iff`: a compiled definition completes with the outputs
  that its meaning allows.
-/

namespace AgentService

variable {N : Type}

open JsValue (keyed)

/-! ### Chains whose outputs are contexts -/

/-- The outputs are the contexts of which this holds. -/
def Yields (runs : JsValue N → Prop) (P : WorkflowContext N → Prop) : Prop :=
  ∀ v, runs v ↔ ∃ c, P c ∧ v = c.value

theorem Yields.congr {runs : JsValue N → Prop} {P Q : WorkflowContext N → Prop} (h : Yields runs P)
    (hPQ : ∀ c, P c ↔ Q c) : Yields runs Q := by
  intro v
  rw [h v]
  exact exists_congr fun c => and_congr_left' (hPQ c)

section Chains

variable {E : Mastra N} {workflow : Chain N} {x : JsValue N} {P : WorkflowContext N → Prop}

/-- A step that is added goes on from the contexts that the chain has come to. -/
theorem yields_andThen {step : MastraStep N} {Q : WorkflowContext N → WorkflowContext N → Prop}
    (h : Yields (workflow.runs x) P) (hstep : ∀ c, Yields (step.runs c.value) (Q c)) :
    Yields ((workflow.andThen E step).runs x) fun z => ∃ c, P c ∧ Q c z := by
  intro v
  rw [Chain.runs_andThen]
  constructor
  · rintro ⟨y, hy, hv⟩
    obtain ⟨c, hc, rfl⟩ := (h y).mp hy
    obtain ⟨z, hz, rfl⟩ := (hstep c v).mp hv
    exact ⟨z, ⟨c, hc, hz⟩, rfl⟩
  · rintro ⟨z, ⟨c, hc, hz⟩, rfl⟩
    exact ⟨c.value, (h _).mpr ⟨c, hc, rfl⟩, (hstep c _).mpr ⟨z, hz, rfl⟩⟩

theorem yields_marker (h : Yields (workflow.runs x) P) (sid : JsText) :
    Yields ((workflow.andThen E (controlMarker sid)).runs x) P := by
  have hmarker : ∀ c : WorkflowContext N, Yields ((controlMarker sid).runs c.value) fun z => z = c := by
    intro c v
    constructor
    · intro hv
      exact ⟨c, rfl, hv⟩
    · rintro ⟨z, rfl, rfl⟩
      rfl
  refine (yields_andThen h hmarker).congr fun z => ?_
  constructor
  · rintro ⟨c, hc, rfl⟩
    exact hc
  · intro hz
    exact ⟨z, hz, rfl⟩

/-- What a control node makes of the outputs of its call. -/
theorem yields_normalize {mode : ControlMode} {call : Chain N} {Q : WorkflowContext N → Prop}
    (sid : JsText)
    (h : ∀ z, (∃ raw, call.runs x raw ∧ (if mode = .parallel ∨ mode = .foreach then some (mergeContexts raw)
      else asContext raw) = some z) ↔ Q z) :
    Yields ((call.andThen E (normalizeControlOutput sid mode)).runs x) Q := by
  intro v
  rw [Chain.runs_andThen]
  constructor
  · rintro ⟨raw, hraw, z, hz, rfl⟩
    exact ⟨z, (h z).mp ⟨raw, hraw, hz⟩, rfl⟩
  · rintro ⟨z, hz, rfl⟩
    obtain ⟨raw, hraw, hnorm⟩ := (h z).mpr hz
    exact ⟨raw, hraw, z, hnorm, rfl⟩

/-- The steps of a condition that are run. -/
def selected (cond : JsValue N → Option Bool) (whenTrue whenFalse : MastraStep N) (y : JsValue N) :
    List (MastraStep N) :=
  (([(cond, whenTrue), (fun v => (cond v).map not, whenFalse)] : List ((JsValue N → Option Bool) × _)).filter
    fun c => c.1 y = some true).map Prod.snd

theorem selected_eq (cond : JsValue N → Option Bool) (whenTrue whenFalse : MastraStep N) (y : JsValue N) :
    selected cond whenTrue whenFalse y =
      (cond y).elim [] fun taken => [if taken then whenTrue else whenFalse] := by
  unfold selected
  rcases h : cond y with _ | _ | _ <;> simp [h]

/-- A branch is taken, if the condition gives an answer. -/
theorem exists_branch_iff (cond : JsValue N → Option Bool) {whenTrue whenFalse : MastraStep N}
    {M : Bool → WorkflowContext N → WorkflowContext N → Prop} (h : Yields (workflow.runs x) P)
    (hM : ∀ taken c, Yields ((if taken = true then whenTrue else whenFalse).runs c.value) (M taken c))
    (z : WorkflowContext N) :
    (∃ raw, (workflow.branch E [(cond, whenTrue), (fun v => (cond v).map not, whenFalse)]).runs x raw ∧
      asContext raw = some z) ↔ ∃ c y, P c ∧ z = y.parsed ∧ ∃ taken, cond c.value = some taken ∧ M taken c y := by
  have hrun : ∀ raw, (workflow.branch E [(cond, whenTrue), (fun v => (cond v).map not, whenFalse)]).runs x raw ↔
      ∃ y outputs, workflow.runs x y ∧ List.Forall₂ (outputOf y) (selected cond whenTrue whenFalse y) outputs ∧
        raw = .object (keyed outputs) := fun raw => Chain.runs_branch
  simp only [hrun, selected_eq]
  constructor
  · rintro ⟨raw, ⟨y, outputs, hy, houtputs, rfl⟩, hz⟩
    obtain ⟨c, hc, rfl⟩ := (h y).mp hy
    cases hcond : cond c.value with
    | none =>
      -- no branch has run, and no context is found
      rw [hcond] at houtputs
      obtain rfl := List.forall₂_nil_left_iff.mp houtputs
      cases hz
    | some taken =>
      rw [hcond] at houtputs
      obtain ⟨output, _, ⟨-, hout⟩, hnil, rfl⟩ := List.forall₂_cons_left_iff.mp houtputs
      obtain rfl := List.forall₂_nil_left_iff.mp hnil
      obtain ⟨y, hy, hvalue⟩ := (hM taken c _).mp hout
      obtain ⟨key, value⟩ := output
      obtain rfl : value = y.value := hvalue
      have hz' : some y.parsed = some z := (asContext_object key y).symm.trans hz
      exact ⟨c, y, hc, (Option.some.inj hz').symm, taken, hcond, hy⟩
  · rintro ⟨c, y, hc, rfl, taken, hcond, hy⟩
    let step := if taken = true then whenTrue else whenFalse
    refine ⟨_, ⟨c.value, [(step.id, y.value)], (h _).mpr ⟨c, hc, rfl⟩, ?_, rfl⟩, asContext_object step.id y⟩
    rw [hcond]
    exact .cons ⟨rfl, (hM taken c _).mpr ⟨y, hy, rfl⟩⟩ .nil

/-- The items are passed one by one. -/
theorem forall₂_runs_iff {body : MastraStep N} {τ : Type} {M : WorkflowContext N → τ → WorkflowContext N → Prop}
    (hM : ∀ c, Yields (body.runs c.value) fun z => ∃ t, M c t z) (items : List (WorkflowContext N))
    (outputs : List (JsValue N)) :
    List.Forall₂ body.runs (items.map WorkflowContext.value) outputs ↔
      ∃ passes : List (WorkflowContext N × τ × WorkflowContext N), items = passes.map Prod.fst ∧
        (∀ pass ∈ passes, M pass.1 pass.2.1 pass.2.2) ∧ outputs = passes.map fun pass => pass.2.2.value := by
  induction items generalizing outputs with
  | nil =>
    rw [List.map_nil, List.forall₂_nil_left_iff]
    constructor
    · rintro rfl
      exact ⟨[], rfl, by simp, rfl⟩
    · rintro ⟨passes, hnil, -, rfl⟩
      obtain rfl := List.map_eq_nil_iff.mp hnil.symm
      rfl
  | cons item rest ih =>
    rw [List.map_cons, List.forall₂_cons_left_iff]
    constructor
    · rintro ⟨output, others, hout, hothers, rfl⟩
      obtain ⟨z, ⟨t, ht⟩, rfl⟩ := (hM item output).mp hout
      obtain ⟨passes, rfl, hpasses, rfl⟩ := (ih others).mp hothers
      exact ⟨(item, t, z) :: passes, rfl, List.forall_mem_cons.mpr ⟨ht, hpasses⟩, rfl⟩
    · rintro ⟨passes, hitems, hpasses, rfl⟩
      cases passes with
      | nil => cases hitems
      | cons pass passes =>
        obtain ⟨rfl, rfl⟩ := List.cons.inj hitems
        obtain ⟨hpass, hothers⟩ := List.forall_mem_cons.mp hpasses
        exact ⟨pass.2.2.value, _, (hM pass.1 _).mpr ⟨pass.2.2, ⟨pass.2.1, hpass⟩, rfl⟩,
          (ih _).mpr ⟨passes, rfl, hothers, rfl⟩, rfl⟩

end Chains

variable [JsNumeric N]

/-! ### Traces and meaning -/

/-- What has happened in a step: of a condition, in the branch that was taken; of a loop, in its rounds. -/
inductive Trace (N : Type) where
  | leaf (answer : LeafAnswer N)
  | condition (taken : List (Trace N))
  | parallel (branches : List (JsText × List (Trace N)))
  | foreach (items : List (List (Trace N)))
  | loop (rounds : List (List (Trace N)))

/-- Whether a loop goes on after a round. -/
def goesOn (mode : LoopMode) (rule : WorkflowConditionRule) (maxIterations iterationCount : Nat)
    (context : WorkflowContext N) : Option Bool :=
  match mode with
  | .while => if iterationCount < maxIterations then compareRule context.value rule else some false
  | _ => (if iterationCount ≥ maxIterations then some true else compareRule context.value rule).map not

/-- A pass through one of several branches or items: which one it is, what happened, and what came out. -/
abbrev Pass (K N : Type) := K × List (Trace N) × WorkflowContext N

section Meaning

-- the `iterationCount` that the engine gives after a round
variable (count : Nat → Nat)

mutual

/-- A step turns a context into another one. -/
def PassesStep : WorkflowStep → WorkflowContext N → Trace N → WorkflowContext N → Prop
  | .mk _ .condition (some ⟨rule, whenTrue, whenFalse⟩) _ _, x, trace, z =>
    ∃ inner y, trace = .condition inner ∧ z = WorkflowContext.parsed y ∧
      (compareRule x.value rule = some true ∧ Passes whenTrue x inner y ∨
        compareRule x.value rule = some false ∧ Passes whenFalse x inner y)
  | .mk _ .parallel _ (some branches) _, x, trace, z =>
    ∃ passes : List (Pass JsText N), trace = .parallel (passes.map fun pass => (pass.1, pass.2.1)) ∧
      PassesBranches branches x passes ∧
      z = mergedContext ((keyed (passes.map fun pass => (pass.1, pass.2.2))).map fun output =>
        output.2.parsed)
  | .mk sid .loop _ _ (some ⟨mode, rule, maxIterations, sourcePath, _, steps⟩), x, trace, z =>
    match mode with
    | .foreach => ∃ passes : List (Pass (WorkflowContext N) N),
      prepareForeach sid sourcePath maxIterations x = some (passes.map Prod.fst) ∧
        trace = .foreach (passes.map fun pass => pass.2.1) ∧
        (∀ pass ∈ passes, Passes steps pass.1 pass.2.1 pass.2.2) ∧
        z = mergedContext (passes.map fun pass => pass.2.2.parsed)
    | mode => ∃ rounds y, trace = .loop rounds ∧ z = WorkflowContext.parsed y ∧
      Repeats (Passes steps) (fun n => goesOn mode rule maxIterations (count n)) 1 x rounds y
  | step, x, trace, z => ∃ answer, trace = .leaf answer ∧ executeLeaf step answer x = some z

def Passes : List WorkflowStep → WorkflowContext N → List (Trace N) → WorkflowContext N → Prop
  | [], x, trace, z => trace = [] ∧ z = x
  | step :: rest, x, trace, z => ∃ first others y, trace = first :: others ∧ PassesStep step x first y ∧
    Passes rest y others z

def PassesBranches : List (WorkflowBranchDefinition WorkflowStep) → WorkflowContext N → List (Pass JsText N) → Prop
  | [], _, passes => passes = []
  | ⟨bid, steps⟩ :: rest, x, passes => ∃ trace z others, passes = (bid, trace, z) :: others ∧
    Passes steps x trace z ∧ PassesBranches rest x others

end

end Meaning

/-! ### What is compiled has this meaning -/

theorem passesStep_leaf {count : Nat → Nat} {step : WorkflowStep} (h : step.IsLeaf) (x z : WorkflowContext N)
    (trace : Trace N) : PassesStep count step x trace z ↔
      ∃ answer, trace = .leaf answer ∧ executeLeaf step answer x = some z := by
  rw [PassesStep]
  · rintro _ _ _ _ _ _ rfl
    exact h.1 ⟨rfl, rfl⟩
  · rintro _ _ _ _ rfl
    exact h.2.1 ⟨rfl, rfl⟩
  · rintro _ _ _ _ _ _ _ _ _ rfl
    exact h.2.2 ⟨rfl, rfl⟩

theorem compileStep_leaf {step : WorkflowStep} (h : step.IsLeaf) (E : Mastra N) (id : JsText) (workflow : Chain N) :
    compileStep E id workflow step = workflow.andThen E (compileLeafStep step) := by
  obtain ⟨sid, type, condition, parallel, loop⟩ := step
  rw [compileStep]
  · rintro _ _ _ rfl rfl
    exact h.1 ⟨rfl, rfl⟩
  · rintro _ rfl rfl
    exact h.2.1 ⟨rfl, rfl⟩
  · rintro _ _ _ _ _ _ rfl rfl
    exact h.2.2 ⟨rfl, rfl⟩

theorem compileStep_id (E : Mastra N) (id : JsText) (workflow : Chain N) (step : WorkflowStep) :
    (compileStep E id workflow step).id = workflow.id := by
  unfold compileStep
  split
  · rfl
  · rfl
  · dsimp only
    split <;> rfl
  · rfl

theorem compileSteps_id (E : Mastra N) (id : JsText) (workflow : Chain N) (steps : List WorkflowStep) :
    (compileSteps E id workflow steps).id = workflow.id := by
  induction steps generalizing workflow with
  | nil => rfl
  | cons step rest ih => rw [compileSteps, ih, compileStep_id]

/-- The chain of a sequence, after another one. -/
def MeansSteps (E : Mastra N) (steps : List WorkflowStep) : Prop :=
  ∀ (id : JsText) (workflow : Chain N) (x : JsValue N) (P : WorkflowContext N → Prop),
    Yields (workflow.runs x) P → Yields ((compileSteps E id workflow steps).runs x) fun z =>
      ∃ c, P c ∧ ∃ trace, Passes E.iterationCount steps c trace z

/-- What is added for one step. -/
def MeansStep (E : Mastra N) (step : WorkflowStep) : Prop :=
  ∀ (id : JsText) (workflow : Chain N) (x : JsValue N) (P : WorkflowContext N → Prop),
    Yields (workflow.runs x) P → Yields ((compileStep E id workflow step).runs x) fun z =>
      ∃ c, P c ∧ ∃ trace, PassesStep E.iterationCount step c trace z

section Compiled

variable {E : Mastra N}

theorem MeansStep.cons {step : WorkflowStep} {rest : List WorkflowStep} (hstep : MeansStep E step)
    (hrest : MeansSteps E rest) : MeansSteps E (step :: rest) := by
  intro id workflow x P h
  rw [compileSteps]
  refine (hrest id _ x _ (hstep id workflow x P h)).congr fun z => ?_
  constructor
  · rintro ⟨y, ⟨c, hc, first, hfirst⟩, others, hothers⟩
    exact ⟨c, hc, first :: others, first, others, y, rfl, hfirst, hothers⟩
  · rintro ⟨c, hc, _, first, others, y, rfl, hfirst, hothers⟩
    exact ⟨y, ⟨c, hc, first, hfirst⟩, others, hothers⟩

/-- A nested workflow begins with the context that it is given. -/
theorem MeansSteps.nested {steps : List WorkflowStep} (h : MeansSteps E steps) (id : JsText)
    (c : WorkflowContext N) : Yields ((compileSteps E id (createWorkflow id) steps).commit.runs c.value) fun z =>
      ∃ trace, Passes E.iterationCount steps c trace z := by
  have hstart : Yields ((createWorkflow id).runs c.value) fun y => y = c := by
    intro v
    constructor
    · intro hv
      exact ⟨c, rfl, hv⟩
    · rintro ⟨y, rfl, rfl⟩
      rfl
  refine (h id (createWorkflow id) c.value _ hstart).congr fun z => ?_
  constructor
  · rintro ⟨y, rfl, trace, htrace⟩
    exact ⟨trace, htrace⟩
  · rintro ⟨trace, htrace⟩
    exact ⟨c, rfl, trace, htrace⟩

theorem meansStep_leaf {step : WorkflowStep} (hleaf : step.IsLeaf) : MeansStep E step := by
  intro id workflow x P h
  have hexecute : ∀ c : WorkflowContext N, Yields ((compileLeafStep step).runs c.value) fun z =>
      ∃ trace, PassesStep E.iterationCount step c trace z := by
    intro c v
    constructor
    · rintro ⟨c', answer, z, hvalue, hz, rfl⟩
      obtain rfl := WorkflowContext.value_injective hvalue
      exact ⟨z, ⟨.leaf answer, (passesStep_leaf hleaf _ _ _).mpr ⟨answer, rfl, hz⟩⟩, rfl⟩
    · rintro ⟨z, ⟨trace, htrace⟩, rfl⟩
      obtain ⟨answer, -, hz⟩ := (passesStep_leaf hleaf _ _ _).mp htrace
      exact ⟨c, answer, z, rfl, hz, rfl⟩
  rw [compileStep_leaf hleaf]
  exact yields_andThen h hexecute

theorem meansStep_condition (sid : JsText) (rule : WorkflowConditionRule) {whenTrue whenFalse : List WorkflowStep}
    (parallel : Option _) (loop : Option _) (hT : MeansSteps E whenTrue) (hF : MeansSteps E whenFalse) :
    MeansStep E (.mk sid .condition (some ⟨rule, whenTrue, whenFalse⟩) parallel loop) := by
  intro id workflow x P h
  rw [compileStep]
  refine yields_normalize sid fun z => ?_
  have hM : ∀ taken c, Yields ((if taken = true
      then (compileSteps E (nestedId id sid (JsText.of "true")) (createWorkflow (nestedId id sid (JsText.of "true")))
        whenTrue).commit
      else (compileSteps E (nestedId id sid (JsText.of "false")) (createWorkflow (nestedId id sid (JsText.of "false")))
        whenFalse).commit).runs (WorkflowContext.value c)) fun y => ∃ trace,
          Passes E.iterationCount (if taken = true then whenTrue else whenFalse) c trace y := by
    intro taken c
    cases taken with
    | true => exact hT.nested _ c
    | false => exact hF.nested _ c
  refine (exists_branch_iff (fun inputData => compareRule inputData rule) (yields_marker h sid) hM z).trans ?_
  constructor
  · rintro ⟨c, y, hc, rfl, taken, hcond, trace, htrace⟩
    refine ⟨c, hc, .condition trace, trace, y, rfl, rfl, ?_⟩
    cases taken with
    | true => exact .inl ⟨hcond, htrace⟩
    | false => exact .inr ⟨hcond, htrace⟩
  · rintro ⟨c, hc, _, inner, y, -, rfl, ⟨hcond, htrace⟩ | ⟨hcond, htrace⟩⟩
    · exact ⟨c, y, hc, rfl, true, hcond, inner, htrace⟩
    · exact ⟨c, y, hc, rfl, false, hcond, inner, htrace⟩

theorem forall₂_compileBranches_iff (id sid : JsText) (branches : List (WorkflowBranchDefinition WorkflowStep))
    (h : ∀ branch ∈ branches, MeansSteps E branch.steps) (c : WorkflowContext N)
    (outputs : List (JsText × JsValue N)) :
    List.Forall₂ (outputOf c.value) (compileBranches E id sid branches) outputs ↔
      ∃ passes, PassesBranches E.iterationCount branches c passes ∧ outputs =
        (passes.map fun pass => (pass.1, pass.2.2)).map (Prod.map (nestedId id sid) WorkflowContext.value) := by
  induction branches generalizing outputs with
  | nil =>
    rw [compileBranches, List.forall₂_nil_left_iff]
    constructor
    · rintro rfl
      exact ⟨[], rfl, rfl⟩
    · rintro ⟨passes, rfl, rfl⟩
      rfl
  | cons branch rest ih =>
    obtain ⟨hbranch, hrest⟩ := List.forall_mem_cons.mp h
    obtain ⟨bid, steps⟩ := branch
    rw [compileBranches, List.forall₂_cons_left_iff]
    constructor
    · rintro ⟨output, others, ⟨hid, hout⟩, hothers, rfl⟩
      obtain ⟨z, ⟨trace, htrace⟩, hz⟩ := (hbranch.nested _ c _).mp hout
      obtain ⟨passes, hpasses, rfl⟩ := (ih hrest others).mp hothers
      refine ⟨(bid, trace, z) :: passes, ⟨trace, z, passes, rfl, htrace, hpasses⟩, ?_⟩
      exact congrArg (· :: _) (Prod.ext (hid.trans (compileSteps_id _ _ _ _)) hz)
    · rintro ⟨_, ⟨trace, z, passes, rfl, htrace, hpasses⟩, rfl⟩
      refine ⟨_, _, ⟨?_, (hbranch.nested _ c _).mpr ⟨z, ⟨trace, htrace⟩, rfl⟩⟩,
        (ih hrest _).mpr ⟨passes, hpasses, rfl⟩, rfl⟩
      exact (compileSteps_id E _ (createWorkflow (nestedId id sid bid)) steps).symm

omit [JsNumeric N] in
/-- The outputs of branches, with the spelling of their ids, are merged as the branches are. -/
theorem mergeContexts_keyed (wid sid : JsText) (outputs : List (JsText × WorkflowContext N)) :
    mergeContexts (.object (keyed (outputs.map (Prod.map (nestedId wid sid) WorkflowContext.value)))) =
      mergedContext ((keyed outputs).map fun output => output.2.parsed) := by
  have hinj : Function.Injective (nestedId wid sid) := fun _ _ h => List.append_cancel_left h
  have hsplit : outputs.map (Prod.map (nestedId wid sid) WorkflowContext.value) =
      (outputs.map (Prod.map id WorkflowContext.value)).map (Prod.map (nestedId wid sid) id) := by
    rw [List.map_map]
    rfl
  have hkeys :
      (keyed (outputs.map (Prod.map id WorkflowContext.value))).map (Prod.map (nestedId wid sid) id) =
        ((keyed outputs).map (Prod.map (nestedId wid sid) id)).map (Prod.map id WorkflowContext.value) := by
    rw [JsValue.keyed_map, List.map_map, List.map_map]
    rfl
  rw [hsplit, JsValue.keyed_map_key hinj, hkeys, mergeContexts_object, List.map_map]
  rfl

theorem meansStep_parallel (sid : JsText) (condition : Option _)
    {branches : List (WorkflowBranchDefinition WorkflowStep)} (loop : Option _)
    (h : ∀ branch ∈ branches, MeansSteps E branch.steps) :
    MeansStep E (.mk sid .parallel condition (some branches) loop) := by
  intro id workflow x P hP
  rw [compileStep]
  refine yields_normalize sid fun z => ?_
  simp only [Chain.runs_parallel]
  constructor
  · rintro ⟨_, ⟨y, outputs, hy, houtputs, rfl⟩, hz⟩
    obtain ⟨c, hc, rfl⟩ := (yields_marker hP sid y).mp hy
    obtain ⟨passes, hpasses, rfl⟩ := (forall₂_compileBranches_iff id sid branches h c outputs).mp houtputs
    refine ⟨c, hc, _, passes, rfl, hpasses, ?_⟩
    rw [← mergeContexts_keyed id sid]
    exact (Option.some.inj hz).symm
  · rintro ⟨c, hc, _, passes, rfl, hpasses, rfl⟩
    refine ⟨_, ⟨c.value, _, (yields_marker hP sid _).mpr ⟨c, hc, rfl⟩,
      (forall₂_compileBranches_iff id sid branches h c _).mpr ⟨passes, hpasses, rfl⟩, rfl⟩, ?_⟩
    rw [mergeContexts_keyed]
    rfl

/-- The rounds of a loop whose body is compiled. -/
theorem repeats_compiled_iff {steps : List WorkflowStep} (h : MeansSteps E steps) (id : JsText)
    {again : Nat → WorkflowContext N → Option Bool} {again' : Nat → JsValue N → Option Bool}
    (hagain : ∀ n c, again' n (WorkflowContext.value c) = again n c) (c : WorkflowContext N) (v : JsValue N) :
    (∃ rounds, Repeats (fun a (_ : Unit) b => (compileSteps E id (createWorkflow id) steps).commit.runs a b) again' 1
      c.value rounds v) ↔
    ∃ rounds y, Repeats (Passes E.iterationCount steps) again 1 c rounds y ∧ v = y.value := by
  refine Repeats.lift_iff (fun a w => ?_) hagain
  rw [h.nested id a w]
  constructor
  · rintro ⟨y, ⟨trace, htrace⟩, rfl⟩
    exact ⟨trace, y, htrace, rfl⟩
  · rintro ⟨trace, y, htrace, rfl⟩
    exact ⟨y, ⟨trace, htrace⟩, rfl⟩

theorem meansStep_foreach (sid : JsText) (condition parallel : Option _) (rule : WorkflowConditionRule)
    (maxIterations : Nat) (sourcePath : Option JsText) (concurrency : Option Nat) {steps : List WorkflowStep}
    (h : MeansSteps E steps) : MeansStep E
      (.mk sid .loop condition parallel (some ⟨.foreach, rule, maxIterations, sourcePath, concurrency, steps⟩)) := by
  intro id workflow x P hP
  rw [compileStep]
  refine yields_normalize sid fun z => ?_
  simp only [Chain.runs_foreach, Chain.runs_andThen (prepareForeachStep sid sourcePath maxIterations)]
  constructor
  · rintro ⟨_, ⟨items, outputs, ⟨_, hy, c, contexts, rfl, hcontexts, harray⟩, houtputs, rfl⟩, hz⟩
    obtain rfl : items = contexts.map WorkflowContext.value := JsValue.array.inj harray
    obtain ⟨c', hc, hvalue⟩ := (yields_marker hP sid _).mp hy
    obtain rfl := WorkflowContext.value_injective hvalue
    obtain ⟨passes, rfl, hpasses, rfl⟩ := (forall₂_runs_iff (h.nested _) contexts outputs).mp houtputs
    refine ⟨c, hc, _, passes, hcontexts, rfl, hpasses, ?_⟩
    have hmerge := mergeContexts_array (passes.map fun pass => pass.2.2)
    rw [List.map_map, List.map_map] at hmerge
    exact (Option.some.inj hz).symm.trans hmerge
  · rintro ⟨c, hc, _, passes, hcontexts, rfl, hpasses, rfl⟩
    refine ⟨_, ⟨(passes.map Prod.fst).map WorkflowContext.value, _, ⟨c.value,
      (yields_marker hP sid _).mpr ⟨c, hc, rfl⟩, c, _, rfl, hcontexts, rfl⟩,
      (forall₂_runs_iff (h.nested _) _ _).mpr ⟨passes, rfl, hpasses, rfl⟩, rfl⟩, ?_⟩
    have hmerge := mergeContexts_array (passes.map fun pass => pass.2.2)
    rw [List.map_map, List.map_map] at hmerge
    exact congrArg some hmerge

/-- A loop without items, after what has been run before it. -/
theorem exists_rounds_iff {steps : List WorkflowStep} (h : MeansSteps E steps) (id : JsText)
    {again : Nat → WorkflowContext N → Option Bool} (again' : Nat → JsValue N → Option Bool)
    (hagain : ∀ n c, again' n (WorkflowContext.value c) = again n c) {runs : JsValue N → Prop}
    {P : WorkflowContext N → Prop} (hP : Yields runs P) (z : WorkflowContext N) :
    (∃ raw, (∃ y, runs y ∧ ∃ rounds, Repeats
      (fun a (_ : Unit) b => (compileSteps E id (createWorkflow id) steps).commit.runs a b) again' 1 y rounds raw) ∧
        asContext raw = some z) ↔
    ∃ c, P c ∧ ∃ trace, ∃ rounds y, trace = Trace.loop rounds ∧ z = y.parsed ∧
      Repeats (Passes E.iterationCount steps) again 1 c rounds y := by
  constructor
  · rintro ⟨raw, ⟨_, hy, hrounds⟩, hz⟩
    obtain ⟨c, hc, rfl⟩ := (hP _).mp hy
    obtain ⟨rounds, y, hrun, rfl⟩ := (repeats_compiled_iff h id hagain c raw).mp hrounds
    rw [asContext_value] at hz
    exact ⟨c, hc, _, rounds, y, rfl, (Option.some.inj hz).symm, hrun⟩
  · rintro ⟨c, hc, _, rounds, y, rfl, rfl, hrun⟩
    exact ⟨y.value, ⟨c.value, (hP _).mpr ⟨c, hc, rfl⟩,
      (repeats_compiled_iff h id hagain c _).mpr ⟨rounds, y, hrun, rfl⟩⟩, asContext_value y⟩

theorem meansStep_loop (sid : JsText) (condition parallel : Option _) {d : LoopDefinition WorkflowStep}
    (h : MeansSteps E d.steps) : MeansStep E (.mk sid .loop condition parallel (some d)) := by
  obtain ⟨mode, rule, maxIterations, sourcePath, concurrency, steps⟩ := d
  intro id workflow x P hP
  cases mode with
  | foreach =>
    exact meansStep_foreach sid condition parallel rule maxIterations sourcePath concurrency h id workflow x P hP
  | «while» =>
    rw [compileStep]
    refine yields_normalize sid fun z => ?_
    simp only [Chain.runs_dowhile]
    exact exists_rounds_iff h _ _ (fun _ _ => rfl) (yields_marker hP sid) z
  | «until» =>
    rw [compileStep]
    refine yields_normalize sid fun z => ?_
    simp only [Chain.runs_dountil]
    exact exists_rounds_iff h _ _ (fun _ _ => rfl) (yields_marker hP sid) z

/-- **The compiled workflow has the meaning of the definition.** -/
theorem meansSteps (E : Mastra N) (steps : List WorkflowStep) : MeansSteps E steps := by
  induction steps using WorkflowStep.induction with
  | nil =>
    intro id workflow x P h
    refine h.congr fun c => ?_
    constructor
    · intro hc
      exact ⟨c, hc, [], rfl, rfl⟩
    · rintro ⟨c', hc, trace, -, rfl⟩
      exact hc
  | condition id rule whenTrue whenFalse parallel loop rest hT hF hrest =>
    exact (meansStep_condition id rule parallel loop hT hF).cons hrest
  | parallel id condition branches loop rest hbranches hrest =>
    exact (meansStep_parallel id condition loop hbranches).cons hrest
  | loop id condition parallel loop rest hbody hrest =>
    exact (meansStep_loop id condition parallel hbody).cons hrest
  | leaf step rest hleaf hrest =>
    exact (meansStep_leaf hleaf).cons hrest

/-- **A compiled definition completes with what its meaning allows**, whatever its workflow is called. -/
theorem compileSequence_runs_iff (E : Mastra N) (id : JsText) (steps : List WorkflowStep) (c : WorkflowContext N)
    (v : JsValue N) : (compileSequence E id steps).runs c.value v ↔
      ∃ z, (∃ trace, Passes E.iterationCount steps c trace z) ∧ v = z.value :=
  (meansSteps E steps).nested id c v

/-- What `finalize` returns. -/
def finalized (inputData : WorkflowContext N) : WorkflowContext N :=
  { inputData with text := if inputData.text = [] then JsText.of "本轮 Loop 已执行完成。" else inputData.text }

def finalizeId : JsText := JsText.of "__scry_finalize"

def finalize : MastraStep N :=
  createStep finalizeId fun inputData output =>
    ∃ context, inputData = WorkflowContext.value context ∧ output = (finalized context).value

/-- `compileWorkflow` of the record with this id. -/
def compileWorkflow (E : Mastra N) (id : JsText) (steps : List WorkflowStep) : MastraStep N :=
  let loopId := id ++ JsText.of "_loop"
  ((compileSteps E loopId (createWorkflow loopId) steps).andThen E finalize).commit

/-- **A compiled workflow completes with what the meaning of its definition allows**, finalized. -/
theorem compileWorkflow_runs_iff (E : Mastra N) (id : JsText) (steps : List WorkflowStep) (c : WorkflowContext N)
    (v : JsValue N) : (compileWorkflow E id steps).runs c.value v ↔
      ∃ z trace, Passes E.iterationCount steps c trace z ∧ v = (finalized z).value := by
  have hfinalize : ∀ c : WorkflowContext N, Yields (finalize.runs c.value) fun z => z = finalized c := by
    intro c v
    constructor
    · rintro ⟨c', hvalue, rfl⟩
      obtain rfl := WorkflowContext.value_injective hvalue
      exact ⟨_, rfl, rfl⟩
    · rintro ⟨_, rfl, rfl⟩
      exact ⟨c, rfl, rfl⟩
  refine (yields_andThen ((meansSteps E steps).nested (id ++ JsText.of "_loop") c) hfinalize v).trans ?_
  constructor
  · rintro ⟨_, ⟨z, ⟨trace, htrace⟩, rfl⟩, hv⟩
    exact ⟨z, trace, htrace, hv⟩
  · rintro ⟨z, trace, htrace, hv⟩
    exact ⟨_, ⟨z, ⟨trace, htrace⟩, rfl⟩, hv⟩

end Compiled

end AgentService
