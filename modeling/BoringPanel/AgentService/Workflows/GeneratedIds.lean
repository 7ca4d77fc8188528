import BoringPanel.AgentService.Workflows.RunText
import BoringPanel.Lib.SpelledPaths

/-!
# The ids that the compiler generates

A compiled definition has the ids of its leaves, markers with the ids of the control nodes, and the ids of
nested workflows, which spell the steps and branches on the way to them with underscores
(`count_inner_compileSteps`). An id that is accepted may hold underscores itself and may look like a
marker, and the ids of branches are not compared, so that these may be alike.

* `inner_nodup_iff`: they are pairwise different if and only if no leaf has the id of a marker or of a
  nested workflow, no marker has the id of a nested workflow, and nothing that is next to each other in a
  definition nests workflows with the same words (`Separated`).
* `inner_compileWorkflow_nodup_iff`: `finalize` leaves them so if no leaf has its id.
-/

namespace AgentService

open SpelledPaths

namespace WorkflowStep

/-! ### Control nodes and nested workflows -/

mutual

/-- The ids of the control nodes that are compiled, and which of them prepare items. -/
def controlsOfStep : WorkflowStep → List (JsText × Bool)
  | mk id .condition (some ⟨_, whenTrue, whenFalse⟩) _ _ =>
    [(id, false)] ++ controls whenTrue ++ controls whenFalse
  | mk id .parallel _ (some branches) _ => [(id, false)] ++ controlsOfBranches branches
  | mk id .loop _ _ (some ⟨mode, _, _, _, _, steps⟩) => [(id, decide (mode = .foreach))] ++ controls steps
  | _ => []

def controls : List WorkflowStep → List (JsText × Bool)
  | [] => []
  | step :: rest => controlsOfStep step ++ controls rest

def controlsOfBranches : List (WorkflowBranchDefinition WorkflowStep) → List (JsText × Bool)
  | [] => []
  | ⟨_, steps⟩ :: rest => controls steps ++ controlsOfBranches rest

end

/-- A way to a nested workflow, and those to the ones in it. -/
def waysFrom (way : List JsText) (ways : List (List JsText)) : List (List JsText) :=
  [way] ++ ways.map (way ++ ·)

mutual

/-- The ways to the nested workflows of a step: the steps and the branches on them. -/
def waysOfStep : WorkflowStep → List (List JsText)
  | mk id .condition (some ⟨_, whenTrue, whenFalse⟩) _ _ =>
    waysFrom [id, JsText.of "true"] (ways whenTrue) ++ waysFrom [id, JsText.of "false"] (ways whenFalse)
  | mk id .parallel _ (some branches) _ => (waysOfBranches branches).map ([id] ++ ·)
  | mk id .loop _ _ (some ⟨_, _, _, _, _, steps⟩) => waysFrom [id, JsText.of "body"] (ways steps)
  | _ => []

def ways : List WorkflowStep → List (List JsText)
  | [] => []
  | step :: rest => waysOfStep step ++ ways rest

def waysOfBranches : List (WorkflowBranchDefinition WorkflowStep) → List (List JsText)
  | [] => []
  | ⟨id, steps⟩ :: rest => waysFrom [id] (ways steps) ++ waysOfBranches rest

end

theorem controlsOfStep_leaf {step : WorkflowStep} (h : step.IsLeaf) : controlsOfStep step = [] := by
  rw [controlsOfStep]
  · rintro _ _ _ _ _ _ rfl
    exact h.1 ⟨rfl, rfl⟩
  · rintro _ _ _ _ rfl
    exact h.2.1 ⟨rfl, rfl⟩
  · rintro _ _ _ _ _ _ _ _ _ rfl
    exact h.2.2 ⟨rfl, rfl⟩

theorem controlsOfBranches_eq (branches : List (WorkflowBranchDefinition WorkflowStep)) :
    controlsOfBranches branches = branches.flatMap fun branch => controls branch.steps := by
  induction branches with
  | nil => rfl
  | cons branch rest ih => rw [controlsOfBranches, ih, List.flatMap_cons]

theorem waysOfStep_leaf {step : WorkflowStep} (h : step.IsLeaf) : waysOfStep step = [] := by
  rw [waysOfStep]
  · rintro _ _ _ _ _ _ rfl
    exact h.1 ⟨rfl, rfl⟩
  · rintro _ _ _ _ rfl
    exact h.2.1 ⟨rfl, rfl⟩
  · rintro _ _ _ _ _ _ _ _ _ rfl
    exact h.2.2 ⟨rfl, rfl⟩

end WorkflowStep

open WorkflowStep

def underscoreUnit : UInt16 := 0x5f

/-- The id of the workflow at the end of a way. -/
def workflowAt (id : JsText) (way : List JsText) : JsText := id ++ spell underscoreUnit way

/-- The markers of a control node. -/
def markersOf (control : JsText × Bool) : List JsText :=
  [markerId control.1 (JsText.of "start"), markerId control.1 (JsText.of "normalize")] ++
    if control.2 then [markerId control.1 (JsText.of "items")] else []

theorem underscore_eq : underscore = [underscoreUnit] := by decide

theorem nestedId_eq (id step branch : JsText) : nestedId id step branch = workflowAt id [step, branch] := by
  unfold nestedId workflowAt spell
  rw [underscore_eq]
  simp

theorem workflowAt_append (id : JsText) (way rest : List JsText) :
    workflowAt id (way ++ rest) = workflowAt (workflowAt id way) rest := by
  unfold workflowAt
  rw [spell_append, List.append_assoc]

/-! ### All generated ids -/

theorem count_waysFrom (a id : JsText) (way : List JsText) (ways : List (List JsText)) :
    ((waysFrom way ways).map (workflowAt id)).count a =
      [workflowAt id way].count a + (ways.map (workflowAt (workflowAt id way))).count a := by
  have hmap : (ways.map (way ++ ·)).map (workflowAt id) = ways.map (workflowAt (workflowAt id way)) := by
    rw [List.map_map]
    exact List.map_congr_left fun rest _ => workflowAt_append id way rest
  unfold waysFrom
  rw [List.map_append, List.count_append, hmap]
  rfl

section Count

variable {N : Type} [JsNumeric N] (E : Mastra N)

/-- The ids of leaves, of markers and of nested workflows. -/
def generatedIds (id : JsText) (steps : List WorkflowStep) : List JsText :=
  (leaves steps).map WorkflowStep.id ++ ((controls steps).flatMap markersOf ++ (ways steps).map (workflowAt id))

/-- What is added to a chain for a step. -/
def generatedIdsOfStep (id : JsText) (step : WorkflowStep) : List JsText :=
  (leavesOfStep step).map WorkflowStep.id ++
    ((controlsOfStep step).flatMap markersOf ++ (waysOfStep step).map (workflowAt id))

theorem count_generatedIds_cons (a id : JsText) (step : WorkflowStep) (rest : List WorkflowStep) :
    (generatedIds id (step :: rest)).count a = (generatedIdsOfStep id step).count a + (generatedIds id rest).count a := by
  unfold generatedIds generatedIdsOfStep
  rw [leaves, controls, ways]
  simp only [List.map_append, List.flatMap_append, List.count_append]
  omega

omit [JsNumeric N] in
theorem count_andThen (a : JsText) (chain : Chain N) (id : JsText) (execute : Runs N) :
    (chain.andThen E (createStep id execute)).ids.count a = chain.ids.count a + [id].count a := by
  rw [Chain.ids_andThen, List.count_append]
  rfl

/-- A chain has the ids of the sequence that is added to it. -/
def NamesSteps (steps : List WorkflowStep) : Prop := ∀ (a id : JsText) (workflow : Chain N),
  (compileSteps E id workflow steps).ids.count a = workflow.ids.count a + (generatedIds id steps).count a

def NamesStep (step : WorkflowStep) : Prop := ∀ (a id : JsText) (workflow : Chain N),
  (compileStep E id workflow step).ids.count a = workflow.ids.count a + (generatedIdsOfStep id step).count a

variable {E}

theorem NamesStep.cons {step : WorkflowStep} {rest : List WorkflowStep} (hstep : NamesStep E step)
    (hrest : NamesSteps E rest) : NamesSteps E (step :: rest) := by
  intro a id workflow
  rw [compileSteps, hrest, hstep, count_generatedIds_cons, Nat.add_assoc]

/-- A nested workflow, at the end of a way. -/
theorem NamesSteps.nested {steps : List WorkflowStep} (h : NamesSteps E steps) (a id : JsText) :
    (compileSequence E id steps).allIds.count a =
      [id].count a + (generatedIds id steps).count a := by
  change ([_] ++ (compileSteps E id (createWorkflow id) steps).ids).count a = _
  rw [List.count_append, h]
  exact congrArg₂ (· + ·) (congrArg (fun i => [i].count a) (compileSteps_id E id (createWorkflow id) steps))
    (Nat.zero_add _)

theorem namesStep_leaf {step : WorkflowStep} (hleaf : step.IsLeaf) : NamesStep E step := by
  intro a id workflow
  have hgenerated : generatedIdsOfStep id step = [step.id] := by
    unfold generatedIdsOfStep
    rw [leavesOfStep_leaf hleaf, controlsOfStep_leaf hleaf, waysOfStep_leaf hleaf]
    rfl
  rw [compileStep_leaf hleaf, hgenerated]
  exact count_andThen E a workflow step.id _

theorem namesStep_condition (sid : JsText) (rule : WorkflowConditionRule) {whenTrue whenFalse : List WorkflowStep}
    (parallel : Option _) (loop : Option _) (hT : NamesSteps E whenTrue) (hF : NamesSteps E whenFalse) :
    NamesStep E (.mk sid .condition (some ⟨rule, whenTrue, whenFalse⟩) parallel loop) := by
  intro a id workflow
  have hids : (compileStep E id workflow
      (.mk sid .condition (some ⟨rule, whenTrue, whenFalse⟩) parallel loop)).ids.count a =
      workflow.ids.count a + [markerId sid (JsText.of "start")].count a +
        ((compileSequence E (nestedId id sid (JsText.of "true")) whenTrue).allIds.count a +
          (compileSequence E (nestedId id sid (JsText.of "false")) whenFalse).allIds.count a) +
        [markerId sid (JsText.of "normalize")].count a := by
    rw [compileStep]
    refine (count_andThen E a _ _ _).trans (congrArg (· + _) ?_)
    rw [Chain.ids_branch, List.count_append, List.map_cons, List.map_singleton, List.flatMap_cons,
      List.flatMap_singleton, List.count_append]
    refine congrArg (· + _) ?_
    exact count_andThen E a _ _ _
  rw [hids, hT.nested, hF.nested, nestedId_eq, nestedId_eq]
  unfold generatedIds generatedIdsOfStep
  rw [leavesOfStep, controlsOfStep, waysOfStep]
  simp only [List.map_append, List.flatMap_append, List.count_append, count_waysFrom, List.flatMap_singleton,
    markersOf, List.count_cons, List.count_nil, Bool.false_eq_true, if_false, List.append_nil]
  omega

theorem count_compileBranches (a id sid : JsText) (branches : List (WorkflowBranchDefinition WorkflowStep))
    (h : ∀ branch ∈ branches, NamesSteps E branch.steps) :
    ((compileBranches E id sid branches).flatMap MastraStep.allIds).count a =
      ((leavesOfBranches branches).map WorkflowStep.id ++ ((controlsOfBranches branches).flatMap markersOf ++
        (waysOfBranches branches).map (workflowAt (workflowAt id [sid])))).count a := by
  induction branches with
  | nil => rfl
  | cons branch rest ih =>
    obtain ⟨hbranch, hrest⟩ := List.forall_mem_cons.mp h
    obtain ⟨bid, steps⟩ := branch
    have hfirst : ((compileBranches E id sid (⟨bid, steps⟩ :: rest)).flatMap MastraStep.allIds).count a =
        (compileSequence E (nestedId id sid bid) steps).allIds.count a +
          ((compileBranches E id sid rest).flatMap MastraStep.allIds).count a := by
      rw [compileBranches, List.flatMap_cons, List.count_append]
      rfl
    have hid : nestedId id sid bid = workflowAt (workflowAt id [sid]) [bid] := by
      rw [nestedId_eq, ← workflowAt_append]
      rfl
    rw [hfirst, hbranch.nested, ih hrest, leavesOfBranches, controlsOfBranches, waysOfBranches, hid]
    unfold generatedIds
    simp only [List.map_append, List.flatMap_append, List.count_append, count_waysFrom]
    omega

theorem namesStep_parallel (sid : JsText) (condition : Option _)
    {branches : List (WorkflowBranchDefinition WorkflowStep)} (loop : Option _)
    (h : ∀ branch ∈ branches, NamesSteps E branch.steps) :
    NamesStep E (.mk sid .parallel condition (some branches) loop) := by
  intro a id workflow
  have hids : (compileStep E id workflow (.mk sid .parallel condition (some branches) loop)).ids.count a =
      workflow.ids.count a + [markerId sid (JsText.of "start")].count a +
        ((compileBranches E id sid branches).flatMap MastraStep.allIds).count a +
        [markerId sid (JsText.of "normalize")].count a := by
    rw [compileStep]
    refine (count_andThen E a _ _ _).trans (congrArg (· + _) ?_)
    rw [Chain.ids_parallel, List.count_append]
    exact congrArg (· + _) (count_andThen E a _ _ _)
  have hways : ((waysOfBranches branches).map ([sid] ++ ·)).map (workflowAt id) =
      (waysOfBranches branches).map (workflowAt (workflowAt id [sid])) := by
    rw [List.map_map]
    exact List.map_congr_left fun rest _ => workflowAt_append id [sid] rest
  rw [hids, count_compileBranches a id sid branches h]
  unfold generatedIdsOfStep
  rw [leavesOfStep, controlsOfStep, waysOfStep, hways]
  simp only [List.flatMap_append, List.count_append, List.flatMap_singleton, markersOf, List.count_cons,
    List.count_nil, Bool.false_eq_true, if_false, List.append_nil]
  omega

/-- The ids of a loop: of its markers, of the step that prepares items, and of its body. -/
theorem count_compileStep_loop (a id sid : JsText) (workflow : Chain N) (condition parallel : Option _)
    (d : LoopDefinition WorkflowStep) :
    (compileStep E id workflow (.mk sid .loop condition parallel (some d))).ids.count a =
      workflow.ids.count a + (markersOf (sid, decide (d.mode = .foreach))).count a +
        (compileSequence E (nestedId id sid (JsText.of "body")) d.steps).allIds.count a := by
  obtain ⟨mode, rule, maxIterations, sourcePath, concurrency, steps⟩ := d
  cases mode with
  | foreach =>
    have hids : (compileStep E id workflow (.mk sid .loop condition parallel
        (some ⟨.foreach, rule, maxIterations, sourcePath, concurrency, steps⟩))).ids.count a =
        workflow.ids.count a + [markerId sid (JsText.of "start")].count a +
          [markerId sid (JsText.of "items")].count a +
          (compileSequence E (nestedId id sid (JsText.of "body")) steps).allIds.count a +
          [markerId sid (JsText.of "normalize")].count a := by
      rw [compileStep]
      refine (count_andThen E a _ _ _).trans (congrArg (· + _) ?_)
      rw [Chain.ids_foreach, List.count_append]
      refine congrArg (· + _) ((count_andThen E a _ _ _).trans (congrArg (· + _) ?_))
      exact count_andThen E a _ _ _
    rw [hids]
    simp only [markersOf, List.count_append, List.count_cons, List.count_nil, decide_true, if_true]
    omega
  | «while» =>
    have hids : (compileStep E id workflow (.mk sid .loop condition parallel
        (some ⟨.while, rule, maxIterations, sourcePath, concurrency, steps⟩))).ids.count a =
        workflow.ids.count a + [markerId sid (JsText.of "start")].count a +
          (compileSequence E (nestedId id sid (JsText.of "body")) steps).allIds.count a +
          [markerId sid (JsText.of "normalize")].count a := by
      rw [compileStep]
      refine (count_andThen E a _ _ _).trans (congrArg (· + _) ?_)
      rw [Chain.ids_dowhile, List.count_append]
      exact congrArg (· + _) (count_andThen E a _ _ _)
    rw [hids]
    simp only [markersOf, List.count_append, List.count_cons, List.count_nil, reduceCtorEq, decide_false,
      Bool.false_eq_true, if_false]
    omega
  | «until» =>
    have hids : (compileStep E id workflow (.mk sid .loop condition parallel
        (some ⟨.until, rule, maxIterations, sourcePath, concurrency, steps⟩))).ids.count a =
        workflow.ids.count a + [markerId sid (JsText.of "start")].count a +
          (compileSequence E (nestedId id sid (JsText.of "body")) steps).allIds.count a +
          [markerId sid (JsText.of "normalize")].count a := by
      rw [compileStep]
      refine (count_andThen E a _ _ _).trans (congrArg (· + _) ?_)
      rw [Chain.ids_dountil, List.count_append]
      exact congrArg (· + _) (count_andThen E a _ _ _)
    rw [hids]
    simp only [markersOf, List.count_append, List.count_cons, List.count_nil, reduceCtorEq, decide_false,
      Bool.false_eq_true, if_false]
    omega

theorem namesStep_loop (sid : JsText) (condition parallel : Option _) {d : LoopDefinition WorkflowStep}
    (h : NamesSteps E d.steps) : NamesStep E (.mk sid .loop condition parallel (some d)) := by
  intro a id workflow
  rw [count_compileStep_loop, h.nested, nestedId_eq]
  obtain ⟨mode, rule, maxIterations, sourcePath, concurrency, steps⟩ := d
  unfold generatedIds generatedIdsOfStep
  rw [leavesOfStep, controlsOfStep, waysOfStep]
  simp only [List.flatMap_append, List.count_append, count_waysFrom, List.flatMap_singleton]
  omega

theorem namesSteps (E : Mastra N) (steps : List WorkflowStep) : NamesSteps E steps := by
  induction steps using WorkflowStep.induction with
  | nil => exact fun _ _ _ => rfl
  | condition id rule whenTrue whenFalse parallel loop rest hT hF hrest =>
    exact (namesStep_condition id rule parallel loop hT hF).cons hrest
  | parallel id condition branches loop rest hbranches hrest =>
    exact (namesStep_parallel id condition loop hbranches).cons hrest
  | loop id condition parallel loop rest hbody hrest =>
    exact (namesStep_loop id condition parallel hbody).cons hrest
  | leaf step rest hleaf hrest =>
    exact (namesStep_leaf hleaf).cons hrest

/-- **The ids of a compiled definition** are those of its leaves, of its markers and of its nested
workflows. -/
theorem inner_perm_generatedIds (E : Mastra N) (id : JsText) (steps : List WorkflowStep) :
    (compileSequence E id steps).inner.Perm (generatedIds id steps) := by
  refine List.perm_iff_count.mpr fun a => ?_
  exact (namesSteps E steps a id (createWorkflow id)).trans (Nat.zero_add _)

/-- **With `finalize`, the ids are different** exactly if they are without it and no leaf has its id. -/
theorem inner_compileWorkflow_nodup_iff (E : Mastra N) (id : JsText) (steps : List WorkflowStep) :
    (compileWorkflow E id steps).inner.Nodup ↔ (compileSequence E (id ++ JsText.of "_loop") steps).inner.Nodup ∧
      ∀ leaf ∈ leaves steps, leaf.id ≠ finalizeId := by
  -- markers and nested workflows have other letters
  have hletters : ∀ c ∈ JsText.of "ot", c ∉ finalizeId := by simp [JsText.of, finalizeId, JsText.units]
  have hmem : finalizeId ∈ (compileSequence E (id ++ JsText.of "_loop") steps).inner ↔
      finalizeId ∈ (leaves steps).map WorkflowStep.id := by
    rw [(inner_perm_generatedIds E _ steps).mem_iff, generatedIds, List.mem_append, List.mem_append]
    refine or_iff_left ?_
    rintro (hmarker | hway)
    · obtain ⟨control, -, hid⟩ := List.mem_flatMap.mp hmarker
      obtain ⟨suffix, hsuffix, heq⟩ : ∃ suffix ∈ ["start", "normalize", "items"].map JsText.of,
          finalizeId = markerId control.1 suffix := by
        unfold markersOf at hid
        grind
      obtain ⟨c, hc, hcother⟩ : ∃ c ∈ suffix, c ∈ JsText.of "ot" := by
        clear heq
        revert suffix
        decide
      exact hletters c hcother (heq ▸ List.mem_append_right _ hc)
    · obtain ⟨way, -, hid⟩ := List.mem_map.mp hway
      exact hletters 0x6f (by decide) (hid ▸ List.mem_append_left _ (List.mem_append_right _ (by decide)))
  have hinner : (compileWorkflow E id steps).inner =
      (compileSequence E (id ++ JsText.of "_loop") steps).inner ++ [finalizeId] :=
    Chain.ids_andThen E _ finalize
  rw [hinner, List.nodup_append_comm, List.singleton_append, List.nodup_cons, hmem, and_comm]
  simp

end Count

/-! ### Ids that are different by what is accepted -/

theorem count_leaves_controls_branches_le (a : JsText) {branches : List (WorkflowBranchDefinition WorkflowStep)}
    (h : ∀ branch ∈ branches, ((leaves branch.steps).map WorkflowStep.id).count a +
      ((controls branch.steps).map Prod.fst).count a ≤ ((visited branch.steps).map WorkflowStep.id).count a) :
    ((leavesOfBranches branches).map WorkflowStep.id).count a +
      ((controlsOfBranches branches).map Prod.fst).count a ≤
        ((visitedOfBranches branches).map WorkflowStep.id).count a := by
  induction branches with
  | nil => exact le_rfl
  | cons branch rest ih =>
    obtain ⟨hbranch, hrest⟩ := List.forall_mem_cons.mp h
    have hothers := ih hrest
    obtain ⟨bid, steps⟩ := branch
    rw [leavesOfBranches, controlsOfBranches, visitedOfBranches]
    simp only [List.map_append, List.count_append] at hbranch ⊢
    omega

/-- The steps that are compiled are visited. -/
theorem count_leaves_controls_le (a : JsText) (steps : List WorkflowStep) :
    ((leaves steps).map WorkflowStep.id).count a + ((controls steps).map Prod.fst).count a ≤
      ((visited steps).map WorkflowStep.id).count a := by
  induction steps using WorkflowStep.induction with
  | nil => exact le_rfl
  | condition id rule whenTrue whenFalse parallel loop rest hT hF hrest =>
    rw [leaves, controls, visited, leavesOfStep, controlsOfStep, visitedOfStep.eq_def]
    simp only [List.map_append, List.map_cons, List.map_nil, List.count_append, List.count_cons, List.count_nil,
      WorkflowStep.id]
    omega
  | parallel id condition branches loop rest hbranches hrest =>
    have hall := count_leaves_controls_branches_le a hbranches
    rw [leaves, controls, visited, leavesOfStep, controlsOfStep, visitedOfStep.eq_def]
    simp only [List.map_append, List.map_cons, List.map_nil, List.count_append, List.count_cons, List.count_nil,
      WorkflowStep.id]
    omega
  | loop id condition parallel loop rest hbody hrest =>
    obtain ⟨mode, rule, maxIterations, sourcePath, concurrency, steps⟩ := loop
    dsimp only at hbody
    rw [leaves, controls, visited, leavesOfStep, controlsOfStep, visitedOfStep.eq_def]
    simp only [List.map_append, List.map_cons, List.map_nil, List.count_append, List.count_cons, List.count_nil,
      WorkflowStep.id]
    omega
  | leaf step rest hleaf hrest =>
    rw [leaves, controls, visited, leavesOfStep_leaf hleaf, controlsOfStep_leaf hleaf]
    obtain ⟨id, type, condition, parallel, loop⟩ := step
    rw [visitedOfStep.eq_def]
    simp only [List.map_append, List.map_cons, List.map_nil, List.count_append, List.count_cons, List.count_nil,
      WorkflowStep.id, List.nil_append]
    omega

theorem nodup_leaves {definition : List WorkflowStep} (h : Accepted definition) :
    ((leaves definition).map WorkflowStep.id).Nodup := by
  refine List.nodup_iff_count_le_one.mpr fun a => ?_
  have hle := count_leaves_controls_le a definition
  have hone := List.nodup_iff_count_le_one.mp h.ids a
  omega

theorem nodup_controls {definition : List WorkflowStep} (h : Accepted definition) :
    ((controls definition).map Prod.fst).Nodup := by
  refine List.nodup_iff_count_le_one.mpr fun a => ?_
  have hle := count_leaves_controls_le a definition
  have hone := List.nodup_iff_count_le_one.mp h.ids a
  omega

/-- The suffixes of the markers of a control node. -/
def suffixesOf (items : Bool) : List JsText :=
  [JsText.of "start", JsText.of "normalize"] ++ if items then [JsText.of "items"] else []

theorem markersOf_eq (control : JsText × Bool) :
    markersOf control = (suffixesOf control.2).map (markerId control.1) := by
  obtain ⟨id, items⟩ := control
  cases items <;> rfl

/-- A suffix is known by its last letter. -/
theorem suffix_eq_of_getLast? {items items' : Bool} {x y : JsText} (hx : x ∈ suffixesOf items)
    (hy : y ∈ suffixesOf items') (h : x.getLast? = y.getLast?) : x = y := by
  have hx' : x ∈ suffixesOf true := by
    cases items
    · exact List.mem_append_left _ hx
    · exact hx
  have hy' : y ∈ suffixesOf true := by
    cases items'
    · exact List.mem_append_left _ hy
    · exact hy
  have hall : ∀ x ∈ suffixesOf true, ∀ y ∈ suffixesOf true, x.getLast? = y.getLast? → x = y := by decide
  exact hall x hx' y hy' h

theorem markerId_inj {items items' : Bool} {id id' x y : JsText} (hx : x ∈ suffixesOf items)
    (hy : y ∈ suffixesOf items') (h : markerId id x = markerId id' y) : id = id' ∧ x = y := by
  have hne : ∀ {items : Bool} {x : JsText}, x ∈ suffixesOf items → x ≠ [] := by
    intro items
    cases items <;> decide
  have hlast : ∀ {items : Bool} {id x : JsText}, x ∈ suffixesOf items → (markerId id x).getLast? = x.getLast? := by
    intro items id x hx
    unfold markerId
    exact List.getLast?_append_of_ne_nil _ (hne hx)
  have hxy : x = y := suffix_eq_of_getLast? hx hy (by rw [← hlast hx, h, hlast hy])
  subst hxy
  refine ⟨?_, rfl⟩
  unfold markerId at h
  have hids := List.append_cancel_right h
  exact List.append_cancel_left (List.append_cancel_right hids)

theorem nodup_markers {controls : List (JsText × Bool)} (h : (controls.map Prod.fst).Nodup) :
    (controls.flatMap markersOf).Nodup := by
  refine List.nodup_flatMap.mpr ⟨fun control _ => ?_, ?_⟩
  · rw [markersOf_eq]
    have hsuffixes : (suffixesOf control.2).Nodup := by
      cases control.2 <;> decide
    refine hsuffixes.map_on fun x hx y hy hxy => ?_
    exact (markerId_inj hx hy hxy).2
  · refine (List.pairwise_map.mp h).imp ?_
    intro control control' hne marker hmarker hmarker'
    rw [markersOf_eq] at hmarker hmarker'
    obtain ⟨x, hx, rfl⟩ := List.mem_map.mp hmarker
    obtain ⟨y, hy, hxy⟩ := List.mem_map.mp hmarker'
    exact hne (markerId_inj hy hx hxy).1.symm

/-! ### Ways that are spelled alike -/

/-- The words of a way. -/
abbrev wordsOf (way : List JsText) : List JsText := words underscoreUnit way

theorem wordsOf_append (way rest : List JsText) : wordsOf (way ++ rest) = wordsOf way ++ wordsOf rest :=
  words_append way rest

mutual

/-- What nests workflows in a step has different words. -/
def SeparatedStep : WorkflowStep → Prop
  | .mk _ .condition (some ⟨_, whenTrue, whenFalse⟩) _ _ => Separated whenTrue ∧ Separated whenFalse
  | .mk _ .parallel _ (some branches) _ => SeparatedBranches branches
  | .mk _ .loop _ _ (some ⟨_, _, _, _, _, steps⟩) => Separated steps
  | _ => True

/-- Two steps of a sequence nest no workflows with the same words. -/
def Separated : List WorkflowStep → Prop
  | [] => True
  | step :: rest => SeparatedStep step ∧ Separated rest ∧
    ∀ way ∈ waysOfStep step, ∀ way' ∈ ways rest, wordsOf way ≠ wordsOf way'

/-- Neither do two branches of a node, which are nested workflows themselves. -/
def SeparatedBranches : List (WorkflowBranchDefinition WorkflowStep) → Prop
  | [] => True
  | ⟨bid, steps⟩ :: rest => Separated steps ∧ SeparatedBranches rest ∧
    ∀ way ∈ waysFrom [bid] (ways steps), ∀ way' ∈ waysOfBranches rest, wordsOf way ≠ wordsOf way'

end

theorem separatedStep_leaf {step : WorkflowStep} (h : step.IsLeaf) : SeparatedStep step := by
  rw [SeparatedStep]
  · trivial
  · rintro _ _ _ _ _ _ rfl
    exact h.1 ⟨rfl, rfl⟩
  · rintro _ _ _ _ rfl
    exact h.2.1 ⟨rfl, rfl⟩
  · rintro _ _ _ _ _ _ _ _ _ rfl
    exact h.2.2 ⟨rfl, rfl⟩

/-- No two ways of a list are spelled alike. -/
abbrev SpelledApart (ways : List (List JsText)) : Prop := ways.Pairwise fun way way' => wordsOf way ≠ wordsOf way'

theorem spelledApart_append_iff (ways ways' : List (List JsText)) : SpelledApart (ways ++ ways') ↔
    SpelledApart ways ∧ SpelledApart ways' ∧ ∀ way ∈ ways, ∀ way' ∈ ways', wordsOf way ≠ wordsOf way' :=
  List.pairwise_append

theorem spelledApart_map_iff (way : List JsText) (ways : List (List JsText)) :
    SpelledApart (ways.map (way ++ ·)) ↔ SpelledApart ways := by
  refine List.pairwise_map.trans (List.Pairwise.iff fun rest rest' => ?_)
  rw [wordsOf_append, wordsOf_append, Ne, List.append_cancel_left_eq]

/-- A way is longer than the one that it begins with. -/
theorem spelledApart_waysFrom_iff (way : List JsText) {ways : List (List JsText)} (h : [] ∉ ways) :
    SpelledApart (waysFrom way ways) ↔ SpelledApart ways := by
  unfold waysFrom
  rw [spelledApart_append_iff, spelledApart_map_iff]
  refine ⟨fun hall => hall.2.1, fun hways => ⟨List.pairwise_singleton _ _, hways, ?_⟩⟩
  intro w hw w' hw' heq
  obtain rfl := List.mem_singleton.mp hw
  obtain ⟨rest, hrest, rfl⟩ := List.mem_map.mp hw'
  rw [wordsOf_append] at heq
  have hne : rest ≠ [] := fun hnil => h (hnil ▸ hrest)
  exact words_ne_nil hne (List.append_right_eq_self.mp heq.symm)

theorem nil_notMem_waysFrom {way : List JsText} (hway : way ≠ []) (ways : List (List JsText)) :
    [] ∉ waysFrom way ways := by
  intro hmem
  rcases List.mem_append.mp hmem with hmem | hmem
  · exact hway (List.mem_singleton.mp hmem).symm
  · obtain ⟨rest, -, happend⟩ := List.mem_map.mp hmem
    exact hway (List.append_eq_nil_iff.mp happend).1

theorem nil_notMem_ways (steps : List WorkflowStep) : [] ∉ ways steps := by
  induction steps using WorkflowStep.induction with
  | nil => exact List.not_mem_nil
  | condition id rule whenTrue whenFalse parallel loop rest hT hF hrest =>
    rw [ways, waysOfStep, List.mem_append, List.mem_append]
    rintro ((hmem | hmem) | hmem)
    · exact nil_notMem_waysFrom (List.cons_ne_nil _ _) _ hmem
    · exact nil_notMem_waysFrom (List.cons_ne_nil _ _) _ hmem
    · exact hrest hmem
  | parallel id condition branches loop rest hbranches hrest =>
    rw [ways, waysOfStep, List.mem_append]
    rintro (hmem | hmem)
    · obtain ⟨way, -, happend⟩ := List.mem_map.mp hmem
      cases happend
    · exact hrest hmem
  | loop id condition parallel loop rest hbody hrest =>
    rw [ways, waysOfStep, List.mem_append]
    rintro (hmem | hmem)
    · exact nil_notMem_waysFrom (List.cons_ne_nil _ _) _ hmem
    · exact hrest hmem
  | leaf step rest hleaf hrest =>
    rw [ways, waysOfStep_leaf hleaf, List.nil_append]
    exact hrest

/-- The two branches of a condition have different names. -/
theorem wordsOf_true_ne_false (id : JsText) {ways ways' : List (List JsText)} {way way' : List JsText}
    (h : way ∈ waysFrom [id, JsText.of "true"] ways) (h' : way' ∈ waysFrom [id, JsText.of "false"] ways') :
    wordsOf way ≠ wordsOf way' := by
  have hbegins : ∀ {branch : JsText} {ways : List (List JsText)} {way : List JsText},
      branch.splitOn underscoreUnit = [branch] → way ∈ waysFrom [id, branch] ways →
        ∃ rest, wordsOf way = wordsOf [id] ++ branch :: rest := by
    intro branch ways way hbranch hway
    have hone : wordsOf [id, branch] = wordsOf [id] ++ [branch] := by
      have hsplit : wordsOf [branch] = [branch] := (List.append_nil _).trans hbranch
      exact (wordsOf_append [id] [branch]).trans (congrArg (wordsOf [id] ++ ·) hsplit)
    rcases List.mem_append.mp hway with hway | hway
    · obtain rfl := List.mem_singleton.mp hway
      exact ⟨[], hone⟩
    · obtain ⟨rest, -, rfl⟩ := List.mem_map.mp hway
      refine ⟨wordsOf rest, ?_⟩
      rw [wordsOf_append, hone, List.append_assoc]
      rfl
  obtain ⟨rest, hrest⟩ := hbegins (by decide) h
  obtain ⟨rest', hrest'⟩ := hbegins (by decide) h'
  intro heq
  rw [hrest, hrest'] at heq
  have hhead := (List.cons.inj (List.append_cancel_left heq)).1
  revert hhead
  decide

theorem spelledApart_branches_iff {branches : List (WorkflowBranchDefinition WorkflowStep)}
    (h : ∀ branch ∈ branches, SpelledApart (ways branch.steps) ↔ Separated branch.steps) :
    SpelledApart (waysOfBranches branches) ↔ SeparatedBranches branches := by
  induction branches with
  | nil => exact iff_of_true List.Pairwise.nil trivial
  | cons branch rest ih =>
    obtain ⟨hbranch, hrest⟩ := List.forall_mem_cons.mp h
    obtain ⟨bid, steps⟩ := branch
    rw [waysOfBranches, SeparatedBranches]
    rw [spelledApart_append_iff, spelledApart_waysFrom_iff _ (nil_notMem_ways steps),
      ih hrest, hbranch]

theorem spelledApart_cons_iff {step : WorkflowStep} {rest : List WorkflowStep}
    (hstep : SpelledApart (waysOfStep step) ↔ SeparatedStep step) (hrest : SpelledApart (ways rest) ↔ Separated rest) :
    SpelledApart (ways (step :: rest)) ↔ Separated (step :: rest) := by
  rw [ways, Separated]
  rw [spelledApart_append_iff, hstep, hrest]

/-- **Nested workflows have different ids** if and only if those do that are next to each other. -/
theorem spelledApart_ways_iff (steps : List WorkflowStep) : SpelledApart (ways steps) ↔ Separated steps := by
  induction steps using WorkflowStep.induction with
  | nil => exact iff_of_true List.Pairwise.nil trivial
  | condition id rule whenTrue whenFalse parallel loop rest hT hF hrest =>
    refine spelledApart_cons_iff ?_ hrest
    rw [waysOfStep, SeparatedStep]
    rw [spelledApart_append_iff, spelledApart_waysFrom_iff _ (nil_notMem_ways whenTrue),
      spelledApart_waysFrom_iff _ (nil_notMem_ways whenFalse), hT, hF]
    refine and_congr_right fun _ => and_iff_left ?_
    exact fun way hway way' hway' => wordsOf_true_ne_false id hway hway'
  | parallel id condition branches loop rest hbranches hrest =>
    refine spelledApart_cons_iff ?_ hrest
    rw [waysOfStep, SeparatedStep, spelledApart_map_iff]
    exact spelledApart_branches_iff hbranches
  | loop id condition parallel loop rest hbody hrest =>
    refine spelledApart_cons_iff ?_ hrest
    rw [waysOfStep, SeparatedStep, spelledApart_waysFrom_iff _ (nil_notMem_ways _)]
    exact hbody
  | leaf step rest hleaf hrest =>
    refine spelledApart_cons_iff ?_ hrest
    rw [waysOfStep_leaf hleaf]
    exact iff_of_true List.Pairwise.nil (separatedStep_leaf hleaf)

theorem nodup_workflowAt_iff (id : JsText) (ways : List (List JsText)) :
    (ways.map (workflowAt id)).Nodup ↔ SpelledApart ways := by
  refine List.pairwise_map.trans (List.Pairwise.iff fun way way' => not_congr ?_)
  unfold workflowAt
  rw [List.append_cancel_left_eq, spell_eq_iff]

/-! ### When all ids are different -/

/-- Nothing that is generated is called like something else. -/
structure Distinguished (id : JsText) (definition : List WorkflowStep) : Prop where
  leaf_marker : ∀ leaf ∈ leaves definition, ∀ control ∈ controls definition, leaf.id ∉ markersOf control
  leaf_workflow : ∀ leaf ∈ leaves definition, ∀ way ∈ ways definition, leaf.id ≠ workflowAt id way
  marker_workflow : ∀ control ∈ controls definition, ∀ way ∈ ways definition, workflowAt id way ∉ markersOf control
  separated : Separated definition

/-- **The generated ids are pairwise different** if and only if nothing is called like something else. -/
theorem inner_nodup_iff {N : Type} [JsNumeric N] (E : Mastra N) (id : JsText) {definition : List WorkflowStep}
    (h : Accepted definition) : (compileSequence E id definition).inner.Nodup ↔ Distinguished id definition := by
  rw [(inner_perm_generatedIds E id definition).nodup_iff]
  unfold generatedIds
  rw [List.nodup_append, List.nodup_append, nodup_workflowAt_iff, spelledApart_ways_iff]
  constructor
  · rintro ⟨-, ⟨-, hseparated, hmarker⟩, hleaf⟩
    refine ⟨?_, ?_, ?_, hseparated⟩
    · intro leaf hmem control hcontrol hid
      refine hleaf _ (List.mem_map_of_mem hmem) leaf.id (List.mem_append_left _ ?_) rfl
      exact List.mem_flatMap.mpr ⟨control, hcontrol, hid⟩
    · intro leaf hmem way hway
      exact hleaf _ (List.mem_map_of_mem hmem) _ (List.mem_append_right _ (List.mem_map_of_mem hway))
    · intro control hcontrol way hway hid
      exact hmarker _ (List.mem_flatMap.mpr ⟨control, hcontrol, hid⟩) _ (List.mem_map_of_mem hway) rfl
  · intro hd
    refine ⟨nodup_leaves h, ⟨nodup_markers (nodup_controls h), hd.separated, ?_⟩, ?_⟩
    · intro marker hmarker name hname heq
      obtain ⟨control, hcontrol, hmem⟩ := List.mem_flatMap.mp hmarker
      obtain ⟨way, hway, rfl⟩ := List.mem_map.mp hname
      exact hd.marker_workflow control hcontrol way hway (heq ▸ hmem)
    · intro name hname other hother heq
      obtain ⟨leaf, hleaf, rfl⟩ := List.mem_map.mp hname
      rcases List.mem_append.mp hother with hother | hother
      · obtain ⟨control, hcontrol, hmem⟩ := List.mem_flatMap.mp hother
        exact hd.leaf_marker leaf hleaf control hcontrol (heq ▸ hmem)
      · obtain ⟨way, hway, rfl⟩ := List.mem_map.mp hother
        exact hd.leaf_workflow leaf hleaf way hway heq

/-- The ids of two branches that are called differently. -/
theorem inner_nodup_twoBranches :
    (compileSequence (Mastra.documented (Option Int)) (JsText.of "1_loop") [twoBranches]).inner.Nodup := by
  refine (inner_nodup_iff _ _ accepted_twoBranches).mpr ⟨by decide, by decide, by decide, ?_⟩
  refine ⟨⟨⟨trivial, trivial, by decide⟩, ⟨⟨trivial, trivial, by decide⟩, trivial, by decide⟩, by decide⟩, trivial,
    by decide⟩

/-- A parallel node whose branches have the same id. -/
def twinBranches : WorkflowStep :=
  .mk (JsText.of "both") .parallel none (some [⟨JsText.of "left", [servicesStep (JsText.of "s")]⟩,
    ⟨JsText.of "left", [servicesStep (JsText.of "t")]⟩]) none

theorem accepted_twinBranches : Accepted [twinBranches] where
  sequence := by decide
  steps := by decide
  count := by decide
  depth := by decide
  ids := by decide

/-- **Branches with one id** are accepted, and give two workflows one id. -/
theorem twins_collide : ¬ ∀ (E : Mastra (Option Int)) (id : JsText) (definition : List WorkflowStep),
    Accepted definition → (compileSequence E id definition).inner.Nodup := by
  intro h
  have hnodup := h (Mastra.documented _) (JsText.of "1_loop") _ accepted_twinBranches
  rw [(inner_perm_generatedIds _ _ _).nodup_iff] at hnodup
  revert hnodup
  decide

end AgentService
