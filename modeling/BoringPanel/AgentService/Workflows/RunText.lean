import BoringPanel.AgentService.Workflows.Meaning

/-!
# The text of a run

A parallel node and a loop over items join the texts of all contexts that they merge, and each of these
has kept the text that it began with. Where no step writes a text, what comes out of a node is so many
copies of the text as there are contexts that reach the end (`Trace.copies`, `text_of_passes`), and it is
the text that came in if it is empty or there is one copy (`text_unchanged_iff`).
-/

namespace AgentService

variable {N : Type}

open JsValue (keyed)

/-! ### Copies -/

namespace Trace

mutual

/-- The contexts that a context has become, in each of which is its text: those of all items, and of the
branches whose outputs are kept. -/
def copies : Trace N → Nat
  | leaf _ => 1
  | condition taken => copiesOfSequence taken
  | parallel branches => ((keyed (copiesOfBranches branches)).map Prod.snd).sum
  | foreach items => (copiesOfEach items).sum
  | loop rounds => (copiesOfEach rounds).prod

def copiesOfSequence : List (Trace N) → Nat
  | [] => 1
  | first :: rest => copies first * copiesOfSequence rest

def copiesOfEach : List (List (Trace N)) → List Nat
  | [] => []
  | trace :: rest => copiesOfSequence trace :: copiesOfEach rest

def copiesOfBranches : List (JsText × List (Trace N)) → List (JsText × Nat)
  | [] => []
  | (bid, trace) :: rest => (bid, copiesOfSequence trace) :: copiesOfBranches rest

end

theorem copiesOfEach_eq (traces : List (List (Trace N))) : copiesOfEach traces = traces.map copiesOfSequence := by
  induction traces with
  | nil => rfl
  | cons trace rest ih => rw [copiesOfEach, ih, List.map_cons]

theorem copiesOfBranches_eq (branches : List (JsText × List (Trace N))) :
    copiesOfBranches branches = branches.map (Prod.map id copiesOfSequence) := by
  induction branches with
  | nil => rfl
  | cons branch rest ih =>
    obtain ⟨bid, trace⟩ := branch
    rw [copiesOfBranches, ih, List.map_cons]
    rfl

end Trace

/-- The text of a context that stands for `k` copies of another one. -/
abbrev copiesOfText (k : Nat) (text : JsText) : JsText := JsText.copies paragraphs k text

theorem paragraphs_ne_nil : paragraphs ≠ [] := by decide

/-! ### Texts that are merged -/

theorem text_mergedContext_of_copies {contexts : List (WorkflowContext N)} {ks : List Nat} {text : JsText}
    (h : contexts.map WorkflowContext.text = ks.map fun k => copiesOfText k text) :
    (mergedContext contexts).text = copiesOfText ks.sum text := by
  unfold mergedContext
  dsimp only
  rw [h]
  exact JsText.joinPresent_map_copies paragraphs ks text

/-- Of branches with one id, one context is merged, and it has its copies. -/
theorem text_mergedContext_keyed {passes : List (Pass JsText N)} {text : JsText}
    (h : ∀ pass ∈ passes, pass.2.2.text = copiesOfText (Trace.copiesOfSequence pass.2.1) text) :
    (mergedContext ((keyed (passes.map fun pass => (pass.1, pass.2.2))).map fun output => output.2.parsed)).text =
      copiesOfText (Trace.parallel (passes.map fun pass => (pass.1, pass.2.1))).copies text := by
  have htexts : ((passes.map fun pass => (pass.1, pass.2.2)).map (Prod.map id WorkflowContext.text)) =
      (Trace.copiesOfBranches (passes.map fun pass => (pass.1, pass.2.1))).map
        (Prod.map id fun k => copiesOfText k text) := by
    rw [Trace.copiesOfBranches_eq, List.map_map, List.map_map, List.map_map]
    refine List.map_congr_left fun pass hpass => ?_
    exact Prod.ext rfl (h pass hpass)
  have hkeyed := congrArg keyed htexts
  rw [JsValue.keyed_map, JsValue.keyed_map] at hkeyed
  refine text_mergedContext_of_copies ?_
  have hsnd := congrArg (List.map Prod.snd) hkeyed
  rw [List.map_map, List.map_map] at hsnd
  rw [List.map_map, List.map_map]
  exact hsnd

theorem text_mergedContext_each {K : Type} {passes : List (Pass K N)} {text : JsText}
    (h : ∀ pass ∈ passes, pass.2.2.text = copiesOfText (Trace.copiesOfSequence pass.2.1) text) :
    (mergedContext (passes.map fun pass => pass.2.2.parsed)).text =
      copiesOfText (Trace.foreach (passes.map fun pass => pass.2.1)).copies text := by
  unfold Trace.copies
  rw [Trace.copiesOfEach_eq]
  refine text_mergedContext_of_copies ?_
  rw [List.map_map, List.map_map, List.map_map]
  exact List.map_congr_left h

/-! ### Passes without a text -/

/-- None of the leaves that are compiled writes a text. -/
def Silent (steps : List WorkflowStep) : Prop :=
  ∀ leaf ∈ WorkflowStep.leaves steps, isTextProducing leaf.type = false

theorem text_executeLeaf {step : WorkflowStep} {answer : LeafAnswer N} {x z : WorkflowContext N}
    (h : executeLeaf step answer x = some z) (hsilent : isTextProducing step.type = false) : z.text = x.text := by
  obtain ⟨text, data, rfl, htext⟩ := executeLeaf_cases h
  exact htext hsilent

theorem Silent.of_mem {steps others : List WorkflowStep} (h : Silent steps)
    (hmem : ∀ leaf ∈ WorkflowStep.leaves others, leaf ∈ WorkflowStep.leaves steps) : Silent others :=
  fun leaf hleaf => h leaf (hmem leaf hleaf)

theorem Silent.rest {step : WorkflowStep} {rest : List WorkflowStep} (h : Silent (step :: rest)) : Silent rest := by
  refine h.of_mem fun leaf hleaf => ?_
  rw [WorkflowStep.leaves]
  exact List.mem_append_right _ hleaf

theorem Silent.first {step : WorkflowStep} {rest : List WorkflowStep} (h : Silent (step :: rest))
    {leaf : WorkflowStep} (hleaf : leaf ∈ WorkflowStep.leavesOfStep step) : isTextProducing leaf.type = false := by
  refine h leaf ?_
  rw [WorkflowStep.leaves]
  exact List.mem_append_left _ hleaf

variable [JsNumeric N] {count : Nat → Nat}

theorem text_prepareForeach {id : JsText} {sourcePath : Option JsText} {maxIterations : Nat}
    {x : WorkflowContext N} {items : List (WorkflowContext N)}
    (h : prepareForeach id sourcePath maxIterations x = some items) : ∀ item ∈ items, item.text = x.text := by
  unfold prepareForeach at h
  split at h
  · intro item hitem
    rw [← Option.some.inj h] at hitem
    obtain ⟨index, _, rfl⟩ := List.mem_mapIdx.mp hitem
    rfl
  · cases h

/-- The rounds of a loop multiply the copies. -/
theorem text_of_repeats {steps : List WorkflowStep} {again : Nat → WorkflowContext N → Option Bool}
    (hbody : ∀ {x z : WorkflowContext N} {trace}, Passes count steps x trace z →
      z.text = copiesOfText (Trace.copiesOfSequence trace) x.text)
    {n : Nat} {x z : WorkflowContext N} {rounds : List (List (Trace N))}
    (h : Repeats (Passes count steps) again n x rounds z) :
    z.text = copiesOfText (Trace.copiesOfEach rounds).prod x.text := by
  induction h with
  | last hrun _ =>
    rw [hbody hrun, Trace.copiesOfEach, Trace.copiesOfEach, List.prod_singleton]
  | more hrun _ _ ih =>
    rw [ih, hbody hrun, Trace.copiesOfEach, List.prod_cons]
    exact JsText.copies_copies _ _ _

theorem text_of_passesBranches {branches : List (WorkflowBranchDefinition WorkflowStep)} {x : WorkflowContext N}
    (h : ∀ branch ∈ branches, ∀ {z : WorkflowContext N} {trace}, Passes count branch.steps x trace z →
      z.text = copiesOfText (Trace.copiesOfSequence trace) x.text)
    {passes : List (Pass JsText N)} (hpasses : PassesBranches count branches x passes) :
    ∀ pass ∈ passes, pass.2.2.text = copiesOfText (Trace.copiesOfSequence pass.2.1) x.text := by
  induction branches generalizing passes with
  | nil =>
    obtain rfl : passes = [] := hpasses
    simp
  | cons branch rest ih =>
    obtain ⟨hbranch, hrest⟩ := List.forall_mem_cons.mp h
    obtain ⟨bid, steps⟩ := branch
    obtain ⟨trace, z, others, rfl, htrace, hothers⟩ := hpasses
    exact List.forall_mem_cons.mpr ⟨hbranch htrace, ih hrest hothers⟩

omit [JsNumeric N] in
/-- What one step has made of a text, the steps after it go on with. -/
theorem text_sequence {first : Trace N} {others : List (Trace N)} {x y z : WorkflowContext N}
    (hy : y.text = copiesOfText first.copies x.text)
    (hz : z.text = copiesOfText (Trace.copiesOfSequence others) y.text) :
    z.text = copiesOfText (Trace.copiesOfSequence (first :: others)) x.text := by
  rw [hz, hy, Trace.copiesOfSequence]
  exact JsText.copies_copies _ _ _

/-- **Without a step that writes a text**, what comes out has so many copies of the text that came in. -/
theorem text_of_passes {steps : List WorkflowStep} (hsilent : Silent steps) {x z : WorkflowContext N}
    {trace : List (Trace N)} (h : Passes count steps x trace z) :
    z.text = copiesOfText (Trace.copiesOfSequence trace) x.text := by
  induction steps using WorkflowStep.induction generalizing x z trace with
  | nil =>
    obtain ⟨rfl, rfl⟩ := h
    exact (JsText.copies_one _).symm
  | condition id rule whenTrue whenFalse parallel loop rest hT hF hrest =>
    obtain ⟨_, others, y, rfl, ⟨inner, y', rfl, rfl, htaken⟩, hothers⟩ := h
    have hy : y'.text = copiesOfText (Trace.condition inner).copies x.text := by
      rcases htaken with ⟨-, htrace⟩ | ⟨-, htrace⟩
      · exact hT (fun leaf hleaf => hsilent.first (List.mem_append_left _ hleaf)) htrace
      · exact hF (fun leaf hleaf => hsilent.first (List.mem_append_right _ hleaf)) htrace
    exact text_sequence (y := y'.parsed) hy (hrest hsilent.rest hothers)
  | parallel id condition branches loop rest hbranches hrest =>
    obtain ⟨_, others, y, rfl, ⟨passes, rfl, hpasses, rfl⟩, hothers⟩ := h
    refine text_sequence (text_mergedContext_keyed (text_of_passesBranches (fun branch hbranch => ?_) hpasses))
      (hrest hsilent.rest hothers)
    intro z trace htrace
    refine hbranches branch hbranch (fun leaf hleaf => hsilent.first ?_) htrace
    rw [WorkflowStep.leavesOfStep, WorkflowStep.leavesOfBranches_eq]
    exact List.mem_flatMap.mpr ⟨branch, hbranch, hleaf⟩
  | loop id condition parallel loop rest hbody hrest =>
    obtain ⟨mode, rule, maxIterations, sourcePath, concurrency, steps⟩ := loop
    obtain ⟨first, others, y, rfl, hfirst, hothers⟩ := h
    have hsteps : ∀ {x z : WorkflowContext N} {trace}, Passes count steps x trace z →
        z.text = copiesOfText (Trace.copiesOfSequence trace) x.text :=
      hbody fun leaf hleaf => hsilent.first hleaf
    cases mode with
    | foreach =>
      obtain ⟨passes, hprepared, rfl, hpasses, rfl⟩ := hfirst
      refine text_sequence (text_mergedContext_each fun pass hpass => ?_) (hrest hsilent.rest hothers)
      rw [hsteps (hpasses pass hpass), text_prepareForeach hprepared _ (List.mem_map_of_mem hpass)]
    | «while» =>
      obtain ⟨rounds, y', rfl, rfl, hrounds⟩ := hfirst
      have hy : y'.text = copiesOfText (Trace.loop rounds).copies x.text := text_of_repeats hsteps hrounds
      exact text_sequence (y := y'.parsed) hy (hrest hsilent.rest hothers)
    | «until» =>
      obtain ⟨rounds, y', rfl, rfl, hrounds⟩ := hfirst
      have hy : y'.text = copiesOfText (Trace.loop rounds).copies x.text := text_of_repeats hsteps hrounds
      exact text_sequence (y := y'.parsed) hy (hrest hsilent.rest hothers)
  | leaf step rest hleaf hrest =>
    obtain ⟨_, others, y, rfl, hfirst, hothers⟩ := h
    obtain ⟨answer, rfl, hexecute⟩ := (passesStep_leaf hleaf _ _ _).mp hfirst
    have hstep : isTextProducing step.type = false := by
      refine hsilent.first ?_
      rw [WorkflowStep.leavesOfStep_leaf hleaf]
      exact List.mem_singleton_self step
    have hy : y.text = copiesOfText (Trace.leaf answer).copies x.text :=
      (text_executeLeaf hexecute hstep).trans (JsText.copies_one _).symm
    exact text_sequence hy (hrest hsilent.rest hothers)

/-- **The text that comes out of silent steps** is the one that has come in if that one is empty, or if
one context has reached the end. -/
theorem text_unchanged_iff (E : Mastra N) (id : JsText) {steps : List WorkflowStep} (hsilent : Silent steps)
    {x z : WorkflowContext N} (hrun : (compileSequence E id steps).runs x.value z.value) :
    (∃ trace, Passes E.iterationCount steps x trace z) ∧ ∀ trace, Passes E.iterationCount steps x trace z →
      (z.text = x.text ↔ x.text = [] ∨ Trace.copiesOfSequence trace = 1) := by
  constructor
  · obtain ⟨z', htrace, hvalue⟩ := (compileSequence_runs_iff E id steps x _).mp hrun
    rw [WorkflowContext.value_injective hvalue]
    exact htrace
  · intro trace htrace
    rw [text_of_passes hsilent htrace]
    exact JsText.copies_eq_self_iff paragraphs_ne_nil _ _

/-! ### Two branches -/

def servicesStep (id : JsText) : WorkflowStep := .mk id .services none none none

theorem isLeaf_servicesStep (id : JsText) : (servicesStep id).IsLeaf := by
  unfold servicesStep
  simp [WorkflowStep.IsLeaf]

/-- A parallel node with a step for services in each of its branches. -/
def twoBranches : WorkflowStep :=
  .mk (JsText.of "both") .parallel none (some [⟨JsText.of "left", [servicesStep (JsText.of "s")]⟩,
    ⟨JsText.of "right", [servicesStep (JsText.of "t")]⟩]) none

def answeredContext : WorkflowContext (Option Int) := ⟨JsText.of "why", [], JsText.of "ok"⟩

/-- What comes out, where there are no services. -/
def mergedAnswer : WorkflowContext (Option Int) :=
  ⟨JsText.of "why", [(JsText.of "s", .array []), (JsText.of "t", .array [])], JsText.of "ok\n\nok"⟩

def twoTrace : List (Trace (Option Int)) :=
  [.parallel [(JsText.of "left", [.leaf (.data (.array []))]), (JsText.of "right", [.leaf (.data (.array []))])]]

theorem passes_twoBranches (count : Nat → Nat) : Passes count [twoBranches] answeredContext twoTrace mergedAnswer := by
  have hleaf : ∀ id, Passes count [servicesStep id] answeredContext [.leaf (.data (.array []))]
      (answeredContext.withResult id (.array [])) :=
    fun id => ⟨_, [], _, rfl, (passesStep_leaf (isLeaf_servicesStep id) _ _ _).mpr ⟨.data (.array []), rfl, rfl⟩, rfl, rfl⟩
  let left := answeredContext.withResult (JsText.of "s") (.array [])
  let right := answeredContext.withResult (JsText.of "t") (.array [])
  refine ⟨_, [], mergedAnswer, rfl, ⟨[(JsText.of "left", [.leaf (.data (.array []))], left),
    (JsText.of "right", [.leaf (.data (.array []))], right)], rfl, ?_, rfl⟩, rfl, rfl⟩
  exact ⟨_, left, _, rfl, hleaf (JsText.of "s"), _, right, [], rfl, hleaf (JsText.of "t"), rfl⟩

theorem accepted_twoBranches : Accepted [twoBranches] where
  sequence := by decide
  steps := by decide
  count := by decide
  depth := by decide
  ids := by decide

theorem silent_twoBranches : Silent [twoBranches] := by
  unfold Silent
  decide

theorem runs_twoBranches : (compileSequence (Mastra.documented (Option Int)) (JsText.of "loop") [twoBranches]).runs
    answeredContext.value mergedAnswer.value :=
  (compileSequence_runs_iff _ _ _ _ _).mpr ⟨mergedAnswer, ⟨twoTrace, passes_twoBranches _⟩, rfl⟩

theorem text_unchanged_twoBranches :
    mergedAnswer.text = answeredContext.text ↔ answeredContext.text = [] ∨ Trace.copiesOfSequence twoTrace = 1 :=
  (text_unchanged_iff (Mastra.documented (Option Int)) (JsText.of "loop") silent_twoBranches runs_twoBranches).2
    twoTrace (passes_twoBranches _)

/-- **The text is doubled** by two branches that write none. -/
theorem text_doubled : ¬ ∀ (E : Mastra (Option Int)) (id : JsText) (definition : List WorkflowStep)
    (x z : WorkflowContext (Option Int)), Accepted definition → Silent definition →
      (compileSequence E id definition).runs x.value z.value → z.text = x.text := by
  intro h
  have htext := h _ _ _ _ _ accepted_twoBranches silent_twoBranches runs_twoBranches
  revert htext
  decide

end AgentService
