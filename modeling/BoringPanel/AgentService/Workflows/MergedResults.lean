import BoringPanel.AgentService.Workflows.Addressable
import Mathlib.Data.List.Pairwise

/-!
# The results that branches hand over

A parallel node merges the results of its branches in their order, with those that each branch has only
inherited. So a branch that has executed a step may be followed by one that hands over an older result of
the step (`result_overwritten`). `resultsKept_iff` says when what a branch has written is what comes out.
-/

namespace AgentService

variable {N : Type}

open JsValue (get set assign keyed)

/-! ### Results that are merged -/

/-- The results are those of an object: no key comes twice. -/
def IsObject (context : WorkflowContext N) : Prop := (context.results.map Prod.fst).Nodup

/-- Of the outputs that have a result for a step, the one that is merged last. -/
def lastWith (s : JsText) (outputs : List (JsText × WorkflowContext N)) : Option (JsText × WorkflowContext N) :=
  outputs.reverse.find? fun output => (get output.2.results s).isSome

theorem get_parsed (context : WorkflowContext N) (key : JsText) :
    get context.parsed.results key = if key = JsValue.prototypeKey then none else get context.results key := by
  obtain ⟨message, results, text⟩ := context
  change get (results.filter _) key = if _ then none else get results key
  induction results with
  | nil => exact (ite_self _).symm
  | cons member rest ih =>
    obtain ⟨k, v⟩ := member
    by_cases hk : k = JsValue.prototypeKey
    · rw [List.filter_cons_of_neg (by simpa using hk), ih, JsValue.get_cons, hk]
      by_cases hkey : key = JsValue.prototypeKey
      · rw [if_pos hkey, if_pos hkey]
      · rw [if_neg hkey, if_neg hkey, if_neg (Ne.symm hkey)]
    · rw [List.filter_cons_of_pos (by simpa using hk), JsValue.get_cons, JsValue.get_cons, ih]
      by_cases hkey : k = key
      · rw [if_pos hkey, if_pos hkey, if_neg (hkey ▸ hk)]
      · rw [if_neg hkey, if_neg hkey]

theorem isObject_mergedContext (contexts : List (WorkflowContext N)) : IsObject (mergedContext contexts) := by
  have hfold : ∀ results : List (JsText × JsValue N), (results.map Prod.fst).Nodup →
      ((contexts.foldl (fun results context => assign results context.results) results).map Prod.fst).Nodup := by
    induction contexts with
    | nil => exact fun _ h => h
    | cons context rest ih => exact fun results h => ih _ (JsValue.nodup_keys_assign h _)
  exact hfold [] List.nodup_nil

theorem IsObject.parsed {context : WorkflowContext N} (h : IsObject context) : IsObject context.parsed :=
  h.sublist (List.filter_sublist.map Prod.fst)

/-- What is merged last is what comes out. -/
theorem get_mergedContext {contexts : List (WorkflowContext N)} (h : ∀ context ∈ contexts, IsObject context)
    (s : JsText) :
    get (mergedContext contexts).results s = contexts.reverse.findSome? fun context => get context.results s := by
  have hfold : ∀ results : List (JsText × JsValue N),
      get (contexts.foldl (fun results context => assign results context.results) results) s =
        (contexts.reverse.findSome? fun context => get context.results s).or (get results s) := by
    induction contexts with
    | nil => exact fun _ => rfl
    | cons context rest ih =>
      obtain ⟨hcontext, hrest⟩ := List.forall_mem_cons.mp h
      intro results
      rw [List.foldl_cons, ih hrest, JsValue.get_assign _ hcontext, List.reverse_cons,
        List.findSome?_append, Option.or_assoc]
      congr 1
      cases hget : get context.results s <;> simp [hget]
  rw [mergedContext, hfold []]
  exact Option.or_none

/-- The result of the outputs that is merged last, unless it has the one key that a copy drops. -/
theorem get_merged_outputs {outputs : List (JsText × WorkflowContext N)}
    (h : ∀ output ∈ outputs, IsObject output.2) {s : JsText} {v : JsValue N} :
    get (mergedContext (outputs.map fun output => output.2.parsed)).results s = some v ↔
      s ≠ JsValue.prototypeKey ∧ ∃ output, lastWith s outputs = some output ∧ get output.2.results s = some v := by
  rw [get_mergedContext (List.forall_mem_map.mpr fun output houtput => (h output houtput).parsed),
    ← List.map_reverse, List.findSome?_map]
  by_cases hs : s = JsValue.prototypeKey
  · have hnone : ∀ output : JsText × WorkflowContext N, get output.2.parsed.results s = none := by
      intro output
      rw [get_parsed, if_pos hs]
    have hnothing := List.findSome?_eq_none_iff.mpr fun output (_ : output ∈ outputs.reverse) => hnone output
    rw [Function.comp_def, hnothing]
    simp [hs]
  · have hsame : ∀ output : JsText × WorkflowContext N,
        get output.2.parsed.results s = get output.2.results s := by
      intro output
      rw [get_parsed, if_neg hs]
    simp only [Function.comp_def, hsame, lastWith, ne_eq, hs, not_false_eq_true, true_and]
    induction outputs.reverse with
    | nil => simp
    | cons output rest ih =>
      rw [List.findSome?_cons, List.find?_cons]
      cases hget : get output.2.results s with
      | none => simpa using ih
      | some w => simp [hget]

theorem isObject_executeLeaf {step : WorkflowStep} {answer : LeafAnswer N} {x z : WorkflowContext N}
    (hx : IsObject x) (h : executeLeaf step answer x = some z) : IsObject z := by
  obtain ⟨text, data, rfl, -⟩ := executeLeaf_cases h
  exact JsValue.nodup_keys_set hx _ _

variable [JsNumeric N] {count : Nat → Nat}

theorem mem_prepareForeach {id : JsText} {sourcePath : Option JsText} {maxIterations : Nat}
    {x item : WorkflowContext N} {items : List (WorkflowContext N)}
    (h : prepareForeach id sourcePath maxIterations x = some items) (hitem : item ∈ items) :
    ∃ v w, item = (x.withResult (id ++ JsText.of ".item") v).withResult (id ++ JsText.of ".index") w := by
  unfold prepareForeach at h
  split at h
  · rw [← Option.some.inj h] at hitem
    obtain ⟨index, _, rfl⟩ := List.mem_mapIdx.mp hitem
    exact ⟨_, _, rfl⟩
  · cases h

theorem isObject_of_passes {steps : List WorkflowStep} {x z : WorkflowContext N} {trace : List (Trace N)}
    (h : Passes count steps x trace z) (hx : IsObject x) : IsObject z := by
  refine invariant_of_passes (P := fun _ => True) (Q := fun _ => True) (fun _ hc => hc.parsed)
    (fun cs _ => isObject_mergedContext cs) (fun _ hexecute hx => isObject_executeLeaf hx hexecute) ?_
    (fun _ _ => trivial) (fun _ _ => trivial) h hx
  intro id sourcePath maxIterations x items _ hprepared hx item hitem
  obtain ⟨v, w, rfl⟩ := mem_prepareForeach hprepared hitem
  exact JsValue.nodup_keys_set (JsValue.nodup_keys_set hx _ _) _ _

/-- A result of a step that is not among the steps has been there before. -/
theorem inherited_of_passes {steps : List WorkflowStep} {s : JsText} (hdot : dot ∉ s)
    (hs : ∀ leaf ∈ WorkflowStep.leaves steps, leaf.id ≠ s) {x z : WorkflowContext N} {trace : List (Trace N)}
    (h : Passes count steps x trace z) (hx : IsObject x) {v : JsValue N} (hv : get z.results s = some v) :
    get x.results s = some v := by
  have hstored : ∀ {c : WorkflowContext N} {key : JsText} {data : JsValue N}, key ≠ s →
      get (c.withResult key data).results s = get c.results s := by
    intro c key data hkey
    exact (JsValue.get_set _ _ _ _).trans (if_neg hkey)
  have hkeys : ∀ id suffix, dot ∈ suffix → id ++ suffix ≠ s := by
    rintro id suffix hsuffix rfl
    exact hdot (List.mem_append_right _ hsuffix)
  refine (invariant_of_passes (I := fun c => IsObject c ∧ ∀ v, get c.results s = some v → get x.results s = some v)
    (P := fun leaf => leaf.id ≠ s) (Q := fun _ => True) ?_ ?_ ?_ ?_ hs (fun _ _ => trivial) h
    ⟨hx, fun _ h => h⟩).2 v hv
  · rintro c ⟨hc, hget⟩
    refine ⟨hc.parsed, fun v hv => hget v ?_⟩
    rw [get_parsed] at hv
    split at hv
    · cases hv
    · exact hv
  · intro cs hcs
    refine ⟨isObject_mergedContext cs, fun v hv => ?_⟩
    rw [get_mergedContext fun c hc => (hcs c hc).1] at hv
    obtain ⟨c, hc, hget⟩ := List.exists_of_findSome?_eq_some hv
    exact (hcs c (List.mem_reverse.mp hc)).2 v hget
  · rintro step answer c z hne hexecute ⟨hc, hget⟩
    refine ⟨isObject_executeLeaf hc hexecute, fun v hv => hget v ?_⟩
    obtain ⟨text, data, rfl, -⟩ := executeLeaf_cases hexecute
    rwa [hstored hne] at hv
  · rintro id sourcePath maxIterations c items - hprepared ⟨hc, hget⟩ item hitem
    obtain ⟨w, w', rfl⟩ := mem_prepareForeach hprepared hitem
    refine ⟨JsValue.nodup_keys_set (JsValue.nodup_keys_set hc _ _) _ _, fun v hv => hget v ?_⟩
    rwa [hstored (hkeys id _ (by decide)), hstored (hkeys id _ (by decide))] at hv

/-! ### What is written -/

section Writes

variable (count : Nat → Nat)

mutual

/-- The results that a step has stored in a pass, one after the other. -/
def WritesStep : WorkflowStep → WorkflowContext N → Trace N → List (JsText × JsValue N) → Prop
  | .mk _ .condition (some ⟨rule, whenTrue, whenFalse⟩) _ _, x, trace, ws => ∃ inner, trace = .condition inner ∧
    (compareRule x.value rule = some true ∧ Writes whenTrue x inner ws ∨
      compareRule x.value rule = some false ∧ Writes whenFalse x inner ws)
  | .mk _ .parallel _ (some branches) _, x, trace, ws => ∃ traces, trace = .parallel traces ∧
    WritesBranches branches x traces ws
  | .mk sid .loop _ _ (some ⟨mode, rule, maxIterations, sourcePath, _, steps⟩), x, trace, ws =>
    match mode with
    | .foreach => ∃ items : List (WorkflowContext N × List (Trace N) × List (JsText × JsValue N)),
      prepareForeach sid sourcePath maxIterations x = some (items.map Prod.fst) ∧
        trace = .foreach (items.map fun item => item.2.1) ∧
        (∀ item ∈ items, Writes steps item.1 item.2.1 item.2.2) ∧ ws = items.flatMap fun item => item.2.2
    | mode => ∃ rounds : List (List (Trace N) × List (JsText × JsValue N)), ∃ y,
      trace = .loop (rounds.map Prod.fst) ∧ ws = rounds.flatMap Prod.snd ∧
        Repeats (fun a t b => Passes count steps a t.1 b ∧ Writes steps a t.1 t.2)
          (fun n => goesOn mode rule maxIterations (count n)) 1 x rounds y
  | step, x, trace, ws => ∃ answer z v, trace = .leaf answer ∧ executeLeaf step answer x = some z ∧
    get z.results step.id = some v ∧ ws = [(step.id, v)]

def Writes : List WorkflowStep → WorkflowContext N → List (Trace N) → List (JsText × JsValue N) → Prop
  | [], _, trace, ws => trace = [] ∧ ws = []
  | step :: rest, x, trace, ws => ∃ first others y firsts lasts, trace = first :: others ∧
    PassesStep count step x first y ∧ WritesStep step x first firsts ∧ Writes rest y others lasts ∧
      ws = firsts ++ lasts

def WritesBranches : List (WorkflowBranchDefinition WorkflowStep) → WorkflowContext N →
    List (JsText × List (Trace N)) → List (JsText × JsValue N) → Prop
  | [], _, traces, ws => traces = [] ∧ ws = []
  | ⟨bid, steps⟩ :: rest, x, traces, ws => ∃ trace others firsts lasts, traces = (bid, trace) :: others ∧
    Writes steps x trace firsts ∧ WritesBranches rest x others lasts ∧ ws = firsts ++ lasts

end

/-- The outputs of the branches that are merged, in their order. -/
def outputsOf (passes : List (Pass JsText N)) : List (JsText × WorkflowContext N) :=
  keyed (passes.map fun pass => (pass.1, pass.2.2))

/-- Of this a property holds for each result that a branch has written last in its pass. -/
def ForWritten (branches : List (WorkflowBranchDefinition WorkflowStep)) (x : WorkflowContext N)
    (passes : List (Pass JsText N)) (R : Pass JsText N → JsText → JsValue N → Prop) : Prop :=
  ∀ p ∈ branches.zip passes, ∀ ws, Writes count p.1.steps x p.2.2.1 ws →
    ∀ leaf ∈ WorkflowStep.leaves p.1.steps, ∀ v, get (keyed ws) leaf.id = some v → R p.2 leaf.id v

end Writes

/-- The last output with a result for the step is that of the branch, and has what the branch has written,
or another one, and the node was entered with this very value. -/
def Survives (x : WorkflowContext N) (passes : List (Pass JsText N)) (pass : Pass JsText N) (s : JsText)
    (v : JsValue N) : Prop :=
  s ≠ JsValue.prototypeKey ∧ ∃ output, lastWith s (outputsOf passes) = some output ∧
    (output = (pass.1, pass.2.2) ∧ get pass.2.2.results s = some v ∨
      output ≠ (pass.1, pass.2.2) ∧ get x.results s = some v)

/-! ### The nodes of a definition -/

/-- A step that the compiler comes to, also in branches, in loops and in parallel nodes. -/
inductive Within (node : WorkflowStep) : List WorkflowStep → Prop
  | head {rest} : Within node (node :: rest)
  | tail {step rest} : Within node rest → Within node (step :: rest)
  | whenTrue {id rule whenTrue whenFalse parallel loop rest} : Within node whenTrue →
    Within node (.mk id .condition (some ⟨rule, whenTrue, whenFalse⟩) parallel loop :: rest)
  | whenFalse {id rule whenTrue whenFalse parallel loop rest} : Within node whenFalse →
    Within node (.mk id .condition (some ⟨rule, whenTrue, whenFalse⟩) parallel loop :: rest)
  | branch {id condition branches loop rest branch} : branch ∈ branches →
    Within node (WorkflowBranchDefinition.steps branch) →
      Within node (.mk id .parallel condition (some branches) loop :: rest)
  | body {id condition parallel d rest} : Within node (LoopDefinition.steps d) →
    Within node (.mk id .loop condition parallel (some d) :: rest)

omit [JsNumeric N] in
theorem Within.leaves_sublist {node : WorkflowStep} {steps : List WorkflowStep} (h : Within node steps) :
    (WorkflowStep.leavesOfStep node).Sublist (WorkflowStep.leaves steps) := by
  induction h with
  | head => exact List.sublist_append_left _ _
  | tail _ ih => exact ih.trans (List.sublist_append_right _ _)
  | whenTrue _ ih => exact (ih.trans (List.sublist_append_left _ _)).trans (List.sublist_append_left _ _)
  | whenFalse _ ih => exact (ih.trans (List.sublist_append_right _ _)).trans (List.sublist_append_left _ _)
  | branch hbranch _ ih =>
    rw [WorkflowStep.leaves, WorkflowStep.leavesOfStep, WorkflowStep.leavesOfBranches_eq, List.flatMap_def]
    have hmem := List.mem_map_of_mem (f := fun branch => WorkflowStep.leaves branch.steps) hbranch
    exact (ih.trans (List.sublist_flatten_of_mem hmem)).trans (List.sublist_append_left _ _)
  | body _ ih => exact ih.trans (List.sublist_append_left _ _)

/-- Each branch has passed. -/
theorem PassesBranches.zip {branches : List (WorkflowBranchDefinition WorkflowStep)} {x : WorkflowContext N}
    {passes : List (Pass JsText N)} (h : PassesBranches count branches x passes) :
    passes.length = branches.length ∧
      ∀ p ∈ branches.zip passes, Passes count p.1.steps x p.2.2.1 p.2.2.2 := by
  induction branches generalizing passes with
  | nil =>
    obtain rfl : passes = [] := h
    exact ⟨rfl, by simp⟩
  | cons branch rest ih =>
    obtain ⟨bid, steps⟩ := branch
    obtain ⟨trace, z, others, rfl, htrace, hothers⟩ := h
    obtain ⟨hlength, hall⟩ := ih hothers
    exact ⟨congrArg (· + 1) hlength, List.forall_mem_cons.mpr ⟨htrace, hall⟩⟩

/-- Two branches have no step in common. -/
def Apart (p q : WorkflowBranchDefinition WorkflowStep × Pass JsText N) : Prop :=
  ∀ leaf ∈ WorkflowStep.leaves p.1.steps, ∀ leaf' ∈ WorkflowStep.leaves q.1.steps, leaf'.id ≠ leaf.id

omit [JsNumeric N] in
theorem apart_of_nodup {branches : List (WorkflowBranchDefinition WorkflowStep)} {passes : List (Pass JsText N)}
    (h : ((WorkflowStep.leavesOfBranches branches).map WorkflowStep.id).Nodup)
    (hlength : passes.length = branches.length) {p q : WorkflowBranchDefinition WorkflowStep × Pass JsText N}
    (hp : p ∈ branches.zip passes) (hq : q ∈ branches.zip passes) (hne : p ≠ q) : Apart p q := by
  rw [WorkflowStep.leavesOfBranches_eq, List.map_flatMap, List.nodup_flatMap] at h
  have hzip : (branches.zip passes).map Prod.fst = branches := List.map_fst_zip hlength.ge
  have hpairs : (branches.zip passes).Pairwise Apart := by
    refine (List.pairwise_map.mp (hzip.symm ▸ h.2)).imp fun hdisjoint leaf hleaf leaf' hleaf' heq => ?_
    exact hdisjoint (List.mem_map_of_mem hleaf) (heq ▸ List.mem_map_of_mem hleaf')
  have hsymm : Std.Symm (Apart (N := N)) :=
    ⟨fun _ _ h leaf hleaf leaf' hleaf' heq => h leaf' hleaf' leaf hleaf heq.symm⟩
  exact hpairs.forall hp hq hne

/-- **What the branches of a parallel node have written comes out of it** if and only if each result
survives the merging. -/
theorem resultsKept_iff (count : Nat → Nat) {definition : List WorkflowStep} (h : Accepted definition)
    {sid : JsText} {condition loop : Option _} {branches : List (WorkflowBranchDefinition WorkflowStep)}
    (hnode : Within (.mk sid .parallel condition (some branches) loop) definition) {x : WorkflowContext N}
    (hx : IsObject x) {passes : List (Pass JsText N)} (hpasses : PassesBranches count branches x passes) :
    ∃ z, PassesStep count (.mk sid .parallel condition (some branches) loop) x
        (.parallel (passes.map fun pass => (pass.1, pass.2.1))) z ∧
      (ForWritten count branches x passes (fun _ s v => get z.results s = some v) ↔
        ForWritten count branches x passes (Survives x passes)) := by
  refine ⟨_, ⟨passes, rfl, hpasses, rfl⟩, ?_⟩
  obtain ⟨hlength, hall⟩ := hpasses.zip
  have hsub := hnode.leaves_sublist
  rw [WorkflowStep.leavesOfStep] at hsub
  have hnodup := (nodup_leaves h).sublist (hsub.map WorkflowStep.id)
  have hobjects : ∀ output ∈ outputsOf passes, IsObject output.2 := by
    intro output houtput
    obtain ⟨pass, hpass, rfl⟩ := List.mem_map.mp (JsValue.mem_keyed houtput)
    exact invariant_of_passesBranches (fun _ _ _ _ htrace => isObject_of_passes htrace hx) hpasses pass hpass
  refine forall₂_congr fun p hp => forall₂_congr fun ws hws => forall₂_congr fun leaf hleaf =>
    forall₂_congr fun v hv => ?_
  have hid : dot ∉ leaf.id := by
    refine dot_notMem_of_workflowIdSchema (h.validIds.leaves leaf (hsub.subset ?_))
    rw [WorkflowStep.leavesOfBranches_eq]
    exact List.mem_flatMap.mpr ⟨p.1, (List.of_mem_zip hp).1, hleaf⟩
  refine (get_merged_outputs hobjects).trans (and_congr_right fun _ => exists_congr fun output =>
    and_congr_right fun hlast => ?_)
  by_cases hown : output = (p.2.1, p.2.2.2)
  · subst hown
    simp
  · -- another branch has the result from where the node was entered
    simp only [hown, false_and, not_false_eq_true, true_and, false_or, ne_eq]
    have hmem := List.mem_reverse.mp (List.mem_of_find?_eq_some hlast)
    obtain ⟨pass, hpass, rfl⟩ := List.mem_map.mp (JsValue.mem_keyed hmem)
    have hsnd : (branches.zip passes).map Prod.snd = passes := List.map_snd_zip hlength.le
    obtain ⟨q, hq, rfl⟩ := List.mem_map.mp (hsnd.symm ▸ hpass)
    have hne : p ≠ q := by
      rintro rfl
      exact hown rfl
    have hinherited : ∀ w, get q.2.2.2.results leaf.id = some w → get x.results leaf.id = some w :=
      fun w hw => inherited_of_passes hid (apart_of_nodup hnodup hlength hp hq hne leaf hleaf) (hall q hq) hx hw
    refine ⟨hinherited v, fun hxv => ?_⟩
    unfold lastWith at hlast
    have hsome := List.find?_some hlast
    obtain ⟨w, hw⟩ := Option.isSome_iff_exists.mp hsome
    have hsame : w = v := Option.some.inj ((hinherited w hw).symm.trans hxv)
    exact hsame ▸ hw

/-! ### An older result -/

/-- The branches of `twoBranches`. -/
def leftAndRight : List (WorkflowBranchDefinition WorkflowStep) :=
  [⟨JsText.of "left", [servicesStep (JsText.of "s")]⟩, ⟨JsText.of "right", [servicesStep (JsText.of "t")]⟩]

/-- Their passes, where there are no services. -/
def twoPasses (x : WorkflowContext (Option Int)) : List (Pass JsText (Option Int)) :=
  [(JsText.of "left", [.leaf (.data (.array []))], x.withResult (JsText.of "s") (.array [])),
    (JsText.of "right", [.leaf (.data (.array []))], x.withResult (JsText.of "t") (.array []))]

theorem passesBranches_twoPasses (count : Nat → Nat) (x : WorkflowContext (Option Int)) :
    PassesBranches count leftAndRight x (twoPasses x) := by
  have hleaf : ∀ id, Passes count [servicesStep id] x [.leaf (.data (.array []))] (x.withResult id (.array [])) := by
    intro id
    exact ⟨_, [], _, rfl, (passesStep_leaf (isLeaf_servicesStep id) x _ _).mpr ⟨.data (.array []), rfl, rfl⟩, rfl, rfl⟩
  exact ⟨_, _, _, rfl, hleaf _, _, _, [], rfl, hleaf _, rfl⟩

theorem resultsKept_twoPasses : ∃ z, PassesStep id twoBranches answeredContext
      (.parallel ((twoPasses answeredContext).map fun pass => (pass.1, pass.2.1))) z ∧
    (ForWritten id leftAndRight answeredContext (twoPasses answeredContext)
        (fun _ s v => get z.results s = some v) ↔
      ForWritten id leftAndRight answeredContext (twoPasses answeredContext)
        (Survives answeredContext (twoPasses answeredContext))) :=
  resultsKept_iff id accepted_twoBranches .head (show IsObject answeredContext from List.nodup_nil)
    (passesBranches_twoPasses id answeredContext)

/-- **An older result replaces the one that a branch has written**, where the next branch has inherited it. -/
theorem result_overwritten : ¬ ∀ (count : Nat → Nat) (definition : List WorkflowStep) (sid : JsText)
    (branches : List (WorkflowBranchDefinition WorkflowStep)) (x z : WorkflowContext (Option Int))
    (passes : List (Pass JsText (Option Int))), Accepted definition →
      Within (.mk sid .parallel none (some branches) none) definition → IsObject x →
        PassesBranches count branches x passes → PassesStep count (.mk sid .parallel none (some branches) none) x
          (.parallel (passes.map fun pass => (pass.1, pass.2.1))) z →
            ForWritten count branches x passes fun _ s v => get z.results s = some v := by
  intro h
  let x := answeredContext.withResult (JsText.of "s") (.array [.null])
  let left := x.withResult (JsText.of "s") (.array [])
  let z : WorkflowContext (Option Int) := mergedContext ((outputsOf (twoPasses x)).map fun output => output.2.parsed)
  have hpasses := passesBranches_twoPasses id x
  have hkept := h id [twoBranches] _ leftAndRight x z (twoPasses x) accepted_twoBranches .head
    (List.nodup_singleton _) hpasses ⟨_, rfl, hpasses, rfl⟩
  have hleaf : PassesStep id (servicesStep (JsText.of "s")) x (.leaf (.data (.array []))) left :=
    (passesStep_leaf (isLeaf_servicesStep (JsText.of "s")) x left _).mpr ⟨.data (.array []), rfl, rfl⟩
  have hwrites : Writes id [servicesStep (JsText.of "s")] x [.leaf (.data (.array []))]
      [(JsText.of "s", .array [])] :=
    ⟨_, [], left, [(JsText.of "s", .array [])], [], rfl, hleaf, ⟨_, left, _, rfl, rfl, rfl, rfl⟩, ⟨rfl, rfl⟩, rfl⟩
  have hresult := hkept (_, _) (List.mem_cons_self) _ hwrites (servicesStep (JsText.of "s"))
    List.mem_cons_self _ rfl
  have hold : get z.results (JsText.of "s") = some (.array [.null]) := rfl
  cases hold.symm.trans hresult

end AgentService
