import BoringPanel.AgentService.Workflows.GeneratedIds

/-!
# What a rule can address

A path is cut at its dots, and so no rule reads a member whose key has a dot, as those of the items and the
indices of loops do. What is stored under such a key can be read if it is somewhere else too
(`addressed_iff`): where names without dots and positions of items lead (`Located`). What the steps have
stored can be read by their ids, so that all results can be read where the items and the indices can
(`addressable_iff`).
-/

namespace AgentService

variable {N : Type} [JsNumeric N]

open JsValue (get set Reading)

/-! ### Places in a value -/

/-- The segments lead from a value to one in it. -/
inductive Located : JsValue N → List JsText → JsValue N → Prop
  | here {v : JsValue N} : Located v [] v
  | member {members : List (JsText × JsValue N)} {key : JsText} {w v : JsValue N} {rest : List JsText} :
    get members key = some w → key ≠ [] → dot ∉ key → Located w rest v → Located (.object members) (key :: rest) v
  | item {items : List (JsValue N)} {segment : JsText} {index : Nat} {w v : JsValue N} {rest : List JsText} :
    JsNumeric.integer (JsNumeric.parse segment : N) = some (index : Int) → items[index]? = some w → segment ≠ [] →
      dot ∉ segment → Located w rest v → Located (.array items) (segment :: rest) v

def readSegments (current : Reading N) (segments : List JsText) : Reading N := segments.foldl readSegment current

theorem readSegments_cons (current : Reading N) (segment : JsText) (rest : List JsText) :
    readSegments current (segment :: rest) = readSegments (readSegment current segment) rest := rfl

theorem readSegment_object (members : List (JsText × JsValue N)) (segment : JsText) :
    readSegment (.value (.object members)) segment = (get members segment).elim (JsValue.inherited segment) .value := rfl

theorem readSegment_array (items : List (JsValue N)) (segment : JsText) :
    readSegment (.value (.array items)) segment =
      (JsNumeric.integer (JsNumeric.parse segment : N)).elim .undefined (Reading.item items) := rfl

theorem readSegment_prototype (segment : JsText) : readSegment (.prototype : Reading N) segment =
    if segment = JsValue.prototypeKey then .value .null else JsValue.inherited segment := rfl

/-- Nothing is read of what is no object. -/
theorem readSegments_eq_value {current : Reading N} (h : current.isObject = false) {segments : List JsText}
    {v : JsValue N} (hread : readSegments current segments = .value v) : segments = [] ∧ current = .value v := by
  have hundefined : ∀ segments : List JsText, readSegments (.undefined : Reading N) segments = .undefined := by
    intro segments
    induction segments with
    | nil => rfl
    | cons segment rest ih => exact ih
  cases segments with
  | nil => exact ⟨rfl, hread⟩
  | cons segment rest =>
    have hsegment : readSegment current segment = .undefined := by
      unfold readSegment
      split
      · cases h
      · cases h
      · cases h
      · rfl
    rw [readSegments_cons, hsegment, hundefined] at hread
    cases hread

/-- A method of all objects is no value, and nothing is read of it. -/
theorem readSegments_method {key : JsText} (hkey : key ≠ JsValue.prototypeKey) (segments : List JsText)
    (v : JsValue N) : readSegments (JsValue.inherited key : Reading N) segments ≠ .value v := by
  intro hread
  unfold JsValue.inherited at hread
  rw [if_neg hkey] at hread
  split at hread
  · cases (readSegments_eq_value rfl hread).2
  · cases (readSegments_eq_value rfl hread).2

/-- Of what all objects have only `null` is a value. -/
theorem readSegments_inherited {key : JsText} {segments : List JsText} {v : JsValue N}
    (hread : readSegments (JsValue.inherited key : Reading N) segments = .value v) : v = .null := by
  by_cases hkey : key = JsValue.prototypeKey
  · have hprototype : (JsValue.inherited key : Reading N) = .prototype := if_pos hkey
    rw [hprototype] at hread
    cases segments with
    | nil => cases hread
    | cons segment rest =>
      rw [readSegments_cons] at hread
      by_cases hsegment : segment = JsValue.prototypeKey
      · have hnull : readSegment (.prototype : Reading N) segment = .value .null := by
          rw [readSegment_prototype, if_pos hsegment]
        rw [hnull] at hread
        exact (Reading.value.inj (readSegments_eq_value rfl hread).2).symm
      · have hmethod : readSegment (.prototype : Reading N) segment = JsValue.inherited segment := by
          rw [readSegment_prototype, if_neg hsegment]
        rw [hmethod] at hread
        exact absurd hread (readSegments_method hsegment rest v)
  · exact absurd hread (readSegments_method hkey segments v)

/-- What is read lies where the segments lead, unless it is the `null` that all objects have. -/
theorem located_of_readSegments {w v : JsValue N} {segments : List JsText}
    (hsegments : ∀ segment ∈ segments, segment ≠ [] ∧ dot ∉ segment)
    (hread : readSegments (.value w) segments = .value v) : Located w segments v ∨ v = .null := by
  induction segments generalizing w with
  | nil =>
    obtain rfl := Reading.value.inj hread
    exact .inl .here
  | cons segment rest ih =>
    obtain ⟨⟨hne, hdot⟩, hrest⟩ := List.forall_mem_cons.mp hsegments
    rw [readSegments_cons] at hread
    cases w with
    | object members =>
      rw [readSegment_object] at hread
      cases hget : get members segment with
      | none =>
        rw [hget] at hread
        exact .inr (readSegments_inherited hread)
      | some u =>
        rw [hget] at hread
        exact (ih hrest hread).imp_left fun hu => .member hget hne hdot hu
    | array items =>
      rw [readSegment_array] at hread
      cases hindex : JsNumeric.integer (JsNumeric.parse segment : N) with
      | none =>
        rw [hindex] at hread
        cases (readSegments_eq_value rfl hread).2
      | some index =>
        rw [hindex, Option.elim_some] at hread
        unfold Reading.item at hread
        split at hread
        · rename_i hnonneg
          cases hitem : items[index.toNat]? with
          | none =>
            rw [hitem] at hread
            cases (readSegments_eq_value rfl hread).2
          | some u =>
            rw [hitem] at hread
            refine (ih hrest hread).imp_left fun hu => .item ?_ hitem hne hdot hu
            rw [hindex, Int.toNat_of_nonneg hnonneg]
        · cases (readSegments_eq_value rfl hread).2
    | _ =>
      cases (readSegments_eq_value rfl hread).2

theorem readSegments_of_located {w v : JsValue N} {segments : List JsText} (h : Located w segments v) :
    readSegments (.value w) segments = .value v := by
  induction h with
  | here => rfl
  | member hget _ _ _ ih =>
    rw [readSegments_cons, readSegment_object, hget]
    exact ih
  | item hindex hitem _ _ _ ih =>
    rw [readSegments_cons, readSegment_array, hindex, Option.elim_some]
    unfold Reading.item
    rw [if_pos (Int.natCast_nonneg _), Int.toNat_natCast, hitem]
    exact ih

theorem segments_of_located {w v : JsValue N} {segments : List JsText} (h : Located w segments v) :
    ∀ segment ∈ segments, segment ≠ [] ∧ dot ∉ segment := by
  induction h with
  | here => simp
  | member _ hne hdot _ ih => exact List.forall_mem_cons.mpr ⟨⟨hne, hdot⟩, ih⟩
  | item _ _ hne hdot _ ih => exact List.forall_mem_cons.mpr ⟨⟨hne, hdot⟩, ih⟩

/-- What lies in an object lies in one of its members. -/
theorem Located.of_object {members : List (JsText × JsValue N)} {segments : List JsText} {v : JsValue N}
    (h : Located (.object members) segments v) (hne : v ≠ .object members) :
    ∃ member ∈ members, dot ∉ member.1 ∧ ∃ rest, Located member.2 rest v := by
  cases h with
  | here => exact absurd rfl hne
  | @member _ key w _ rest hget _ hdot hrest =>
    obtain ⟨before, after, hsplit, -⟩ := List.lookup_eq_some_iff.mp hget
    refine ⟨(key, w), ?_, hdot, rest, hrest⟩
    rw [hsplit]
    exact List.mem_append_right _ List.mem_cons_self

theorem Located.of_array {items : List (JsValue N)} {segments : List JsText} {v : JsValue N}
    (h : Located (.array items) segments v) (hne : v ≠ .array items) : ∃ item ∈ items, ∃ rest, Located item rest v := by
  cases h with
  | here => exact absurd rfl hne
  | item _ hitem _ _ hrest => exact ⟨_, List.mem_of_getElem? hitem, _, hrest⟩

theorem Located.of_string {s : JsText} {segments : List JsText} {v : JsValue N}
    (h : Located (.string s) segments v) : v = .string s := by
  cases h with
  | here => rfl

/-! ### Paths of rules -/

/-- The segments as a path. -/
abbrev pathOf (segments : List JsText) : JsText := JsText.join [dot] segments

theorem readPath_eq (source : JsValue N) (path : JsText) :
    readPath source path = readSegments (.value source) ((path.splitOn dot).filter (· ≠ [])) := rfl

theorem segments_of_path (path : JsText) :
    ∀ segment ∈ (path.splitOn dot).filter (· ≠ []), segment ≠ [] ∧ dot ∉ segment := by
  intro segment hmem
  obtain ⟨hsplit, hne⟩ := List.mem_filter.mp hmem
  exact ⟨of_decide_eq_true hne, SpelledPaths.separator_notMem_splitOn hsplit⟩

theorem length_pathOf_le (path : JsText) : (pathOf ((path.splitOn dot).filter (· ≠ []))).length ≤ path.length := by
  have hjoin : JsText.join [dot] (path.splitOn dot) = path := by
    rw [JsText.join_eq_intercalate, List.intercalate_splitOn]
  calc (pathOf ((path.splitOn dot).filter (· ≠ []))).length
      ≤ (JsText.join [dot] (path.splitOn dot)).length := JsText.length_joinPresent_le _ _
    _ = path.length := by rw [hjoin]

theorem readPath_pathOf (source : JsValue N) {segments : List JsText} (hne : segments ≠ [])
    (h : ∀ segment ∈ segments, segment ≠ [] ∧ dot ∉ segment) :
    readPath source (pathOf segments) = readSegments (.value source) segments := by
  have hsplit : (pathOf segments).splitOn dot = segments := by
    unfold pathOf
    rw [JsText.join_eq_intercalate]
    exact List.splitOn_intercalate dot (fun segment hmem => (h segment hmem).2) hne
  have hfilter : segments.filter (· ≠ []) = segments :=
    List.filter_eq_self.mpr fun segment hmem => decide_eq_true (h segment hmem).1
  rw [readPath_eq, hsplit, hfilter]

/-- A rule that is accepted reads the value. -/
def Addressed (context : WorkflowContext N) (v : JsValue N) : Prop :=
  ∃ path, pathSchema path ∧ readPath context.value path = .value v

/-- Where a path that is accepted leads, without what all objects have. -/
def Placed (context : WorkflowContext N) (v : JsValue N) : Prop :=
  ∃ segments, Located context.value segments v ∧ (pathOf segments).length ≤ 300

theorem readPath_prototype (context : WorkflowContext N) :
    readPath context.value (JsText.of "__proto__.__proto__") = .value .null := by
  have hsegments : ((JsText.of "__proto__.__proto__").splitOn dot).filter (· ≠ []) =
      [JsValue.prototypeKey, JsValue.prototypeKey] := by decide
  have hget : get [(JsText.of "message", .string context.message), (JsText.of "results", .object context.results),
      (JsText.of "text", .string context.text)] JsValue.prototypeKey = none := by
    rw [JsValue.get_cons, if_neg (by decide), JsValue.get_cons, if_neg (by decide), JsValue.get_cons,
      if_neg (by decide)]
    rfl
  rw [readPath_eq, hsegments, readSegments_cons]
  have hfirst : readSegment (.value context.value) JsValue.prototypeKey = .prototype := by
    unfold WorkflowContext.value
    rw [readSegment_object, hget, Option.elim_none, JsValue.inherited, if_pos rfl]
  have hsecond : readSegment (.prototype : Reading N) JsValue.prototypeKey = .value .null := by
    rw [readSegment_prototype, if_pos rfl]
  rw [hfirst]
  exact hsecond

/-- **A value can be read** if it is `null`, or if names without dots and positions lead to it. -/
theorem addressed_iff (context : WorkflowContext N) (v : JsValue N) :
    Addressed context v ↔ v = .null ∨ Placed context v := by
  constructor
  · rintro ⟨path, hpath, hread⟩
    rcases located_of_readSegments (segments_of_path path) hread with hlocated | hnull
    · refine .inr ⟨_, hlocated, (length_pathOf_le path).trans ?_⟩
      exact (of_decide_eq_true hpath).2
    · exact .inl hnull
  · rintro (rfl | ⟨segments, hlocated, hlength⟩)
    · exact ⟨_, by decide, readPath_prototype context⟩
    · have hsegments := segments_of_located hlocated
      have hread := readSegments_of_located hlocated
      by_cases hne : segments = []
      · -- the context itself is what a path of dots reads
        subst hne
        exact ⟨[dot], by decide, hread⟩
      · refine ⟨pathOf segments, decide_eq_true ⟨?_, hlength⟩, (readPath_pathOf _ hne hsegments).trans hread⟩
        have hnonempty : pathOf segments ≠ [] := JsText.join_ne_nil (fun s hs => (hsegments s hs).1) hne
        exact List.length_pos_iff.mpr hnonempty

/-! ### Rules that are evaluated -/

section Evaluated

variable (count : Nat → Nat)

mutual

/-- A rule is evaluated in a context: that of a condition, or that of a loop after a round. -/
def EvaluatesStep : WorkflowStep → WorkflowContext N → WorkflowContext N → Prop
  | .mk _ .condition (some ⟨rule, whenTrue, whenFalse⟩) _ _, x, y => y = x ∨
    compareRule x.value rule = some true ∧ Evaluates whenTrue x y ∨
      compareRule x.value rule = some false ∧ Evaluates whenFalse x y
  | .mk _ .parallel _ (some branches) _, x, y => EvaluatesBranches branches x y
  | .mk sid .loop _ _ (some ⟨mode, rule, maxIterations, sourcePath, _, steps⟩), x, y =>
    match mode with
    | .foreach => ∃ items, prepareForeach sid sourcePath maxIterations x = some items ∧
      ∃ item ∈ items, Evaluates steps item y
    | mode => ∃ x', Begun (Passes count steps) (fun n => goesOn mode rule maxIterations (count n)) 1 x x' ∧
      (Evaluates steps x' y ∨ ∃ trace, Passes count steps x' trace y)
  | _, _, _ => False

def Evaluates : List WorkflowStep → WorkflowContext N → WorkflowContext N → Prop
  | [], _, _ => False
  | step :: rest, x, y => EvaluatesStep step x y ∨
    ∃ first x', PassesStep count step x first x' ∧ Evaluates rest x' y

def EvaluatesBranches : List (WorkflowBranchDefinition WorkflowStep) → WorkflowContext N → WorkflowContext N → Prop
  | [], _, _ => False
  | ⟨_, steps⟩ :: rest, x, y => Evaluates steps x y ∨ EvaluatesBranches rest x y

end

end Evaluated

/-! ### Keys of results -/

/-- The id of a step, or the key of an item or an index of the loop that has the id. -/
def IsResultKey (key : JsText) : Prop :=
  workflowIdSchema key ∨ ∃ id, workflowIdSchema id ∧ (key = id ++ JsText.of ".item" ∨ key = id ++ JsText.of ".index")

/-- All results have such keys. -/
def Keyed (context : WorkflowContext N) : Prop := ∀ key ∈ context.results.map Prod.fst, IsResultKey key

/-- The ids of the compiled steps are accepted. -/
structure ValidIds (steps : List WorkflowStep) : Prop where
  leaves : ∀ leaf ∈ WorkflowStep.leaves steps, workflowIdSchema leaf.id
  controls : ∀ control ∈ WorkflowStep.controls steps, workflowIdSchema control.1

omit [JsNumeric N] in
theorem Keyed.withResult {x : WorkflowContext N} (h : Keyed x) {key : JsText} (hkey : IsResultKey key)
    (data : JsValue N) : Keyed (x.withResult key data) := by
  intro k hk
  rcases JsValue.mem_keys_set hk with rfl | hk
  · exact hkey
  · exact h k hk

omit [JsNumeric N] in
theorem Keyed.parsed {x : WorkflowContext N} (h : Keyed x) : Keyed x.parsed := by
  intro k hk
  obtain ⟨member, hmember, rfl⟩ := List.mem_map.mp hk
  exact h _ (List.mem_map_of_mem (List.mem_filter.mp hmember).1)

omit [JsNumeric N] in
theorem keyed_mergedContext {contexts : List (WorkflowContext N)} (h : ∀ context ∈ contexts, Keyed context) :
    Keyed (mergedContext contexts) := by
  have hfold : ∀ results : List (JsText × JsValue N), (∀ key ∈ results.map Prod.fst, IsResultKey key) →
      ∀ key ∈ (contexts.foldl (fun results context => JsValue.assign results context.results) results).map Prod.fst,
        IsResultKey key := by
    induction contexts with
    | nil => exact fun _ hresults => hresults
    | cons context rest ih =>
      obtain ⟨hcontext, hrest⟩ := List.forall_mem_cons.mp h
      intro results hresults
      refine ih hrest _ fun key hkey => ?_
      rcases JsValue.mem_keys_assign hkey with hkey | hkey
      · exact hcontext key hkey
      · exact hresults key hkey
  exact hfold [] (by simp)

omit [JsNumeric N] in
theorem Keyed.executeLeaf {step : WorkflowStep} {answer : LeafAnswer N} {x z : WorkflowContext N} (hx : Keyed x)
    (hid : workflowIdSchema step.id) (h : executeLeaf step answer x = some z) : Keyed z := by
  obtain ⟨text, data, rfl, -⟩ := executeLeaf_cases h
  exact Keyed.withResult (x := { x with text := text }) hx (.inl hid) data

theorem Keyed.prepareForeach {id : JsText} {sourcePath : Option JsText} {maxIterations : Nat}
    {x : WorkflowContext N} {items : List (WorkflowContext N)} (hx : Keyed x) (hid : workflowIdSchema id)
    (h : prepareForeach id sourcePath maxIterations x = some items) : ∀ item ∈ items, Keyed item := by
  unfold AgentService.prepareForeach at h
  split at h
  · intro item hitem
    rw [← Option.some.inj h] at hitem
    obtain ⟨index, _, rfl⟩ := List.mem_mapIdx.mp hitem
    exact (hx.withResult (.inr ⟨id, hid, .inl rfl⟩) _).withResult (.inr ⟨id, hid, .inr rfl⟩) _
  · cases h

namespace ValidIds

theorem rest {step : WorkflowStep} {rest : List WorkflowStep} (h : ValidIds (step :: rest)) : ValidIds rest where
  leaves leaf hleaf := h.leaves leaf (List.mem_append_right _ hleaf)
  controls control hcontrol := h.controls control (List.mem_append_right _ hcontrol)

theorem whenTrue {id : JsText} {rule : WorkflowConditionRule} {whenTrue whenFalse rest : List WorkflowStep}
    {parallel : Option _} {loop : Option _}
    (h : ValidIds (.mk id .condition (some ⟨rule, whenTrue, whenFalse⟩) parallel loop :: rest)) : ValidIds whenTrue where
  leaves leaf hleaf := h.leaves leaf (List.mem_append_left _ (List.mem_append_left _ hleaf))
  controls control hcontrol := h.controls control
    (List.mem_append_left _ (List.mem_append_left _ (List.mem_append_right _ hcontrol)))

theorem whenFalse {id : JsText} {rule : WorkflowConditionRule} {whenTrue whenFalse rest : List WorkflowStep}
    {parallel : Option _} {loop : Option _}
    (h : ValidIds (.mk id .condition (some ⟨rule, whenTrue, whenFalse⟩) parallel loop :: rest)) : ValidIds whenFalse where
  leaves leaf hleaf := h.leaves leaf (List.mem_append_left _ (List.mem_append_right _ hleaf))
  controls control hcontrol := h.controls control
    (List.mem_append_left _ (List.mem_append_right _ hcontrol))

theorem branch {id : JsText} {condition : Option _} {branches : List (WorkflowBranchDefinition WorkflowStep)}
    {loop : Option _} {rest : List WorkflowStep} (h : ValidIds (.mk id .parallel condition (some branches) loop :: rest))
    {branch : WorkflowBranchDefinition WorkflowStep} (hbranch : branch ∈ branches) : ValidIds branch.steps where
  leaves leaf hleaf := by
    refine h.leaves leaf (List.mem_append_left _ ?_)
    rw [WorkflowStep.leavesOfStep, WorkflowStep.leavesOfBranches_eq]
    exact List.mem_flatMap.mpr ⟨branch, hbranch, hleaf⟩
  controls control hcontrol := by
    refine h.controls control (List.mem_append_left _ (List.mem_append_right _ ?_))
    rw [WorkflowStep.controlsOfBranches_eq]
    exact List.mem_flatMap.mpr ⟨branch, hbranch, hcontrol⟩

theorem body {id : JsText} {condition parallel : Option _} {d : LoopDefinition WorkflowStep} {rest : List WorkflowStep}
    (h : ValidIds (.mk id .loop condition parallel (some d) :: rest)) : ValidIds d.steps where
  leaves leaf hleaf := h.leaves leaf (List.mem_append_left _ hleaf)
  controls control hcontrol := h.controls control (List.mem_append_left _ (List.mem_append_right _ hcontrol))

end ValidIds

theorem ValidIds.first {step : WorkflowStep} {rest : List WorkflowStep} (h : ValidIds (step :: rest)) :
    ValidIds [step] where
  leaves leaf hleaf := by
    rw [WorkflowStep.leaves, WorkflowStep.leaves, List.append_nil] at hleaf
    exact h.leaves leaf (List.mem_append_left _ hleaf)
  controls control hcontrol := by
    rw [WorkflowStep.controls, WorkflowStep.controls, List.append_nil] at hcontrol
    exact h.controls control (List.mem_append_left _ hcontrol)

theorem ValidIds.loop_id {id : JsText} {condition parallel : Option _} {d : LoopDefinition WorkflowStep}
    {rest : List WorkflowStep} (h : ValidIds (.mk id .loop condition parallel (some d) :: rest)) :
    workflowIdSchema id :=
  h.controls (id, _) (List.mem_append_left _ (List.mem_append_left _ List.mem_cons_self))

section Invariant

variable {count : Nat → Nat}

theorem invariant_of_passesBranches {I : WorkflowContext N → Prop}
    {branches : List (WorkflowBranchDefinition WorkflowStep)} {x : WorkflowContext N}
    (h : ∀ branch ∈ branches, ∀ trace z, Passes count branch.steps x trace z → I z)
    {passes : List (Pass JsText N)} (hpasses : PassesBranches count branches x passes) :
    ∀ pass ∈ passes, I pass.2.2 := by
  induction branches generalizing passes with
  | nil =>
    obtain rfl : passes = [] := hpasses
    simp
  | cons branch rest ih =>
    obtain ⟨hbranch, hrest⟩ := List.forall_mem_cons.mp h
    obtain ⟨bid, steps⟩ := branch
    obtain ⟨trace, z, others, rfl, htrace, hothers⟩ := hpasses
    exact List.forall_mem_cons.mpr ⟨hbranch trace z htrace, ih hrest hothers⟩

/-- **What leaves, items, copies and merged contexts keep**, a pass keeps. -/
theorem invariant_of_passes {I : WorkflowContext N → Prop} {P : WorkflowStep → Prop} {Q : JsText → Prop}
    (hparsed : ∀ c, I c → I c.parsed) (hmerged : ∀ cs, (∀ c ∈ cs, I c) → I (mergedContext cs))
    (hleaf : ∀ {step answer x z}, P step → executeLeaf step answer x = some z → I x → I z)
    (hitem : ∀ {id sourcePath maxIterations x items}, Q id →
      prepareForeach id sourcePath maxIterations x = some items → I x → ∀ item ∈ items, I item)
    {steps : List WorkflowStep} (hP : ∀ leaf ∈ WorkflowStep.leaves steps, P leaf)
    (hQ : ∀ control ∈ WorkflowStep.controls steps, Q control.1) {x z : WorkflowContext N}
    {trace : List (Trace N)} (h : Passes count steps x trace z) (hx : I x) : I z := by
  induction steps using WorkflowStep.induction generalizing x z trace with
  | nil =>
    obtain ⟨-, rfl⟩ := h
    exact hx
  | condition id rule whenTrue whenFalse parallel loop rest hT hF hrest =>
    rw [WorkflowStep.leaves, WorkflowStep.leavesOfStep, List.forall_mem_append, List.forall_mem_append] at hP
    rw [WorkflowStep.controls, WorkflowStep.controlsOfStep, List.forall_mem_append, List.forall_mem_append,
      List.forall_mem_append] at hQ
    obtain ⟨_, others, y, rfl, ⟨inner, y', rfl, rfl, htaken⟩, hothers⟩ := h
    refine hrest hP.2 hQ.2 hothers ?_
    rcases htaken with ⟨-, htrace⟩ | ⟨-, htrace⟩
    · exact hparsed _ (hT hP.1.1 hQ.1.1.2 htrace hx)
    · exact hparsed _ (hF hP.1.2 hQ.1.2 htrace hx)
  | parallel id condition branches loop rest hbranches hrest =>
    rw [WorkflowStep.leaves, WorkflowStep.leavesOfStep, WorkflowStep.leavesOfBranches_eq,
      List.forall_mem_append] at hP
    rw [WorkflowStep.controls, WorkflowStep.controlsOfStep, WorkflowStep.controlsOfBranches_eq,
      List.forall_mem_append, List.forall_mem_append] at hQ
    obtain ⟨_, others, y, rfl, ⟨passes, rfl, hpasses, rfl⟩, hothers⟩ := h
    have hall := invariant_of_passesBranches (fun branch hbranch trace z htrace => hbranches branch hbranch
      (fun leaf hleaf => hP.1 leaf (List.mem_flatMap.mpr ⟨branch, hbranch, hleaf⟩))
      (fun control hcontrol => hQ.1.2 control (List.mem_flatMap.mpr ⟨branch, hbranch, hcontrol⟩)) htrace hx)
      hpasses
    refine hrest hP.2 hQ.2 hothers (hmerged _ fun context hcontext => ?_)
    obtain ⟨output, houtput, rfl⟩ := List.mem_map.mp hcontext
    obtain ⟨pass, hpass, rfl⟩ := List.mem_map.mp (JsValue.mem_keyed houtput)
    exact hparsed _ (hall pass hpass)
  | loop id condition parallel loop rest hbody hrest =>
    obtain ⟨mode, rule, maxIterations, sourcePath, concurrency, steps⟩ := loop
    rw [WorkflowStep.leaves, WorkflowStep.leavesOfStep, List.forall_mem_append] at hP
    rw [WorkflowStep.controls, WorkflowStep.controlsOfStep, List.forall_mem_append,
      List.forall_mem_append] at hQ
    have hsteps : ∀ {x z : WorkflowContext N} {trace : List (Trace N)}, Passes count steps x trace z → I x → I z :=
      fun htrace hx => hbody hP.1 hQ.1.2 htrace hx
    obtain ⟨first, others, y, rfl, hfirst, hothers⟩ := h
    refine hrest hP.2 hQ.2 hothers ?_
    cases mode with
    | foreach =>
      obtain ⟨passes, hprepared, rfl, hpasses, rfl⟩ := hfirst
      refine hmerged _ fun context hcontext => ?_
      obtain ⟨pass, hpass, rfl⟩ := List.mem_map.mp hcontext
      exact hparsed _ (hsteps (hpasses pass hpass)
        (hitem (hQ.1.1 _ (List.mem_singleton_self _)) hprepared hx _ (List.mem_map_of_mem hpass)))
    | «while» =>
      obtain ⟨rounds, y', rfl, rfl, hrounds⟩ := hfirst
      exact hparsed _ (hrounds.invariant (fun _ _ _ h hx => hsteps h hx) hx)
    | «until» =>
      obtain ⟨rounds, y', rfl, rfl, hrounds⟩ := hfirst
      exact hparsed _ (hrounds.invariant (fun _ _ _ h hx => hsteps h hx) hx)
  | leaf step rest hleafStep hrest =>
    rw [WorkflowStep.leaves, WorkflowStep.leavesOfStep_leaf hleafStep, List.forall_mem_append] at hP
    rw [WorkflowStep.controls, List.forall_mem_append] at hQ
    obtain ⟨_, others, y, rfl, hfirst, hothers⟩ := h
    obtain ⟨answer, rfl, hexecute⟩ := (passesStep_leaf hleafStep _ _ _).mp hfirst
    exact hrest hP.2 hQ.2 hothers (hleaf (hP.1 step (List.mem_singleton_self step)) hexecute hx)

/-- **Steps store results under their ids**, and items and indices under those of their loops. -/
theorem keyed_of_passes {steps : List WorkflowStep} (hids : ValidIds steps) {x z : WorkflowContext N}
    {trace : List (Trace N)} (h : Passes count steps x trace z) (hx : Keyed x) : Keyed z :=
  invariant_of_passes (fun _ hc => hc.parsed) (fun _ hcs => keyed_mergedContext hcs)
    (fun hid hexecute hx => hx.executeLeaf hid hexecute) (fun hid hprepared hx => hx.prepareForeach hid hprepared)
    hids.leaves hids.controls h hx

theorem not_evaluatesStep_leaf {step : WorkflowStep} (h : step.IsLeaf) (x y : WorkflowContext N) :
    ¬ EvaluatesStep count step x y := by
  rw [EvaluatesStep]
  · exact not_false
  · rintro _ _ _ _ _ _ rfl
    exact h.1 ⟨rfl, rfl⟩
  · rintro _ _ _ _ rfl
    exact h.2.1 ⟨rfl, rfl⟩
  · rintro _ _ _ _ _ _ _ _ _ rfl
    exact h.2.2 ⟨rfl, rfl⟩

theorem exists_of_evaluatesBranches {branches : List (WorkflowBranchDefinition WorkflowStep)}
    {x y : WorkflowContext N} (h : EvaluatesBranches count branches x y) :
    ∃ branch ∈ branches, Evaluates count branch.steps x y := by
  induction branches with
  | nil => exact absurd h not_false
  | cons branch rest ih =>
    obtain ⟨bid, steps⟩ := branch
    rcases h with h | h
    · exact ⟨_, List.mem_cons_self, h⟩
    · obtain ⟨other, hother, hevaluates⟩ := ih h
      exact ⟨other, List.mem_cons_of_mem _ hother, hevaluates⟩

theorem keyed_of_passesStep {step : WorkflowStep} {rest : List WorkflowStep} (hids : ValidIds (step :: rest))
    {x y : WorkflowContext N} {trace : Trace N} (h : PassesStep count step x trace y) (hx : Keyed x) : Keyed y :=
  keyed_of_passes hids.first ⟨trace, [], y, rfl, h, rfl, rfl⟩ hx

theorem keyed_of_evaluates_rounds {mode : LoopMode} {rule : WorkflowConditionRule} {maxIterations : Nat}
    {steps : List WorkflowStep} (hids : ValidIds steps)
    (hbody : ∀ x y : WorkflowContext N, Evaluates count steps x y → Keyed x → Keyed y) {x x' y : WorkflowContext N}
    (hbegun : Begun (Passes count steps) (fun n => goesOn mode rule maxIterations (count n)) 1 x x')
    (h : Evaluates count steps x' y ∨ ∃ trace, Passes count steps x' trace y) (hx : Keyed x) : Keyed y := by
  have hx' : Keyed x' := hbegun.invariant (fun _ _ _ hpasses hx => keyed_of_passes hids hpasses hx) hx
  rcases h with h | ⟨trace, htrace⟩
  · exact hbody x' y h hx'
  · exact keyed_of_passes hids htrace hx'

/-- The contexts in which rules are evaluated have such results. -/
theorem keyed_of_evaluates {steps : List WorkflowStep} (hids : ValidIds steps) {x y : WorkflowContext N}
    (h : Evaluates count steps x y) (hx : Keyed x) : Keyed y := by
  induction steps using WorkflowStep.induction generalizing x y with
  | nil => exact absurd h not_false
  | condition id rule whenTrue whenFalse parallel loop rest hT hF hrest =>
    rcases h with (rfl | ⟨-, h⟩ | ⟨-, h⟩) | ⟨first, x', hfirst, h⟩
    · exact hx
    · exact hT hids.whenTrue h hx
    · exact hF hids.whenFalse h hx
    · exact hrest hids.rest h (keyed_of_passesStep hids hfirst hx)
  | parallel id condition branches loop rest hbranches hrest =>
    rcases h with h | ⟨first, x', hfirst, h⟩
    · obtain ⟨branch, hbranch, h⟩ := exists_of_evaluatesBranches h
      exact hbranches branch hbranch (hids.branch hbranch) h hx
    · exact hrest hids.rest h (keyed_of_passesStep hids hfirst hx)
  | loop id condition parallel loop rest hbody hrest =>
    have hsteps : ∀ x y : WorkflowContext N, Evaluates count loop.steps x y → Keyed x → Keyed y :=
      fun _ _ h hx => hbody hids.body h hx
    rcases h with h | ⟨first, x', hfirst, h⟩
    · have hid := hids.loop_id
      have hloop := hids.body
      obtain ⟨mode, rule, maxIterations, sourcePath, concurrency, steps⟩ := loop
      cases mode with
      | foreach =>
        obtain ⟨items, hprepared, item, hitem, h⟩ := h
        exact hsteps item y h (hx.prepareForeach hid hprepared item hitem)
      | «while» =>
        obtain ⟨x', hbegun, h⟩ := h
        exact keyed_of_evaluates_rounds hloop hsteps hbegun h hx
      | «until» =>
        obtain ⟨x', hbegun, h⟩ := h
        exact keyed_of_evaluates_rounds hloop hsteps hbegun h hx
    · exact hrest hids.rest h (keyed_of_passesStep hids hfirst hx)
  | leaf step rest hleaf hrest =>
    rcases h with h | ⟨first, x', hfirst, h⟩
    · exact absurd h (not_evaluatesStep_leaf hleaf x y)
    · exact hrest hids.rest h (keyed_of_passesStep hids hfirst hx)

end Invariant

/-! ### All that is stored -/

omit [JsNumeric N] in
/-- The ids of compiled steps are those of visited ones. -/
theorem Accepted.validIds {definition : List WorkflowStep} (h : Accepted definition) : ValidIds definition := by
  have hvisited : ∀ id ∈ (WorkflowStep.visited definition).map WorkflowStep.id, workflowIdSchema id := by
    intro id hid
    obtain ⟨⟨sid, type, condition, parallel, loop⟩, hmem, rfl⟩ := List.mem_map.mp hid
    exact (of_decide_eq_true (h.steps _ hmem)).1
  have hle := fun id => count_leaves_controls_le id definition
  constructor
  · intro leaf hleaf
    refine hvisited _ (List.count_pos_iff.mp ?_)
    have hpos := List.count_pos_iff.mpr (List.mem_map_of_mem (f := WorkflowStep.id) hleaf)
    have := hle leaf.id
    omega
  · intro control hcontrol
    refine hvisited _ (List.count_pos_iff.mp ?_)
    have hpos := List.count_pos_iff.mpr (List.mem_map_of_mem (f := Prod.fst) hcontrol)
    have := hle control.1
    omega

theorem dot_notMem_of_workflowIdSchema {id : JsText} (h : workflowIdSchema id) : dot ∉ id := by
  intro hmem
  have hunit := List.all_eq_true.mp (of_decide_eq_true h).2.2 dot hmem
  revert hunit
  decide

/-- What a step has stored can be read by its id. -/
theorem placed_of_id {context : WorkflowContext N} {id : JsText} {v : JsValue N} (hid : workflowIdSchema id)
    (hget : get context.results id = some v) : Placed context v := by
  obtain ⟨hpos, hlength, -⟩ := of_decide_eq_true hid
  have hne : id ≠ [] := List.length_pos_iff.mp hpos
  have hresults : get [(JsText.of "message", .string context.message), (JsText.of "results",
      .object context.results), (JsText.of "text", .string context.text)] (JsText.of "results") =
      some (.object context.results) := by
    rw [JsValue.get_cons, if_neg (by decide), JsValue.get_cons, if_pos rfl]
  refine ⟨[JsText.of "results", id], .member hresults (by decide) (by decide)
    (.member hget hne (dot_notMem_of_workflowIdSchema hid) .here), ?_⟩
  have hresultsLength : (JsText.of "results").length = 7 := by decide
  change (JsText.of "results" ++ [dot] ++ id).length ≤ 300
  rw [List.length_append, List.length_append, hresultsLength]
  simp only [List.length_singleton]
  omega

/-- **All results can be read where a rule is evaluated** if and only if each item and each index, which
are stored under keys with a dot, is `null` or lies where names without dots and positions lead to. -/
theorem addressable_iff (count : Nat → Nat) {definition : List WorkflowStep} (h : Accepted definition)
    {message text : JsText} {y : WorkflowContext N} (hevaluates : Evaluates count definition ⟨message, [], text⟩ y) :
    (∀ key v, get y.results key = some v → Addressed y v) ↔
      ∀ key v, get y.results key = some v → dot ∈ key → v = .null ∨ Placed y v := by
  constructor
  · intro hall key v hget _
    exact (addressed_iff y v).mp (hall key v hget)
  · intro hall key v hget
    refine (addressed_iff y v).mpr ?_
    by_cases hdot : dot ∈ key
    · exact hall key v hget hdot
    · have hkeyed : Keyed y := keyed_of_evaluates h.validIds hevaluates (by intro key hkey; cases hkey)
      obtain ⟨before, after, hsplit, -⟩ := List.lookup_eq_some_iff.mp hget
      have hmem : key ∈ y.results.map Prod.fst := by
        rw [hsplit, List.map_append]
        exact List.mem_append_right _ List.mem_cons_self
      rcases hkeyed key hmem with hid | ⟨id, -, rfl | rfl⟩
      · exact .inr (placed_of_id hid hget)
      · exact absurd (List.mem_append_right _ (by decide)) hdot
      · exact absurd (List.mem_append_right _ (by decide)) hdot

/-! ### An index that no rule reads -/

/-- A loop over what the first step has stored, with a rule in its body. -/
def loopWithRule : List WorkflowStep :=
  [servicesStep (JsText.of "s"), .mk (JsText.of "f") .loop none none (some
    { mode := .foreach, rule := ⟨JsText.of "text", .exists, none⟩, maxIterations := 1
      sourcePath := some (JsText.of "results.s"), concurrency := none
      steps := [.mk (JsText.of "c") .condition (some ⟨⟨JsText.of "text", .exists, none⟩,
        [servicesStep (JsText.of "t")], [servicesStep (JsText.of "u")]⟩) none none] })]

theorem accepted_loopWithRule : Accepted loopWithRule where
  sequence := by decide
  steps := by decide
  count := by decide
  depth := by decide
  ids := by decide

def startContext : WorkflowContext (Option Int) := ⟨JsText.of "why", [], []⟩

/-- The context in the body, where there is one service. -/
def bodyContext : WorkflowContext (Option Int) :=
  ⟨JsText.of "why", [(JsText.of "s", .array [.string (JsText.of "a")]), (JsText.of "f.item", .string (JsText.of "a")),
    (JsText.of "f.index", .number (some 0))], []⟩

theorem evaluates_loopWithRule (count : Nat → Nat) : Evaluates count loopWithRule startContext bodyContext := by
  let stored := startContext.withResult (JsText.of "s") (.array [.string (JsText.of "a")])
  have hleaf : PassesStep count (servicesStep (JsText.of "s")) startContext
      (.leaf (.data (.array [.string (JsText.of "a")]))) stored :=
    (passesStep_leaf (isLeaf_servicesStep _) _ _ _).mpr ⟨.data (.array [.string (JsText.of "a")]), rfl, rfl⟩
  refine .inr ⟨_, stored, hleaf, .inl ⟨[bodyContext], ?_, bodyContext, List.mem_cons_self, .inl (.inl rfl)⟩⟩
  rfl

theorem not_placed_index : ¬ Placed bodyContext (.number (some 0)) := by
  rintro ⟨segments, h, -⟩
  obtain ⟨member, hmember, -, rest, h⟩ := h.of_object (by rintro ⟨⟩)
  simp only [List.mem_cons, List.not_mem_nil, or_false] at hmember
  rcases hmember with rfl | rfl | rfl
  · cases h.of_string
  · obtain ⟨result, hresult, hdot, rest, h⟩ := h.of_object (by rintro ⟨⟩)
    simp only [bodyContext, List.mem_cons, List.not_mem_nil, or_false] at hresult
    rcases hresult with rfl | rfl | rfl
    · obtain ⟨item, hitem, rest, h⟩ := h.of_array (by rintro ⟨⟩)
      obtain rfl := List.mem_singleton.mp hitem
      cases h.of_string
    · exact absurd (by decide) hdot
    · exact absurd (by decide) hdot
  · cases h.of_string

theorem addressable_loopWithRule :
    (∀ key v, get bodyContext.results key = some v → Addressed bodyContext v) ↔
      ∀ key v, get bodyContext.results key = some v → dot ∈ key → v = .null ∨ Placed bodyContext v :=
  addressable_iff id accepted_loopWithRule (evaluates_loopWithRule id)

/-- **The index is stored where no rule reads it.** -/
theorem index_unaddressed : ¬ ∀ (count : Nat → Nat) (definition : List WorkflowStep) (message text : JsText)
    (y : WorkflowContext (Option Int)), Accepted definition → Evaluates count definition ⟨message, [], text⟩ y →
      ∀ key v, get y.results key = some v → Addressed y v := by
  intro h
  have haddressed := h id loopWithRule _ _ bodyContext accepted_loopWithRule (evaluates_loopWithRule id)
    (JsText.of "f.index") (.number (some 0)) rfl
  rcases (addressed_iff _ _).mp haddressed with hnull | hplaced
  · cases hnull
  · exact not_placed_index hplaced

end AgentService
