import BoringPanel.QueryService.LogParsingPipeline.PostablePipeline
import BoringPanel.QueryService.LogParsingPipeline.ProcessorNames
import BoringPanel.QueryService.Resource.Escapes

/-!
# The paths of logs

A log goes through the operators of a processor from the router on (`Path`): the router passes it to the
output of the first route whose condition holds, or to its default, and an operator passes it to the one with
the id of its output, or to the next one of the list where it has no output.

In a processor whose ids are distinct a log that matches the filter goes through all operators
(`path_of_matched`), and one that does not goes to the last one (`path_of_not_matched`). The router and the
last operator have ids of their own, which are not kept from the user's operators (`linked_iff`).
-/

namespace QueryService.LogParsingPipeline

/-! ### Walking -/

section Walking

variable (operators : List PipelineOperator) (holds : String → Bool)

/-- The position of the operator with an id. -/
def position (id : String) : Option Nat := operators.findIdx? fun o => o.id = id

/-- The position that an operator, itself at a position, passes a log to; `none` at the end. -/
def passesTo (i : Nat) (o : PipelineOperator) : Option Nat :=
  if o.type = "router" then
    match (o.routes.getD []).find? fun route => holds route.expr with
    | some route => position operators route.output
    | none => position operators o.default
  else if o.output = "" then
    if i + 1 < operators.length then some (i + 1) else none
  else position operators o.output

/-- The operators that a log goes through from a position on. -/
inductive Path : Nat → List PipelineOperator → Prop
  | last {i : Nat} {o : PipelineOperator} (ho : operators[i]? = some o)
      (hend : passesTo operators holds i o = none) : Path i [o]
  | step {i j : Nat} {o : PipelineOperator} {visited : List PipelineOperator}
      (ho : operators[i]? = some o) (hnext : passesTo operators holds i o = some j)
      (hrest : Path j visited) : Path i (o :: visited)

end Walking

section Paths

variable {operators : List PipelineOperator} {holds : String → Bool}

theorem passesTo_route {i : Nat} {o : PipelineOperator} (htype : o.type = "router") {route : Route}
    (hroute : (o.routes.getD []).find? (fun route => holds route.expr) = some route) :
    passesTo operators holds i o = position operators route.output := by
  rw [passesTo, if_pos htype, hroute]

theorem passesTo_default {i : Nat} {o : PipelineOperator} (htype : o.type = "router")
    (hroute : (o.routes.getD []).find? (fun route => holds route.expr) = none) :
    passesTo operators holds i o = position operators o.default := by
  rw [passesTo, if_pos htype, hroute]

theorem passesTo_next {i : Nat} {o : PipelineOperator} (htype : o.type ≠ "router") (houtput : o.output = "") :
    passesTo operators holds i o = if i + 1 < operators.length then some (i + 1) else none := by
  rw [passesTo, if_neg htype, if_pos houtput]

theorem passesTo_output {i : Nat} {o : PipelineOperator} (htype : o.type ≠ "router")
    (houtput : o.output ≠ "") : passesTo operators holds i o = position operators o.output := by
  rw [passesTo, if_neg htype, if_neg houtput]

theorem position_eq (hids : (operators.map fun o => o.id).Nodup) {i : Nat} {o : PipelineOperator}
    (h : operators[i]? = some o) : position operators o.id = some i := by
  obtain ⟨hi, rfl⟩ := List.getElem?_eq_some_iff.mp h
  refine List.findIdx?_eq_some_iff_getElem.mpr ⟨hi, by simp, fun j hj => ?_⟩
  rw [decide_eq_true_iff]
  intro heq
  have hj' : j < (operators.map fun o => o.id).length := by
    rw [List.length_map]
    exact hj.trans hi
  have hi' : i < (operators.map fun o => o.id).length := by rwa [List.length_map]
  have hget : (operators.map fun o => o.id)[j] = (operators.map fun o => o.id)[i] := by
    rw [List.getElem_map, List.getElem_map, heq]
  exact absurd (hids.getElem_inj_iff.mp hget) hj.ne

/-- The rest of the operators, where each passes to the next one. -/
theorem path_drop (hnext : ∀ i o, operators[i + 1]? = some o → passesTo operators holds (i + 1) o =
      if i + 2 < operators.length then some (i + 2) else none) {n : Nat} :
    ∀ {i : Nat}, i + 1 < operators.length → operators.length - i = n →
      Path operators holds (i + 1) (operators.drop (i + 1)) := by
  induction n with
  | zero => exact fun hi hn => by omega
  | succ n ih =>
    intro i hi hn
    rw [List.drop_eq_getElem_cons hi]
    have ho := List.getElem?_eq_getElem hi
    have hpass := hnext i _ ho
    by_cases hlast : i + 2 < operators.length
    · rw [if_pos hlast] at hpass
      exact .step ho hpass (ih hlast (by omega))
    · rw [if_neg hlast] at hpass
      rw [List.drop_eq_nil_of_le (by omega)]
      exact .last ho hpass

end Paths

/-! ### Links -/

/-- An operator without its output. -/
def PipelineOperator.content (o : PipelineOperator) : PipelineOperator := { o with output := "" }

/-- Each operator has the next one as its output, and the last has none. -/
def Linked (l : List PipelineOperator) : Prop :=
  ∀ i o, l[i]? = some o → o.output = (l[i + 1]?.map fun o => o.id).getD ""

theorem head?_linkOperators (l : List PipelineOperator) :
    (linkOperators l).head?.map (fun o => o.id) = l.head?.map fun o => o.id := by
  fun_induction linkOperators l with
  | case1 => rfl
  | case2 => rfl
  | case3 o o' rest ih => rfl

theorem linked_linkOperators {l : List PipelineOperator} (h : ∀ o, l.getLast? = some o → o.output = "") :
    Linked (linkOperators l) := by
  fun_induction linkOperators l with
  | case1 => exact fun i o ho => by cases ho
  | case2 o =>
    intro i o' ho'
    cases i with
    | zero => exact Option.some.inj ho' ▸ h o rfl
    | succ i => cases ho'
  | case3 o o' rest ih =>
    intro i o₁ ho₁
    cases i with
    | zero =>
      obtain rfl := Option.some.inj ho₁
      rw [List.getElem?_cons_succ, ← List.head?_eq_getElem?, head?_linkOperators]
      rfl
    | succ i => exact ih (fun o₂ ho₂ => h o₂ (List.getLast?_cons_cons.trans ho₂)) i o₁ ho₁

theorem map_content_setLastOutput (l : List PipelineOperator) (output : String) :
    (setLastOutput l output).map PipelineOperator.content = l.map PipelineOperator.content := by
  cases l using List.reverseRecOn with
  | nil => rfl
  | append_singleton l o => rw [setLastOutput_concat, List.map_append, List.map_append]; rfl

theorem map_content_linkOperators (l : List PipelineOperator) :
    (linkOperators l).map PipelineOperator.content = l.map PipelineOperator.content := by
  fun_induction linkOperators l with
  | case1 => rfl
  | case2 => rfl
  | case3 o o' rest ih => exact congrArg (List.cons o.content) ih

theorem map_content_chained (ops prepared : List PipelineOperator) :
    (chained ops prepared).map PipelineOperator.content = prepared.map PipelineOperator.content := by
  rw [chained]
  split
  · rw [map_content_setLastOutput, map_content_linkOperators]
  · rw [map_content_linkOperators]

theorem setLastOutput_linkOperators (l : List PipelineOperator) (output : String) :
    setLastOutput (linkOperators l) output = linkOperators (setLastOutput l output) := by
  cases l using List.reverseRecOn with
  | nil => rfl
  | append_singleton l o =>
    rw [linkOperators_concat, setLastOutput_concat, setLastOutput_concat, linkOperators_concat]

/-- The operators are linked, where the last of the list has no output. -/
theorem linked_chained {ops prepared : List PipelineOperator}
    (hlast : lastDisabled ops = false → ∀ o, prepared.getLast? = some o → o.output = "") :
    Linked (chained ops prepared) := by
  rw [chained]
  split
  · rw [setLastOutput_linkOperators]
    refine linked_linkOperators fun o ho => ?_
    cases prepared using List.reverseRecOn with
    | nil => cases ho
    | append_singleton l o' =>
      rw [setLastOutput_concat, List.getLast?_concat] at ho
      exact Option.some.inj ho ▸ rfl
  · rename_i h
    exact linked_linkOperators (hlast (Bool.eq_false_iff.mpr h))

/-! ### The operators of a processor -/

/-- The operator that leaves a log as it is. -/
def noopOperator : PipelineOperator := { type := noop, id := noop }

/-- The router before a list of operators. -/
def routerOperator (filterExpr : String) (operators : List PipelineOperator) : PipelineOperator :=
  { type := "router", id := "router_signoz",
    routes := some [⟨(operators.head?.map PipelineOperator.id).getD "", filterExpr⟩], default := noop }

theorem processorOperators_eq (filterExpr : String) (operators : List PipelineOperator) :
    processorOperators filterExpr operators =
      routerOperator filterExpr operators :: (operators ++ [noopOperator]) := rfl

section Processor

variable {filterExpr : String} {operators : List PipelineOperator} {holds : String → Bool}

theorem passesTo_processorOperators (hlinked : Linked operators)
    (hids : ((processorOperators filterExpr operators).map fun o => o.id).Nodup)
    (hid : ∀ o ∈ operators, o.id ≠ "") (htype : ∀ o ∈ operators, o.type ≠ "router") {i : Nat}
    {o : PipelineOperator} (ho : (processorOperators filterExpr operators)[i + 1]? = some o) :
    passesTo (processorOperators filterExpr operators) holds (i + 1) o =
      if i + 2 < (processorOperators filterExpr operators).length then some (i + 2) else none := by
  have hlength : (processorOperators filterExpr operators).length = operators.length + 2 := by
    rw [processorOperators_eq, List.length_cons, List.length_append, List.length_singleton]
  have hget : ∀ j, (processorOperators filterExpr operators)[j + 1]? = (operators ++ [noopOperator])[j]? :=
    fun _ => rfl
  rw [hget] at ho
  rcases Nat.lt_or_ge i operators.length with hi | hi
  · rw [List.getElem?_append_left hi] at ho
    have hmem := List.mem_of_getElem? ho
    have houtput := hlinked i o ho
    cases hnext : operators[i + 1]? with
    | none =>
      rw [hnext] at houtput
      exact passesTo_next (htype o hmem) houtput
    | some o' =>
      -- The output is the id of the next operator, which no other has.
      have hi' : i + 1 < operators.length := (List.getElem?_eq_some_iff.mp hnext).1
      rw [hnext, Option.map_some, Option.getD_some] at houtput
      rw [passesTo_output (htype o hmem) (houtput ▸ hid o' (List.mem_of_getElem? hnext)), houtput,
        if_pos (by omega)]
      exact position_eq hids (by rw [hget, List.getElem?_append_left hi', hnext])
  · have hlast : i = operators.length := by
      have := (List.getElem?_eq_some_iff.mp ho).1
      rw [List.length_append, List.length_singleton] at this
      omega
    rw [hlast, List.getElem?_concat_length] at ho
    obtain rfl := Option.some.inj ho
    exact passesTo_next (o := noopOperator) (by decide) rfl

/-- A log that matches the filter goes through all operators. -/
theorem path_of_matched (hne : operators ≠ []) (hlinked : Linked operators)
    (hids : ((processorOperators filterExpr operators).map fun o => o.id).Nodup)
    (hid : ∀ o ∈ operators, o.id ≠ "") (htype : ∀ o ∈ operators, o.type ≠ "router")
    (hmatched : holds filterExpr = true) :
    Path (processorOperators filterExpr operators) holds 0 (processorOperators filterExpr operators) := by
  obtain ⟨first, rest, rfl⟩ := List.exists_cons_of_ne_nil hne
  have hpass : passesTo (processorOperators filterExpr (first :: rest)) holds 0
      (routerOperator filterExpr (first :: rest)) = some 1 := by
    have hroute : ((routerOperator filterExpr (first :: rest)).routes.getD []).find?
        (fun route => holds route.expr) = some ⟨first.id, filterExpr⟩ := List.find?_cons_of_pos hmatched
    rw [passesTo_route rfl hroute]
    exact position_eq (i := 1) hids rfl
  refine .step (o := routerOperator filterExpr (first :: rest)) rfl hpass ?_
  exact path_drop (i := 0) (fun i o ho => passesTo_processorOperators hlinked hids hid htype ho)
    (by simp [processorOperators_eq]) rfl

/-- A log that does not match goes to the last operator. -/
theorem path_of_not_matched
    (hids : ((processorOperators filterExpr operators).map fun o => o.id).Nodup)
    (hmatched : holds filterExpr = false) :
    Path (processorOperators filterExpr operators) holds 0
      [routerOperator filterExpr operators, noopOperator] := by
  have hlast : (processorOperators filterExpr operators)[operators.length + 1]? = some noopOperator := by
    rw [processorOperators_eq, List.getElem?_cons_succ, List.getElem?_concat_length]
  have hpass : passesTo (processorOperators filterExpr operators) holds 0
      (routerOperator filterExpr operators) = some (operators.length + 1) := by
    have hnone : ¬ holds filterExpr = true := by
      rw [hmatched]
      exact Bool.false_ne_true
    have hroute : ((routerOperator filterExpr operators).routes.getD []).find?
        (fun route => holds route.expr) = none := List.find?_cons_of_neg hnone
    rw [passesTo_default rfl hroute]
    exact position_eq hids hlast
  refine .step rfl hpass (.last hlast ?_)
  rw [passesTo_next (by decide) rfl, if_neg]
  rw [processorOperators_eq, List.length_cons, List.length_append, List.length_singleton]
  exact Nat.lt_irrefl _

end Processor

/-! ### Processors of pipelines -/

/-- Logs go through a processor as the pipeline says: those that match the filter through the operators
prepared, in their order, and the others through none. -/
structure PassesLogs (processor : Processor) (filterExpr : String) (prepared : List PipelineOperator) :
    Prop where
  distinct : (processor.operators.map fun o => o.id).Nodup
  matched : ∀ holds : String → Bool, holds filterExpr = true → ∃ router visited,
    router.type = "router" ∧ visited.map PipelineOperator.content = prepared.map PipelineOperator.content ∧
    Path processor.operators holds 0 (router :: (visited ++ [noopOperator]))
  notMatched : ∀ holds : String → Bool, holds filterExpr = false → ∃ router,
    router.type = "router" ∧ Path processor.operators holds 0 [router, noopOperator]

section Pipelines

variable {F : Type} [Go.Unicode] (L : CheckLibrary) (E : Expressions F)

omit [Go.Unicode] in
theorem pipelineProcessor_ok {p : Pipeline F} {processor : Processor}
    (h : pipelineProcessor E p = .ok processor) : ∃ operators filterExpr,
      getOperators E p.config = .ok operators ∧ E.parse p.filter = .ok filterExpr ∧
      processor = ⟨processorOperators filterExpr operators⟩ := by
  obtain ⟨operators, hoperators, h⟩ := Fallible.bind_eq_ok h
  obtain ⟨filterExpr, hfilter, h⟩ := Fallible.bind_eq_ok h
  have hunwrap : ∀ {α : Type} {text : String} {x : Except BuildError α} {a : α},
      wrapBuildError text x = .ok a → x = .ok a := by
    intro α text x a hx
    match x, hx with
    | .ok _, hx => exact hx
  exact ⟨operators, filterExpr, hunwrap hoperators, hunwrap hfilter, (Except.ok.inj h).symm⟩

omit [Go.Unicode] in
/-- The operators prepared have the ids, the outputs and the types of those that are enabled. -/
theorem prepared_of_mapM {ops prepared : List PipelineOperator} (h : ops.mapM (withIf E) = .ok prepared) :
    prepared.map (fun o => (o.id, o.output, o.type)) = ops.map fun o => (o.id, o.output, o.type) := by
  have hforall := Fallible.forall₂_of_mapM h
  clear h
  induction hforall with
  | nil => rfl
  | cons ho _ ih =>
    obtain ⟨hid, houtput, htype⟩ := withIf_ok E ho
    rw [List.map_cons, List.map_cons, ih, hid, houtput, htype]

omit [Go.Unicode] in
/-- The last operator prepared has no output, where the last of the pipeline is enabled and has none. -/
theorem output_last_prepared {ops prepared : List PipelineOperator}
    (h : (enabledOperators ops).mapM (withIf E) = .ok prepared)
    (hlast : ∀ o, ops.getLast? = some o → o.output = "") (henabled : lastDisabled ops = false) :
    ∀ o, prepared.getLast? = some o → o.output = "" := by
  intro o ho
  have hkept := prepared_of_mapM E h
  cases ops using List.reverseRecOn with
  | nil =>
    rw [List.map_eq_nil_iff.mp hkept] at ho
    cases ho
  | append_singleton before op =>
    have hop : op.enabled := by simpa [lastDisabled] using henabled
    have hlastKept := congrArg List.getLast? hkept
    rw [List.getLast?_map, List.getLast?_map, ho, enabledOperators, List.filter_append,
      List.filter_singleton, hop, cond_true, List.getLast?_concat] at hlastKept
    have houtput : o.output = op.output := by simpa using congrArg (Option.map fun x => x.2.1) hlastKept
    rw [houtput]
    exact hlast op List.getLast?_concat

omit [Go.Unicode] in
/-- The operators of the processor have the ids and the types of those that are enabled. -/
theorem map_chained {ops prepared : List PipelineOperator}
    (h : (enabledOperators ops).mapM (withIf E) = .ok prepared) :
    (chained ops prepared).map (fun o => (o.id, o.type)) =
      (enabledOperators ops).map fun o => (o.id, o.type) :=
  calc (chained ops prepared).map (fun o => (o.id, o.type))
      = ((chained ops prepared).map PipelineOperator.content).map fun o => (o.id, o.type) := by
        rw [List.map_map]
        rfl
    _ = (prepared.map fun o => (o.id, o.output, o.type)).map fun x => (x.1, x.2.2) := by
        rw [map_content_chained, List.map_map, List.map_map]
        rfl
    _ = (enabledOperators ops).map fun o => (o.id, o.type) := by
        rw [prepared_of_mapM E h, List.map_map]
        rfl

omit [Go.Unicode] in
/-- The ids of the processor are distinct where those of the pipeline are, and the two that it adds are none
of them. -/
theorem nodup_processorOperators_iff {ops operators : List PipelineOperator} {filterExpr : String}
    (hids : operators.map (fun o => o.id) = (enabledOperators ops).map fun o => o.id)
    (hdistinct : (ops.map fun op => op.id).Nodup) :
    ((processorOperators filterExpr operators).map fun o => o.id).Nodup ↔
      ∀ op ∈ ops, op.enabled → op.id ≠ "router_signoz" ∧ op.id ≠ noop := by
  have henabled : ((enabledOperators ops).map fun o => o.id).Nodup :=
    (List.filter_sublist.map _).nodup hdistinct
  have hmap : (processorOperators filterExpr operators).map (fun o => o.id) =
      "router_signoz" :: ((enabledOperators ops).map (fun o => o.id) ++ [noop]) := by
    rw [processorOperators_eq, List.map_cons, List.map_append, hids]
    rfl
  have hmem : ∀ id, id ∉ (enabledOperators ops).map (fun o => o.id) ↔
      ∀ op ∈ ops, op.enabled → op.id ≠ id := by
    intro id
    simp [enabledOperators]
  rw [hmap, List.nodup_cons, List.nodup_append', List.mem_append, not_or, List.disjoint_singleton, hmem, hmem]
  constructor
  · rintro ⟨⟨hrouter, -⟩, -, -, hnoop⟩ op hop hon
    exact ⟨hrouter op hop hon, hnoop op hop hon⟩
  · intro h
    refine ⟨⟨fun op hop hon => (h op hop hon).1, by decide⟩, henabled, List.nodup_singleton _, ?_⟩
    exact fun op hop hon => (h op hop hon).2

/-- The processor of a pipeline that has passed the checks lets logs through as the pipeline says if and only
if no operator that is enabled has the id of the router or of the last operator. -/
theorem passesLogs_iff {p : PostablePipeline F} (hvalid : p.isValid L E = .ok ())
    (henabled : ∃ op ∈ p.config, op.enabled) {processor : Processor}
    (hprocessor : pipelineProcessor E p.toPipeline = .ok processor) :
    (∃ filterExpr prepared, E.parse p.filter = .ok filterExpr ∧
      (enabledOperators p.config).mapM (withIf E) = .ok prepared ∧
      PassesLogs processor filterExpr prepared) ↔
    ∀ op ∈ p.config, op.enabled → op.id ≠ "router_signoz" ∧ op.id ≠ noop := by
  obtain ⟨hops, -⟩ := validOperators_of_isValid L E hvalid
  obtain ⟨operators, filterExpr, hoperators, hfilter, rfl⟩ := pipelineProcessor_ok E hprocessor
  rw [PostablePipeline.toPipeline, getOperators_eq] at hoperators
  obtain ⟨prepared, hprepared, rfl⟩ := Fallible.map_eq_ok hoperators
  have hkeys := map_chained E hprepared
  have hids : (chained p.config prepared).map (fun o => o.id) =
      (enabledOperators p.config).map fun o => o.id := by
    have hfst := congrArg (List.map Prod.fst) hkeys
    rwa [List.map_map, List.map_map] at hfst
  have hkey : ∀ o ∈ chained p.config prepared, ∃ op ∈ p.config, op.id = o.id ∧ op.type = o.type := by
    intro o ho
    have hmem : (o.id, o.type) ∈ (enabledOperators p.config).map fun o => (o.id, o.type) :=
      hkeys ▸ List.mem_map.mpr ⟨o, ho, rfl⟩
    obtain ⟨op, hop, heq⟩ := List.mem_map.mp hmem
    exact ⟨op, List.mem_of_mem_filter hop, Prod.mk.inj heq⟩
  have hdistinct := @nodup_processorOperators_iff p.config _ filterExpr hids hops.distinct
  constructor
  · rintro ⟨filterExpr', _, hfilter', -, hpasses⟩
    exact hdistinct.mp hpasses.distinct
  · intro h
    have hnodup := hdistinct.mpr h
    have hne : chained p.config prepared ≠ [] := by
      obtain ⟨op, hop, hon⟩ := henabled
      intro hnil
      rw [hnil, List.map_nil, eq_comm, List.map_eq_nil_iff] at hids
      exact List.not_mem_nil (hids ▸ List.mem_filter.mpr ⟨hop, hon⟩ : op ∈ [])
    have hid : ∀ o ∈ chained p.config prepared, o.id ≠ "" := by
      intro o ho
      obtain ⟨op, hop, hop_id, -⟩ := hkey o ho
      exact hop_id ▸ hops.id_ne op hop
    have htype : ∀ o ∈ chained p.config prepared, o.type ≠ "router" := by
      intro o ho
      obtain ⟨op, hop, -, hop_type⟩ := hkey o ho
      exact hop_type ▸ hops.type_ne op hop
    have hlinked := linked_chained (output_last_prepared E hprepared hops.last)
    refine ⟨filterExpr, prepared, hfilter, hprepared, hnodup, fun holds hmatched => ?_, fun holds hmatched => ?_⟩
    · exact ⟨_, _, rfl, map_content_chained _ _, path_of_matched hne hlinked hnodup hid htype hmatched⟩
    · exact ⟨_, rfl, path_of_not_matched hnodup hmatched⟩

end Pipelines

/-- Regular expressions without groups. -/
def plainLibrary : CheckLibrary where
  errorf text := text
  subexpNames _ := some []

/-- An operator that keeps one field. -/
def retainOperator (id output : String) (enabled : Bool) : PipelineOperator :=
  { type := "retain", id := id, output := output, orderId := 1, enabled := enabled, fields := ["body"] }

def postableRetain (config : List PipelineOperator) : PostablePipeline Unit :=
  ⟨1, "retain", "retain", true, none, config⟩

theorem passesLogs_iff_disabled :
    let p := postableRetain [retainOperator "a" "b" true, retainOperator "b" "c" false,
      retainOperator "c" "" true]
    ∃ processor, pipelineProcessor plainExpressions p.toPipeline = .ok processor ∧
      ∃ filterExpr prepared, plainExpressions.parse p.filter = .ok filterExpr ∧
        (enabledOperators p.config).mapM (withIf plainExpressions) = .ok prepared ∧
        PassesLogs processor filterExpr prepared := by
  let _ : Go.Unicode := Go.Unicode.ascii
  refine ⟨_, rfl, (passesLogs_iff plainLibrary plainExpressions rfl ?_ rfl).mpr ?_⟩
  · exact ⟨_, List.mem_cons_self, rfl⟩
  · decide

/-- An operator of the user's with the id of the last one. -/
theorem not_passesLogs_noop : letI := Go.Unicode.ascii
    let p := postableRetain [retainOperator "noop" "" true]
    p.isValid plainLibrary plainExpressions = .ok () ∧
    ∃ processor, pipelineProcessor plainExpressions p.toPipeline = .ok processor ∧
      ¬∃ filterExpr prepared, plainExpressions.parse p.filter = .ok filterExpr ∧
        (enabledOperators p.config).mapM (withIf plainExpressions) = .ok prepared ∧
        PassesLogs processor filterExpr prepared := by
  refine ⟨rfl, _, rfl, ?_⟩
  rintro ⟨filterExpr, prepared, -, -, hpasses⟩
  exact absurd hpasses.distinct (by decide)

end QueryService.LogParsingPipeline
