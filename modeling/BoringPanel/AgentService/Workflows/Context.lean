import BoringPanel.AgentService.Workflows.Definition
import BoringPanel.Lib.JsObject
import BoringPanel.Lib.JsParagraphs

/-!
# The context of a run

What the steps of a workflow hand on, and the functions of `compiler.ts` that read it and that put the
contexts of branches together. `contextSchema` copies what it parses, without a member `__proto__` of
the results.

* `asContext_value`, `mergeContexts_object`, `mergeContexts_array`: what comes out of a node is one of the
  contexts that came in, or all of them merged.
-/

namespace AgentService

variable {N : Type}

open JsValue (get set assign keyed Reading)

structure WorkflowContext (N : Type) where
  message : JsText
  results : List (JsText × JsValue N)
  text : JsText

namespace WorkflowContext

def value (context : WorkflowContext N) : JsValue N :=
  .object [(JsText.of "message", .string context.message), (JsText.of "results", .object context.results),
    (JsText.of "text", .string context.text)]

/-- The context as `contextSchema` copies it. -/
def parsed (context : WorkflowContext N) : WorkflowContext N :=
  { context with results := context.results.filter fun member => member.1 ≠ JsValue.prototypeKey }

/-- A context with the result of a step. -/
def withResult (context : WorkflowContext N) (key : JsText) (data : JsValue N) : WorkflowContext N :=
  { context with results := set context.results key data }

end WorkflowContext

/-! ### Rules -/

section Rules

variable [JsNumeric N]

/-- A segment of a path; an item is read by the number that the segment is. -/
def readSegment (current : Reading N) (segment : JsText) : Reading N :=
  match current with
  | .value (.array items) => (JsNumeric.integer (JsNumeric.parse segment : N)).elim .undefined (Reading.item items)
  | .value (.object members) => (get members segment).elim (JsValue.inherited segment) .value
  | .prototype => if segment = JsValue.prototypeKey then .value .null else JsValue.inherited segment
  | _ => .undefined

def dot : UInt16 := 0x2e

def readPath (source : JsValue N) (path : JsText) : Reading N :=
  ((path.splitOn dot).filter (· ≠ [])).foldl readSegment (.value source)

/-- `String(reading ?? '')` -/
def textOrEmpty (reading : Reading N) : Option JsText :=
  if reading.isPresent then reading.text else some []

/-- `compareRule`, where the reading can be converted. -/
def compareRule (context : JsValue N) (rule : WorkflowConditionRule) : Option Bool :=
  let actual := readPath context rule.path
  let compare (holds : N → N → Bool) : Option Bool :=
    let right := rule.value.elim JsNumeric.nan JsNumeric.parse
    actual.number.map fun left => JsNumeric.isFinite left && JsNumeric.isFinite right && holds left right
  match rule.operator with
  | .exists => some actual.isPresent
  | .equals => (textOrEmpty actual).map (· = rule.value.getD [])
  | .notEquals => (textOrEmpty actual).map (· ≠ rule.value.getD [])
  | .gt => compare fun left right => JsNumeric.lt right left
  | .gte => compare fun left right => JsNumeric.le right left
  | .lt => compare fun left right => JsNumeric.lt left right
  | .lte => compare fun left right => JsNumeric.le left right

end Rules

/-! ### Contexts that are put together -/

/-- `contextSchema.safeParse` -/
def contextSchema : JsValue N → Option (WorkflowContext N)
  | .object members =>
    match get members (JsText.of "message"), get members (JsText.of "results"), get members (JsText.of "text") with
    | some (.string message), some (.object results), some (.string text) =>
      some (WorkflowContext.parsed ⟨message, results, text⟩)
    | _, _, _ => none
  | _ => none

mutual

/-- The contexts that `mergeContexts` collects. -/
def collect : JsValue N → List (WorkflowContext N)
  | .array items => collectItems items
  | .object members => (contextSchema (.object members)).elim (collectMembers members) ([·])
  | _ => []

def collectItems : List (JsValue N) → List (WorkflowContext N)
  | [] => []
  | item :: rest => collect item ++ collectItems rest

def collectMembers : List (JsText × JsValue N) → List (WorkflowContext N)
  | [] => []
  | (_, value) :: rest => collect value ++ collectMembers rest

end

mutual

/-- `asContext`: the first context in depth. -/
def asContext : JsValue N → Option (WorkflowContext N)
  | .array items => contextOfItems items
  | .object members => (contextSchema (.object members)).or (contextOfMembers members)
  | _ => none

def contextOfItems : List (JsValue N) → Option (WorkflowContext N)
  | [] => none
  | item :: rest => (asContext item).or (contextOfItems rest)

def contextOfMembers : List (JsText × JsValue N) → Option (WorkflowContext N)
  | [] => none
  | (_, value) :: rest => (asContext value).or (contextOfMembers rest)

end

def paragraphs : JsText := JsText.of "\n\n"

/-- What is made of the contexts that have been collected. -/
def mergedContext (contexts : List (WorkflowContext N)) : WorkflowContext N where
  message := (contexts.head?.map WorkflowContext.message).getD []
  results := contexts.foldl (fun results context => assign results context.results) []
  text := JsText.joinPresent paragraphs (contexts.map WorkflowContext.text)

def mergeContexts (value : JsValue N) : WorkflowContext N := mergedContext (collect value)

/-! ### Contexts as values -/

theorem WorkflowContext.value_injective : Function.Injective (WorkflowContext.value (N := N)) := by
  intro c d h
  unfold value at h
  simp only [JsValue.object.injEq, List.cons.injEq, Prod.mk.injEq, JsValue.string.injEq, true_and, and_true] at h
  obtain ⟨hmessage, hresults, htext⟩ := h
  cases c
  cases d
  simp only at hmessage hresults htext
  rw [hmessage, hresults, htext]

theorem contextSchema_value (context : WorkflowContext N) : contextSchema context.value = some context.parsed := by
  have hmessage : get [(JsText.of "message", .string context.message), (JsText.of "results",
      .object context.results), (JsText.of "text", .string context.text)] (JsText.of "message") =
      some (.string context.message) := by
    rw [JsValue.get_cons, if_pos rfl]
  have hresults : get [(JsText.of "message", .string context.message), (JsText.of "results",
      .object context.results), (JsText.of "text", .string context.text)] (JsText.of "results") =
      some (.object context.results) := by
    rw [JsValue.get_cons, if_neg (by decide), JsValue.get_cons, if_pos rfl]
  have htext : get [(JsText.of "message", .string context.message), (JsText.of "results",
      .object context.results), (JsText.of "text", .string context.text)] (JsText.of "text") =
      some (.string context.text) := by
    rw [JsValue.get_cons, if_neg (by decide), JsValue.get_cons, if_neg (by decide), JsValue.get_cons, if_pos rfl]
  unfold WorkflowContext.value contextSchema
  simp only [hmessage, hresults, htext]

theorem asContext_value (context : WorkflowContext N) : asContext context.value = some context.parsed := by
  have h := contextSchema_value context
  unfold WorkflowContext.value at h ⊢
  rw [asContext, h]
  rfl

theorem collect_value (context : WorkflowContext N) : collect context.value = [context.parsed] := by
  have h := contextSchema_value context
  unfold WorkflowContext.value at h ⊢
  rw [collect, h]
  rfl

theorem contextSchema_eq_none {members : List (JsText × JsValue N)}
    (h : ∀ message, get members (JsText.of "message") ≠ some (.string message)) :
    contextSchema (.object members) = none := by
  unfold contextSchema
  dsimp only
  split
  · rename_i hmessage _ _
    exact absurd hmessage (h _)
  · rfl

/-- The outputs of branches are no context, whatever their ids are: a message is no object. -/
theorem contextSchema_outputs (outputs : List (JsText × WorkflowContext N)) :
    contextSchema (.object (outputs.map (Prod.map id WorkflowContext.value))) = none := by
  refine contextSchema_eq_none fun message hget => ?_
  obtain ⟨before, after, hsplit, -⟩ := List.lookup_eq_some_iff.mp hget
  have hmem : (JsText.of "message", JsValue.string message) ∈
      outputs.map (Prod.map id WorkflowContext.value) := by
    rw [hsplit]
    exact List.mem_append_right _ List.mem_cons_self
  obtain ⟨output, -, heq⟩ := List.mem_map.mp hmem
  have hvalue : output.2.value = JsValue.string message := congrArg Prod.snd heq
  unfold WorkflowContext.value at hvalue
  cases hvalue

theorem collectItems_eq (items : List (JsValue N)) : collectItems items = items.flatMap collect := by
  induction items with
  | nil => rfl
  | cons item rest ih => rw [collectItems, ih, List.flatMap_cons]

theorem collectMembers_eq (members : List (JsText × JsValue N)) :
    collectMembers members = members.flatMap fun member => collect member.2 := by
  induction members with
  | nil => rfl
  | cons member rest ih =>
    obtain ⟨key, value⟩ := member
    rw [collectMembers, ih, List.flatMap_cons]

theorem mergeContexts_array (contexts : List (WorkflowContext N)) :
    mergeContexts (.array (contexts.map WorkflowContext.value)) =
      mergedContext (contexts.map WorkflowContext.parsed) := by
  unfold mergeContexts
  rw [collect, collectItems_eq, List.flatMap_map]
  simp only [collect_value]
  rw [← List.map_eq_flatMap]

theorem mergeContexts_object (outputs : List (JsText × WorkflowContext N)) :
    mergeContexts (.object (outputs.map (Prod.map id WorkflowContext.value))) =
      mergedContext (outputs.map fun output => output.2.parsed) := by
  unfold mergeContexts
  rw [collect, contextSchema_outputs, Option.elim_none, collectMembers_eq, List.flatMap_map]
  simp only [Prod.map_snd, collect_value]
  rw [← List.map_eq_flatMap]

theorem asContext_object (key : JsText) (context : WorkflowContext N) :
    asContext (.object [(key, context.value)]) = some context.parsed := by
  have h : contextSchema (.object [(key, context.value)]) = none := contextSchema_outputs [(key, context)]
  rw [asContext, h, Option.none_or, contextOfMembers, asContext_value]
  rfl

end AgentService
