import BoringPanel.Lib.Runs
import BoringPanel.Lib.Yaml
import BoringPanel.QueryService.LogParsingPipeline.ProcessorsList
import BoringPanel.QueryService.Utils.Cast

/-!
# Processors of log pipelines

`PreparePipelineProcessor` makes one processor of the collector out of each enabled pipeline that has
an enabled operator, and names it after the alias of the pipeline. A name that is taken gets the index
of the pipeline as a suffix, and is not looked up again.

The conditions that `getOperators` attaches to operators come from expressions over the log record,
and the condition of the router from the filter; the functions that write them are parameters
(`Expressions`).
-/

namespace QueryService.LogParsingPipeline

open Yaml

/-- The trace parser of an operator: where each field is parsed from. -/
structure TraceParser where
  traceId : Option String
  spanId : Option String
  traceFlags : Option String
deriving DecidableEq

structure Route where
  output : String
  expr : String
deriving DecidableEq

structure PipelineOperator where
  type : String
  id : String
  output : String := ""
  onError : String := ""
  if_ : String := ""
  orderId : Int := 0
  enabled : Bool := false
  name : String := ""
  parseTo : String := ""
  pattern : String := ""
  regex : String := ""
  parseFrom : String := ""
  traceParser : Option TraceParser := none
  field : String := ""
  value : String := ""
  from_ : String := ""
  to_ : String := ""
  expr : String := ""
  routes : Option (List Route) := none
  fields : List String := []
  default : String := ""
  layout : String := ""
  layoutType : String := ""
  severityMapping : List (String × List String) := []
  overwriteSeverityText : Bool := false
deriving DecidableEq

structure Pipeline (F : Type) where
  alias_ : String
  enabled : Bool
  filter : Option (FilterSet F)
  config : List PipelineOperator

structure Processor where
  operators : List PipelineOperator
deriving DecidableEq

/-! ### Operators -/

/-- The functions that write conditions on a log record, or return the text of an error. -/
structure Expressions (F : Type) where
  fieldNotNilCheck : String → Except String String
  fieldsReferencedInExprNotNilCheck : String → Except String String
  regexForStrptimeLayout : String → Except String String
  /-- `queryBuilderToExpr.Parse`, which panics without a filter. -/
  parse : Option (FilterSet F) → Except BuildError String

/-- `fmt.Errorf` with the text of an inner error at the end. -/
def wrapError {α : Type} (text : String) : Except String α → Except BuildError α
  | .ok a => .ok a
  | .error inner => .error (.error (text ++ ": " ++ inner))

/-- The same around an error that may be a panic. -/
def wrapBuildError {α : Type} (text : String) : Except BuildError α → Except BuildError α
  | .ok a => .ok a
  | .error (.error inner) => .error (.error (text ++ ": " ++ inner))
  | .error .panic => .error .panic

def cleanTraceParser (operator : PipelineOperator) : Except BuildError PipelineOperator :=
  match operator.traceParser with
  | none => .error .panic
  | some t => .ok { operator with
      traceParser := some ⟨t.traceId.filter (· ≠ ""), t.spanId.filter (· ≠ ""),
        t.traceFlags.filter (· ≠ "")⟩ }

section GetOperators

variable {F : Type} (E : Expressions F)

/-- An enabled operator with the condition under which it runs. -/
def withIf (operator : PipelineOperator) : Except BuildError PipelineOperator :=
  let parseFrom := operator.parseFrom
  if operator.type = "regex_parser" then do
    let parseFromNotNilCheck ← wrapError ("couldn't generate nil check for parseFrom of regex op " ++
      operator.name) (E.fieldNotNilCheck parseFrom)
    return { operator with
      if_ := parseFromNotNilCheck ++ " && " ++ parseFrom ++ " matches \"" ++
        Go.replaceAll (Go.replaceAll operator.regex "\\" "\\\\") "\"" "\\\"" ++ "\"" }
  else if operator.type = "grok_parser" then do
    let parseFromNotNilCheck ← wrapError ("couldn't generate nil check for parseFrom of grok op " ++
      operator.name) (E.fieldNotNilCheck parseFrom)
    return { operator with if_ := parseFromNotNilCheck }
  else if operator.type = "json_parser" then do
    let parseFromNotNilCheck ← wrapError ("couldn't generate nil check for parseFrom of json parser op "
      ++ operator.name) (E.fieldNotNilCheck parseFrom)
    return { operator with
      if_ := parseFromNotNilCheck ++ " && " ++ parseFrom ++
        " matches \"^\\\\s*\x7b.*\x7d\\\\s*$\"" }
  else if operator.type = "add" then
    if Go.hasPrefix operator.value "EXPR(" ∧ Go.hasSuffix operator.value ")" then do
      let expression := Go.trimSuffix (Go.trimPrefix operator.value "EXPR(") ")"
      let fieldsNotNilCheck ← wrapError ("could'nt generate nil check for fields referenced in value " ++
        "expr of add operator " ++ operator.name) (E.fieldsReferencedInExprNotNilCheck expression)
      if fieldsNotNilCheck ≠ "" then return { operator with if_ := fieldsNotNilCheck }
      else return operator
    else return operator
  else if operator.type = "move" ∨ operator.type = "copy" then do
    let fromNotNilCheck ← wrapError ("couldn't generate nil check for From field of " ++
      operator.type ++ " op " ++ operator.name) (E.fieldNotNilCheck operator.from_)
    return { operator with if_ := fromNotNilCheck }
  else if operator.type = "remove" then do
    let fieldNotNilCheck ← wrapError ("couldn't generate nil check for field to be removed by op " ++
      operator.name) (E.fieldNotNilCheck operator.field)
    return { operator with if_ := fieldNotNilCheck }
  else if operator.type = "trace_parser" then cleanTraceParser operator
  else if operator.type = "time_parser" then do
    let parseFromNotNilCheck ← wrapError ("couldn't generate nil check for parseFrom of time parser op "
      ++ operator.name) (E.fieldNotNilCheck parseFrom)
    if operator.layoutType = "strptime" then do
      let regex ← wrapError ("couldn't generate layout regex for time_parser " ++ operator.name)
        (E.regexForStrptimeLayout operator.layout)
      return { operator with
        if_ := parseFromNotNilCheck ++ " && " ++ parseFrom ++ " matches \"" ++ regex ++ "\"" }
    else if operator.layoutType = "epoch" then
      let valueRegex := if Go.contains operator.layout "." then "^\\\\s*[0-9]+\\\\.[0-9]+\\\\s*$"
        else "^\\\\s*[0-9]+\\\\s*$"
      return { operator with
        if_ := parseFromNotNilCheck ++ " && string(" ++ parseFrom ++ ") matches \"" ++ valueRegex ++
          "\"" }
    else return { operator with if_ := parseFromNotNilCheck }
  else if operator.type = "severity_parser" then do
    let parseFromNotNilCheck ← wrapError ("couldn't generate nil check for parseFrom of severity parser "
      ++ operator.name) (E.fieldNotNilCheck parseFrom)
    return { operator with
      if_ := parseFromNotNilCheck ++ " && ( type(" ++ parseFrom ++ ") == \"string\" || ( type(" ++
        parseFrom ++ ") in [\"int\", \"float\"] && " ++ parseFrom ++ " == float(int(" ++ parseFrom ++
        ")) ) )" }
  else return operator

/-- The output of the last operator set. -/
def setLastOutput (operators : List PipelineOperator) (output : String) : List PipelineOperator :=
  operators.modifyLast fun operator => { operator with output := output }

/-- The enabled operators, each with the next one as its output. -/
def getOperators (ops : List PipelineOperator) : Except BuildError (List PipelineOperator) :=
  ops.zipIdx.foldlM
    (fun filteredOp p =>
      if p.1.enabled then do
        let operator ← withIf E p.1
        return setLastOutput filteredOp p.1.id ++ [operator]
      else if p.2 = ops.length - 1 ∧ filteredOp ≠ [] then return setLastOutput filteredOp ""
      else return filteredOp)
    []

end GetOperators

/-! ### Processors -/

/-- `NOOP`. -/
def noop : String := "noop"

/-- A character of a name: a letter, a digit or a dash. -/
def goodCharForCollectorConfName (c : Char) : Bool :=
  c.isAlpha || c.isDigit || c = '-'

def collectorConfProcessorName {F : Type} (p : Pipeline F) : String :=
  let normalizedAlias :=
    String.ofList (p.alias_.toList.map fun c => if goodCharForCollectorConfName c then c else '-')
  logsPPLPfx ++ normalizedAlias

/-- The processors by name, and the names in the order of the pipelines. -/
structure PipelineProcessors where
  processors : List (String × Processor)
  names : List String

section Prepare

variable {F : Type} (E : Expressions F)

/-- The operators of the processor: the router, those of the pipeline, and the operator that leaves a
log as it is. -/
def processorOperators (filterExpr : String) (operators : List PipelineOperator) :
    List PipelineOperator :=
  let router : PipelineOperator :=
    { type := "router", id := "router_signoz",
      routes := some [⟨(operators.head?.map PipelineOperator.id).getD "", filterExpr⟩], default := noop }
  router :: operators ++ [{ type := noop, id := noop }]

/-- One turn of the loop over the pipelines. -/
def addPipelineProcessor (prepared : PipelineProcessors) (p : Pipeline F × Nat) :
    Except BuildError PipelineProcessors :=
  if ¬ p.1.enabled then return prepared
  else do
    let operators ← wrapBuildError "failed to prepare operators" (getOperators E p.1.config)
    if operators = [] then return prepared
    else do
      let filterExpr ← wrapBuildError "failed to parse pipeline filter" (E.parse p.1.filter)
      let processor : Processor := ⟨processorOperators filterExpr operators⟩
      let name := collectorConfProcessorName p.1
      let name := if (OrderedEntries.get name prepared.processors).isSome then
          name ++ "-" ++ toString p.2
        else name
      return { processors := OrderedEntries.insert name processor prepared.processors
               names := prepared.names ++ [name] }

def preparePipelineProcessor (pipelines : List (Pipeline F)) :
    Except BuildError PipelineProcessors :=
  pipelines.zipIdx.foldlM (addPipelineProcessor E) ⟨[], []⟩

end Prepare

/-! ### As a value of a document -/

/-- A field that is left out where it is empty. -/
def stringField (key s : String) : Entries := if s = "" then [] else [(key, .str s)]

def parseFromField (key : String) (parseFrom : Option String) : Entries :=
  parseFrom.toList.map fun s => (key, .map [("parse_from", .str s)])

def stringsValue (l : List String) : Value := .seq (l.map .str)

def Route.toValue (r : Route) : Value := .map [("expr", .str r.expr), ("output", .str r.output)]

/-- The string fields of an operator that are left out where they are empty. -/
def PipelineOperator.stringFields (o : PipelineOperator) : List (String × String) :=
  [("id", o.id), ("output", o.output), ("on_error", o.onError), ("if", o.if_),
    ("parse_to", o.parseTo), ("pattern", o.pattern), ("regex", o.regex), ("parse_from", o.parseFrom),
    ("field", o.field), ("value", o.value), ("from", o.from_), ("to", o.to_), ("expr", o.expr),
    ("default", o.default), ("layout", o.layout), ("layout_type", o.layoutType)]

def PipelineOperator.fieldValues (o : PipelineOperator) : Entries :=
  ("type", .str o.type) :: o.stringFields.flatMap (fun f => stringField f.1 f.2) ++
    o.traceParser.toList.flatMap (fun t => parseFromField "trace_id" t.traceId ++
      parseFromField "span_id" t.spanId ++ parseFromField "trace_flags" t.traceFlags) ++
    o.routes.toList.map (fun rs => ("routes", .seq (rs.map Route.toValue))) ++
    (if o.fields = [] then [] else [("fields", stringsValue o.fields)]) ++
    (if o.severityMapping = [] then [] else
      [("mapping", .map (OrderedEntries.insertAll
        (o.severityMapping.map fun e => (e.1, stringsValue e.2)) []))]) ++
    (if o.overwriteSeverityText then [("overwrite_text", .other "true" true)] else [])

def PipelineOperator.toValue (o : PipelineOperator) : Value :=
  .map (OrderedEntries.insertAll o.fieldValues [])

def Processor.toValue (p : Processor) : Value :=
  .map [("operators", .seq (p.operators.map PipelineOperator.toValue))]

/-! ### Canonical values -/

theorem canonical_stringsValue (l : List String) : (stringsValue l).Canonical := by
  refine .seq fun v hv => ?_
  obtain ⟨s, -, rfl⟩ := List.mem_map.mp hv
  exact .str s

theorem canonical_single {k : String} {v : Value} (h : v.Canonical) :
    (Value.map [(k, v)]).Canonical := by
  refine .map (List.pairwise_singleton _ _) fun e he => ?_
  rw [List.mem_singleton.mp he]
  exact h

theorem canonical_empty : (Value.map []).Canonical :=
  .map OrderedEntries.sorted_nil fun _ he => absurd he List.not_mem_nil

theorem Route.canonical_toValue (r : Route) : r.toValue.Canonical := by
  refine .map ?_ fun e he => ?_
  · exact List.pairwise_pair.mpr (show "expr" < "output" by decide)
  · simp only [List.mem_cons, List.not_mem_nil, or_false] at he
    rcases he with rfl | rfl
    · exact .str _
    · exact .str _

/-- Fields whose values are canonical. -/
def CanonicalFields (fields : Entries) : Prop := ∀ e ∈ fields, e.2.Canonical

theorem CanonicalFields.nil : CanonicalFields [] := fun _ h => absurd h List.not_mem_nil

theorem CanonicalFields.single {k : String} {v : Value} (h : v.Canonical) :
    CanonicalFields [(k, v)] := fun e he => by
  rw [List.mem_singleton.mp he]
  exact h

theorem CanonicalFields.append {a b : Entries} (ha : CanonicalFields a) (hb : CanonicalFields b) :
    CanonicalFields (a ++ b) := fun e he => (List.mem_append.mp he).elim (ha e) (hb e)

theorem canonicalFields_stringField (k s : String) : CanonicalFields (stringField k s) := by
  rw [stringField]
  split
  · exact .nil
  · exact .single (.str s)

theorem canonicalFields_parseFromField (k : String) (p : Option String) :
    CanonicalFields (parseFromField k p) := fun e he => by
  obtain ⟨s, -, rfl⟩ := List.mem_map.mp he
  exact canonical_single (.str s)

theorem TraceParser.canonicalFields (t : TraceParser) :
    CanonicalFields (parseFromField "trace_id" t.traceId ++ parseFromField "span_id" t.spanId ++
      parseFromField "trace_flags" t.traceFlags) :=
  ((canonicalFields_parseFromField _ _).append (canonicalFields_parseFromField _ _)).append
    (canonicalFields_parseFromField _ _)

theorem PipelineOperator.canonicalFields (o : PipelineOperator) :
    CanonicalFields o.fieldValues := by
  have htrace : CanonicalFields (o.traceParser.toList.flatMap fun t =>
      parseFromField "trace_id" t.traceId ++ parseFromField "span_id" t.spanId ++
        parseFromField "trace_flags" t.traceFlags) := fun e he => by
    obtain ⟨t, -, he⟩ := List.mem_flatMap.mp he
    exact t.canonicalFields e he
  have hroutes : CanonicalFields
      (o.routes.toList.map fun rs => ("routes", .seq (rs.map Route.toValue))) := fun e he => by
    obtain ⟨rs, -, rfl⟩ := List.mem_map.mp he
    refine .seq fun v hv => ?_
    obtain ⟨r, -, rfl⟩ := List.mem_map.mp hv
    exact r.canonical_toValue
  have hfields : CanonicalFields
      (if o.fields = [] then [] else [("fields", stringsValue o.fields)]) := by
    split
    · exact .nil
    · exact .single (canonical_stringsValue _)
  have hmapping : CanonicalFields (if o.severityMapping = [] then [] else
      [("mapping", .map (OrderedEntries.insertAll
        (o.severityMapping.map fun e => (e.1, stringsValue e.2)) []))]) := by
    split
    · exact .nil
    · refine .single (canonical_empty.insertAll fun e he => ?_)
      obtain ⟨m, -, rfl⟩ := List.mem_map.mp he
      exact canonical_stringsValue _
  have hoverwrite : CanonicalFields
      (if o.overwriteSeverityText then [("overwrite_text", .other "true" true)] else []) := by
    split
    · exact .single (.other true (by decide))
    · exact .nil
  have hstrings : CanonicalFields
      (("type", .str o.type) :: o.stringFields.flatMap fun f => stringField f.1 f.2) := fun e he => by
    rcases List.mem_cons.mp he with rfl | he
    · exact .str _
    · obtain ⟨f, -, he⟩ := List.mem_flatMap.mp he
      exact canonicalFields_stringField _ _ e he
  exact ((((hstrings.append htrace).append hroutes).append hfields).append hmapping).append hoverwrite

theorem PipelineOperator.canonical_toValue (o : PipelineOperator) : o.toValue.Canonical :=
  canonical_empty.insertAll o.canonicalFields

theorem Processor.canonical_toValue (p : Processor) : p.toValue.Canonical := by
  refine canonical_single (.seq fun v hv => ?_)
  obtain ⟨o, -, rfl⟩ := List.mem_map.mp hv
  exact o.canonical_toValue

/-! ### Names -/

theorem hasPrefix_append (start s : String) : Go.hasPrefix (start ++ s) start := by
  rw [Go.hasPrefix, String.toList_append]
  exact List.isPrefixOf_iff_prefix.mpr (List.prefix_append _ _)

theorem hasSignozPipelineProcessorPrefix_append (s : String) :
    hasSignozPipelineProcessorPrefix (logsPPLPfx ++ s) := by
  rw [hasSignozPipelineProcessorPrefix, hasPrefix_append, Bool.true_or]

/-- The processors are those of the names. -/
structure Named (prepared : PipelineProcessors) : Prop where
  sorted : OrderedEntries.Sorted prepared.processors
  mem_names_iff : ∀ n, n ∈ prepared.names ↔ (OrderedEntries.get n prepared.processors).isSome
  hasPrefix : ∀ n ∈ prepared.names, hasSignozPipelineProcessorPrefix n

theorem named_empty : Named ⟨[], []⟩ :=
  ⟨OrderedEntries.sorted_nil, fun n => by simp, fun n hn => absurd hn List.not_mem_nil⟩

theorem Named.insert {prepared : PipelineProcessors} (h : Named prepared) {name : String}
    (hname : hasSignozPipelineProcessorPrefix name) (processor : Processor) :
    Named ⟨OrderedEntries.insert name processor prepared.processors, prepared.names ++ [name]⟩ where
  sorted := h.sorted.insert name processor
  mem_names_iff n := by
    rw [List.mem_append, List.mem_singleton, h.mem_names_iff, OrderedEntries.get_insert]
    by_cases hn : name = n
    · simp [hn]
    · simp [hn, Ne.symm hn]
  hasPrefix n hn := by
    rcases List.mem_append.mp hn with hn | hn
    · exact h.hasPrefix n hn
    · rwa [List.mem_singleton.mp hn]

section Prepare

variable {F : Type} (E : Expressions F)

theorem Named.step {prepared prepared' : PipelineProcessors} (h : Named prepared)
    {p : Pipeline F × Nat} (hstep : addPipelineProcessor E prepared p = .ok prepared') :
    Named prepared' := by
  rw [addPipelineProcessor] at hstep
  split at hstep
  · obtain rfl := Except.ok.inj hstep
    exact h
  cases hoperators : wrapBuildError "failed to prepare operators" (getOperators E p.1.config) with
  | error err => simp [hoperators, bind, Except.bind] at hstep
  | ok operators =>
    simp only [hoperators, bind, Except.bind] at hstep
    split at hstep
    · obtain rfl := Except.ok.inj hstep
      exact h
    cases hfilter : wrapBuildError "failed to parse pipeline filter" (E.parse p.1.filter) with
    | error err => simp [hfilter] at hstep
    | ok filterExpr =>
      simp only [hfilter] at hstep
      obtain rfl := Except.ok.inj hstep
      refine h.insert ?_ _
      split
      · rw [collectorConfProcessorName, String.append_assoc, String.append_assoc]
        exact hasSignozPipelineProcessorPrefix_append _
      · exact hasSignozPipelineProcessorPrefix_append _

theorem named_preparePipelineProcessor {pipelines : List (Pipeline F)}
    {prepared : PipelineProcessors} (h : preparePipelineProcessor E pipelines = .ok prepared) :
    Named prepared :=
  foldlM_invariant (fun _ _ _ hinv hstep => hinv.step E hstep) named_empty h

end Prepare

end QueryService.LogParsingPipeline
