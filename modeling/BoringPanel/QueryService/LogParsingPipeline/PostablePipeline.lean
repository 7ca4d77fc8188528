import BoringPanel.QueryService.LogParsingPipeline.PipelineBuilder

/-!
# The checks of a pipeline

`PostablePipeline.IsValid` is what a pipeline has to pass before it is saved. An operator needs an id of its
own and a type that is known; each but the last has an output, and the last has none. Where the outputs lead
is not looked at: `getOperators` sets them again.

What a check returns is the text of its error, which is often used as a format too (`fmt.Errorf` of what
`fmt.Sprintf` has written), for which `errorf` stands. Regular expressions are a parameter as well, of which
the names of the groups are known where they compile.
-/

namespace QueryService.LogParsingPipeline

/-- A pipeline as the user sends it. -/
structure PostablePipeline (F : Type) where
  orderId : Int
  name : String
  alias_ : String
  enabled : Bool
  filter : Option (FilterSet F)
  config : List PipelineOperator

/-- The pipeline that `insertPipeline` stores. -/
def PostablePipeline.toPipeline {F : Type} (p : PostablePipeline F) : Pipeline F :=
  ⟨p.alias_, p.enabled, p.filter, p.config⟩

/-- What the checks use of the language's library. -/
structure CheckLibrary where
  /-- `fmt.Errorf(text)`. -/
  errorf : String → String
  /-- `r.SubexpNames()` where `regexp.Compile` returns `r`. -/
  subexpNames : String → Option (List String)

section Checks

variable {F : Type} [Go.Unicode] (L : CheckLibrary) (E : Expressions F)

def isValidOtelValue (val : String) : Bool :=
  val = "" || Go.hasPrefix val "body" || Go.hasPrefix val "attributes" || Go.hasPrefix val "resource"

def validEpochLayouts : List String := ["s", "ms", "us", "ns", "s.ms", "s.us", "s.ns"]

def validMappingLevels : List String := ["trace", "debug", "info", "warn", "error", "fatal"]

/-- The field that is parsed from, where there is one. -/
def parsesFrom (parseFrom : Option String) : Bool := parseFrom.any (· ≠ "")

def checkTraceParser (op : PipelineOperator) : Except String Unit :=
  match op.traceParser with
  | none => .error (L.errorf ("field of " ++ op.id ++ " remove operator cannot be empty"))
  | some t =>
    if ¬ (parsesFrom t.traceId || parsesFrom t.spanId || parsesFrom t.traceFlags) then
      .error (L.errorf ("one of trace_id, span_id, trace_flags of " ++ op.id ++
        " trace_parser operator must be present"))
    else if parsesFrom t.traceId && !isValidOtelValue (t.traceId.getD "") then
      .error ("trace id can't be parsed from " ++ t.traceId.getD "")
    else if parsesFrom t.spanId && !isValidOtelValue (t.spanId.getD "") then
      .error ("span id can't be parsed from " ++ t.spanId.getD "")
    else if parsesFrom t.traceFlags && !isValidOtelValue (t.traceFlags.getD "") then
      .error ("trace flags can't be parsed from " ++ t.traceFlags.getD "")
    else .ok ()

def checkTimeParser (op : PipelineOperator) : Except String Unit :=
  if op.parseFrom = "" then
    .error ("parse from of time parsing processor " ++ op.id ++ " cannot be empty")
  else if op.layoutType ≠ "epoch" ∧ op.layoutType ≠ "strptime" then
    .error ("invalid format type '" ++ op.layoutType ++ "' of time parsing processor " ++ op.id)
  else if op.layout = "" then
    .error (L.errorf ("format can not be empty for time parsing processor " ++ op.id))
  else if op.layoutType = "epoch" ∧ op.layout ∉ validEpochLayouts then
    .error ("invalid epoch format '" ++ op.layoutType ++ "' of time parsing processor " ++ op.id)
  else if op.layoutType = "strptime" then
    match E.regexForStrptimeLayout op.layout with
    | .error err => .error ("invalid strptime format '" ++ op.layoutType ++ "' of time parsing processor " ++
        op.id ++ ": " ++ err)
    | .ok _ => .ok ()
  else .ok ()

def checkRegexParser (op : PipelineOperator) : Except String Unit :=
  if op.regex = "" then .error (L.errorf ("regex of " ++ op.id ++ " regex operator cannot be empty"))
  else match L.subexpNames op.regex with
    | none => .error (L.errorf ("error compiling regex expression of " ++ op.id ++ " regex operator"))
    | some names =>
      if names.countP (· ≠ "") = 0 then
        .error (L.errorf ("no capture groups in regex expression of " ++ op.id ++ " regex operator"))
      else .ok ()

/-- The severities of a mapping; a map has no order, and any of the wrong ones may be the one named. -/
def checkSeverityParser (op : PipelineOperator) : Except String Unit :=
  if op.parseFrom = "" then
    .error ("parse from of severity parsing processor " ++ op.id ++ " cannot be empty")
  else match op.severityMapping.find? fun e => Go.toLower e.1 ∉ validMappingLevels with
    | some e => .error (e.1 ++ " is not a valid severity in processor " ++ op.id)
    | none => .ok ()

/-- The fields that the type of an operator needs. -/
def checkType (op : PipelineOperator) : Except String Unit :=
  if op.type = "json_parser" then
    if op.parseFrom = "" ∧ op.parseTo = "" then
      .error (L.errorf ("parse from and parse to of " ++ op.id ++ " json operator cannot be empty"))
    else .ok ()
  else if op.type = "grok_parser" then
    if op.pattern = "" then .error (L.errorf ("pattern of " ++ op.id ++ " grok operator cannot be empty"))
    else .ok ()
  else if op.type = "regex_parser" then checkRegexParser L op
  else if op.type = "copy" then
    if op.from_ = "" ∨ op.to_ = "" then
      .error (L.errorf ("from or to of " ++ op.id ++ " copy operator cannot be empty"))
    else .ok ()
  else if op.type = "move" then
    if op.from_ = "" ∨ op.to_ = "" then
      .error (L.errorf ("from or to of " ++ op.id ++ " move operator cannot be empty"))
    else .ok ()
  else if op.type = "add" then
    if op.field = "" ∨ op.value = "" then
      .error (L.errorf ("field or value of " ++ op.id ++ " add operator cannot be empty"))
    else .ok ()
  else if op.type = "remove" then
    if op.field = "" then .error (L.errorf ("field of " ++ op.id ++ " remove operator cannot be empty"))
    else .ok ()
  else if op.type = "trace_parser" then checkTraceParser L op
  else if op.type = "retain" then
    if op.fields = [] then .error (L.errorf ("fields of " ++ op.id ++ " retain operator cannot be empty"))
    else .ok ()
  else if op.type = "time_parser" then checkTimeParser L E op
  else if op.type = "severity_parser" then checkSeverityParser op
  else .error (L.errorf ("operator type " ++ op.type ++ " not supported for " ++ op.id ++
    ", use one of (grok_parser, regex_parser, copy, move, add, remove, trace_parser, retain)"))

def isValidOperator (op : PipelineOperator) : Except String Unit :=
  if op.id = "" then .error "PipelineOperator.ID is required"
  else match checkType L E op with
    | .error err => .error err
    | .ok _ =>
      if !isValidOtelValue op.parseFrom || !isValidOtelValue op.parseTo || !isValidOtelValue op.from_ ||
          !isValidOtelValue op.to_ || !isValidOtelValue op.field then
        .error (L.errorf ("value should have prefix of body, attributes, resource for operator Id " ++ op.id))
      else .ok ()

/-- The loop over the operators, with the ids and the outputs that were seen. -/
def checkOperators (idUnique outputUnique : List String) : List PipelineOperator → Except String Unit
  | [] => .ok ()
  | op :: rest =>
    if op.orderId = 0 then .error "orderId with value > 1 is required in operator"
    else if op.id = "" then .error "id of an operator cannot be empty"
    else if op.type = "" then .error "type of an operator cannot be empty"
    else if rest ≠ [] ∧ op.output = "" then
      .error (L.errorf ("Output of operator " ++ op.id ++ " cannot be nil"))
    else if rest = [] ∧ op.output ≠ "" then
      .error (L.errorf ("Output of operator " ++ op.id ++ " should be empty"))
    else if op.id ∈ idUnique then .error "duplicate id cannot be present"
    else if op.output ∈ outputUnique then .error "duplicate output cannot be present"
    else if op.id = op.output then .error "id and output cannot be same"
    else match isValidOperator L E op with
      | .error err => .error err
      | .ok _ => checkOperators (op.id :: idUnique) (op.output :: outputUnique) rest

def PostablePipeline.isValid (p : PostablePipeline F) : Except BuildError Unit :=
  if p.orderId = 0 then .error (.error "orderId with value > 1 is required")
  else if p.name = "" then .error (.error "pipeline name is required")
  else if p.alias_ = "" then .error (.error "pipeline alias is required")
  else match E.parse p.filter with
    | .error (.error err) =>
      .error (.error (L.errorf ("filter for pipeline " ++ p.name ++ " is not correct: " ++ err)))
    | .error .panic => .error .panic
    | .ok _ => (checkOperators L E [] [] p.config).mapError .error

/-! ### What has passed -/

/-- No operator sends logs by conditions of the user's own. -/
theorem type_of_isValidOperator {op : PipelineOperator} (h : isValidOperator L E op = .ok ()) :
    op.type ≠ "router" := by
  intro htype
  have hchecked : checkType L E op = .error (L.errorf ("operator type " ++ op.type ++ " not supported for " ++
      op.id ++ ", use one of (grok_parser, regex_parser, copy, move, add, remove, trace_parser, retain)")) := by
    simp [checkType, htype]
  rw [isValidOperator, hchecked] at h
  split at h
  · cases h
  · cases h

/-- What is known of the operators of a pipeline that has passed. -/
structure ValidOperators (idUnique : List String) (ops : List PipelineOperator) : Prop where
  distinct : (ops.map fun op => op.id).Nodup
  fresh : ∀ op ∈ ops, op.id ∉ idUnique
  id_ne : ∀ op ∈ ops, op.id ≠ ""
  type_ne : ∀ op ∈ ops, op.type ≠ "router"
  last : ∀ op, ops.getLast? = some op → op.output = ""

omit [Go.Unicode] in
theorem validOperators_nil (idUnique : List String) : ValidOperators idUnique [] where
  distinct := List.nodup_nil
  fresh _ h := absurd h List.not_mem_nil
  id_ne _ h := absurd h List.not_mem_nil
  type_ne _ h := absurd h List.not_mem_nil
  last _ h := by cases h

omit [Go.Unicode] in
theorem ValidOperators.cons {idUnique : List String} {op : PipelineOperator} {rest : List PipelineOperator}
    (h : ValidOperators (op.id :: idUnique) rest) (hid : op.id ≠ "") (hfresh : op.id ∉ idUnique)
    (htype : op.type ≠ "router") (hlast : rest = [] → op.output = "") :
    ValidOperators idUnique (op :: rest) where
  distinct := by
    refine List.nodup_cons.mpr ⟨fun hmem => ?_, h.distinct⟩
    obtain ⟨op', hop', heq⟩ := List.mem_map.mp hmem
    exact h.fresh op' hop' (heq ▸ List.mem_cons_self)
  fresh := List.forall_mem_cons.mpr ⟨hfresh, fun op' hop' => List.not_mem_of_not_mem_cons (h.fresh op' hop')⟩
  id_ne := List.forall_mem_cons.mpr ⟨hid, h.id_ne⟩
  type_ne := List.forall_mem_cons.mpr ⟨htype, h.type_ne⟩
  last op' hop' := by
    cases rest with
    | nil =>
      obtain rfl := Option.some.inj hop'
      exact hlast rfl
    | cons op₁ rest => exact h.last op' (List.getLast?_cons_cons.symm.trans hop')

theorem validOperators_of_checkOperators {ops : List PipelineOperator} :
    ∀ {idUnique outputUnique : List String}, checkOperators L E idUnique outputUnique ops = .ok () →
      ValidOperators idUnique ops := by
  induction ops with
  | nil => exact fun _ => validOperators_nil _
  | cons op rest ih =>
    intro idUnique outputUnique h
    rw [checkOperators] at h
    split_ifs at h with _ hid _ _ hlast hfresh
    cases hop : isValidOperator L E op with
    | error err =>
      rw [hop] at h
      cases h
    | ok _ =>
      rw [hop] at h
      refine (ih h).cons hid hfresh (type_of_isValidOperator L E hop) fun hrest => ?_
      exact of_not_not fun hne => hlast ⟨hrest, hne⟩

theorem validOperators_of_isValid {p : PostablePipeline F} (h : p.isValid L E = .ok ()) :
    ValidOperators [] p.config ∧ ∃ filterExpr, E.parse p.filter = .ok filterExpr := by
  rw [PostablePipeline.isValid] at h
  split_ifs at h
  split at h
  · cases h
  · cases h
  · rename_i filterExpr hparse
    refine ⟨?_, filterExpr, hparse⟩
    cases hchecked : checkOperators L E [] [] p.config with
    | error err =>
      rw [hchecked] at h
      cases h
    | ok _ => exact validOperators_of_checkOperators L E hchecked

end Checks

end QueryService.LogParsingPipeline
