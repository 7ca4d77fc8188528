import BoringPanel.QueryService.Utils.Format

/-!
# The variables of a query range request

What `ParseQueryRangeParams` of `app/parser.go` does with the dashboard variables of a request that
has been decoded and validated. In a builder query it puts the value of a variable in the place of a
filter value that looks like a reference to it; in the text of a PromQL or ClickHouse query it
replaces the references one variable after the other, in the order in which a `range` visits them, and
runs the text through the template engine.

The maps of queries are lists here, in the order in which they are visited. The engine is a parameter:
parsing a template and executing it with the variables.
-/

namespace QueryService
namespace Parser

variable {F : Type} [GoFloat F]

/-- `text/template`: `tmpl.Parse(text)`, then `tmpl.Execute(&out, variables)`. -/
abbrev TemplateEngine (F : Type) := String → Go.Map (GoValue F) → Except String String

/-- `vars` is `Variables`. -/
structure QueryRangeParamsV3 (F : Type) where
  start : Int
  end_ : Int
  panelType : PanelType
  queryType : QueryType
  builderQueries : List (String × BuilderQuery F)
  clickHouseQueries : List (String × TextQuery)
  promQueries : List (String × TextQuery)
  vars : Go.Map (GoValue F)

/-- Why no parameters are returned: an `ApiError` of type `bad_data`, or a type assertion panics. -/
inductive Failure where
  | badData (err : String)
  | panic
deriving DecidableEq, Repr

/-! ### Filter values -/

/-- The value of the variable that a filter value refers to; of a list, the first element counts. -/
def replaceValue (vars : Go.Map (GoValue F)) (value : GoValue F) : GoValue F :=
  let variableOf (x : String) := vars.lookup (Go.trim x "\x7b[.$]\x7d")
  match value with
  | .string x => (variableOf x).getD value
  | .array (.string x :: _) => (variableOf x).getD value
  | v => v

/-- A list is refused as the value of an operator that takes one value. -/
def checkValues (item : FilterItem F) : Except Failure Unit :=
  match item.operator, item.value with
  | .in, _ => pure ()
  | .notIn, _ => pure ()
  | op, .array vs => .error (.badData ("multiple values " ++ (GoValue.array vs).formatS false ++
      " are not allowed for operator `" ++ op.toString ++ "` for key `" ++ item.key.key ++ "`"))
  | _, _ => pure ()

/-- The loop over the items of a filter set. -/
def replaceItems (value : GoValue F → GoValue F) :
    List (FilterItem F) → Except Failure (List (FilterItem F))
  | [] => pure []
  | item :: items => do
    let item := { item with value := value item.value }
    checkValues item
    let items ← replaceItems value items
    pure (item :: items)

/-- The loop over the builder queries. -/
def replaceFilterVariables (value : GoValue F → GoValue F) :
    List (String × BuilderQuery F) → Except Failure (List (String × BuilderQuery F))
  | [] => pure []
  | (name, query) :: rest => do
    let filters ← match query.filters with
      | none => pure none
      | some fs => do
        let items ← replaceItems value fs.items
        pure (some { fs with items := items })
    let rest ← replaceFilterVariables value rest
    pure ((name, { query with filters := filters }) :: rest)

/-! ### Texts -/

/-- One round of the loop over the variables. -/
def replaceVariable (query name value : String) : String :=
  let query := Go.replaceAll query ("\x7b\x7b" ++ name ++ "\x7d\x7d") value
  let query := Go.replaceAll query ("[[" ++ name ++ "]]") value
  Go.replaceAll query ("$" ++ name) value

/-- The loop over the variables. -/
def replaceVariables (query : String) (vars : List (String × GoValue F)) : String :=
  vars.foldl (fun query e => replaceVariable query e.1 e.2.formatV) query

/-- The reserved variables, with their values. -/
def reservedVars (start end_ : Int) : List (String × GoValue F) :=
  [("start_timestamp", .int (start.tdiv 1000)),
    ("end_timestamp", .int (end_.tdiv 1000)),
    ("start_timestamp_ms", .int start),
    ("end_timestamp_ms", .int end_),
    ("SIGNOZ_START_TIME", .int start),
    ("SIGNOZ_END_TIME", .int end_),
    ("start_timestamp_nano", .int (Go.int64 (start * 1000000))),
    ("end_timestamp_nano", .int (Go.int64 (end_ * 1000000))),
    ("start_datetime", .string ("toDateTime(" ++ toString (start.tdiv 1000) ++ ")")),
    ("end_datetime", .string ("toDateTime(" ++ toString (end_.tdiv 1000) ++ ")"))]

/-- `AssignReservedVarsV3`. -/
def assignReservedVarsV3 (start end_ : Int) (vars : Go.Map (GoValue F)) : Go.Map (GoValue F) :=
  vars.setAll (reservedVars start end_)

/-- The loop over the PromQL or ClickHouse queries. Each enabled query visits the variables in an
order of its own, `orders` counts them from the last one; the reserved variables are added when the
first one is rendered. Returns the variables too. -/
def renderQueries (engine : TemplateEngine F) (orders : Nat → Go.MapOrder (GoValue F))
    (start end_ : Int) : List (String × TextQuery) → Go.Map (GoValue F) →
      Except Failure (List (String × TextQuery) × Go.Map (GoValue F))
  | [], vars => pure ([], vars)
  | (name, query) :: rest, vars =>
    if query.disabled then do
      let (rest, vars) ← renderQueries engine orders start end_ rest vars
      pure ((name, query) :: rest, vars)
    else do
      let text := replaceVariables query.query ((orders rest.length).order vars)
      let vars := assignReservedVarsV3 start end_ vars
      let text ← (engine text vars).mapError .badData
      let (rest, vars) ← renderQueries engine orders start end_ rest vars
      pure ((name, { query with query := text }) :: rest, vars)

/-- The variables as they are written into the texts; a builder query has none left. -/
def formatVariables (queryType : QueryType) (vars : Go.Map (GoValue F)) :
    Except Failure (Go.Map (GoValue F)) :=
  match queryType with
  | .promQL => pure (vars.mapValues fun v => .string (Metrics.promFormattedValue v))
  | .clickHouseSQL =>
    if vars.entries.any fun e => (Utils.clickHouseFormattedValue e.2).isNone then .error .panic
    else pure (vars.mapValues fun v => .string ((Utils.clickHouseFormattedValue v).getD ""))
  | .builder => pure .empty
  | .unknown => pure .empty

/-- `ParseQueryRangeParams`, from the formatting of the variables on. -/
def parseQueryRangeParams (engine : TemplateEngine F) (orders : Nat → Go.MapOrder (GoValue F))
    (p : QueryRangeParamsV3 F) : Except Failure (QueryRangeParamsV3 F) := do
  let formattedVars ← formatVariables p.queryType p.vars
  let builderQueries ←
    if p.queryType = .builder then replaceFilterVariables (replaceValue p.vars) p.builderQueries
    else pure p.builderQueries
  -- a prometheus instant query needs one timestamp
  let start := if p.panelType = .value ∧ p.queryType = .promQL then p.end_ else p.start
  let (clickHouseQueries, vars) ←
    if p.queryType = .clickHouseSQL then
      renderQueries engine orders start p.end_ p.clickHouseQueries formattedVars
    else pure (p.clickHouseQueries, formattedVars)
  let (promQueries, vars) ←
    if p.queryType = .promQL then
      renderQueries engine orders start p.end_ p.promQueries vars
    else pure (p.promQueries, vars)
  pure { p with start, builderQueries, clickHouseQueries, promQueries, vars }

end Parser
end QueryService
