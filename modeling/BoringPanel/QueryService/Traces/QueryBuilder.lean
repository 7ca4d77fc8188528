import BoringPanel.QueryService.Logs.QueryBuilder

/-!
# Conditions on the attributes of a span

`app/traces/v4/query_builder.go`: the name of the column or of the map entry of a key, and the conditions of
the items of a filter set (`buildTracesFilterQuery`). Items on resource attributes give none here.
-/

namespace QueryService.Traces

open Utils

variable {F : Type} [GoFloat F] [Go.Unicode]

def tracesOperatorMappingV3 : FilterOperator → Option String
  | .in => some "IN"
  | .notIn => some "NOT IN"
  | .equal => some "="
  | .notEqual => some "!="
  | .lessThan => some "<"
  | .lessThanOrEq => some "<="
  | .greaterThan => some ">"
  | .greaterThanOrEq => some ">="
  | .like => some "ILIKE"
  | .notLike => some "NOT ILIKE"
  | .regex => some "match(%s, %s)"
  | .notRegex => some "NOT match(%s, %s)"
  | .contains => some "ILIKE"
  | .notContains => some "NOT ILIKE"
  | .exists => some "mapContains(%s, '%s')"
  | .notExists => some "NOT mapContains(%s, '%s')"
  | .has => none
  | .notHas => none

/-- The keys of `constants.NewStaticFieldsTraces`. -/
def newStaticFieldsTraces : List String :=
  ["timestamp", "trace_id", "span_id", "trace_state", "parent_span_id", "flags", "name", "kind",
    "kind_string", "duration_nano", "status_code", "status_message", "status_code_string",
    "response_status_code", "external_http_url", "http_url", "external_http_method", "http_method",
    "http_host", "db_name", "db_operation", "has_error", "is_remote"]

/-- The keys of `constants.DeprecatedStaticFieldsTraces`. -/
def deprecatedStaticFieldsTraces : List String :=
  ["traceID", "spanID", "parentSpanID", "flags", "name", "kind", "spanKind", "durationNano", "statusCode",
    "statusMessage", "statusCodeString", "responseStatusCode", "externalHttpUrl", "httpUrl",
    "externalHttpMethod", "httpMethod", "httpHost", "dbName", "dbOperation", "hasError", "isRemote",
    "serviceName", "httpRoute", "msgSystem", "msgOperation", "dbSystem", "rpcSystem", "rpcService",
    "rpcMethod", "peerService"]

/-- The keys of `constants.StaticFieldsTraces`. -/
def staticFieldsTraces : List String := newStaticFieldsTraces ++ deprecatedStaticFieldsTraces

def getClickHouseTracesColumnType (columnType : AttributeKeyType) : String :=
  if columnType = .resource then "resources" else "attributes"

def getClickHouseTracesColumnDataType : AttributeKeyDataType → String
  | .float64 | .int64 => "number"
  | .bool => "bool"
  | _ => "string"

def getColumnName (key : AttributeKey) : Option String :=
  if key.key ∈ staticFieldsTraces then some key.key
  else if ¬ key.isColumn then
    some (getClickHouseTracesColumnType key.type ++ "_" ++
      getClickHouseTracesColumnDataType key.dataType ++ "['" ++ key.key ++ "']")
  else
    (getClickhouseColumnNameV2 key.type.toString key.dataType.toString key.key).map fun name =>
      "\x60" ++ name ++ "\x60"

def existsSubQueryForFixedColumn (key : AttributeKey) (op : FilterOperator) : Except BuildError String :=
  if key.dataType = .string then do
    let columnName ← orPanic (getColumnName key)
    return columnName ++ (if op = .exists then " != ''" else " = ''")
  else throw (.error ("unsupported operation, exists and not exists can only be applied on custom " ++
    "attributes or string type columns"))

/-- The value that an item is compared with: as it is for the operators about existence. -/
def comparedValue (item : FilterItem F) : Except BuildError (GoValue F) :=
  if item.operator = .exists ∨ item.operator = .notExists then .ok item.value
  else
    match validateAndCastValue item.value item.key.dataType with
    | .ok value => .ok value
    | .error (.error message) =>
      .error (.error ("invalid value for key " ++ item.key.key ++ ": " ++ message))
    | .error .panic => .error .panic

/-- The condition of an item, none for a resource attribute: the body of the loop of
`buildTracesFilterQuery`. -/
def itemCondition (item : FilterItem F) : Except BuildError (List String) := do
  if item.key.type = .resource then return []
  let columnName ← orPanic (getColumnName item.key)
  let value ← comparedValue item
  let fmtVal ← orPanic (clickHouseFormattedValue value)
  match tracesOperatorMappingV3 item.operator with
  | none => throw (.error ("unsupported operator " ++ item.operator.toString))
  | some operator =>
    match item.operator with
    | .contains | .notContains =>
      let val := quoteEscapedStringForContains (item.value.formatS false) false
      return [columnName ++ " " ++ operator ++ " '%" ++ val ++ "%'"]
    | .regex | .notRegex => return [Go.formatS operator.toList [columnName, fmtVal]]
    | .exists | .notExists =>
      if item.key.isColumn then
        let subQuery ← existsSubQueryForFixedColumn item.key item.operator
        return [subQuery]
      else
        let col := getClickHouseTracesColumnType item.key.type ++ "_" ++
          getClickHouseTracesColumnDataType item.key.dataType
        return [Go.formatS operator.toList [col, item.key.key]]
    | _ => return [columnName ++ " " ++ operator ++ " " ++ fmtVal]

def buildTracesFilterQuery (fs : Option (FilterSet F)) : Except BuildError String :=
  match fs with
  | none => .ok ""
  | some fs => (fs.items.mapM itemCondition).map fun conditions => Go.join " AND " conditions.flatten

end QueryService.Traces
