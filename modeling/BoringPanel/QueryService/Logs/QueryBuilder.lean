import BoringPanel.QueryService.Resource.QueryBuilder

/-!
# Conditions on the attributes of a log

`app/logs/v4/query_builder.go`: the name of the column or of the map entry of a key, and the condition of
an item of the filter set. The operators `contains` and `like` do not look at the case of letters:
`ILIKE` for attributes, and `LIKE` between texts in lower case for the body, whose index is on the text in
lower case.
-/

namespace QueryService

/-- What panics where there is none. -/
def orPanic {α : Type} : Option α → Except BuildError α
  | some a => .ok a
  | none => .error .panic

theorem orPanic_ok {α : Type} {x : Option α} {a : α} (h : orPanic x = .ok a) : x = some a := by
  cases x with
  | none => cases h
  | some b => exact congrArg some (Except.ok.inj h)

namespace Logs

open Utils

variable {F : Type} [GoFloat F] [Go.Unicode]

/-- The keys of `constants.StaticFieldsLogsV3`. -/
def staticFieldsLogsV3 : List String :=
  ["timestamp", "id", "trace_id", "span_id", "trace_flags", "severity_text", "severity_number", "body",
    "__attrs", "scope_name", "scope_version"]

def logOperators : FilterOperator → Option String
  | .equal => some "="
  | .notEqual => some "!="
  | .lessThan => some "<"
  | .lessThanOrEq => some "<="
  | .greaterThan => some ">"
  | .greaterThanOrEq => some ">="
  | .like => some "ILIKE"
  | .notLike => some "NOT ILIKE"
  | .contains => some "ILIKE"
  | .notContains => some "NOT ILIKE"
  | .regex => some "match(%s, %s)"
  | .notRegex => some "NOT match(%s, %s)"
  | .in => some "IN"
  | .notIn => some "NOT IN"
  | .exists => some "mapContains(%s_%s, '%s')"
  | .notExists => some "not mapContains(%s_%s, '%s')"
  | .has => none
  | .notHas => none

/-- `BODY`. -/
def body : String := "body"

/-- `GetClickhouseLogsColumnType` of `app/logs/v3/query_builder.go`. -/
def getClickhouseLogsColumnType : AttributeKeyType → String
  | .tag => "attributes"
  | .instrumentationScope => "scope"
  | .unspecified | .resource => "resources"

def getClickhouseLogsColumnDataType : AttributeKeyDataType → String
  | .float64 | .int64 => "number"
  | .bool => "bool"
  | _ => "string"

/-- A field of the log itself. -/
def isStaticField (key : AttributeKey) : Bool :=
  key.key ∈ staticFieldsLogsV3 ∧ key.type = .unspecified

def getClickhouseKey (key : AttributeKey) : Option String :=
  if isStaticField key then some key.key
  else if ¬ key.isColumn then
    some (getClickhouseLogsColumnType key.type ++ "_" ++ getClickhouseLogsColumnDataType key.dataType ++
      "['" ++ key.key ++ "']")
  else
    (getClickhouseColumnNameV2 key.type.toString key.dataType.toString key.key).map fun name =>
      "\x60" ++ name ++ "\x60"

def getExistsNexistsFilter (op : FilterOperator) (item : FilterItem F) : Option String :=
  if isStaticField item.key then
    let chOp := if op = .notExists then "=" else "!="
    (getClickhouseKey item.key).map fun key =>
      if item.key.dataType = .string then key ++ " " ++ chOp ++ " ''" else key ++ " " ++ chOp ++ " 0"
  else if item.key.isColumn then
    let val := op ≠ .notExists
    (getClickhouseKey item.key).map fun key =>
      Go.trimSuffix key "\x60" ++ "_exists\x60=" ++ toString (decide val)
  else
    some (Go.formatS ((logOperators op).getD "").toList
      [getClickhouseLogsColumnType item.key.type, getClickhouseLogsColumnDataType item.key.dataType,
        item.key.key])

/-- `ILIKE` without its `I`. -/
def withoutI (logsOp : String) : String :=
  String.ofList (Go.replaceFirst "ILIKE".toList "LIKE".toList logsOp.toList)

def buildAttributeFilter (item : FilterItem F) : Except BuildError String := do
  let key := item.key.key
  let op := item.operator
  let value ← Resource.itemValue item
  -- the values of all attributes
  if key = "__attrs" then
    if (op ≠ .equal ∧ op ≠ .contains) ∨ item.key.dataType ≠ .string then
      throw (.error "only = operator and string data type is supported for __attrs")
    let val ← orPanic (clickHouseFormattedValue item.value)
    return "has(mapValues(attributes_string), " ++ val ++ ")"
  let keyName ← orPanic (getClickhouseKey item.key)
  let fmtVal ← orPanic (clickHouseFormattedValue value)
  match logOperators op with
  | none => throw (.error ("unsupported operator: " ++ op.toString))
  | some logsOp =>
    match op with
    | .exists | .notExists => orPanic (getExistsNexistsFilter op item)
    | .regex | .notRegex => return Go.formatS logsOp.toList [keyName, fmtVal]
    | .contains | .notContains =>
      let val := quoteEscapedStringForContains (item.value.formatS false) false
      if keyName = body then
        return "lower(" ++ keyName ++ ") " ++ withoutI logsOp ++ " lower('%" ++ val ++ "%')"
      else return keyName ++ " " ++ logsOp ++ " '%" ++ val ++ "%'"
    | .like | .notLike =>
      let val := quoteEscapedString (item.value.formatS false)
      if keyName = body then
        return "lower(" ++ keyName ++ ") " ++ withoutI logsOp ++ " lower('" ++ val ++ "')"
      else return keyName ++ " " ++ logsOp ++ " '" ++ val ++ "'"
    | _ => return keyName ++ " " ++ logsOp ++ " " ++ fmtVal

end Logs

end QueryService
