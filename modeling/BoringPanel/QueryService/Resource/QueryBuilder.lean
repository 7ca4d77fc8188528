import BoringPanel.QueryService.Utils.Cast

/-!
# The resource sub-query

`app/resource/resource_query_builder.go`: the conditions on the table of resource fingerprints, whose
column `labels` holds the JSON text of the labels of a resource. An item of the filter set gives an
exact condition and a condition for the index, which is a `LIKE` over that text.
-/

namespace QueryService.Resource

open Utils

variable {F : Type} [GoFloat F] [Go.Unicode]

/-- `resourceLogOperators`. -/
def resourceLogOperators : FilterOperator → Option String
  | .equal => some "="
  | .notEqual => some "!="
  | .lessThan => some "<"
  | .lessThanOrEq => some "<="
  | .greaterThan => some ">"
  | .greaterThanOrEq => some ">="
  | .like => some "LIKE"
  | .notLike => some "NOT LIKE"
  | .contains => some "LIKE"
  | .notContains => some "NOT LIKE"
  | .regex => some "match(%s, %s)"
  | .notRegex => some "NOT match(%s, %s)"
  | .in => some "IN"
  | .notIn => some "NOT IN"
  | .exists => some "mapContains(%s_%s, '%s')"
  | .notExists => some "not mapContains(%s_%s, '%s')"
  | .has => none
  | .notHas => none

/-- `buildResourceFilter`; `none` where it panics. -/
def buildResourceFilter (logsOp key : String) (op : FilterOperator) (value : GoValue F) :
    Option String := do
  let searchKey := "simpleJSONExtractString(labels, '" ++ key ++ "')"
  -- contains and like do not look at the case
  let lowerSearchKey := "simpleJSONExtractString(lower(labels), '" ++ key ++ "')"
  let chFmtVal ← clickHouseFormattedValue value
  let lowerValue := Go.toLower (value.formatS false)
  match op with
  | .exists => some ("simpleJSONHas(labels, '" ++ key ++ "')")
  | .notExists => some ("not simpleJSONHas(labels, '" ++ key ++ "')")
  | .regex | .notRegex => some (Go.formatS logsOp.toList [searchKey, chFmtVal])
  | .contains | .notContains =>
    some (lowerSearchKey ++ " " ++ logsOp ++ " '%" ++
      quoteEscapedStringForContains lowerValue false ++ "%'")
  | .like | .notLike =>
    some (lowerSearchKey ++ " " ++ logsOp ++ " '" ++ quoteEscapedString lowerValue ++ "'")
  | _ => some (searchKey ++ " " ++ logsOp ++ " " ++ chFmtVal)

/-- The strings of a value; what is no string is passed over. -/
def stringValues : GoValue F → List String
  | .string s => [s]
  | .array vs => vs.filterMap fun
      | .string s => some s
      | _ => none
  | _ => []

/-- `buildIndexFilterForInOperator`. -/
def buildIndexFilterForInOperator (key : String) (op : FilterOperator) (value : GoValue F) :
    String :=
  let separator := if op = .notIn then " AND " else " OR "
  let sqlOp := if op = .notIn then "not like" else "like"
  let values := stringValues value
  if 0 < values.length then
    let conditions := values.map fun v =>
      "labels " ++ sqlOp ++ " '%\"" ++ key ++ "\":\"" ++ quoteEscapedStringForContains v true ++
        "\"%'"
    "(" ++ Go.join separator conditions ++ ")"
  else ""

/-- `buildResourceIndexFilter`. -/
def buildResourceIndexFilter (key : String) (op : FilterOperator) (value : GoValue F) : String :=
  let strVal := value.formatS false
  let fmtValEscapedForContains := quoteEscapedStringForContains strVal true
  let fmtValEscapedForContainsLower := Go.toLower fmtValEscapedForContains
  let fmtValEscapedLower := Go.toLower (quoteEscapedString strVal)
  match op with
  | .contains =>
    "lower(labels) like '%" ++ key ++ "%" ++ fmtValEscapedForContainsLower ++ "%'"
  | .notContains =>
    "lower(labels) not like '%" ++ key ++ "%" ++ fmtValEscapedForContainsLower ++ "%'"
  | .like => "lower(labels) like '%" ++ key ++ "%" ++ fmtValEscapedLower ++ "%'"
  | .notLike => "lower(labels) not like '%" ++ key ++ "%" ++ fmtValEscapedLower ++ "%'"
  | .equal => "labels like '%" ++ key ++ "%" ++ fmtValEscapedForContains ++ "%'"
  | .notEqual => "labels not like '%" ++ key ++ "%" ++ fmtValEscapedForContains ++ "%'"
  | .regex | .notRegex => ""
  | .in | .notIn => buildIndexFilterForInOperator key op value
  -- "not exists" and the comparisons included
  | _ => "labels like '%" ++ key ++ "%'"

/-- The value that an item is compared with: none for the operators about existence. -/
def itemValue (item : FilterItem F) : Except BuildError (GoValue F) :=
  if item.operator = .exists ∨ item.operator = .notExists then .ok .nil
  else
    match validateAndCastValue item.value item.key.dataType with
    | .ok value => .ok value
    | .error (.error message) =>
      .error (.error ("failed to validate and cast value for " ++ item.key.key ++ ": " ++ message))
    | .error .panic => .error .panic

/-- The conditions of one item, the exact one first: the body of the loop of
`buildResourceFiltersFromFilterItems`. -/
def itemConditions (item : FilterItem F) : Except BuildError (List String) := do
  if item.key.type ≠ .resource then return []
  if item.key.dataType ≠ .string ∧ item.operator ≠ .in ∧ item.operator ≠ .notIn then
    throw (.error ("invalid data type for resource attribute: " ++ item.key.key))
  let value ← itemValue item
  match resourceLogOperators item.operator with
  | some logsOp =>
    match buildResourceFilter logsOp item.key.key item.operator value with
    | none => throw .panic
    | some resourceFilter =>
      let resourceIndexFilter := buildResourceIndexFilter item.key.key item.operator value
      return [resourceFilter, resourceIndexFilter].filter fun s => s ≠ ""
  | none => throw (.error ("unsupported operator: " ++ item.operator.toString))

/-- `buildResourceFiltersFromFilterItems`. -/
def buildResourceFiltersFromFilterItems (fs : Option (FilterSet F)) :
    Except BuildError (List String) :=
  match fs with
  | none => .ok []
  | some fs => (fs.items.mapM itemConditions).map List.flatten

/-- The condition that a key is among the labels. -/
def presenceCondition (key : String) : String :=
  "(simpleJSONHas(labels, '" ++ key ++ "') AND labels like '%" ++ key ++ "%')"

/-- `buildResourceFiltersFromGroupBy`. -/
def buildResourceFiltersFromGroupBy (groupBy : List AttributeKey) : List String :=
  (groupBy.filter fun attr => attr.type = .resource).map fun attr => presenceCondition attr.key

/-- `buildResourceFiltersFromAggregateAttribute`. -/
def buildResourceFiltersFromAggregateAttribute (aggregateAttribute : AttributeKey) : String :=
  if aggregateAttribute.key ≠ "" ∧ aggregateAttribute.type = .resource then
    presenceCondition aggregateAttribute.key
  else ""

/-- `BuildResourceSubQuery`. -/
def buildResourceSubQuery (dbName tableName : String) (bucketStart bucketEnd : Int)
    (fs : Option (FilterSet F)) (groupBy : List AttributeKey) (aggregateAttribute : AttributeKey)
    (isLiveTail : Bool) : Except BuildError String := do
  let rs ← buildResourceFiltersFromFilterItems fs
  let aggregateAttributeResourceFilter :=
    buildResourceFiltersFromAggregateAttribute aggregateAttribute
  let conditions := rs ++
    if aggregateAttributeResourceFilter ≠ "" then [aggregateAttributeResourceFilter] else []
  let groupByResourceFilters := buildResourceFiltersFromGroupBy groupBy
  let conditions := conditions ++
    if 0 < groupByResourceFilters.length then
      ["( " ++ Go.join " AND " groupByResourceFilters ++ " )"]
    else []
  if conditions.length = 0 then return ""
  let conditionStr := Go.join " AND " conditions
  if isLiveTail then
    return "(" ++ ("SELECT fingerprint FROM " ++ dbName ++ "." ++ tableName ++ " WHERE ") ++
      conditionStr
  else
    return "(" ++ ("SELECT fingerprint FROM " ++ dbName ++ "." ++ tableName ++
      " WHERE (seen_at_ts_bucket_start >= " ++ toString bucketStart ++
      ") AND (seen_at_ts_bucket_start <= " ++ toString bucketEnd ++ ") AND ") ++ conditionStr ++ ")"

end QueryService.Resource
