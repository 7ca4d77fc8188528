import BoringPanel.Lib.Go

/-!
# Queries of the query service

The parts of `model/v3/v3.go` that the builders, the querier and the cache read: attribute keys,
filter items with their JSON values, and filter sets. Enumerations of the source are strings with a
list of constants; here they are inductive types, and `toString` is the constant.
-/

namespace QueryService

inductive DataSource where
  | traces
  | logs
  | metrics
deriving DecidableEq, Repr

inductive AttributeKeyDataType where
  | unspecified
  | string
  | int64
  | float64
  | bool
  | arrayString
  | arrayInt64
  | arrayFloat64
  | arrayBool
deriving DecidableEq, Repr

def AttributeKeyDataType.toString : AttributeKeyDataType → String
  | .unspecified => ""
  | .string => "string"
  | .int64 => "int64"
  | .float64 => "float64"
  | .bool => "bool"
  | .arrayString => "array(string)"
  | .arrayInt64 => "array(int64)"
  | .arrayFloat64 => "array(float64)"
  | .arrayBool => "array(bool)"

inductive AttributeKeyType where
  | unspecified
  | tag
  | resource
  | instrumentationScope
deriving DecidableEq, Repr

def AttributeKeyType.toString : AttributeKeyType → String
  | .unspecified => ""
  | .tag => "tag"
  | .resource => "resource"
  | .instrumentationScope => "scope"

structure AttributeKey where
  key : String
  dataType : AttributeKeyDataType
  type : AttributeKeyType
  isColumn : Bool
  isJSON : Bool
deriving DecidableEq, Repr

inductive FilterOperator where
  | equal
  | notEqual
  | greaterThan
  | greaterThanOrEq
  | lessThan
  | lessThanOrEq
  | in
  | notIn
  | contains
  | notContains
  | regex
  | notRegex
  | like
  | notLike
  | exists
  | notExists
  | has
  | notHas
deriving DecidableEq, Repr

def FilterOperator.toString : FilterOperator → String
  | .equal => "="
  | .notEqual => "!="
  | .greaterThan => ">"
  | .greaterThanOrEq => ">="
  | .lessThan => "<"
  | .lessThanOrEq => "<="
  | .in => "in"
  | .notIn => "nin"
  | .contains => "contains"
  | .notContains => "ncontains"
  | .regex => "regex"
  | .notRegex => "nregex"
  | .like => "like"
  | .notLike => "nlike"
  | .exists => "exists"
  | .notExists => "nexists"
  | .has => "has"
  | .notHas => "nhas"

/-- An `interface{}` value: what `encoding/json` decodes into one, and the integers that the
server itself puts there. The entries of an object are in the order of their keys. -/
inductive GoValue (F : Type) where
  | nil
  | bool (b : Bool)
  | int (n : Int)
  | float (x : F)
  | string (s : String)
  | array (vs : List (GoValue F))
  | object (entries : List (String × GoValue F))

structure FilterItem (F : Type) where
  key : AttributeKey
  value : GoValue F
  operator : FilterOperator

/-- A filter set. `operator` is `""`, `"AND"` or `"OR"` once `Validate` accepts it. -/
structure FilterSet (F : Type) where
  operator : String
  items : List (FilterItem F)

structure BuilderQuery (F : Type) where
  queryName : String
  filters : Option (FilterSet F)

/-- A `ClickHouseQuery` or a `PromQuery`. -/
structure TextQuery where
  query : String
  disabled : Bool
deriving DecidableEq, Repr

inductive QueryType where
  | unknown
  | builder
  | clickHouseSQL
  | promQL
deriving DecidableEq, Repr

inductive PanelType where
  | value
  | graph
  | table
  | list
  | trace
deriving DecidableEq, Repr

end QueryService
