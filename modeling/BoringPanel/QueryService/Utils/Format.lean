import BoringPanel.Lib.GoText
import BoringPanel.QueryService.Model.V3

/-!
# Formatting values

How a JSON value is written into a text: by `fmt` (`GoValue.formatV`), into a ClickHouse statement
(`clickHouseFormattedValue` of `utils/format.go`) and into a PromQL query (`promFormattedValue` of
`app/metrics/query_builder.go`).
-/

namespace QueryService

variable {F : Type} [GoFloat F]

/-! ### The package `fmt` -/

mutual

/-- `fmt.Sprintf("%v", v)`, which is also `fmt.Sprint(v)`. -/
def GoValue.formatV : GoValue F → String
  | .nil => "<nil>"
  | .bool b => toString b
  | .int n => toString n
  | .float x => GoFloat.formatV x
  | .string s => s
  | .array vs => "[" ++ formatVs vs ++ "]"
  | .object entries => "map[" ++ formatEntries entries ++ "]"

def GoValue.formatVs : List (GoValue F) → String
  | [] => ""
  | [v] => v.formatV
  | v :: w :: vs => v.formatV ++ " " ++ formatVs (w :: vs)

def GoValue.formatEntries : List (String × GoValue F) → String
  | [] => ""
  | [(k, v)] => k ++ ":" ++ v.formatV
  | (k, v) :: e :: es => k ++ ":" ++ v.formatV ++ " " ++ formatEntries (e :: es)

end

mutual

/-- `fmt.Sprintf("%s", v)`, which marks what is no string, a `nil` only outside of lists. -/
def GoValue.formatS (inside : Bool) : GoValue F → String
  | .nil => if inside then "<nil>" else "%!s(<nil>)"
  | .bool b => "%!s(bool=" ++ toString b ++ ")"
  | .int n => "%!s(int64=" ++ toString n ++ ")"
  | .float x => "%!s(float64=" ++ GoFloat.formatV x ++ ")"
  | .string s => s
  | .array vs => "[" ++ formatSs vs ++ "]"
  | .object entries => "map[" ++ formatSEntries entries ++ "]"

def GoValue.formatSs : List (GoValue F) → String
  | [] => ""
  | [v] => v.formatS true
  | v :: w :: vs => v.formatS true ++ " " ++ formatSs (w :: vs)

def GoValue.formatSEntries : List (String × GoValue F) → String
  | [] => ""
  | [(k, v)] => k ++ ":" ++ v.formatS true
  | (k, v) :: e :: es => k ++ ":" ++ v.formatS true ++ " " ++ formatSEntries (e :: es)

end

namespace Utils

/-! ### ClickHouse literals -/

/-- `QuoteEscapedString`. -/
def quoteEscapedString (str : String) : String :=
  let str := Go.replaceAll str "\\" "\\\\"
  Go.replaceAll str "'" "\\'"

/-- `QuoteEscapedStringForContains`: escapes the wildcards of `LIKE`, and for an index the quotes as
they stand in the JSON text of the labels. -/
def quoteEscapedStringForContains (str : String) (isIndex : Bool) : String :=
  let str := quoteEscapedString str
  let str := if isIndex then Go.replaceAll str "\"" "\\\\\\\\\"" else str
  let str := Go.replaceAll str "%" "\\%"
  Go.replaceAll str "_" "\\_"

/-- `fmt.Sprintf("'%s'", QuoteEscapedString(s))`. -/
def quoted (s : String) : String := "'" ++ quoteEscapedString s ++ "'"

/-- The strings of a list; `none` if one of the values is no string. -/
def strings? : List (GoValue F) → Option (List String)
  | [] => some []
  | .string s :: vs => (strings? vs).map (s :: ·)
  | _ :: _ => none

/-- `ClickHouseFormattedValue`; `none` where a type assertion panics. -/
def clickHouseFormattedValue : GoValue F → Option String
  | .int n => some (toString n)
  | .float x => some (GoFloat.formatF x)
  | .string s => some (quoted s)
  | .bool b => some (toString b)
  | .array [] => some "[]"
  | .array (.string s :: vs) => do
    let ss ← strings? vs
    pure ("[" ++ Go.join "," ((s :: ss).map quoted) ++ "]")
  | .array (.nil :: _) => some "[]"
  | .array (.array _ :: _) => some "[]"
  | .array (.object _ :: _) => some "[]"
  -- numbers and booleans
  | .array vs => some (Go.join "," (Go.fields (GoValue.array vs).formatV))
  | .nil => some ""
  | .object _ => some ""

/-! ### Columns -/

/-- `GetClickhouseColumnNameV2` of `utils/format.go`; `none` where the type has no last character to
leave out. -/
def getClickhouseColumnNameV2 [Go.Unicode] (typeName dataType field : String) : Option String :=
  let typeName := if typeName = AttributeKeyType.tag.toString then "attributes" else typeName
  let typeName := if typeName ≠ AttributeKeyType.resource.toString then
      if typeName = "" then none else some (String.ofList typeName.toList.dropLast)
    else some typeName
  let dataType := Go.toLower dataType
  let dataType := if dataType = "int64" ∨ dataType = "float64" then "number" else dataType
  typeName.map fun typeName =>
    Go.toLower typeName ++ "_" ++ dataType ++ "_" ++ Go.replaceAll field "." "$$"

end Utils

namespace Metrics

/-- `PromFormattedValue`: a list of values is joined by `|`. -/
def promFormattedValue : GoValue F → String
  | .int n => toString n
  | .float x => GoFloat.formatF x
  | .string s => s
  | .bool b => toString b
  | .array [] => ""
  | .array (.nil :: _) => ""
  | .array (.array _ :: _) => ""
  | .array (.object _ :: _) => ""
  | .array vs => Go.join "|" (vs.map GoValue.formatV)
  | .nil => ""
  | .object _ => ""

end Metrics

end QueryService
