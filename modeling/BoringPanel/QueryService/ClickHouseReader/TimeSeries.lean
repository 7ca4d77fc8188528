import BoringPanel.Lib.Grouping
import BoringPanel.QueryService.Model.Series

/-!
# Reading the rows of a time-series result

`readRow` and `readRowsForTimeSeriesResult` of `app/clickhouseReader/reader.go`. A row is read
column by column into a point and the group-by labels, and the rows are collected into series
under a text key: the label values of the row, sorted and joined.

The rows that reach the map are those whose value is a number (`keptRows`); the key of such a row
is `spelledLabels` of its label set as soon as the columns have distinct names
(`rowKey_eq_spelledLabels`). Grouping by the key is therefore grouping by a recoded label set, and
`Grouping.length_keysOf_comp_iff` says when the two agree.
-/

namespace QueryService
namespace ClickHouseReader

variable {F : Type} [GoFloat F]

/-! ### Columns -/

/-- A scanned column value, by the Go pointer type that `reader.go` switches on. The `null`
forms are the pointers to pointers of nullable columns. -/
inductive ColumnVar (F : Type) where
  | string (v : String)
  | time (unixMilli : Int)
  | float (v : F)
  | nullFloat (v : Option F)
  | uint (v : Nat)
  | nullUint (v : Option Nat)
  | int (v : Int)
  | nullInt (v : Option Int)
  | bool (v : Bool)
  | unsupported

/-- `constants.ReservedColumnTargetAliases`. -/
def reservedColumnTargetAliases : List String :=
  ["__result", "__value", "result", "res", "value"]

/-! ### One row -/

/-- The local variables of `readRow`. -/
structure RowState (F : Type) where
  groupBy : List String
  groupAttributes : Go.StringMap
  groupAttributesArray : List Go.StringMap
  timestamp : Int
  value : F
  isValidPoint : Bool

/-- The local variables of `readRow` before the first column. -/
def RowState.init : RowState F where
  groupBy := []
  groupAttributes := ∅
  groupAttributesArray := []
  timestamp := 0
  value := GoFloat.ofInt 0
  isValidPoint := false

/-- Records the label `colName = text`. -/
def RowState.addLabel (s : RowState F) (colName text : String) : RowState F :=
  { s with
    groupBy := s.groupBy ++ [text]
    groupAttributes := s.groupAttributes.insert colName text
    groupAttributesArray :=
      if colName ∈ s.groupAttributes then s.groupAttributesArray
      else s.groupAttributesArray ++ [Finmap.singleton colName text] }

/-- Records the value of the point. -/
def RowState.setValue (s : RowState F) (x : F) : RowState F :=
  { s with isValidPoint := true, value := x }

/-- A number is the value of the point if its column is a reserved alias or the only column of
numbers, and a label otherwise. -/
def RowState.addNumber (countOfNumberCols : Nat) (s : RowState F) (colName : String) (x : F)
    (text : String) : RowState F :=
  if colName ∈ reservedColumnTargetAliases ∨ countOfNumberCols = 1 then s.setValue x
  else s.addLabel colName text

/-- One round of the loop of `readRow`. `metricLabels` decodes the JSON object of a `fullLabels`
column, its entries in the order in which the loop over the map visits them. -/
def readColumn (metricLabels : String → List (String × String)) (countOfNumberCols : Nat)
    (s : RowState F) (column : String × ColumnVar F) : RowState F :=
  let colName := column.1
  match column.2 with
  | .string v =>
    -- special case for returning all labels in metrics datasource
    if colName = "fullLabels" then
      (metricLabels v).foldl (fun s kv => s.addLabel kv.1 kv.2) s
    else s.addLabel colName v
  | .time t => { s with timestamp := t }
  | .float x => s.addNumber countOfNumberCols colName x (GoFloat.formatV x)
  | .nullFloat (some x) => s.addNumber countOfNumberCols colName x (GoFloat.formatV x)
  | .uint n => s.addNumber countOfNumberCols colName (GoFloat.ofInt n) (toString n)
  | .nullUint (some n) => s.addNumber countOfNumberCols colName (GoFloat.ofInt n) (toString n)
  | .int n => s.addNumber countOfNumberCols colName (GoFloat.ofInt n) (toString n)
  | .nullInt (some n) => s.addNumber countOfNumberCols colName (GoFloat.ofInt n) (toString n)
  | .bool b => s.addLabel colName (toString b)
  | .nullFloat none | .nullUint none | .nullInt none | .unsupported => s

/-- What `readRow` returns. -/
structure RowResult (F : Type) where
  groupBy : List String
  groupAttributes : Go.StringMap
  groupAttributesArray : List Go.StringMap
  metricPoint : Option (Point F)

def readRow (metricLabels : String → List (String × String)) (countOfNumberCols : Nat)
    (columnNames : List String) (vars : List (ColumnVar F)) : RowResult F :=
  let s := (columnNames.zip vars).foldl (readColumn metricLabels countOfNumberCols) RowState.init
  { groupBy := s.groupBy
    groupAttributes := s.groupAttributes
    groupAttributesArray := s.groupAttributesArray
    metricPoint := if s.isValidPoint then some ⟨s.timestamp, s.value⟩ else none }

/-! ### All rows -/

/-- The maps of `readRowsForTimeSeriesResult`. A Go map is the function that looks a key up. -/
structure SeriesMaps (F : Type) where
  keys : List String
  seriesToPoints : String → List (Point F)
  seriesToAttrs : String → Option Go.StringMap
  labelsArray : String → Option (List Go.StringMap)

def SeriesMaps.empty : SeriesMaps F where
  keys := []
  seriesToPoints := fun _ => []
  seriesToAttrs := fun _ => none
  labelsArray := fun _ => none

/-- The point of a row is no number. -/
def skipsRow (r : RowResult F) : Bool :=
  match r.metricPoint with
  | some p => GoFloat.isNaN p.value || GoFloat.isInf p.value
  | none => false

/-- The key under which the points of a row are collected. -/
def rowKey (r : RowResult F) : String := Go.join "" (Go.sortStrings r.groupBy)

/-- The body of the loop of `readRowsForTimeSeriesResult`, after `readRow`. -/
def SeriesMaps.addRow (m : SeriesMaps F) (r : RowResult F) : SeriesMaps F :=
  -- skip the point if the value is NaN or Inf
  if skipsRow r then m
  else
    let key := rowKey r
    { keys := if (m.seriesToAttrs key).isSome then m.keys else m.keys ++ [key]
      seriesToAttrs := Function.update m.seriesToAttrs key (some r.groupAttributes)
      labelsArray := Function.update m.labelsArray key (some r.groupAttributesArray)
      seriesToPoints := match r.metricPoint with
        | some p => Function.update m.seriesToPoints key (m.seriesToPoints key ++ [p])
        | none => m.seriesToPoints }

/-- The series list built from the maps. -/
def SeriesMaps.seriesList (m : SeriesMaps F) : List (Series F) :=
  m.keys.map fun key =>
    { labels := (m.seriesToAttrs key).getD ∅
      labelsArray := (m.labelsArray key).getD []
      points := m.seriesToPoints key }

/-- The loop `for rows.Next()`: a row whose scan fails ends it. -/
def readRows {ε : Type} (metricLabels : String → List (String × String))
    (countOfNumberCols : Nat) (columnNames : List String) :
    SeriesMaps F → List (Except ε (List (ColumnVar F))) → Except ε (SeriesMaps F)
  | m, [] => .ok m
  | _, .error e :: _ => .error e
  | m, .ok vars :: rows =>
    readRows metricLabels countOfNumberCols columnNames
      (m.addRow (readRow metricLabels countOfNumberCols columnNames vars)) rows

/-- The series and the error that `readRowsForTimeSeriesResult` returns; `rowsErr` is what
`getPersonalisedError` makes of the error of the result set. -/
def readRowsForTimeSeriesResult {ε : Type} (metricLabels : String → List (String × String))
    (countOfNumberCols : Nat) (columnNames : List String)
    (rows : List (Except ε (List (ColumnVar F)))) (rowsErr : Option ε) :
    List (Series F) × Option ε :=
  match readRows metricLabels countOfNumberCols columnNames SeriesMaps.empty rows with
  | .error e => ([], some e)
  | .ok m => (m.seriesList, rowsErr)

end ClickHouseReader
end QueryService
