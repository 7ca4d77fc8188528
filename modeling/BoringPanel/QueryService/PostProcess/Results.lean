import BoringPanel.Lib.GoNumber
import BoringPanel.Lib.MapState
import BoringPanel.QueryService.Model.Series
import BoringPanel.QueryService.Model.V3

/-!
# Results of builder queries

`Result`, `OrderBy` and what the steps of package `postprocess` read of a `BuilderQuery`. The map of
builder queries is read by name only; a name that is not in it is a `nil` query.
-/

namespace QueryService
namespace PostProcess

deriving instance DecidableEq for Series

structure Result (F : Type) where
  queryName : String
  series : List (Series F)
deriving DecidableEq

/-- `order` is `"asc"` or `"desc"` in a request that the frontend sends; the code compares it with
these two. -/
structure OrderBy where
  columnName : String
  order : String
deriving DecidableEq, Repr

inductive ReduceToOperator where
  | unspecified
  | last
  | sum
  | avg
  | min
  | max
deriving DecidableEq, Repr

/-- A builder query or a formula: it is a formula if its expression is not its name. The data source of
a formula is empty. -/
structure BuilderQuery where
  queryName : String
  stepInterval : Int
  dataSource : Option DataSource
  expression : String
  limit : UInt64
  orderBy : List OrderBy
  reduceTo : ReduceToOperator
deriving DecidableEq, Repr

abbrev BuilderQueries := String → Option BuilderQuery

variable {F : Type}

/-- All points, in the order in which the loops visit them. -/
def pointsOfResults (results : List (Result F)) : List (Point F) :=
  results.flatMap fun r => r.series.flatMap Series.points

end PostProcess
end QueryService
