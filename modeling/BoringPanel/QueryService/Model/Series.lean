import BoringPanel.Lib.Go
import BoringPanel.Lib.LastWins

/-!
# Time series of the query service

`Point` and `Series` of `model/v3/v3.go`, with `SortPoints` and `RemoveDuplicatePoints`. Timestamps
are milliseconds.
-/

namespace QueryService

/-- The value of one series at one time. -/
structure Point (F : Type) where
  timestamp : Int
  value : F
deriving DecidableEq

/-- A labelled list of points. `labelsArray` holds the labels one by one, in the order in which
the result set has its columns. -/
structure Series (F : Type) where
  labels : Go.StringMap
  labelsArray : List Go.StringMap
  points : List (Point F)

variable {F : Type}

/-- `SortPoints`. `sort.Slice` promises nothing about points of one timestamp. -/
def Series.sortPoints (pointSort : SortSlice (Point.timestamp (F := F))) (s : Series F) : Series F :=
  { s with points := pointSort.sort s.points }

/-- `RemoveDuplicatePoints`: the last point is the most recent one, adjusted for the flux interval. -/
def Series.removeDuplicatePoints (s : Series F) : Series F :=
  { s with points := LastWins.dedup Point.timestamp s.points }

end QueryService
