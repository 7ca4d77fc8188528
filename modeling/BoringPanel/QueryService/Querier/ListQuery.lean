import BoringPanel.QueryService.Model.V3
import BoringPanel.QueryService.Utils.Logs

/-!
# List queries, window by window

`runWindowBasedListQuery` of `app/querier/v2/querier.go`, for one enabled logs or traces query of a
list panel ordered by timestamp, newest first, with the statements that `PrepareLogsQuery` and
`PrepareTracesQuery` make of it. A statement is given by its clauses: the time range, the filter
items, `LIMIT` and `OFFSET`; the builders join the items with `AND`. The table answers a statement
with its rows in one fixed order, newest first (`RowTable`).

The loop over the windows is `runTraces` and `runLogs`. Their `uint64` counters wrap;
`tracesSubtractions` and `logsSubtractions` list the subtractions that a run makes.
-/

namespace QueryService
namespace Querier

variable {F R : Type}

/-! ### Statements and the table that answers them -/

/-- The `id < v` that the logs branch adds to the filters. -/
def idLessThan (v : String) : FilterItem F where
  key := { key := "id", dataType := .string, type := .unspecified, isColumn := true, isJSON := false }
  value := .string v
  operator := .lessThan

/-- A table of log records or spans. `rows` stand in the order in which the server returns them. -/
structure RowTable (F R : Type) where
  rows : List R
  /-- The timestamp in nanoseconds. -/
  timestamp : R → Int
  id : R → String
  /-- The row satisfies the condition that the builder makes of a filter item. -/
  satisfies : FilterItem F → R → Bool
  newestFirst : Windowed.NewestFirst timestamp rows
  nodup : rows.Nodup
  satisfies_idLessThan : ∀ v r, satisfies (idLessThan v) r = decide (id r < v)

/-- The clauses of a list statement. -/
structure ListStatement (F : Type) where
  start : Int
  end_ : Int
  items : List (FilterItem F)
  limit : Option Nat
  offset : Nat

/-- The rows that satisfy all filter items. -/
def RowTable.matching (t : RowTable F R) (items : List (FilterItem F)) : List R :=
  t.rows.filter fun r => items.all fun item => t.satisfies item r

/-- The answer to a statement. -/
def RowTable.answer (t : RowTable F R) (st : ListStatement F) : List R :=
  let found := (Windowed.within t.timestamp st.start st.end_ (t.matching st.items)).drop st.offset
  match st.limit with
  | none => found
  | some n => found.take n

inductive ListError where
  /-- The error that the request is answered with. -/
  | message (text : String)
  /-- The server reads a field of a `nil` filter set. -/
  | nilDereference
deriving DecidableEq, Repr

/-- The fields of a `BuilderQuery` that its list statements depend on. -/
structure ListQuery (F : Type) where
  dataSource : DataSource
  filters : Option (FilterSet F)
  limit : UInt64
  offset : UInt64
  pageSize : UInt64
  shiftBy : Int

/-- The items of a filter set that may be `nil`. -/
def ListQuery.items (q : ListQuery F) : List (FilterItem F) := (q.filters.map FilterSet.items).getD []

/-- `PrepareTracesQuery`: `AddLimitToQuery` makes 100 of a missing limit. -/
def prepareTracesQuery (start end_ : Int) (q : ListQuery F) : ListStatement F where
  start := Utils.getEpochNanoSecs start
  end_ := Utils.getEpochNanoSecs end_
  items := q.items
  limit := some (if q.limit = 0 then 100 else q.limit.toNat)
  offset := q.offset.toNat

/-- `PrepareLogsQuery`: `AddLimitToQuery` leaves a missing limit out, and the offset is not added to
a query ordered by timestamp. -/
def prepareLogsQuery (start end_ : Int) (q : ListQuery F) : Except ListError (ListStatement F) :=
  let statement (limit : UInt64) : ListStatement F :=
    { start := Utils.getEpochNanoSecs start
      end_ := Utils.getEpochNanoSecs end_
      items := q.items
      limit := if limit = 0 then none else some limit.toNat
      offset := 0 }
  -- check if limit exceeded
  if q.limit > 0 ∧ q.offset ≥ q.limit then .error (.message "max limit exceeded")
  else if q.pageSize > 0 then
    if q.limit > 0 ∧ q.offset + q.pageSize > q.limit then .ok (statement (q.limit - q.offset))
    else .ok (statement q.pageSize)
  else .ok (statement q.limit)

/-- The start of a range that a time shift moves, as `PrepareQueries` does. -/
def shifted (q : ListQuery F) (time : Int) : Int :=
  if q.shiftBy ≠ 0 then time - q.shiftBy * 1000 else time

/-! ### Traces -/

/-- `constants.TRACE_V4_MAX_PAGINATION_LIMIT`. -/
def maxPaginationLimit : UInt64 := 10000

/-- The answer of one window to a traces query with the limit that remains. -/
def tracesWindow (t : RowTable F R) (q : ListQuery F) (v : Utils.LogsListTsRange)
    (tracesLimit : UInt64) : List R :=
  t.answer (prepareTracesQuery (shifted q v.start) (shifted q v.end_)
    { q with offset := 0, limit := tracesLimit })

/-- Skips the traces unless the offset is 0. -/
def skipRow (s : UInt64 × List R) (row : R) : UInt64 × List R :=
  if s.1 = 0 then (s.1, s.2 ++ [row]) else (s.1 - 1, s.2)

/-- The loop over the windows, traces branch. -/
def runTraces (t : RowTable F R) (q : ListQuery F) :
    List Utils.LogsListTsRange → (tracesLimit offset : UInt64) → List R → Except ListError (List R)
  | [], _, _, data => .ok data
  | v :: tsRanges, tracesLimit, offset, data =>
    -- max limit + offset is 10k for pagination
    if tracesLimit > maxPaginationLimit then
      .error (.message "maximum traces that can be paginated is 10000")
    else
      let rowList := tracesWindow t q v tracesLimit
      let s := rowList.foldl skipRow (offset, data)
      if q.limit.toNat ≤ s.2.length then .ok s.2
      else runTraces t q tsRanges (tracesLimit - UInt64.ofNat rowList.length) s.1 s.2

/-- The subtractions `tracesLimit - length` of `runTraces`. -/
def tracesSubtractions (t : RowTable F R) (q : ListQuery F) :
    List Utils.LogsListTsRange → (tracesLimit offset : UInt64) → List R → List (Nat × Nat)
  | [], _, _, _ => []
  | v :: tsRanges, tracesLimit, offset, data =>
    if tracesLimit > maxPaginationLimit then []
    else
      let rowList := tracesWindow t q v tracesLimit
      let s := rowList.foldl skipRow (offset, data)
      (tracesLimit.toNat, rowList.length) ::
        if q.limit.toNat ≤ s.2.length then []
        else tracesSubtractions t q tsRanges (tracesLimit - UInt64.ofNat rowList.length) s.1 s.2

/-! ### Logs -/

/-- The filters with the condition that the next rows come after the last one read. -/
def addIdFilter (filters : Option (FilterSet F)) (lastId : String) :
    Except ListError (Option (FilterSet F)) :=
  match filters with
  | none => .error .nilDereference
  | some fs => .ok (some { fs with items := fs.items ++ [idLessThan lastId] })

/-- The loop over the windows, logs branch. -/
def runLogs (t : RowTable F R) (q : ListQuery F) :
    List Utils.LogsListTsRange → Option (FilterSet F) → List R → Except ListError (List R)
  | [], _, data => .ok data
  | v :: tsRanges, filters, data => do
    let st ← prepareLogsQuery (shifted q v.start) (shifted q v.end_)
      { q with filters := filters, pageSize := q.pageSize - UInt64.ofNat data.length }
    let rowList := t.answer st
    let data := data ++ rowList
    -- appending the filter to get the next set of data
    let filters ← match rowList.getLast? with
      | none => .ok filters
      | some last => addIdFilter filters (t.id last)
    if q.pageSize.toNat ≤ data.length then .ok data
    else runLogs t q tsRanges filters data

/-- The subtractions `pageSize - len(data)` of `runLogs`. -/
def logsSubtractions (t : RowTable F R) (q : ListQuery F) :
    List Utils.LogsListTsRange → Option (FilterSet F) → List R → List (Nat × Nat)
  | [], _, _ => []
  | v :: tsRanges, filters, data =>
    (q.pageSize.toNat, data.length) ::
      match prepareLogsQuery (shifted q v.start) (shifted q v.end_)
          { q with filters := filters, pageSize := q.pageSize - UInt64.ofNat data.length } with
      | .error _ => []
      | .ok st =>
        let rowList := t.answer st
        let data := data ++ rowList
        if q.pageSize.toNat ≤ data.length then []
        else match rowList.getLast? with
          | none => logsSubtractions t q tsRanges filters data
          | some last => match addIdFilter filters (t.id last) with
            | .error _ => []
            | .ok filters => logsSubtractions t q tsRanges filters data

/-! ### Both -/

/-- The list of `runWindowBasedListQuery`. -/
def runWindowBasedListQuery (t : RowTable F R) (q : ListQuery F)
    (tsRanges : List Utils.LogsListTsRange) : Except ListError (List R) :=
  match q.dataSource with
  | .logs => runLogs t q tsRanges q.filters []
  | _ => runTraces t q tsRanges (q.limit + q.offset) q.offset []

end Querier
end QueryService
