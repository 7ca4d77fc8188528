import BoringPanel.QueryService.Model.Series

/-!
# The query range cache

`querycache/query_range_cache.go`, and `GetSeriesFromCachedData` of `common/query_range.go`, for one
cache key. The cache holds a list of intervals with the series of each, or nothing. A request finds
the ranges it misses (`findMissingTimeRanges`), merges what was fetched for them with what is cached
(`mergeWithCachedSeriesData`) and reads its answer off the merged list (`getSeriesFromCachedData`).

The sorting routine and the hash of a label set are parameters (`CacheEnv`): `sort.Slice` promises no
order for ties, and `labels.Hash` is a 64-bit hash.
-/

namespace QueryService
namespace QueryCache

structure MissInterval where
  start : Int
  end_ : Int
deriving DecidableEq, Repr

structure CachedSeriesData (F : Type) where
  start : Int
  end_ : Int
  data : List (Series F)

/-- What the cache calls. -/
structure CacheEnv (F : Type) where
  pointSort : SortSlice (Point.timestamp (F := F))
  intervalSort : SortSlice (CachedSeriesData.start (F := F))
  /-- `labels.FromMap(m).Hash()`. -/
  hash : Go.StringMap → UInt64

/-- A cache that sorts by insertion; the hash is that of the empty label set. -/
def CacheEnv.insertion (F : Type) : CacheEnv F where
  pointSort := SortSlice.insertion _
  intervalSort := SortSlice.insertion _
  hash := fun _ => 0xef46db3751d8e999

/-- One point of a series without labels. -/
def onePoint (t value : Int) : List (Series Int) :=
  [{ labels := ∅, labelsArray := [], points := [⟨t, value⟩] }]

variable {F : Type} (env : CacheEnv F)

/-! ### Missing time ranges -/

/-- The end of the time range that is safe from late data, as of `now`; there is none for a step of
zero, which the code divides by. -/
def fluxEnd (fluxInterval now step : Int) : Option Int :=
  let adjustStep := Go.minFloat64 step 60
  if adjustStep * 1000 = 0 then none
  else
    let roundedMillis := now - now.tmod (adjustStep * 1000)
    some (roundedMillis - fluxInterval)

/-- Excludes the flux interval from the cached end time, in the last interval. -/
def capLast (cap : Int) : List (CachedSeriesData F) → List (CachedSeriesData F)
  | [] => []
  | [d] => [{ d with end_ := Go.minFloat64 d.end_ cap }]
  | d :: ds => d :: capLast cap ds

/-- The loop over the cached intervals. -/
def missesFrom (start end_ : Int) (currentTime : Int) :
    List (CachedSeriesData F) → List MissInterval
  | [] => if currentTime < end_ then [⟨currentTime, end_⟩] else []
  | data :: rest =>
    -- ignore cached data that ends before the start time
    if data.end_ ≤ start then missesFrom start end_ currentTime rest
    -- stop processing if we've reached the end time
    else if data.start ≥ end_ then if currentTime < end_ then [⟨currentTime, end_⟩] else []
    else
      (if currentTime < data.start then [⟨currentTime, min data.start end_⟩] else []) ++
        missesFrom start end_ (max currentTime (min data.end_ end_)) rest

/-- `FindMissingTimeRanges`; `none` where it panics. -/
def findMissingTimeRanges (fluxInterval now start end_ step : Int)
    (cached : Option (List (CachedSeriesData F))) : Option (List MissInterval) := do
  let cap ← fluxEnd fluxInterval now step
  pure (missesFrom start end_ start (capLast cap (env.intervalSort.sort (cached.getD []))))

/-! ### Merging -/

/-- A `map[uint64]*v3.Series`. -/
structure SeriesMap (F : Type) where
  keys : List UInt64
  find : UInt64 → Option (Series F)

def SeriesMap.empty : SeriesMap F where
  keys := []
  find := fun _ => none

/-- `m[h] = s`. -/
def SeriesMap.put (m : SeriesMap F) (h : UInt64) (s : Series F) : SeriesMap F where
  keys := if (m.find h).isSome then m.keys else m.keys ++ [h]
  find := Function.update m.find h (some s)

/-- A missed series joins the one with its hash. -/
def SeriesMap.join (m : SeriesMap F) (s : Series F) : SeriesMap F :=
  let h := env.hash s.labels
  match m.find h with
  | none => m.put h s
  | some old => m.put h { old with points := old.points ++ s.points }

/-- Sorts the points of a series and keeps the last one of each timestamp. -/
def tidy (s : Series F) : Series F := (s.sortPoints env.pointSort).removeDuplicatePoints

/-- `mergeSeries`. -/
def mergeSeries (cachedSeries missedSeries : List (Series F)) : List (Series F) :=
  let m := cachedSeries.foldl (fun m s => m.put (env.hash s.labels) s) SeriesMap.empty
  let m := missedSeries.foldl (SeriesMap.join env) m
  let hashes := m.keys.insertionSort (· ≤ ·)
  (hashes.filterMap m.find).map (tidy env)

/-- The loop over the sorted intervals, with the interval that is being built. -/
def mergeFrom (current : CachedSeriesData F) :
    List (CachedSeriesData F) → List (CachedSeriesData F)
  | [] => [current]
  | data :: rest =>
    if data.start ≤ current.end_ then
      -- overlapping intervals, merge them
      mergeFrom
        { start := min current.start data.start
          end_ := max current.end_ data.end_
          data := mergeSeries env current.data data.data } rest
    else current :: mergeFrom data rest

def mergeAll : List (CachedSeriesData F) → List (CachedSeriesData F)
  | [] => []
  | data :: rest => mergeFrom env data rest

/-- `MergeWithCachedSeriesData`: what it returns is also what it stores. Without cached data the new
data are stored as they are. -/
def mergeWithCachedSeriesData (cached : Option (List (CachedSeriesData F)))
    (newData : List (CachedSeriesData F)) : List (CachedSeriesData F) :=
  match cached with
  | none => newData
  | some existingData => mergeAll env (env.intervalSort.sort (existingData ++ newData))

/-! ### Reading the answer -/

/-- The points of one cached series in `[start, end]` join the series with its hash. -/
def SeriesMap.collect (start end_ : Int) (m : SeriesMap F) (s : Series F) : SeriesMap F :=
  let h := env.hash s.labels
  let points := s.points.filter fun p => p.timestamp ≥ start ∧ p.timestamp ≤ end_
  match m.find h with
  | none => m.put h { s with points := points }
  | some old => m.put h { old with points := old.points ++ points }

/-- `GetSeriesFromCachedData`. The code visits the map in any order. -/
def getSeriesFromCachedData (data : List (CachedSeriesData F)) (start end_ : Int) :
    List (Series F) :=
  let m := (data.flatMap CachedSeriesData.data).foldl (SeriesMap.collect env start end_)
    SeriesMap.empty
  (m.keys.filterMap m.find).map (tidy env)

end QueryCache
end QueryService
