import BoringPanel.Lib.GoText
import BoringPanel.Lib.StableSort
import BoringPanel.QueryService.PostProcess.Results
import Mathlib.Data.Finset.Sort

/-!
# Tables

`TransformToTableForBuilderQueries`: one row for each tuple of label values, with a column for each label
and each query. A row is found by a text, the labels as `key=value` joined by commas, and a column by its
bare name. The rows show the labels and values of the series exactly where the text tells the tuples apart,
no query has the name of a label, and no two series of a query have one tuple and different values
(`transformToTable_shows_iff`).

The order of results of one name, of the entries of maps and of rows that tie are parameters (`TableEnv`).
-/

namespace QueryService
namespace PostProcess

/-- A value of a row: a `float64` or a `string`. -/
inductive Cell (F : Type) where
  | float (x : F)
  | string (s : String)

structure TableColumn where
  name : String
  queryName : String
  isValueColumn : Bool
deriving DecidableEq, Repr

structure TableRow (F : Type) where
  data : Go.Map (Cell F)
  queryName : String

structure Table (F : Type) where
  columns : List TableColumn
  rows : List (TableRow F)

/-- What the code leaves to the sorting routines and to `range`. -/
structure TableEnv (F : Type) where
  /-- `sort.Slice` by the query name. -/
  sortResults : List (Result F) → List (Result F)
  perm : ∀ results, (sortResults results).Perm results
  sorted : ∀ results, (sortResults results).Pairwise fun a b => a.queryName ≤ b.queryName
  /-- The keys of a label map, as `range` visits them. -/
  labelOrder : Go.StringMap → List String
  mem_labelOrder : ∀ labels key, key ∈ labelOrder labels ↔ key ∈ labels
  rowOrder : Go.MapOrder (TableRow F)
  queryOrder : Go.MapOrder BuilderQuery
  rowSort : SliceStable (TableRow F)

variable {F : Type} [GoMath F] (env : TableEnv F)

/-- `roundToTwoDecimal`. -/
def roundToTwoDecimal (number : F) : F :=
  -- very small numbers
  if GoMath.lt (GoMath.abs number) (GoMath.const (1 / 1000000)) then GoFloat.ofInt 0
  else
    let decimalPlaces : Int :=
      if GoMath.lt (GoMath.abs number) (GoMath.const (1 / 100)) then
        GoFloat.toInt (GoMath.ceil (GoMath.neg (GoMath.log10 (GoMath.abs number)))) + 1
      else 2
    let scale : F := GoMath.pow (GoFloat.ofInt 10) (GoFloat.ofInt decimalPlaces)
    GoMath.div (GoMath.round (GoMath.mul number scale)) scale

/-! ### Columns -/

/-- A label key that has not been seen is appended. -/
def collectKey (labelKeys : List String) (key : String) : List String :=
  if key ∈ labelKeys then labelKeys else labelKeys ++ [key]

def collectLabelKeys (results : List (Result F)) : List String :=
  (results.flatMap fun r => r.series.flatMap fun s => s.labelsArray.flatMap env.labelOrder).foldl
    collectKey []

/-- One column for each label key and one for each query name. -/
def tableColumns (labelKeys : List String) (results : List (Result F)) : List TableColumn :=
  (labelKeys.map fun key => ⟨key, "", false⟩) ++
    results.map fun r => ⟨r.queryName, r.queryName, true⟩

/-! ### Rows -/

/-- The value of a label: that of the first map that has the key. -/
def labelValue (s : Series F) (key : String) : String :=
  (s.labelsArray.findSome? fun labels => labels.lookup key).getD "n/a"

/-- The text by which a row is found. -/
def rowKey (labelKeys : List String) (s : Series F) : String :=
  Go.join "," (labelKeys.map fun key => key ++ "=" ++ labelValue s key)

def rowData (labelKeys : List String) (s : Series F) : Go.Map (Cell F) :=
  labelKeys.foldl (fun data key => data.set key (.string (labelValue s key))) Go.Map.empty

/-- Adds the value for a query, in the first column of its name. -/
def addValue (columns : List TableColumn) (queryName : String) (value : F) (row : TableRow F) :
    TableRow F :=
  match columns.find? fun col => col.name = queryName with
  | none => row
  | some col => { row with data := row.data.set col.name (.float value) }

/-- The body of the loop over series. -/
def addSeries (labelKeys : List String) (columns : List TableColumn) (queryName : String)
    (rowMap : Go.Map (TableRow F)) (s : Series F) : Go.Map (TableRow F) :=
  match s.points with
  | [] => rowMap
  | p :: _ =>
    let key := rowKey labelKeys s
    -- get or create the row
    let row := (rowMap.lookup key).getD ⟨rowData labelKeys s, queryName⟩
    rowMap.set key (addValue columns queryName (roundToTwoDecimal p.value) row)

def tableRows (labelKeys : List String) (columns : List TableColumn) (results : List (Result F)) :
    Go.Map (TableRow F) :=
  results.foldl (fun rowMap r => r.series.foldl (addSeries labelKeys columns r.queryName) rowMap)
    Go.Map.empty

/-! ### The order of the rows -/

/-- `v != w` -/
def differ (v w : F) : Bool := GoMath.lt v w || GoMath.lt w v || GoFloat.isNaN v || GoFloat.isNaN w

/-- The comparison of two rows by the `orderBy` list of a query. -/
def rowLess (queryName : String) (a b : TableRow F) : List OrderBy → Bool
  | [] => false
  | orderBy :: orderByList =>
    let name := if orderBy.columnName = "#SIGNOZ_VALUE" then queryName else orderBy.columnName
    let ascending := orderBy.order == "asc"
    match a.data.lookup name, b.data.lookup name with
    | some (.float v), some (.float w) =>
      if differ v w then GoMath.lt v w == ascending else rowLess queryName a b orderByList
    | some (.float _), some (.string _) => ascending
    | some (.string _), some (.float _) => !ascending
    | some (.string v), some (.string w) =>
      if v ≠ w then decide (v < w) == ascending else rowLess queryName a b orderByList
    | _, _ => decide (a.queryName < b.queryName)

/-- The `orderBy` list; by value in descending order if there is none. -/
def rowOrderBy (query : BuilderQuery) : List OrderBy :=
  if query.orderBy.length = 0 then [⟨"#SIGNOZ_VALUE", "desc"⟩] else query.orderBy

/-- `sortRows`: by each query, in the reverse order of their names. -/
def sortRows (builderQueries : Go.Map BuilderQuery) (queryNames : List String)
    (rows : List (TableRow F)) : List (TableRow F) :=
  queryNames.reverse.foldl (fun rows queryName =>
    env.rowSort.sort (fun a b => rowLess queryName a b
      ((builderQueries.lookup queryName).elim [] rowOrderBy)) rows) rows

/-! ### The table -/

/-- A value column without a value shows `n/a`. -/
def fillRow (columns : List TableColumn) (row : TableRow F) : TableRow F :=
  { row with
    data := columns.foldl (fun data col =>
      if col.isValueColumn ∧ (data.lookup col.name).isNone then data.set col.name (.string "n/a")
      else data) row.data }

/-- `TransformToTableForBuilderQueries`: the tables of the results that it returns. -/
def transformToTableForBuilderQueries (builderQueries : Go.Map BuilderQuery)
    (results : List (Result F)) : List (Table F) :=
  if results.length = 0 then []
  else
    let results := env.sortResults results
    let labelKeys := collectLabelKeys env results
    let columns := tableColumns labelKeys results
    let rowMap := tableRows labelKeys columns results
    let rows := (env.rowOrder.order rowMap).map Prod.snd
    let queryNames := Go.sortStrings ((env.queryOrder.order builderQueries).map Prod.fst)
    [⟨columns, (sortRows env builderQueries queryNames rows).map (fillRow columns)⟩]

/-! ### The series that have a value -/

/-- A series that is not empty, with its query and its rounded first value. -/
structure TableItem (F : Type) where
  queryName : String
  series : Series F
  value : F

def tableItems (results : List (Result F)) : List (TableItem F) :=
  results.flatMap fun r => r.series.filterMap fun s =>
    s.points.head?.map fun p => ⟨r.queryName, s, roundToTwoDecimal p.value⟩

/-- What the loops do with such a series. -/
def addItem (labelKeys : List String) (rowMap : Go.Map (TableRow F)) (item : TableItem F) :
    Go.Map (TableRow F) :=
  let row := (rowMap.lookup (rowKey labelKeys item.series)).getD
    ⟨rowData labelKeys item.series, item.queryName⟩
  rowMap.set (rowKey labelKeys item.series)
    { row with data := row.data.set item.queryName (.float item.value) }

omit [GoMath F] in
/-- The column of a query is found: if not as its own, then as that of a label of its name. -/
theorem addValue_eq (labelKeys : List String) {results : List (Result F)} {r : Result F}
    (hr : r ∈ results) (value : F) (row : TableRow F) :
    addValue (tableColumns labelKeys results) r.queryName value row =
      { row with data := row.data.set r.queryName (.float value) } := by
  have hsome : ((tableColumns labelKeys results).find? fun col => col.name = r.queryName).isSome := by
    rw [List.find?_isSome]
    refine ⟨⟨r.queryName, r.queryName, true⟩, List.mem_append_right _ ?_, decide_eq_true rfl⟩
    exact List.mem_map.mpr ⟨r, hr, rfl⟩
  obtain ⟨col, hcol⟩ := Option.isSome_iff_exists.mp hsome
  have hname : col.name = r.queryName := by simpa using List.find?_some hcol
  simp only [addValue, hcol, hname]

theorem foldl_addSeries (labelKeys : List String) {results : List (Result F)} {r : Result F}
    (hr : r ∈ results) (series : List (Series F)) (rowMap : Go.Map (TableRow F)) :
    series.foldl (addSeries labelKeys (tableColumns labelKeys results) r.queryName) rowMap =
      (series.filterMap fun s => s.points.head?.map fun p =>
        (⟨r.queryName, s, roundToTwoDecimal p.value⟩ : TableItem F)).foldl (addItem labelKeys) rowMap := by
  induction series generalizing rowMap with
  | nil => rfl
  | cons s series ih =>
    rw [List.foldl_cons, ih, addSeries]
    cases hs : s.points with
    | nil => rw [List.filterMap_cons_none (by rw [hs]; rfl)]
    | cons p ps =>
      rw [List.filterMap_cons_some (by rw [hs]; rfl), List.foldl_cons]
      simp only [addValue_eq labelKeys hr]
      rfl

theorem tableRows_eq (labelKeys : List String) (results : List (Result F)) :
    tableRows labelKeys (tableColumns labelKeys results) results =
      (tableItems results).foldl (addItem labelKeys) Go.Map.empty := by
  have hgen : ∀ (rs : List (Result F)) (rowMap : Go.Map (TableRow F)), (∀ r ∈ rs, r ∈ results) →
      rs.foldl (fun rowMap r => r.series.foldl
        (addSeries labelKeys (tableColumns labelKeys results) r.queryName) rowMap) rowMap =
      (tableItems rs).foldl (addItem labelKeys) rowMap := by
    intro rs
    induction rs with
    | nil => exact fun _ _ => rfl
    | cons r rs ih =>
      intro rowMap hsub
      obtain ⟨hr, hrs⟩ := List.forall_mem_cons.mp hsub
      rw [List.foldl_cons, ih _ hrs, foldl_addSeries labelKeys hr, tableItems, tableItems,
        List.flatMap_cons, List.foldl_append]
  exact hgen results _ fun _ hr => hr

/-! ### What the rows hold -/

omit [GoMath F] in
/-- A label key of the data that a row starts with. -/
theorem lookup_rowData {labelKeys : List String} {key : String} (hkey : key ∈ labelKeys) (s : Series F) :
    (rowData labelKeys s).lookup key = some (.string (labelValue s key)) := by
  unfold rowData
  induction labelKeys using List.reverseRecOn with
  | nil => exact absurd hkey List.not_mem_nil
  | append_singleton labelKeys k ih =>
    rw [List.foldl_append, List.foldl_cons, List.foldl_nil, Go.Map.lookup_set]
    split
    · next h => rw [h]
    · next h =>
      exact ih ((List.mem_append.mp hkey).resolve_right fun hk => h (List.mem_singleton.mp hk))

/-- The rows after some series: one for each text, which shows the labels of one of its series and for each
query of its series the value of one of them. -/
structure RowsOf (labelKeys : List String) (done : List (TableItem F)) (rowMap : Go.Map (TableRow F)) :
    Prop where
  isSome_iff : ∀ key, (rowMap.lookup key).isSome ↔ ∃ i ∈ done, rowKey labelKeys i.series = key
  labels : ∀ key row, rowMap.lookup key = some row → ∃ i ∈ done, rowKey labelKeys i.series = key ∧
    ∀ k ∈ labelKeys, (∀ j ∈ done, j.queryName ≠ k) →
      row.data.lookup k = some (.string (labelValue i.series k))
  values : ∀ key row, rowMap.lookup key = some row → ∀ j ∈ done, rowKey labelKeys j.series = key →
    ∃ i ∈ done, rowKey labelKeys i.series = key ∧ i.queryName = j.queryName ∧
      row.data.lookup j.queryName = some (.float i.value)

omit [GoMath F] in
theorem RowsOf.add {labelKeys : List String} {done : List (TableItem F)} {rowMap : Go.Map (TableRow F)}
    (h : RowsOf labelKeys done rowMap) (item : TableItem F) :
    RowsOf labelKeys (done ++ [item]) (addItem labelKeys rowMap item) := by
  have hold : ∀ i ∈ done, i ∈ done ++ [item] := fun i hi => List.mem_append_left _ hi
  have hnew : item ∈ done ++ [item] := List.mem_append_right _ (List.mem_singleton_self item)
  -- the row of the new series, before its value is added
  obtain ⟨old, hadd, hlabels, hvalues⟩ : ∃ old : TableRow F,
      addItem labelKeys rowMap item = rowMap.set (rowKey labelKeys item.series)
        { old with data := old.data.set item.queryName (.float item.value) } ∧
      (∃ i ∈ done ++ [item], rowKey labelKeys i.series = rowKey labelKeys item.series ∧
        ∀ k ∈ labelKeys, (∀ j ∈ done, j.queryName ≠ k) →
          old.data.lookup k = some (.string (labelValue i.series k))) ∧
      ∀ j ∈ done, rowKey labelKeys j.series = rowKey labelKeys item.series →
        ∃ i ∈ done, rowKey labelKeys i.series = rowKey labelKeys item.series ∧
          i.queryName = j.queryName ∧ old.data.lookup j.queryName = some (.float i.value) := by
    cases hrow : rowMap.lookup (rowKey labelKeys item.series) with
    | none =>
      refine ⟨⟨rowData labelKeys item.series, item.queryName⟩, by simp only [addItem, hrow]; rfl,
        ⟨item, hnew, rfl, fun k hk _ => lookup_rowData hk _⟩, fun j hj hkey => ?_⟩
      have hsome := (h.isSome_iff (rowKey labelKeys item.series)).mpr ⟨j, hj, hkey⟩
      rw [hrow] at hsome
      cases hsome
    | some old =>
      obtain ⟨i, hi, hkey, hlabels⟩ := h.labels _ old hrow
      exact ⟨old, by simp only [addItem, hrow]; rfl, ⟨i, hold i hi, hkey, hlabels⟩, h.values _ old hrow⟩
  rw [hadd]
  refine ⟨fun key => ?_, fun key row hrow => ?_, fun key row hrow j hj hkey => ?_⟩
  · rw [Go.Map.lookup_set]
    split
    · next hkey =>
      exact iff_of_true rfl ⟨item, hnew, hkey.symm⟩
    · next hkey =>
      rw [h.isSome_iff]
      constructor
      · rintro ⟨i, hi, hikey⟩
        exact ⟨i, hold i hi, hikey⟩
      · rintro ⟨i, hi, hikey⟩
        refine ⟨i, (List.mem_append.mp hi).resolve_right fun hitem => hkey ?_, hikey⟩
        rw [← hikey, List.mem_singleton.mp hitem]
  · rw [Go.Map.lookup_set] at hrow
    split at hrow
    · next hkey =>
      obtain rfl := Option.some.inj hrow
      obtain ⟨i, hi, hikey, hlabels⟩ := hlabels
      refine ⟨i, hi, hikey.trans hkey.symm, fun k hk hnames => ?_⟩
      rw [Go.Map.lookup_set, if_neg (hnames item hnew).symm]
      exact hlabels k hk fun j hj => hnames j (hold j hj)
    · obtain ⟨i, hi, hikey, hlabels⟩ := h.labels key row hrow
      exact ⟨i, hold i hi, hikey, fun k hk hnames => hlabels k hk fun j hj => hnames j (hold j hj)⟩
  · rw [Go.Map.lookup_set] at hrow
    split at hrow
    · next hrowkey =>
      obtain rfl := Option.some.inj hrow
      rw [Go.Map.lookup_set]
      split
      · next hname => exact ⟨item, hnew, hrowkey.symm, hname.symm, rfl⟩
      · next hname =>
        have hj : j ∈ done := (List.mem_append.mp hj).resolve_right fun hitem =>
          hname (by rw [List.mem_singleton.mp hitem])
        obtain ⟨i, hi, hikey, hiname, hvalue⟩ := hvalues j hj (hkey.trans hrowkey)
        exact ⟨i, hold i hi, hikey.trans hrowkey.symm, hiname, hvalue⟩
    · next hrowkey =>
      have hj : j ∈ done := (List.mem_append.mp hj).resolve_right fun hitem =>
        hrowkey (by rw [← hkey, List.mem_singleton.mp hitem])
      obtain ⟨i, hi, hikey, hiname, hvalue⟩ := h.values key row hrow j hj hkey
      exact ⟨i, hold i hi, hikey, hiname, hvalue⟩

omit [GoMath F] in
theorem rowsOf_foldl (labelKeys : List String) (items : List (TableItem F)) :
    RowsOf labelKeys items (items.foldl (addItem labelKeys) Go.Map.empty) := by
  induction items using List.reverseRecOn with
  | nil =>
    refine ⟨fun key => ?_, fun key row h => ?_, fun key row h => ?_⟩
    · simp [Go.Map.lookup, Go.Map.empty]
    · cases h
    · cases h
  | append_singleton items item ih =>
    rw [List.foldl_append, List.foldl_cons, List.foldl_nil]
    exact ih.add item

/-! ### The rows of the table -/

section Rows

variable {env}

omit [GoMath F] in
/-- What a row has is not filled. -/
theorem lookup_fillRow {columns : List TableColumn} {row : TableRow F} {key : String} {c : Cell F}
    (h : row.data.lookup key = some c) : (fillRow columns row).data.lookup key = some c := by
  unfold fillRow
  dsimp only
  generalize row.data = data at h
  induction columns generalizing data with
  | nil => exact h
  | cons col columns ih =>
    rw [List.foldl_cons]
    refine ih _ ?_
    split
    · next hnone =>
      rw [Go.Map.lookup_set, if_neg, h]
      rintro rfl
      rw [h] at hnone
      cases hnone.2
    · exact h

theorem sortRows_perm (builderQueries : Go.Map BuilderQuery) (queryNames : List String)
    (rows : List (TableRow F)) : (sortRows env builderQueries queryNames rows).Perm rows := by
  unfold sortRows
  induction queryNames.reverse generalizing rows with
  | nil => exact .refl _
  | cons name names ih =>
    rw [List.foldl_cons]
    exact (ih _).trans (env.rowSort.perm _ _)

/-- The label keys of the results, in the order of the columns. -/
def labelKeysOf (env : TableEnv F) (results : List (Result F)) : List String :=
  collectLabelKeys env (env.sortResults results)

/-- The rows are those of the map, filled. -/
theorem rows_perm {builderQueries : Go.Map BuilderQuery} {results : List (Result F)} {table : Table F}
    (h : table ∈ transformToTableForBuilderQueries env builderQueries results) :
    ∃ columns, table.rows.Perm ((((tableItems (env.sortResults results)).foldl
      (addItem (labelKeysOf env results)) Go.Map.empty).entries.map Prod.snd).map (fillRow columns)) := by
  unfold transformToTableForBuilderQueries at h
  split at h
  · exact absurd h List.not_mem_nil
  · obtain rfl := List.mem_singleton.mp h
    refine ⟨tableColumns (labelKeysOf env results) (env.sortResults results), ?_⟩
    rw [← tableRows_eq]
    exact ((sortRows_perm _ _ _).trans ((env.rowOrder.perm _).map Prod.snd)).map _

end Rows

/-! ### What the table shows -/

section Shows

/-- The label columns of a row show the labels of a series. -/
def ShowsLabels (labelKeys : List String) (row : TableRow F) (s : Series F) : Prop :=
  ∀ k ∈ labelKeys, row.data.lookup k = some (.string (labelValue s k))

/-- The label tuples are the same. -/
def SameTuple (labelKeys : List String) (s s' : Series F) : Prop :=
  ∀ k ∈ labelKeys, labelValue s k = labelValue s' k

/-- One row for each label tuple, which holds the values of its series. -/
structure ShowsItems (labelKeys : List String) (items : List (TableItem F)) (rows : List (TableRow F)) :
    Prop where
  distinct : rows.Pairwise fun a b =>
    ¬ ∃ i ∈ items, ShowsLabels labelKeys a i.series ∧ ShowsLabels labelKeys b i.series
  sound : ∀ row ∈ rows, ∃ i ∈ items, ShowsLabels labelKeys row i.series
  values : ∀ i ∈ items, ∃ row ∈ rows, ShowsLabels labelKeys row i.series ∧
    row.data.lookup i.queryName = some (.float i.value)

/-- No query has the name of a label, the texts tell the label tuples apart, and no two series of a query
have one tuple and different values. -/
structure TellsApart (labelKeys : List String) (items : List (TableItem F)) : Prop where
  names : ∀ i ∈ items, i.queryName ∉ labelKeys
  tuples : ∀ i ∈ items, ∀ j ∈ items, rowKey labelKeys i.series = rowKey labelKeys j.series →
    SameTuple labelKeys i.series j.series
  values : ∀ i ∈ items, ∀ j ∈ items, i.queryName = j.queryName →
    SameTuple labelKeys i.series j.series → i.value = j.value

variable {labelKeys : List String} {s s' : Series F} {row : TableRow F} {items : List (TableItem F)}

omit [GoMath F] in
theorem sameTuple_of_shows (h : ShowsLabels labelKeys row s) (h' : ShowsLabels labelKeys row s') :
    SameTuple labelKeys s s' := by
  intro k hk
  have heq := (h k hk).symm.trans (h' k hk)
  injection heq with heq
  injection heq

omit [GoMath F] in
theorem rowKey_of_sameTuple (h : SameTuple labelKeys s s') : rowKey labelKeys s = rowKey labelKeys s' := by
  unfold rowKey
  rw [List.map_congr_left fun k hk => by rw [h k hk]]

omit [GoMath F] in
theorem ShowsLabels.of_sameTuple (h : ShowsLabels labelKeys row s) (hs : SameTuple labelKeys s s') :
    ShowsLabels labelKeys row s' := fun k hk => by rw [h k hk, hs k hk]

variable {rowMap : Go.Map (TableRow F)} (columns : List TableColumn)

omit [GoMath F] in
/-- Where no query has the name of a label, a row shows the labels of one of its series. -/
theorem RowsOf.shows (h : RowsOf labelKeys items rowMap) (hnames : ∀ i ∈ items, i.queryName ∉ labelKeys)
    {key : String} (hrow : rowMap.lookup key = some row) :
    ∃ i ∈ items, rowKey labelKeys i.series = key ∧ ShowsLabels labelKeys (fillRow columns row) i.series := by
  obtain ⟨i, hi, hkey, hlabels⟩ := h.labels key row hrow
  refine ⟨i, hi, hkey, fun k hk => lookup_fillRow (hlabels k hk fun j hj hjk => ?_)⟩
  exact hnames j hj (hjk ▸ hk)

omit [GoMath F] in
theorem showsItems_iff_of_rowsOf (h : RowsOf labelKeys items rowMap) :
    ShowsItems labelKeys items ((rowMap.entries.map Prod.snd).map (fillRow columns)) ↔
      TellsApart labelKeys items := by
  have hmem : ∀ row, row ∈ (rowMap.entries.map Prod.snd).map (fillRow columns) ↔
      ∃ key old, rowMap.lookup key = some old ∧ fillRow columns old = row := by
    intro row
    simp only [List.mem_map, Prod.exists, exists_eq_right]
    constructor
    · rintro ⟨old, ⟨key, hkey⟩, rfl⟩
      exact ⟨key, old, Go.Map.lookup_of_mem hkey, rfl⟩
    · rintro ⟨key, old, hkey, rfl⟩
      exact ⟨old, ⟨key, Go.Map.mem_of_lookup hkey⟩, rfl⟩
  constructor
  · intro hshows
    have hnames : ∀ i ∈ items, i.queryName ∉ labelKeys := by
      intro i hi hlabel
      obtain ⟨row, -, hlabels, hvalue⟩ := hshows.values i hi
      have heq := (hlabels _ hlabel).symm.trans hvalue
      injection heq with heq
      cases heq
    -- the row that shows a series is the row of its text
    have hrowOf : ∀ i ∈ items, ∃ old, rowMap.lookup (rowKey labelKeys i.series) = some old ∧
        ShowsLabels labelKeys (fillRow columns old) i.series := by
      intro i hi
      obtain ⟨row, hrow, hlabels, -⟩ := hshows.values i hi
      obtain ⟨key, old, hkey, rfl⟩ := (hmem row).mp hrow
      obtain ⟨j, -, hj, hjlabels⟩ := h.shows columns hnames hkey
      rw [rowKey_of_sameTuple (sameTuple_of_shows hlabels hjlabels), hj]
      exact ⟨old, hkey, hlabels⟩
    refine ⟨hnames, fun i hi j hj hkey => ?_, fun i hi j hj hname htuple => ?_⟩
    · obtain ⟨old, hold, hi⟩ := hrowOf i hi
      obtain ⟨old', hold', hj⟩ := hrowOf j hj
      rw [hkey, hold'] at hold
      obtain rfl := Option.some.inj hold
      exact sameTuple_of_shows hi hj
    · obtain ⟨a, ha, halabels, havalue⟩ := hshows.values i hi
      obtain ⟨b, hb, hblabels, hbvalue⟩ := hshows.values j hj
      have hab : a = b := by
        by_contra hne
        have hbi := hblabels.of_sameTuple fun k hk => (htuple k hk).symm
        have : Std.Symm fun a b : TableRow F => ¬ ∃ i ∈ items,
            ShowsLabels labelKeys a i.series ∧ ShowsLabels labelKeys b i.series :=
          ⟨fun _ _ hab ⟨i, hi, hb, ha⟩ => hab ⟨i, hi, ha, hb⟩⟩
        exact hshows.distinct.forall ha hb hne ⟨i, hi, halabels, hbi⟩
      rw [hab, hname, hbvalue] at havalue
      injection havalue with heq
      injection heq with heq
      exact heq.symm
  · intro happart
    refine ⟨?_, fun row hrow => ?_, fun i hi => ?_⟩
    · rw [List.map_map, List.pairwise_map]
      have hkeys : rowMap.entries.Pairwise fun a b => a.1 ≠ b.1 := List.pairwise_map.mp rowMap.nodup
      refine hkeys.imp_of_mem fun {a b} ha hb hne => ?_
      rintro ⟨i, -, hai, hbi⟩
      obtain ⟨j, -, hj, hja⟩ := h.shows columns happart.names (Go.Map.lookup_of_mem ha)
      obtain ⟨k, -, hk, hkb⟩ := h.shows columns happart.names (Go.Map.lookup_of_mem hb)
      refine hne ?_
      calc a.1 = rowKey labelKeys j.series := hj.symm
        _ = rowKey labelKeys i.series := rowKey_of_sameTuple (sameTuple_of_shows hja hai)
        _ = rowKey labelKeys k.series := rowKey_of_sameTuple (sameTuple_of_shows hbi hkb)
        _ = b.1 := hk
    · obtain ⟨key, old, hkey, rfl⟩ := (hmem row).mp hrow
      obtain ⟨i, hi, -, hlabels⟩ := h.shows columns happart.names hkey
      exact ⟨i, hi, hlabels⟩
    · obtain ⟨old, hold⟩ := Option.isSome_iff_exists.mp ((h.isSome_iff _).mpr ⟨i, hi, rfl⟩)
      obtain ⟨j, hj, hjkey, hlabels⟩ := h.shows columns happart.names hold
      obtain ⟨k, hk, hkkey, hkname, hvalue⟩ := h.values _ old hold i hi rfl
      have hki : k.value = i.value :=
        happart.values k hk i hi hkname (happart.tuples k hk i hi hkkey)
      refine ⟨fillRow columns old, (hmem _).mpr ⟨_, old, hold, rfl⟩,
        hlabels.of_sameTuple (happart.tuples j hj i hi hjkey), ?_⟩
      rw [← hki]
      exact lookup_fillRow hvalue

end Shows

omit [GoMath F] in
/-- The order of the rows does not matter. -/
theorem ShowsItems.perm {labelKeys : List String} {items items' : List (TableItem F)}
    {rows rows' : List (TableRow F)} (h : ShowsItems labelKeys items rows)
    (hitems : ∀ i, i ∈ items ↔ i ∈ items') (hrows : rows.Perm rows') :
    ShowsItems labelKeys items' rows' where
  distinct := by
    have hdistinct := h.distinct
    simp only [hitems] at hdistinct
    exact hrows.pairwise hdistinct fun {a b} hab ⟨i, hi, hb, ha⟩ => hab ⟨i, hi, ha, hb⟩
  sound := fun row hrow => by
    obtain ⟨i, hi, hlabels⟩ := h.sound row (hrows.mem_iff.mpr hrow)
    exact ⟨i, (hitems i).mp hi, hlabels⟩
  values := fun i hi => by
    obtain ⟨row, hrow, hlabels⟩ := h.values i ((hitems i).mpr hi)
    exact ⟨row, hrows.mem_iff.mp hrow, hlabels⟩

theorem mem_tableItems_iff (results : List (Result F)) (i : TableItem F) :
    i ∈ tableItems (env.sortResults results) ↔ i ∈ tableItems results :=
  ((env.perm results).flatMap_right _).mem_iff

theorem showsItems_iff {builderQueries : Go.Map BuilderQuery} {results : List (Result F)} {table : Table F}
    (htable : table ∈ transformToTableForBuilderQueries env builderQueries results) :
    ShowsItems (labelKeysOf env results) (tableItems results) table.rows ↔
      TellsApart (labelKeysOf env results) (tableItems results) := by
  have hitems := mem_tableItems_iff env results
  obtain ⟨columns, hperm⟩ := rows_perm htable
  have hiff := showsItems_iff_of_rowsOf columns
    (rowsOf_foldl (labelKeysOf env results) (tableItems (env.sortResults results)))
  constructor
  · intro h
    obtain ⟨hnames, htuples, hvalues⟩ := hiff.mp (h.perm (fun i => (hitems i).symm) hperm)
    simp only [hitems] at hnames htuples hvalues
    exact ⟨hnames, htuples, hvalues⟩
  · rintro ⟨hnames, htuples, hvalues⟩
    simp only [← hitems] at hnames htuples hvalues
    exact (hiff.mpr ⟨hnames, htuples, hvalues⟩).perm hitems hperm.symm

/-- **The table shows the results** exactly where its texts and names tell them apart. -/
theorem transformToTable_shows_iff (builderQueries : Go.Map BuilderQuery) (results : List (Result F)) :
    (∀ table ∈ transformToTableForBuilderQueries env builderQueries results,
      ShowsItems (labelKeysOf env results) (tableItems results) table.rows) ↔
    TellsApart (labelKeysOf env results) (tableItems results) := by
  by_cases hempty : results.length = 0
  · -- no table, and no series
    obtain rfl := List.eq_nil_of_length_eq_zero hempty
    refine iff_of_true (fun table htable => ?_) ⟨?_, ?_, ?_⟩
    · exact absurd htable List.not_mem_nil
    all_goals exact fun i hi => absurd hi List.not_mem_nil
  · obtain ⟨table, htable⟩ : ∃ table,
        table ∈ transformToTableForBuilderQueries env builderQueries results := by
      unfold transformToTableForBuilderQueries
      rw [if_neg hempty]
      exact ⟨_, List.mem_singleton_self _⟩
    exact ⟨fun h => (showsItems_iff env htable).mp (h table htable),
      fun h table htable => (showsItems_iff env htable).mpr h⟩

/-! ### Two tuples of one text -/

/-- Sorted results and labels, and entries in the order of their insertion. -/
def insertionEnv : TableEnv ℚ where
  sortResults results := results.insertionSort fun a b => a.queryName ≤ b.queryName
  perm results := List.perm_insertionSort _ results
  sorted results := by
    have : Std.Total fun a b : Result ℚ => a.queryName ≤ b.queryName := ⟨fun _ _ => le_total _ _⟩
    have : IsTrans (Result ℚ) fun a b => a.queryName ≤ b.queryName := ⟨fun _ _ _ => le_trans⟩
    exact List.pairwise_insertionSort _ results
  labelOrder labels := labels.keys.sort
  mem_labelOrder _ _ := Finset.mem_sort _
  rowOrder := ⟨Go.Map.entries, fun _ => .refl _⟩
  queryOrder := ⟨Go.Map.entries, fun _ => .refl _⟩
  rowSort := .insertion _

def twoLabels (a b : String) (value : ℚ) : Series ℚ :=
  ⟨Finmap.singleton "a" a |>.insert "b" b, [Finmap.singleton "a" a, Finmap.singleton "b" b], [⟨0, value⟩]⟩

def firstTuple : Series ℚ := twoLabels "1,b=2" "3" 5

def secondTuple : Series ℚ := twoLabels "1" "2,b=3" 7

/-- Two series of one query, with the labels `1,b=2` and `3`, and `1` and `2,b=3`. -/
def commaResults : List (Result ℚ) := [⟨"A", [firstTuple, secondTuple]⟩]

theorem labelKeysOf_commaResults : labelKeysOf insertionEnv commaResults = ["a", "b"] := by
  decide +kernel

theorem not_shows_commaResults :
    ∃ table ∈ transformToTableForBuilderQueries insertionEnv Go.Map.empty commaResults,
      ¬ ShowsItems (labelKeysOf insertionEnv commaResults) (tableItems commaResults) table.rows := by
  refine ⟨_, List.mem_singleton_self _, fun h => ?_⟩
  have happart := (showsItems_iff insertionEnv (List.mem_singleton_self _)).mp h
  have hitems : tableItems commaResults =
      [⟨"A", firstTuple, roundToTwoDecimal 5⟩, ⟨"A", secondTuple, roundToTwoDecimal 7⟩] := rfl
  rw [labelKeysOf_commaResults, hitems] at happart
  have hsame := happart.tuples _ List.mem_cons_self _ (List.mem_cons_of_mem _ List.mem_cons_self)
    (by decide +kernel)
  exact absurd (hsame "a" List.mem_cons_self) (by decide +kernel)

end PostProcess
end QueryService
