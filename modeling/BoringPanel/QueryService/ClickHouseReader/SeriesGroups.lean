import BoringPanel.QueryService.ClickHouseReader.TimeSeries

/-!
# One series for each label set

What `readRowsForTimeSeriesResult` is for: one series for each group-by label set of the rows, in
order of first occurrence, with the points of its rows (`seriesByLabels`). The code groups by
`rowKey` instead. `readRowsForTimeSeriesResult_ok` computes its result as a grouping by that key,
and `groups_eq_seriesByLabels_iff` compares the two groupings: they agree exactly when
no two label sets of the result have values that spell the same text.
-/

namespace QueryService
namespace ClickHouseReader

variable {F : Type} [GoFloat F]

/-! ### What a row says -/

/-- The column holds the value of the point. -/
def isValueColumn (countOfNumberCols : Nat) (colName : String) : Bool :=
  colName ∈ reservedColumnTargetAliases ∨ countOfNumberCols = 1

/-- The number in a column, with the text it has as a label. -/
def ColumnVar.number? : ColumnVar F → Option (F × String)
  | .float x | .nullFloat (some x) => some (x, GoFloat.formatV x)
  | .uint n | .nullUint (some n) => some (GoFloat.ofInt n, toString n)
  | .int n | .nullInt (some n) => some (GoFloat.ofInt n, toString n)
  | _ => none

/-- The labels that a column gives its row: one, except that a `fullLabels` column has as many as
the JSON object in it. -/
def labelsOf (metricLabels : String → List (String × String)) (countOfNumberCols : Nat)
    (column : String × ColumnVar F) : List (String × String) :=
  match column.2 with
  | .string v => if column.1 = "fullLabels" then metricLabels v else [(column.1, v)]
  | .bool b => [(column.1, toString b)]
  | v => if isValueColumn countOfNumberCols column.1 then []
         else (v.number?.map fun n => (column.1, n.2)).toList

/-- The value that a column gives the point of its row. -/
def valueOf (countOfNumberCols : Nat) (column : String × ColumnVar F) : Option F :=
  if isValueColumn countOfNumberCols column.1 then column.2.number?.map Prod.fst else none

/-- The timestamp that a column gives the point of its row. -/
def timeOf (column : String × ColumnVar F) : Option Int :=
  match column.2 with
  | .time t => some t
  | _ => none

/-- A mapping with the given entries. -/
def toLabelSet (ls : List (String × String)) : Go.StringMap :=
  ls.foldl (fun m kv => m.insert kv.1 kv.2) ∅

/-- A row of a result set: its group-by labels, column by column, and its point. -/
structure SeriesRow (F : Type) where
  labels : List (String × String)
  point : Option (Point F)

def seriesRow (metricLabels : String → List (String × String)) (countOfNumberCols : Nat)
    (columnNames : List String) (vars : List (ColumnVar F)) : SeriesRow F :=
  let columns := columnNames.zip vars
  { labels := columns.flatMap (labelsOf metricLabels countOfNumberCols)
    point := (columns.filterMap (valueOf countOfNumberCols)).getLast?.map fun x =>
      ⟨(columns.filterMap timeOf).getLast?.getD 0, x⟩ }

/-- The label set of a row. -/
def SeriesRow.labelSet (r : SeriesRow F) : Go.StringMap := toLabelSet r.labels

/-- The rows that carry no `NaN` and no infinity. -/
def keptRows (metricLabels : String → List (String × String)) (countOfNumberCols : Nat)
    (columnNames : List String) (rows : List (List (ColumnVar F))) : List (SeriesRow F) :=
  (rows.map (seriesRow metricLabels countOfNumberCols columnNames)).filter fun r =>
    r.point.all fun p => !(GoFloat.isNaN p.value || GoFloat.isInf p.value)

/-- **The series of a result set**: one for each label set, in order of first occurrence, with
the points of the rows that have these labels, in row order. -/
def seriesByLabels (rows : List (SeriesRow F)) : List (Go.StringMap × List (Point F)) :=
  (Grouping.keysOf SeriesRow.labelSet rows).map fun L =>
    (L, (Grouping.members SeriesRow.labelSet rows L).filterMap SeriesRow.point)

/-- The values of a label set in sorted order. -/
def sortedValues (L : Go.StringMap) : List String :=
  Quotient.liftOn (L.entries.map Sigma.snd) Go.sortStrings fun _ _ h => Go.sortStrings_congr h

/-- The values of a label set in sorted order, written one after another. -/
def spelledLabels (L : Go.StringMap) : String := Go.join "" (sortedValues L)

/-! ### `readRow` reads what the row says -/

omit [GoFloat F] in
theorem addNumber_eq (s : RowState F) (c : Nat) (colName : String) (x : F) (text : String) :
    s.addNumber c colName x text =
      if isValueColumn c colName then s.setValue x else s.addLabel colName text := by
  simp [RowState.addNumber, isValueColumn]

/-- The state of `readRow` says what the columns read so far say. -/
structure Reads (ml : String → List (String × String)) (c : Nat)
    (columns : List (String × ColumnVar F)) (s : RowState F) : Prop where
  groupBy : s.groupBy = (columns.flatMap (labelsOf ml c)).map Prod.snd
  groupAttributes : s.groupAttributes = toLabelSet (columns.flatMap (labelsOf ml c))
  timestamp : s.timestamp = (columns.filterMap timeOf).getLast?.getD 0
  value : (columns.filterMap (valueOf c)).getLast? = if s.isValidPoint then some s.value else none

theorem Reads.nil (ml : String → List (String × String)) (c : Nat) :
    Reads ml c [] (RowState.init : RowState F) where
  groupBy := rfl
  groupAttributes := rfl
  timestamp := rfl
  value := rfl

theorem filterMap_append_none {α β : Type} {f : α → Option β} (l : List α) {a : α}
    (h : f a = none) : (l ++ [a]).filterMap f = l.filterMap f := by
  simp [h]

omit [GoFloat F] in
/-- Several labels at once change what one label changes. -/
theorem foldl_addLabel (ls : List (String × String)) :
    ∀ s : RowState F, let s' := ls.foldl (fun s kv => s.addLabel kv.1 kv.2) s
      s'.groupBy = s.groupBy ++ ls.map Prod.snd ∧
      s'.groupAttributes = ls.foldl (fun m kv => m.insert kv.1 kv.2) s.groupAttributes ∧
      s'.timestamp = s.timestamp ∧ s'.value = s.value ∧ s'.isValidPoint = s.isValidPoint := by
  induction ls with
  | nil => simp
  | cons kv ls ih =>
    intro s
    obtain ⟨hg, ha, ht, hv, hp⟩ := ih (s.addLabel kv.1 kv.2)
    refine ⟨?_, ha, ht, hv, hp⟩
    rw [List.foldl_cons, hg]
    simp [RowState.addLabel]

section ReadsStep

variable {ml : String → List (String × String)} {c : Nat} {columns : List (String × ColumnVar F)}
  {s : RowState F} {column : String × ColumnVar F}

theorem Reads.addLabels (h : Reads ml c columns s) (ht : timeOf column = none)
    (hv : valueOf c column = none) :
    Reads ml c (columns ++ [column])
      ((labelsOf ml c column).foldl (fun s kv => s.addLabel kv.1 kv.2) s) := by
  obtain ⟨hg, ha, htime, hval, hvalid⟩ := foldl_addLabel (labelsOf ml c column) s
  exact {
    groupBy := by simp [hg, h.groupBy]
    groupAttributes := by simp [ha, h.groupAttributes, toLabelSet]
    timestamp := by simp [htime, h.timestamp, ht]
    value := by rw [filterMap_append_none columns hv, hval, hvalid]; exact h.value }

theorem Reads.addLabel (h : Reads ml c columns s) {k v : String}
    (hl : labelsOf ml c column = [(k, v)]) (ht : timeOf column = none)
    (hv : valueOf c column = none) : Reads ml c (columns ++ [column]) (s.addLabel k v) := by
  have := h.addLabels ht hv
  rwa [hl] at this

theorem Reads.skip (h : Reads ml c columns s) (hl : labelsOf ml c column = [])
    (ht : timeOf column = none) (hv : valueOf c column = none) :
    Reads ml c (columns ++ [column]) s := by
  have := h.addLabels ht hv
  rwa [hl] at this

theorem Reads.setValue (h : Reads ml c columns s) {x : F}
    (hl : labelsOf ml c column = []) (ht : timeOf column = none)
    (hv : valueOf c column = some x) : Reads ml c (columns ++ [column]) (s.setValue x) where
  groupBy := by simp [RowState.setValue, h.groupBy, hl]
  groupAttributes := by simp [RowState.setValue, h.groupAttributes, hl]
  timestamp := by simp [RowState.setValue, h.timestamp, ht]
  value := by simp [RowState.setValue, hv]

theorem Reads.addNumber (h : Reads ml c columns s) {x : F} {text : String}
    (hn : column.2.number? = some (x, text)) (ht : timeOf column = none)
    (hs : ∀ v, column.2 ≠ .string v) (hb : ∀ b, column.2 ≠ .bool b) :
    Reads ml c (columns ++ [column]) (s.addNumber c column.1 x text) := by
  have hl : labelsOf ml c column =
      if isValueColumn c column.1 then [] else [(column.1, text)] := by
    unfold labelsOf
    split
    · exact absurd ‹_› (hs _)
    · exact absurd ‹_› (hb _)
    · simp [hn]
  rw [addNumber_eq]
  by_cases hval : isValueColumn c column.1 = true
  · rw [if_pos hval] at hl ⊢
    exact h.setValue hl ht (by simp [valueOf, hval, hn])
  · rw [if_neg hval] at hl ⊢
    exact h.addLabel hl ht (by simp [valueOf, hval])

/-- One column. -/
theorem Reads.step (h : Reads ml c columns s) :
    Reads ml c (columns ++ [column]) (readColumn ml c s column) := by
  obtain ⟨name, v⟩ := column
  cases v with
  | string v =>
    have ht : timeOf (name, (.string v : ColumnVar F)) = none := rfl
    have := h.addLabels ht (by simp [valueOf, ColumnVar.number?])
    by_cases hf : name = "fullLabels"
    · simpa [labelsOf, readColumn, hf] using this
    · simpa [labelsOf, readColumn, hf] using this
  | time t =>
    have hl : labelsOf ml c (name, (ColumnVar.time t : ColumnVar F)) = [] := by
      simp [labelsOf, ColumnVar.number?]
    have hv : valueOf c (name, (ColumnVar.time t : ColumnVar F)) = none := by
      simp [valueOf, ColumnVar.number?]
    exact ⟨by simp [readColumn, h.groupBy, hl], by simp [readColumn, h.groupAttributes, hl],
      by simp [readColumn, timeOf], by rw [filterMap_append_none columns hv]; exact h.value⟩
  | bool b => exact h.addLabel rfl rfl (by simp [valueOf, ColumnVar.number?])
  | float x => exact h.addNumber rfl rfl (by simp) (by simp)
  | uint n => exact h.addNumber rfl rfl (by simp) (by simp)
  | int n => exact h.addNumber rfl rfl (by simp) (by simp)
  | nullFloat o =>
    cases o with
    | none =>
      exact h.skip (by simp [labelsOf, ColumnVar.number?]) rfl (by simp [valueOf, ColumnVar.number?])
    | some x => exact h.addNumber rfl rfl (by simp) (by simp)
  | nullUint o =>
    cases o with
    | none =>
      exact h.skip (by simp [labelsOf, ColumnVar.number?]) rfl (by simp [valueOf, ColumnVar.number?])
    | some x => exact h.addNumber rfl rfl (by simp) (by simp)
  | nullInt o =>
    cases o with
    | none =>
      exact h.skip (by simp [labelsOf, ColumnVar.number?]) rfl (by simp [valueOf, ColumnVar.number?])
    | some x => exact h.addNumber rfl rfl (by simp) (by simp)
  | unsupported =>
    exact h.skip (by simp [labelsOf, ColumnVar.number?]) rfl (by simp [valueOf, ColumnVar.number?])

end ReadsStep

theorem reads_foldl (ml : String → List (String × String)) (c : Nat)
    (columns : List (String × ColumnVar F)) :
    Reads ml c columns (columns.foldl (readColumn ml c) RowState.init) := by
  induction columns using List.reverseRecOn with
  | nil => exact Reads.nil ml c
  | append_singleton columns column ih =>
    rw [List.foldl_append, List.foldl_cons, List.foldl_nil]
    exact ih.step

/-- **Spec of `readRow`.** -/
theorem readRow_spec (metricLabels : String → List (String × String)) (c : Nat)
    (columnNames : List String) (vars : List (ColumnVar F)) :
    let r := readRow metricLabels c columnNames vars
    let row := seriesRow metricLabels c columnNames vars
    r.groupBy = row.labels.map Prod.snd ∧ r.groupAttributes = row.labelSet ∧
      r.metricPoint = row.point := by
  have h := reads_foldl metricLabels c (columnNames.zip vars)
  refine ⟨h.groupBy, h.groupAttributes, ?_⟩
  simp only [readRow, seriesRow]
  rw [h.value, h.timestamp]
  split <;> simp

/-! ### The loop over the rows groups by `rowKey` -/

/-- The maps say what the rows read so far say. -/
structure Collects (rs : List (RowResult F)) (m : SeriesMaps F) : Prop where
  keys : m.keys = Grouping.keysOf rowKey rs
  attrs : ∀ k, m.seriesToAttrs k =
    (Grouping.members rowKey rs k).getLast?.map RowResult.groupAttributes
  points : ∀ k, m.seriesToPoints k = (Grouping.members rowKey rs k).filterMap RowResult.metricPoint

omit [GoFloat F] in
theorem Collects.empty : Collects [] (SeriesMaps.empty : SeriesMaps F) where
  keys := rfl
  attrs := fun _ => rfl
  points := fun _ => rfl

omit [GoFloat F] in
/-- A key is in the map once a row has had it. -/
theorem Collects.isSome_attrs {rs : List (RowResult F)} {m : SeriesMaps F} (h : Collects rs m)
    (k : String) : (m.seriesToAttrs k).isSome ↔ k ∈ Grouping.keysOf rowKey rs := by
  rw [h.attrs, Option.isSome_map, List.getLast?_isSome, Grouping.mem_keysOf]
  constructor
  · intro hne
    obtain ⟨r, hr⟩ := List.exists_mem_of_ne_nil _ hne
    exact ⟨r, Grouping.mem_members.mp hr⟩
  · rintro ⟨r, hr⟩
    exact List.ne_nil_of_mem (Grouping.mem_members.mpr hr)

theorem Collects.addRow {rs : List (RowResult F)} {m : SeriesMaps F} (h : Collects rs m)
    {r : RowResult F} (hr : skipsRow r = false) : Collects (rs ++ [r]) (m.addRow r) where
  keys := by
    simp only [SeriesMaps.addRow, hr, Bool.false_eq_true, if_false]
    rw [Grouping.keysOf_append_singleton, h.keys]
    by_cases hk : rowKey r ∈ Grouping.keysOf rowKey rs
    · rw [if_pos ((h.isSome_attrs _).mpr hk), if_pos hk]
    · rw [if_neg (fun hs => hk ((h.isSome_attrs _).mp hs)), if_neg hk]
  attrs := by
    intro k
    simp only [SeriesMaps.addRow, hr, Bool.false_eq_true, if_false]
    rw [Grouping.members_append_singleton]
    by_cases hk : rowKey r = k
    · subst hk
      simp
    · rw [if_neg hk, Function.update_of_ne (Ne.symm hk), h.attrs]
  points := by
    intro k
    simp only [SeriesMaps.addRow, hr, Bool.false_eq_true, if_false]
    rw [Grouping.members_append_singleton]
    by_cases hk : rowKey r = k
    · subst hk
      cases hp : r.metricPoint with
      | none => simp [hp, h.points]
      | some p => simp [hp, h.points]
    · rw [if_neg hk, ← h.points]
      cases r.metricPoint with
      | none => rfl
      | some p => exact Function.update_of_ne (Ne.symm hk) _ _

theorem addRow_skipped {m : SeriesMaps F} {r : RowResult F} (hr : skipsRow r = true) :
    m.addRow r = m := by
  simp [SeriesMaps.addRow, hr]

theorem readRows_collects {ε : Type} (metricLabels : String → List (String × String)) (c : Nat)
    (columnNames : List String) (rows : List (List (ColumnVar F))) :
    ∀ (rs : List (RowResult F)) (m : SeriesMaps F), Collects rs m →
      ∃ m', readRows (ε := ε) metricLabels c columnNames m (rows.map .ok) = .ok m' ∧
        Collects (rs ++ (rows.map (readRow metricLabels c columnNames)).filter
          (fun r => !skipsRow r)) m' := by
  induction rows with
  | nil => exact fun rs m h => ⟨m, rfl, by simpa using h⟩
  | cons vars rows ih =>
    intro rs m h
    simp only [List.map_cons, readRows]
    cases hr : skipsRow (readRow metricLabels c columnNames vars) with
    | true =>
      rw [addRow_skipped hr, List.filter_cons_of_neg (by simp [hr])]
      exact ih rs m h
    | false =>
      rw [List.filter_cons_of_pos (by simp [hr]), List.append_cons]
      exact ih _ _ (h.addRow hr)

/-! ### The key is spelled from the labels -/

theorem toLabelSet_append_singleton (ls : List (String × String)) (k v : String) :
    toLabelSet (ls ++ [(k, v)]) = (toLabelSet ls).insert k v := by
  simp [toLabelSet]

/-- Labels with distinct names are the entries of their label set. -/
theorem entries_toLabelSet (ls : List (String × String)) (h : (ls.map Prod.fst).Nodup) :
    (toLabelSet ls).entries = (ls.map fun kv => (⟨kv.1, kv.2⟩ : Σ _ : String, String)) := by
  induction ls using List.reverseRecOn with
  | nil => rfl
  | append_singleton ls kv ih =>
    obtain ⟨k, v⟩ := kv
    rw [List.map_append, List.nodup_append] at h
    have hk : k ∉ toLabelSet ls := by
      rw [Finmap.mem_def, ih h.1]
      intro hmem
      have hmem' : k ∈ ls.map Prod.fst := by
        simpa [Multiset.keys, Function.comp_def] using hmem
      exact h.2.2 k hmem' k (by simp) rfl
    rw [toLabelSet_append_singleton, Finmap.entries_insert_of_notMem hk, ih h.1,
      List.map_append, ← Multiset.coe_add, Multiset.add_comm]
    rfl

/-- The labels that a column gives, a `fullLabels` column apart, have its name. -/
theorem labelsOf_names {ml : String → List (String × String)} {c : Nat}
    {column : String × ColumnVar F} (hf : column.1 ≠ "fullLabels") :
    ((labelsOf ml c column).map Prod.fst).Sublist [column.1] := by
  unfold labelsOf
  split
  · simp [hf]
  · simp
  · cases column.2.number? with
    | none => simp
    | some n => by_cases hv : isValueColumn c column.1 <;> simp [hv]

theorem labels_names_sublist (ml : String → List (String × String)) (c : Nat)
    (columns : List (String × ColumnVar F)) (hf : ∀ column ∈ columns, column.1 ≠ "fullLabels") :
    ((columns.flatMap (labelsOf ml c)).map Prod.fst).Sublist (columns.map Prod.fst) := by
  induction columns with
  | nil => exact List.Sublist.slnil
  | cons column columns ih =>
    rw [List.flatMap_cons, List.map_append, List.map_cons]
    exact (labelsOf_names (hf column List.mem_cons_self)).append
      (ih fun col hcol => hf col (List.mem_cons_of_mem _ hcol))

theorem zip_names_sublist {α β : Type} (l : List α) :
    ∀ l' : List β, ((l.zip l').map Prod.fst).Sublist l := by
  induction l with
  | nil => simp
  | cons a l ih =>
    intro l'
    cases l' with
    | nil => simp
    | cons b l' => exact (ih l').cons_cons a

/-- The labels of a row have distinct names if the columns have and none is `fullLabels`. -/
theorem labels_nodup (ml : String → List (String × String)) (c : Nat)
    {columnNames : List String} (hn : columnNames.Nodup) (hf : "fullLabels" ∉ columnNames)
    (vars : List (ColumnVar F)) :
    ((seriesRow ml c columnNames vars).labels.map Prod.fst).Nodup := by
  refine ((labels_names_sublist ml c _ ?_).trans (zip_names_sublist columnNames vars)).nodup hn
  exact fun column hcol he => hf (he ▸ (List.of_mem_zip hcol).1)

/-- The key of a row whose labels have distinct names. -/
theorem rowKey_eq_spelledLabels (ml : String → List (String × String)) (c : Nat)
    (columnNames : List String) (vars : List (ColumnVar F))
    (hn : ((seriesRow ml c columnNames vars).labels.map Prod.fst).Nodup) :
    rowKey (readRow ml c columnNames vars) =
      spelledLabels (seriesRow ml c columnNames vars).labelSet := by
  obtain ⟨hgroup, -, -⟩ := readRow_spec ml c columnNames vars
  have hvalues : (SeriesRow.labelSet (seriesRow ml c columnNames vars)).entries.map Sigma.snd =
      ((seriesRow ml c columnNames vars).labels.map Prod.snd : Multiset String) := by
    rw [SeriesRow.labelSet, entries_toLabelSet _ hn, Multiset.map_coe, List.map_map]
    rfl
  unfold rowKey spelledLabels sortedValues
  rw [hgroup, hvalues]
  rfl

/-! ### The result -/

theorem skipsRow_readRow (ml : String → List (String × String)) (c : Nat)
    (columnNames : List String) (vars : List (ColumnVar F)) :
    (!skipsRow (readRow ml c columnNames vars)) =
      (seriesRow ml c columnNames vars).point.all
        (fun p => !(GoFloat.isNaN p.value || GoFloat.isInf p.value)) := by
  obtain ⟨-, -, hpoint⟩ := readRow_spec ml c columnNames vars
  rw [← hpoint]
  unfold skipsRow
  cases (readRow ml c columnNames vars).metricPoint <;> rfl

/-- The series that grouping by the spelled labels gives: the labels are those of the last row. -/
def seriesBySpelling (rows : List (SeriesRow F)) : List (Go.StringMap × List (Point F)) :=
  (Grouping.keysOf (spelledLabels ∘ SeriesRow.labelSet) rows).map fun k =>
    let rs := Grouping.members (spelledLabels ∘ SeriesRow.labelSet) rows k
    ((rs.getLast?.map SeriesRow.labelSet).getD ∅, rs.filterMap SeriesRow.point)

/-- Each row gives its labels distinct names. -/
def DistinctLabels (ml : String → List (String × String)) (c : Nat) (columnNames : List String)
    (rows : List (List (ColumnVar F))) : Prop :=
  ∀ vars ∈ rows, ((seriesRow ml c columnNames vars).labels.map Prod.fst).Nodup

/-- **What the reader computes**, when each row gives its labels distinct names. -/
theorem readRowsForTimeSeriesResult_ok {ε : Type} (ml : String → List (String × String)) (c : Nat)
    (columnNames : List String) (rows : List (List (ColumnVar F)))
    (hn : DistinctLabels ml c columnNames rows) (rowsErr : Option ε) :
    ((readRowsForTimeSeriesResult ml c columnNames (rows.map .ok) rowsErr).1.map
      fun s => (s.labels, s.points)) = seriesBySpelling (keptRows ml c columnNames rows) := by
  obtain ⟨m, hm, hcol⟩ := readRows_collects (ε := ε) ml c columnNames rows [] _ Collects.empty
  -- both sides are groupings of the list of rows that are not skipped
  set kept := rows.filter ((fun r => !skipsRow r) ∘ readRow ml c columnNames) with hkept
  have hrows : keptRows ml c columnNames rows = kept.map (seriesRow ml c columnNames) := by
    unfold keptRows
    rw [List.filter_map, hkept]
    refine congrArg _ (List.filter_congr fun vars _ => ?_)
    exact (skipsRow_readRow ml c columnNames vars).symm
  have hkey : ∀ vars ∈ kept, (rowKey ∘ readRow ml c columnNames) vars =
      ((spelledLabels ∘ SeriesRow.labelSet) ∘ seriesRow ml c columnNames) vars :=
    fun vars hmem => rowKey_eq_spelledLabels ml c columnNames vars
      (hn vars (List.mem_filter.mp hmem).1)
  have hattrs : RowResult.groupAttributes ∘ readRow ml c columnNames =
      SeriesRow.labelSet ∘ seriesRow (F := F) ml c columnNames :=
    funext fun vars => (readRow_spec ml c columnNames vars).2.1
  have hpoint : ∀ vars : List (ColumnVar F),
      (readRow ml c columnNames vars).metricPoint = (seriesRow ml c columnNames vars).point :=
    fun vars => (readRow_spec ml c columnNames vars).2.2
  rw [List.nil_append, List.filter_map, ← hkept] at hcol
  simp only [readRowsForTimeSeriesResult, hm, SeriesMaps.seriesList, List.map_map,
    seriesBySpelling, hrows, hcol.keys, Grouping.keysOf_map, Grouping.keysOf_congr hkey]
  refine List.map_congr_left (fun k _ => ?_)
  simp only [Function.comp_apply, hcol.attrs, hcol.points, Grouping.members_map,
    Grouping.members_congr hkey, List.filterMap_map, hpoint, List.getLast?_map, Option.map_map,
    hattrs]

omit [GoFloat F] in
/-- Grouping by the spelled labels is grouping by the labels exactly when no two label sets
spell the same text. -/
theorem seriesBySpelling_eq_seriesByLabels_iff (rows : List (SeriesRow F)) :
    seriesBySpelling rows = seriesByLabels rows ↔
      Set.InjOn spelledLabels {L | L ∈ Grouping.keysOf SeriesRow.labelSet rows} := by
  constructor
  · intro h
    rw [← Grouping.length_keysOf_comp_iff]
    simpa [seriesBySpelling, seriesByLabels] using congrArg List.length h
  · intro hinj
    unfold seriesBySpelling seriesByLabels
    rw [Grouping.keysOf_comp _ _ _ hinj, List.map_map]
    refine List.map_congr_left (fun L hL => ?_)
    simp only [Function.comp_apply, Grouping.members_comp _ _ _ hinj hL, Prod.mk.injEq, and_true]
    -- the last row of the group has the labels of the group
    obtain ⟨r, hr⟩ := Option.isSome_iff_exists.mp
      (List.getLast?_isSome.mpr (Grouping.members_ne_nil hL))
    rw [hr, Option.map_some, Option.getD_some]
    exact (Grouping.mem_members.mp (List.mem_of_getLast? hr)).2

/-- **One series for each label set.** The series that the reader returns are the series of the
label sets of the result, each with the points of its rows, exactly when no two of these label
sets have values that, in sorted order and written one after another, spell the same text. -/
theorem readRowsForTimeSeriesResult_eq_seriesByLabels_iff {ε : Type}
    (ml : String → List (String × String)) (c : Nat) (columnNames : List String)
    (rows : List (List (ColumnVar F))) (hn : DistinctLabels ml c columnNames rows)
    (rowsErr : Option ε) :
    ((readRowsForTimeSeriesResult ml c columnNames (rows.map .ok) rowsErr).1.map
        fun s => (s.labels, s.points)) = seriesByLabels (keptRows ml c columnNames rows) ↔
      ∀ r₁ ∈ keptRows ml c columnNames rows, ∀ r₂ ∈ keptRows ml c columnNames rows,
        spelledLabels r₁.labelSet = spelledLabels r₂.labelSet → r₁.labelSet = r₂.labelSet := by
  rw [readRowsForTimeSeriesResult_ok ml c columnNames rows hn,
    seriesBySpelling_eq_seriesByLabels_iff]
  constructor
  · intro h r₁ h₁ r₂ h₂ he
    exact h (Grouping.mem_keysOf.mpr ⟨r₁, h₁, rfl⟩) (Grouping.mem_keysOf.mpr ⟨r₂, h₂, rfl⟩) he
  · intro h L₁ h₁ L₂ h₂ he
    obtain ⟨r₁, hr₁, rfl⟩ := Grouping.mem_keysOf.mp h₁
    obtain ⟨r₂, hr₂, rfl⟩ := Grouping.mem_keysOf.mp h₂
    exact h r₁ hr₁ r₂ hr₂ he

/-- The columns of a query grouped by `app` and `op`. -/
def appOpColumns : List String := ["ts", "app", "op", "value"]

/-- One row of such a query. -/
def appOpRow (t : Int) (app op : String) (x : Int) : List (ColumnVar Int) :=
  [.time t, .string app, .string op, .float x]

theorem readRowsForTimeSeriesResult_eq_seriesByLabels_fetch :
    ((readRowsForTimeSeriesResult (ε := Unit) (fun _ => []) 1 appOpColumns
        ([appOpRow 0 "frontend" "/fetch" 1, appOpRow 0 "order" "/fetch" 2,
          appOpRow 60000 "frontend" "/fetch" 3].map .ok) none).1.map
        fun s => (s.labels, s.points)) =
      seriesByLabels (keptRows (fun _ => []) 1 appOpColumns
        [appOpRow 0 "frontend" "/fetch" 1, appOpRow 0 "order" "/fetch" 2,
          appOpRow 60000 "frontend" "/fetch" 3]) :=
  (readRowsForTimeSeriesResult_eq_seriesByLabels_iff (fun _ => []) 1 appOpColumns _
    (fun _ _ => labels_nodup _ 1 (by decide) (by decide) _) none).mpr (by decide)

/-- The values `ab`, `c` and the values `a`, `bc` spell the same text: two rows with different
labels end up in one series. -/
theorem readRowsForTimeSeriesResult_merges_ab_c_a_bc :
    ((readRowsForTimeSeriesResult (ε := Unit) (fun _ => []) 1 appOpColumns
        ([appOpRow 0 "ab" "c" 1, appOpRow 0 "a" "bc" 2].map .ok) none).1.map
        fun s => (s.labels, s.points)) ≠
      seriesByLabels (keptRows (fun _ => []) 1 appOpColumns
        [appOpRow 0 "ab" "c" 1, appOpRow 0 "a" "bc" 2]) := by
  intro h
  exact absurd (congrArg List.length h) (by decide)

end ClickHouseReader
end QueryService
