import BoringPanel.Lib.StableSort
import BoringPanel.QueryService.PostProcess.TablePanel

/-!
# The limit of metrics and formulas

`ApplyMetricLimit` sorts the series of a result by the `orderBy` list of its query and keeps the first
ones. The comparison goes through the list, but every column that has an order returns, also where two
series tie in it, so that the first column decides alone (`seriesLess_eq`). The series that are kept are
the first ones in the lexicographic order of all columns exactly when the first column is a strict weak
order on them and no tie in it is one that the other columns would turn around
(`applyMetricLimit_keepsByOrder_iff`).

`sort.SliceStable` is a parameter. It promises something only for comparisons that are strict weak orders,
so that the theorem speaks of all routines that keep the promise.
-/

namespace QueryService
namespace PostProcess

variable {F : Type} [GoMath F]

/-! ### The comparison -/

/-- `constants.SigNozOrderByValue`. -/
def sigNozOrderByValue : String := "#SIGNOZ_VALUE"

/-- The points that count for the average. -/
def finitePoints (s : Series F) : List (Point F) :=
  s.points.filter fun p => !(GoFloat.isNaN p.value || GoFloat.isInf p.value)

/-- The average of a series; one without points has an average of zero, to avoid a division by zero. -/
def average (s : Series F) : F :=
  GoMath.div (sumOfPoints (finitePoints s)) (GoFloat.ofInt (max (finitePoints s).length 1))

/-- The branches for `"asc"` and `"desc"`; there is no answer for another order. -/
def OrderBy.pick (o : OrderBy) (less greater : Bool) : Option Bool :=
  if o.order = "asc" then some less else if o.order = "desc" then some greater else none

/-- For table type queries (one value for a row) the values are compared, else the averages. -/
def compareValues (o : OrderBy) (a b : Series F) : Option Bool :=
  match a.points, b.points with
  | [p], [q] => o.pick (GoMath.lt p.value q.value) (GoMath.lt q.value p.value)
  | _, _ => o.pick (GoMath.lt (average a) (average b)) (GoMath.lt (average b) (average a))

def compareLabels (o : OrderBy) (a b : Series F) : Option Bool :=
  match a.labels.lookup o.columnName, b.labels.lookup o.columnName with
  | some labelI, some labelJ => o.pick (labelI < labelJ) (labelJ < labelI)
  -- `return existsI`
  | existsI, _ => some existsI.isSome

def compareColumn (o : OrderBy) (a b : Series F) : Option Bool :=
  if o.columnName = sigNozOrderByValue then compareValues o a b else compareLabels o a b

/-- The function that `sort.SliceStable` is given. At the end it compares positions; the sort asks it
whether a later element goes before an earlier one. -/
def seriesLess : List OrderBy → Series F → Series F → Bool
  | [], _, _ => false
  | o :: orderByList, a, b => (compareColumn o a b).getD (seriesLess orderByList a b)

/-! ### The limit -/

/-- The columns of a query; if no `orderBy` is specified, by value in descending order. -/
def BuilderQuery.firstColumn (query : BuilderQuery) : OrderBy :=
  query.orderBy.headD ⟨sigNozOrderByValue, "desc"⟩

def BuilderQuery.orderByList (query : BuilderQuery) : List OrderBy :=
  query.firstColumn :: query.orderBy.tail

/-- `result.Series[:limit]`; the length is compared with the limit as an `int`, and a limit that is
negative as such is out of range. -/
def limitSeries (limit : UInt64) (series : List (Series F)) : Option (List (Series F)) :=
  if limit > 0 ∧ (series.length : Int) > Go.int64 limit.toNat then
    if limit.toNat < 2 ^ 63 then some (series.take limit.toNat) else none
  else some series

/-- Metrics, and formulas. -/
def BuilderQuery.isLimited (query : BuilderQuery) : Prop :=
  query.dataSource = some .metrics ∨ query.queryName ≠ query.expression

instance (query : BuilderQuery) : Decidable query.isLimited := inferInstanceAs (Decidable (_ ∨ _))

/-- The body of the loop; `none` where it panics. -/
def limitResult (S : SliceStable (Series F)) (builderQueries : Option BuilderQueries)
    (result : Result F) : Option (Result F) :=
  match builderQueries with
  | none => some result
  | some queries => do
    let query ← queries result.queryName
    if query.isLimited then
      let series ← limitSeries query.limit (S.sort (seriesLess query.orderByList) result.series)
      some { result with series := series }
    else some result

/-- `ApplyMetricLimit`. -/
def applyMetricLimit (S : SliceStable (Series F)) (builderQueries : Option BuilderQueries)
    (results : List (Result F)) : Option (List (Result F)) :=
  results.mapM (limitResult S builderQueries)

/-! ### One column -/

/-- A column puts one series before another. -/
def columnLess (o : OrderBy) (a b : Series F) : Bool := (compareColumn o a b).getD false

/-- The lexicographic order of the columns: ties in a column are ordered by the next one. -/
def lexOrder : List OrderBy → Series F → Series F → Bool
  | [] => fun _ _ => false
  | o :: orderByList => lexLess (columnLess o) (lexOrder orderByList)

theorem pick_asymm (o : OrderBy) {less greater : Bool} (hasymm : less = true → greater = false)
    (h : (o.pick less greater).getD false = true) : (o.pick greater less).getD false = false := by
  unfold OrderBy.pick at h ⊢
  split_ifs at h ⊢
  · exact hasymm h
  · show less = false
    rw [← Bool.not_eq_true]
    intro hless
    exact absurd h (by simp [hasymm hless])
  · cases h

theorem compareValues_single (o : OrderBy) {a b : Series F} {p q : Point F} (ha : a.points = [p])
    (hb : b.points = [q]) :
    compareValues o a b = o.pick (GoMath.lt p.value q.value) (GoMath.lt q.value p.value) := by
  simp only [compareValues, ha, hb]

theorem compareValues_average (o : OrderBy) {a b : Series F}
    (h : ¬ (a.points.length = 1 ∧ b.points.length = 1)) :
    compareValues o a b =
      o.pick (GoMath.lt (average a) (average b)) (GoMath.lt (average b) (average a)) := by
  unfold compareValues
  split
  · next ha hb => exact absurd ⟨by rw [ha]; rfl, by rw [hb]; rfl⟩ h
  · rfl

omit [GoMath F] in
theorem compareLabels_some (o : OrderBy) {a b : Series F} {v w : String}
    (ha : a.labels.lookup o.columnName = some v) (hb : b.labels.lookup o.columnName = some w) :
    compareLabels o a b = o.pick (v < w) (w < v) := by
  simp only [compareLabels, ha, hb]

omit [GoMath F] in
/-- A series with the label goes before one without it, in both orders. -/
theorem compareLabels_none (o : OrderBy) {a b : Series F}
    (h : a.labels.lookup o.columnName = none ∨ b.labels.lookup o.columnName = none) :
    compareLabels o a b = some (a.labels.lookup o.columnName).isSome := by
  unfold compareLabels
  split
  · next ha hb =>
    rw [ha, hb] at h
    exact absurd h (by simp)
  · rfl

theorem columnLess_asymm (o : OrderBy) (a b : Series F) (h : columnLess o a b = true) :
    columnLess o b a = false := by
  unfold columnLess compareColumn at h ⊢
  split_ifs at h ⊢
  · by_cases hone : a.points.length = 1 ∧ b.points.length = 1
    · obtain ⟨p, hp⟩ := List.length_eq_one_iff.mp hone.1
      obtain ⟨q, hq⟩ := List.length_eq_one_iff.mp hone.2
      rw [compareValues_single o hp hq] at h
      rw [compareValues_single o hq hp]
      exact pick_asymm o (GoMath.lt_asymm _ _) h
    · rw [compareValues_average o hone] at h
      rw [compareValues_average o fun hba => hone hba.symm]
      exact pick_asymm o (GoMath.lt_asymm _ _) h
  · cases ha : a.labels.lookup o.columnName with
    | none =>
      rw [compareLabels_none o (.inl ha), ha] at h
      cases h
    | some v =>
      cases hb : b.labels.lookup o.columnName with
      | none =>
        rw [compareLabels_none o (.inl hb), hb]
        rfl
      | some w =>
        rw [compareLabels_some o ha hb] at h
        rw [compareLabels_some o hb ha]
        refine pick_asymm o (fun hlt => ?_) h
        rw [decide_eq_true_eq] at hlt
        exact decide_eq_false (not_lt_of_gt hlt)

/-- The order is one of the two that the code knows. -/
def OrderBy.IsDirected (o : OrderBy) : Prop := o.order = "asc" ∨ o.order = "desc"

theorem pick_isSome {o : OrderBy} (h : o.IsDirected) (less greater : Bool) :
    (o.pick less greater).isSome := by
  unfold OrderBy.pick
  rcases h with h | h
  · rw [if_pos h]
    rfl
  · have hne : o.order ≠ "asc" := by
      rw [h]
      decide
    rw [if_neg hne, if_pos h]
    rfl

theorem compareColumn_isSome {o : OrderBy} (h : o.IsDirected) (a b : Series F) :
    (compareColumn o a b).isSome := by
  unfold compareColumn compareValues compareLabels
  split
  · split <;> exact pick_isSome h _ _
  · split
    · exact pick_isSome h _ _
    · rfl

/-- **The first column decides.** -/
theorem seriesLess_eq {o : OrderBy} (h : o.IsDirected) (orderByList : List OrderBy) :
    (seriesLess (o :: orderByList) : Series F → Series F → Bool) = columnLess o := by
  ext a b
  obtain ⟨r, hr⟩ := Option.isSome_iff_exists.mp (compareColumn_isSome h a b)
  simp only [seriesLess, columnLess, hr, Option.getD_some]

/-! ### What is kept -/

/-- How many series the limit keeps of a list. -/
def BuilderQuery.kept (query : BuilderQuery) (series : List (Series F)) : ℕ :=
  if query.limit = 0 then series.length else query.limit.toNat

/-- The first series in the order of all columns are kept. -/
def KeepsByOrder (query : BuilderQuery) (result result' : Result F) : Prop :=
  result'.queryName = result.queryName ∧
    KeepsFirst (lexOrder query.orderByList) (query.kept result.series) result.series result'.series

/-- The limit is an `int`, the first column a strict weak order on the series, and among series that tie in
it those that are kept are in the order of the other columns already. -/
structure FirstColumnDecides (query : BuilderQuery) (series : List (Series F)) : Prop where
  limit : query.limit.toNat < 2 ^ 63
  strictWeak : StrictWeak (columnLess query.firstColumn) series
  ties : TiesFollow (columnLess query.firstColumn) (lexOrder query.orderBy.tail) (query.kept series) series

omit [GoMath F] in
theorem limitSeries_eq {limit : UInt64} (h : limit.toNat < 2 ^ 63) (series : List (Series F)) :
    limitSeries limit series =
      some (series.take (if limit = 0 then series.length else limit.toNat)) := by
  have hint : Go.int64 limit.toNat = limit.toNat := Go.int64_eq (by omega) (by omega)
  unfold limitSeries
  rw [hint]
  by_cases hzero : limit = 0
  · subst hzero
    rw [if_neg (by simp), if_pos rfl, List.take_length]
  · have hpos : limit > 0 := by
      rw [gt_iff_lt, UInt64.lt_iff_toNat_lt]
      exact Nat.pos_of_ne_zero fun h0 => hzero (UInt64.toNat_inj.mp h0)
    rw [if_neg hzero]
    by_cases hlong : (series.length : Int) > (limit.toNat : Int)
    · rw [if_pos ⟨hpos, hlong⟩, if_pos h]
    · rw [if_neg fun hboth => hlong hboth.2, List.take_of_length_le (by omega)]

omit [GoMath F] in
/-- A limit that is negative as an `int` is out of range. -/
theorem limitSeries_eq_none {limit : UInt64} (h : ¬ limit.toNat < 2 ^ 63) (series : List (Series F)) :
    limitSeries limit series = none := by
  have hlt : limit.toNat < 2 ^ 64 := limit.toNat_lt
  have hneg : Go.int64 limit.toNat < 0 := by
    unfold Go.int64
    rw [Int.bmod_def]
    split <;> omega
  have hpos : limit > 0 := by
    rw [gt_iff_lt, UInt64.lt_iff_toNat_lt]
    exact Nat.pos_of_ne_zero fun h0 => h (by omega)
  unfold limitSeries
  rw [if_pos ⟨hpos, by omega⟩, if_neg h]

section Keeps

variable {queries : BuilderQueries} {result : Result F} {query : BuilderQuery}

theorem isDirected_firstColumn (h : ∀ o ∈ query.orderBy, o.IsDirected) : query.firstColumn.IsDirected := by
  unfold BuilderQuery.firstColumn
  cases hlist : query.orderBy with
  | nil => exact .inr rfl
  | cons o os => exact h o (by rw [hlist]; exact List.mem_cons_self)

/-- What the loop does with a result that is limited. -/
theorem limitResult_eq (S : SliceStable (Series F)) (hquery : queries result.queryName = some query)
    (hlimited : query.isLimited) (horder : ∀ o ∈ query.orderBy, o.IsDirected)
    (hlimit : query.limit.toNat < 2 ^ 63) :
    limitResult S (some queries) result = some { result with
      series := (S.sort (columnLess query.firstColumn) result.series).take (query.kept result.series) } := by
  have hless : (seriesLess query.orderByList : Series F → Series F → Bool) = _ :=
    seriesLess_eq (isDirected_firstColumn horder) _
  have hkept : (if query.limit = 0 then (S.sort (columnLess query.firstColumn) result.series).length
      else query.limit.toNat) = query.kept result.series := by
    rw [(S.perm _ _).length_eq]
    rfl
  unfold limitResult
  simp only [hquery, Option.bind_eq_bind, Option.bind_some, if_pos hlimited, hless,
    limitSeries_eq hlimit, hkept]

theorem limitResult_keepsByOrder_iff (hquery : queries result.queryName = some query)
    (hlimited : query.isLimited) (horder : ∀ o ∈ query.orderBy, o.IsDirected) :
    (∀ S, ∃ result', limitResult S (some queries) result = some result' ∧
      KeepsByOrder query result result') ↔ FirstColumnDecides query result.series := by
  by_cases hlimit : query.limit.toNat < 2 ^ 63
  · have hcount : result.series ≠ [] → 0 < query.kept result.series := by
      intro hne
      unfold BuilderQuery.kept
      split
      · exact List.length_pos_of_ne_nil hne
      · next hzero => exact Nat.pos_of_ne_zero fun h0 => hzero (UInt64.toNat_inj.mp h0)
    have hiff : (∀ S : SliceStable (Series F), KeepsFirst (lexOrder query.orderByList)
        (query.kept result.series) result.series
        ((S.sort (columnLess query.firstColumn) result.series).take (query.kept result.series))) ↔ _ :=
      keepsFirst_iff (columnLess_asymm query.firstColumn) hcount
    simp only [limitResult_eq _ hquery hlimited horder hlimit, Option.some.injEq, exists_eq_left']
    constructor
    · intro h
      obtain ⟨hweak, hties⟩ := hiff.mp fun S => (h S).2
      exact ⟨hlimit, hweak, hties⟩
    · intro h S
      exact ⟨rfl, hiff.mpr ⟨h.strictWeak, h.ties⟩ S⟩
  · refine ⟨fun h => ?_, fun h => absurd h.limit hlimit⟩
    -- the slice is out of range
    obtain ⟨result', hresult, -⟩ := h (.insertion _)
    unfold limitResult at hresult
    simp only [hquery, Option.bind_eq_bind, Option.bind_some, if_pos hlimited,
      limitSeries_eq_none hlimit, Option.bind_none] at hresult
    cases hresult

variable (queries) in
/-- A call that keeps the first series of each result that it limits. -/
def KeepsByOrderAll (results results' : List (Result F)) : Prop :=
  List.Forall₂ (fun r r' => ∀ query, queries r.queryName = some query → query.isLimited →
    KeepsByOrder query r r') results results'

/-- **The limit in the order of all columns**: exactly where the first column decides. -/
theorem applyMetricLimit_keepsByOrder_iff {results : List (Result F)}
    (hqueries : ∀ r ∈ results, ∃ query, queries r.queryName = some query ∧
      ∀ o ∈ query.orderBy, o.IsDirected) :
    (∀ S, ∃ results', applyMetricLimit S (some queries) results = some results' ∧
      KeepsByOrderAll queries results results') ↔
    ∀ r ∈ results, ∀ query, queries r.queryName = some query → query.isLimited →
      FirstColumnDecides query r.series := by
  have hone : ∀ S, (∃ results', applyMetricLimit S (some queries) results = some results' ∧
      KeepsByOrderAll queries results results') ↔ ∀ r ∈ results, ∃ r',
        limitResult S (some queries) r = some r' ∧
        ∀ query, queries r.queryName = some query → query.isLimited → KeepsByOrder query r r' :=
    fun S => exists_mapM_iff
  simp only [hone]
  constructor
  · intro h r hr query hquery hlimited
    obtain ⟨query', hquery', horder⟩ := hqueries r hr
    obtain rfl : query = query' := Option.some.inj (hquery.symm.trans hquery')
    refine (limitResult_keepsByOrder_iff hquery hlimited horder).mp fun S => ?_
    obtain ⟨r', hr', hkeeps⟩ := h S r hr
    exact ⟨r', hr', hkeeps query hquery hlimited⟩
  · intro h S r hr
    obtain ⟨query, hquery, horder⟩ := hqueries r hr
    by_cases hlimited : query.isLimited
    · obtain ⟨r', hr', hkeeps⟩ := (limitResult_keepsByOrder_iff hquery hlimited horder).mpr
        (h r hr query hquery hlimited) S
      refine ⟨r', hr', fun query' hquery' _ => ?_⟩
      obtain rfl : query = query' := Option.some.inj (hquery.symm.trans hquery')
      exact hkeeps
    · refine ⟨r, ?_, fun query' hquery' hlimited' => ?_⟩
      · simp only [limitResult, hquery, Option.bind_eq_bind, Option.bind_some, if_neg hlimited]
      · obtain rfl : query = query' := Option.some.inj (hquery.symm.trans hquery')
        exact absurd hlimited' hlimited

end Keeps

/-! ### Strict weak orders -/

section StrictWeak

variable {o : OrderBy} {series : List (Series F)}

/-- A label column: the series with the label in its order, and then those without it. -/
theorem strictWeak_label (hdirected : o.IsDirected) (hlabel : o.columnName ≠ sigNozOrderByValue) :
    StrictWeak (columnLess o) series where
  asymm := fun a _ b _ => columnLess_asymm o a b
  trans_not := fun a _ b _ c _ => by
    unfold columnLess compareColumn
    simp only [if_neg hlabel]
    cases ha : a.labels.lookup o.columnName with
    | none =>
      rw [compareLabels_none o (.inl ha), compareLabels_none o (.inl ha), ha]
      exact fun _ _ => rfl
    | some u =>
      cases hb : b.labels.lookup o.columnName with
      | none =>
        rw [compareLabels_none o (.inr hb), ha]
        exact fun h => absurd h (by simp)
      | some v =>
        cases hc : c.labels.lookup o.columnName with
        | none =>
          rw [compareLabels_none o (.inr hc), hb]
          exact fun _ h => absurd h (by simp)
        | some w =>
          rw [compareLabels_some o ha hb, compareLabels_some o hb hc, compareLabels_some o ha hc]
          unfold OrderBy.pick
          rcases hdirected with hasc | hdesc
          · simp only [if_pos hasc, Option.getD_some, decide_eq_false_iff_not, not_lt]
            exact fun hvu hwv => hwv.trans hvu
          · have hne : o.order ≠ "asc" := by
              rw [hdesc]
              decide
            simp only [if_neg hne, if_pos hdesc, Option.getD_some, decide_eq_false_iff_not, not_lt]
            exact fun huv hvw => huv.trans hvw

/-- A single column has no ties to break. -/
theorem tiesFollow_nil (less : Series F → Series F → Bool) (count : ℕ) :
    TiesFollow less (lexOrder []) count series := fun _ _ _ _ _ _ _ _ => rfl

end StrictWeak

/-! ### Two columns -/

/-- By service, then by environment; one series is kept. -/
def byServiceAndEnv : BuilderQuery :=
  ⟨"A", 60, some .metrics, "A", 1, [⟨"service", "asc"⟩, ⟨"env", "asc"⟩], .unspecified⟩

def prodSeries : Series ℚ := ⟨Finmap.singleton "service" "api" |>.insert "env" "prod", [], []⟩

def devSeries : Series ℚ := ⟨Finmap.singleton "service" "api" |>.insert "env" "dev", [], []⟩

theorem not_keepsByOrder_byServiceAndEnv :
    ∃ result', applyMetricLimit (.insertion _) (some fun _ => some byServiceAndEnv)
        [(⟨"A", [prodSeries, devSeries]⟩ : Result ℚ)] = some [result'] ∧
      ¬ KeepsByOrder byServiceAndEnv ⟨"A", [prodSeries, devSeries]⟩ result' := by
  refine ⟨⟨"A", [prodSeries]⟩, by decide +kernel, fun h => ?_⟩
  obtain ⟨dropped, hperm, hnone⟩ := h.2.dropped
  have hdev : devSeries ∈ dropped := hperm.cons_inv.mem_iff.mpr List.mem_cons_self
  have hless : lexOrder byServiceAndEnv.orderByList devSeries prodSeries = true := by decide +kernel
  exact absurd (hnone prodSeries List.mem_cons_self devSeries hdev) (by rw [hless]; decide)

/-- By service only. -/
def byService : BuilderQuery := ⟨"A", 60, some .metrics, "A", 1, [⟨"service", "asc"⟩], .unspecified⟩

theorem keepsByOrderAll_byService :
    ∃ results', applyMetricLimit (.insertion _) (some fun _ => some byService)
        [(⟨"A", [prodSeries, devSeries]⟩ : Result ℚ)] = some results' ∧
      KeepsByOrderAll (fun _ => some byService) [⟨"A", [prodSeries, devSeries]⟩] results' := by
  have hdirected : ∀ o ∈ byService.orderBy, o.IsDirected := fun o ho => by
    rw [List.mem_singleton.mp ho]
    exact .inl rfl
  refine (applyMetricLimit_keepsByOrder_iff fun _ _ => ⟨byService, rfl, hdirected⟩).mpr
    (fun r _ query hquery _ => ?_) (.insertion _)
  obtain rfl := Option.some.inj hquery
  exact ⟨by decide, strictWeak_label (hdirected _ List.mem_cons_self) (by decide), tiesFollow_nil _ _⟩

end PostProcess
end QueryService
