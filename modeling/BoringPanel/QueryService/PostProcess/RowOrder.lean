import BoringPanel.Lib.ColumnOrder
import BoringPanel.Lib.StablePasses
import BoringPanel.QueryService.PostProcess.Table

/-!
# The order of the rows of a table

`sortRows` sorts by the `orderBy` list of each query. Rows come in a random order, out of a map, and are to
be shown in one that does not depend on it: each comparison a strict weak order, and rows that differ in
the sort key of a query in the same order every time (`SortsConsistently`).

A row without a value is compared by the name of its query, with rows that are compared with each other by
value; and no number goes before or after one that is not a number, or in descending order every one does
both. The exact condition is `sortsConsistently_iff`.
-/

namespace QueryService
namespace PostProcess

open ColumnOrder

variable {F : Type}

section Ordering

variable [GoLimits F]

/-! ### The order of cells -/

/-- The order of the values of a column: numbers before texts, or the reverse. -/
def cellLess (ascending : Bool) : Cell F → Cell F → Bool
  | .float v, .float w => if ascending then GoMath.lt v w else GoMath.lt w v
  | .float _, .string _ => ascending
  | .string _, .float _ => !ascending
  | .string v, .string w => if ascending then decide (v < w) else decide (w < v)

/-- Not a number that is none. -/
def Cell.regular : Cell F → Bool
  | .float v => !GoFloat.isNaN v
  | .string _ => true

theorem lt_of_irregular {v w : F} (h : Cell.regular (.float v) = false) :
    GoMath.lt v w = false ∧ GoMath.lt w v = false := by
  have hnan : GoFloat.isNaN v = true := by simpa [Cell.regular] using h
  exact ⟨GoLimits.lt_of_isNaN v w (by rw [hnan]; rfl), GoLimits.lt_of_isNaN w v (by rw [hnan, Bool.or_true])⟩

def ordering (ascending : Bool) : Comparison (Cell F) where
  less := cellLess ascending
  regular := Cell.regular
  asymm v w h := by
    cases ascending <;> cases v <;> cases w <;>
      simp only [cellLess, Bool.not_true, Bool.not_false, Bool.false_eq_true, if_true, if_false] at h ⊢
    all_goals first
      | exact GoMath.lt_asymm _ _ h
      | exact decide_eq_false (of_decide_eq_true h).asymm
  not_trans u v w hregular huv hvw := by
    cases ascending <;> cases u <;> cases v <;> cases w <;>
      simp only [cellLess, Cell.regular, Bool.not_eq_true', Bool.not_true, Bool.not_false,
        Bool.false_eq_true, if_true, if_false] at hregular huv hvw ⊢
    all_goals first
      | exact GoMath.not_lt_trans _ _ _ hregular huv hvw
      | exact GoMath.not_lt_trans _ _ _ hregular hvw huv
      | exact decide_eq_false (not_lt.mpr (le_trans (not_lt.mp (of_decide_eq_false huv))
          (not_lt.mp (of_decide_eq_false hvw))))
      | exact decide_eq_false (not_lt.mpr (le_trans (not_lt.mp (of_decide_eq_false hvw))
          (not_lt.mp (of_decide_eq_false huv))))
      | contradiction
  irregular u v w hregular huv hvw huw := by
    cases v with
    | string v => exact absurd hregular.symm Bool.false_ne_true
    | float v =>
      cases u with
      | float u =>
        cases w with
        | float w =>
          cases ascending <;> simp [cellLess, lt_of_irregular hregular]
        | string w =>
          cases ascending <;> simp [cellLess] at hvw huw
      | string u =>
        cases ascending <;> simp [cellLess] at huv huw
        cases w <;> simp [cellLess] at huw hvw

/-! ### The columns of a pass -/

/-- The column that an `orderBy` item sorts by, in the sort by a query. -/
def sortColumn (queryName : String) (orderBy : OrderBy) : String :=
  if orderBy.columnName = "#SIGNOZ_VALUE" then queryName else orderBy.columnName

def orderColumn (queryName : String) (orderBy : OrderBy) : Column (TableRow F) (Cell F) :=
  ⟨fun row => row.data.lookup (sortColumn queryName orderBy), ordering (orderBy.order == "asc")⟩

def orderColumns (queryName : String) (orderByList : List OrderBy) : List (Column (TableRow F) (Cell F)) :=
  orderByList.map (orderColumn queryName)

/-- Numbers that are sorted in descending order, in a column that the comparison of a row gets to, are
numbers. -/
def NumbersDescending (queryName : String) (orderByList : List OrderBy) (row : TableRow F) : Prop :=
  ∀ pre orderBy post, orderByList = pre ++ orderBy :: post → orderBy.order ≠ "asc" →
    Agree (orderColumns queryName pre) row row →
      ∀ v, row.data.lookup (sortColumn queryName orderBy) = some (.float v) → GoFloat.isNaN v = false

/-- The rows can be sorted by the `orderBy` list of a query. -/
structure PassInOrder (queryName : String) (orderByList : List OrderBy) (rows : List (TableRow F)) :
    Prop where
  numbers : ∀ row ∈ rows, NumbersDescending queryName orderByList row
  orderly : Orderly TableRow.queryName (orderColumns queryName orderByList) rows

variable {queryName : String} {orderBy : OrderBy} {orderByList : List OrderBy} {a b : TableRow F}

theorem same_string_iff {ascending : Bool} {v w : String} :
    (ordering ascending : Comparison (Cell F)).same (.string v) (.string w) = true ↔ v = w := by
  rw [Comparison.same_iff]
  constructor
  · rintro ⟨-, hvw, hwv⟩
    cases ascending
    · exact le_antisymm (not_lt.mp (of_decide_eq_false hvw)) (not_lt.mp (of_decide_eq_false hwv))
    · exact le_antisymm (not_lt.mp (of_decide_eq_false hwv)) (not_lt.mp (of_decide_eq_false hvw))
  · rintro rfl
    exact ⟨⟨rfl, rfl⟩, Comparison.less_irrefl _ _, Comparison.less_irrefl _ _⟩

theorem same_float_iff {ascending : Bool} {v w : F} :
    (ordering ascending : Comparison (Cell F)).same (.float v) (.float w) = true ↔ differ v w = false := by
  rw [Comparison.same_iff]
  cases ascending <;>
    simp only [ordering, cellLess, Cell.regular, differ, Bool.not_eq_true', Bool.or_eq_false_iff,
      Bool.false_eq_true, if_true, if_false] <;> tauto

/-- What the source decides by two cells that are not the same. -/
theorem lt_beq_ascending {v w : F} (hnumbers : orderBy.order ≠ "asc" →
      GoFloat.isNaN v = false ∧ GoFloat.isNaN w = false) (hdiffer : differ v w = true) :
    (GoMath.lt v w == (orderBy.order == "asc")) = cellLess (orderBy.order == "asc") (.float v) (.float w) := by
  cases horder : orderBy.order == "asc" with
  | true => exact beq_true _
  | false =>
    obtain ⟨hv, hw⟩ := hnumbers (by simpa using horder)
    rw [differ, hv, hw, Bool.or_false, Bool.or_false] at hdiffer
    rw [beq_false]
    show (!GoMath.lt v w) = GoMath.lt w v
    cases hvw : GoMath.lt v w with
    | true => exact (GoMath.lt_asymm v w hvw).symm
    | false =>
      rw [hvw, Bool.false_or] at hdiffer
      exact hdiffer.symm

theorem string_beq_ascending {ascending : Bool} {v w : String} (hne : v ≠ w) :
    (decide (v < w) == ascending) = cellLess (F := F) ascending (.string v) (.string w) := by
  cases ascending with
  | true => exact beq_true _
  | false =>
    rw [beq_false, ← decide_not]
    exact decide_eq_decide.mpr ⟨fun h => lt_of_le_of_ne (not_lt.mp h) hne.symm, fun h => h.asymm⟩

theorem rowLess_cons_none (h : a.data.lookup (sortColumn queryName orderBy) = none ∨
      b.data.lookup (sortColumn queryName orderBy) = none) :
    rowLess queryName a b (orderBy :: orderByList) = decide (a.queryName < b.queryName) := by
  rw [sortColumn] at h
  rw [rowLess]
  rcases h with h | h
  · simp only [h]
  · rw [h]
    split <;> first | rfl | contradiction

section Cells

variable {v w : F} {s t : String}

theorem rowLess_cons_float (ha : a.data.lookup (sortColumn queryName orderBy) = some (.float v))
    (hb : b.data.lookup (sortColumn queryName orderBy) = some (.float w)) :
    rowLess queryName a b (orderBy :: orderByList) =
      if differ v w then GoMath.lt v w == (orderBy.order == "asc")
      else rowLess queryName a b orderByList := by
  rw [sortColumn] at ha hb
  rw [rowLess]
  simp only [ha, hb]

theorem rowLess_cons_string (ha : a.data.lookup (sortColumn queryName orderBy) = some (.string s))
    (hb : b.data.lookup (sortColumn queryName orderBy) = some (.string t)) :
    rowLess queryName a b (orderBy :: orderByList) =
      if s ≠ t then decide (s < t) == (orderBy.order == "asc")
      else rowLess queryName a b orderByList := by
  rw [sortColumn] at ha hb
  rw [rowLess]
  simp only [ha, hb]

theorem rowLess_cons_float_string
    (ha : a.data.lookup (sortColumn queryName orderBy) = some (.float v))
    (hb : b.data.lookup (sortColumn queryName orderBy) = some (.string t)) :
    rowLess queryName a b (orderBy :: orderByList) = (orderBy.order == "asc") := by
  rw [sortColumn] at ha hb
  rw [rowLess]
  simp only [ha, hb]

theorem rowLess_cons_string_float
    (ha : a.data.lookup (sortColumn queryName orderBy) = some (.string s))
    (hb : b.data.lookup (sortColumn queryName orderBy) = some (.float w)) :
    rowLess queryName a b (orderBy :: orderByList) = !(orderBy.order == "asc") := by
  rw [sortColumn] at ha hb
  rw [rowLess]
  simp only [ha, hb]

end Cells

/-- A number and a text are not the same. -/
theorem not_same_mixed {ascending : Bool} {v : F} {s : String} :
    ¬ (ordering ascending : Comparison (Cell F)).same (.float v) (.string s) = true := by
  rw [Comparison.same_iff]
  cases ascending <;> simp [ordering, cellLess]

/-- Where numbers are numbers, the comparison of the source is that by columns. -/
theorem rowLess_cons (hnumbers : orderBy.order ≠ "asc" → ∀ v,
      a.data.lookup (sortColumn queryName orderBy) = some (.float v) ∨
        b.data.lookup (sortColumn queryName orderBy) = some (.float v) → GoFloat.isNaN v = false)
    (hrest : Agree [orderColumn queryName orderBy] a b →
      rowLess queryName a b orderByList =
        byColumns TableRow.queryName (orderColumns queryName orderByList) a b) :
    rowLess queryName a b (orderBy :: orderByList) =
      byColumns TableRow.queryName (orderColumns queryName (orderBy :: orderByList)) a b := by
  let col : Column (TableRow F) (Cell F) := orderColumn queryName orderBy
  have hagree : ∀ {v w : Cell F}, col.cell a = some v → col.cell b = some w → col.cmp.same v w = true →
      rowLess queryName a b orderByList =
        byColumns TableRow.queryName (orderColumns queryName orderByList) a b :=
    fun hv hw hsame => hrest (agree_cons_iff.mpr ⟨⟨_, _, hv, hw, hsame⟩, agree_nil a b⟩)
  show _ = byColumns TableRow.queryName (col :: orderColumns queryName orderByList) a b
  by_cases hnone : col.cell a = none ∨ col.cell b = none
  · rw [byColumns_cons_none hnone]
    exact rowLess_cons_none hnone
  obtain ⟨hv, hw⟩ := not_or.mp hnone
  obtain ⟨v, hv⟩ := Option.ne_none_iff_exists'.mp hv
  obtain ⟨w, hw⟩ := Option.ne_none_iff_exists'.mp hw
  rw [byColumns_cons_some hv hw]
  cases v with
  | float v =>
    cases w with
    | float w =>
      rw [rowLess_cons_float hv hw]
      cases hdiffer : differ v w with
      | true =>
        have hnot : ¬ col.cmp.same (.float v) (.float w) = true := fun hsame =>
          Bool.false_ne_true ((same_float_iff.mp hsame).symm.trans hdiffer)
        rw [if_pos rfl, if_neg hnot]
        exact lt_beq_ascending (fun horder => ⟨hnumbers horder v (.inl hv), hnumbers horder w (.inr hw)⟩) hdiffer
      | false =>
        have hsame : col.cmp.same (.float v) (.float w) = true := same_float_iff.mpr hdiffer
        rw [if_neg Bool.false_ne_true, if_pos hsame, hagree hv hw hsame]
    | string t =>
      have hnot : ¬ col.cmp.same (.float v) (.string t) = true := not_same_mixed
      rw [rowLess_cons_float_string hv hw, if_neg hnot]
      rfl
  | string s =>
    cases w with
    | float w =>
      have hnot : ¬ col.cmp.same (.string s) (.float w) = true := by
        rw [Comparison.same_comm]
        exact not_same_mixed
      rw [rowLess_cons_string_float hv hw, if_neg hnot]
      rfl
    | string t =>
      rw [rowLess_cons_string hv hw]
      by_cases hst : s = t
      · have hsame : col.cmp.same (.string s) (.string t) = true := same_string_iff.mpr hst
        rw [if_neg (not_not.mpr hst), if_pos hsame, hagree hv hw hsame]
      · have hnot : ¬ col.cmp.same (.string s) (.string t) = true := fun hsame => hst (same_string_iff.mp hsame)
        rw [if_pos hst, if_neg hnot]
        exact string_beq_ascending (F := F) hst

/-- A row for the rest of the columns. -/
theorem NumbersDescending.tail (h : NumbersDescending queryName (orderBy :: orderByList) a)
    (hagree : Agree [orderColumn queryName orderBy] a a) :
    NumbersDescending queryName orderByList a := by
  intro pre orderBy' post hlist horder hpre
  exact h (orderBy :: pre) orderBy' post (by rw [hlist, List.cons_append]) horder
    (agree_append_iff.mpr ⟨hagree, hpre⟩)

theorem rowLess_eq (ha : NumbersDescending queryName orderByList a)
    (hb : NumbersDescending queryName orderByList b) :
    rowLess queryName a b orderByList =
      byColumns TableRow.queryName (orderColumns queryName orderByList) a b := by
  induction orderByList with
  | nil => rfl
  | cons orderBy orderByList ih =>
    refine rowLess_cons (fun horder v hv => ?_) fun hagree => ih (ha.tail hagree.left) (hb.tail hagree.symm.left)
    rcases hv with hv | hv
    · exact ha [] orderBy orderByList rfl horder (agree_nil a a) v hv
    · exact hb [] orderBy orderByList rfl horder (agree_nil b b) v hv

/-- A row with no number in a column that is sorted in descending order goes before itself. -/
theorem rowLess_self {pre : List OrderBy} (post : List OrderBy) {v : F} (horder : orderBy.order ≠ "asc")
    (hpre : Agree (orderColumns queryName pre) a a)
    (hv : a.data.lookup (sortColumn queryName orderBy) = some (.float v)) (hnan : GoFloat.isNaN v = true) :
    rowLess queryName a a (pre ++ orderBy :: post) = true := by
  induction pre with
  | nil =>
    have hlt : GoMath.lt v v = false := GoLimits.lt_of_isNaN v v (by rw [hnan]; rfl)
    have hdiffer : differ v v = true := by
      rw [differ, hnan, Bool.or_true]
    rw [List.nil_append, rowLess_cons_float hv hv, if_pos hdiffer, hlt, beq_false_of_ne horder]
    rfl
  | cons orderBy' pre ih =>
    obtain ⟨⟨s, t, hs, ht, hsame⟩, hpre⟩ := agree_cons_iff.mp hpre
    obtain rfl : s = t := Option.some.inj (hs.symm.trans ht)
    rw [List.cons_append]
    cases s with
    | float s =>
      rw [rowLess_cons_float hs ht, same_float_iff.mp hsame, if_neg Bool.false_ne_true]
      exact ih hpre
    | string s =>
      rw [rowLess_cons_string hs ht, if_neg (not_not.mpr rfl)]
      exact ih hpre

/-- **The comparison of a pass is a strict weak order** exactly on rows that it can sort. -/
theorem strictWeak_rowLess_iff {rows : List (TableRow F)} :
    StrictWeak (fun a b => rowLess queryName a b orderByList) rows ↔
      PassInOrder queryName orderByList rows := by
  have heq : (∀ row ∈ rows, NumbersDescending queryName orderByList row) → ∀ a ∈ rows, ∀ b ∈ rows,
      rowLess queryName a b orderByList =
        byColumns TableRow.queryName (orderColumns queryName orderByList) a b :=
    fun h a ha b hb => rowLess_eq (h a ha) (h b hb)
  constructor
  · intro h
    have hnumbers : ∀ row ∈ rows, NumbersDescending queryName orderByList row := by
      rintro row hrow pre orderBy post rfl horder hpre v hv
      by_contra hnan
      have hself := rowLess_self post horder hpre hv (by simpa using hnan)
      exact Bool.false_ne_true ((h.irrefl hrow).symm.trans hself)
    exact ⟨hnumbers, strictWeak_byColumns_iff.mp (h.congr (heq hnumbers))⟩
  · intro h
    exact (strictWeak_byColumns_iff.mpr h.orderly).congr fun a ha b hb => (heq h.numbers a ha b hb).symm

/-! ### All passes -/

variable (builderQueries : Go.Map BuilderQuery) (queryNames : List String) (rows : List (TableRow F))

/-- The `orderBy` list by which a pass sorts. -/
def orderByListOf (queryName : String) : List OrderBy :=
  (builderQueries.lookup queryName).elim [] rowOrderBy

/-- The cells are not shown as the same. -/
def cellsDiffer : Option (Cell F) → Option (Cell F) → Bool
  | none, none => false
  | some (.float v), some (.float w) => differ v w && !(GoFloat.isNaN v && GoFloat.isNaN w)
  | some (.string s), some (.string t) => s ≠ t
  | _, _ => true

/-- The rows differ in the sort key of a query. -/
def SortKeysDiffer (queryName : String) (a b : TableRow F) : Prop :=
  ∃ orderBy ∈ orderByListOf builderQueries queryName,
    cellsDiffer (a.data.lookup (sortColumn queryName orderBy))
      (b.data.lookup (sortColumn queryName orderBy)) = true

/-- Each pass compares by a strict weak order, and the order of rows that differ in a sort key does not
depend on the one in which the rows come. -/
structure SortsConsistently : Prop where
  weak : ∀ queryName ∈ queryNames,
    StrictWeak (fun a b => rowLess queryName a b (orderByListOf builderQueries queryName)) rows
  same : ∀ env : TableEnv F, ∀ rows₁ rows₂ : List (TableRow F), rows₁.Perm rows → rows₂.Perm rows →
    ∀ a ∈ rows, ∀ b ∈ rows, (∃ queryName ∈ queryNames, SortKeysDiffer builderQueries queryName a b) →
      ([a, b].Sublist (sortRows env builderQueries queryNames rows₁) ↔
        [a, b].Sublist (sortRows env builderQueries queryNames rows₂))

/-- The entries of a map in the order of their insertion. -/
def insertionOrder (V : Type) : Go.MapOrder V := ⟨Go.Map.entries, fun m => .refl m.entries⟩

omit [GoLimits F] in
theorem sorted_by_queryName (results : List (Result F)) :
    (results.insertionSort fun a b => a.queryName ≤ b.queryName).Pairwise
      fun a b => a.queryName ≤ b.queryName := by
  have htotal : Std.Total fun a b : Result F => a.queryName ≤ b.queryName := ⟨fun _ _ => le_total _ _⟩
  have htrans : IsTrans (Result F) fun a b => a.queryName ≤ b.queryName := ⟨fun _ _ _ => le_trans⟩
  exact List.pairwise_insertionSort _ results

/-- Sorts rows by a given routine. -/
def sortingEnv (S : SliceStable (TableRow F)) : TableEnv F where
  sortResults results := results.insertionSort fun a b => a.queryName ≤ b.queryName
  perm := List.perm_insertionSort _
  sorted := sorted_by_queryName
  labelOrder := insertionEnv.labelOrder
  mem_labelOrder := insertionEnv.mem_labelOrder
  rowOrder := insertionOrder _
  queryOrder := insertionOrder _
  rowSort := S

variable {builderQueries queryNames rows}

theorem sortRows_eq (env : TableEnv F) (rows : List (TableRow F)) :
    sortRows env builderQueries queryNames rows =
      sortPasses env.rowSort (fun queryName a b =>
        rowLess queryName a b (orderByListOf builderQueries queryName)) queryNames rows := by
  rw [sortRows, List.foldl_reverse]
  rfl

theorem not_sortKeysDiffer_self (queryName : String) (a : TableRow F) :
    ¬ SortKeysDiffer builderQueries queryName a a := by
  rintro ⟨orderBy, -, hdiffer⟩
  cases hcell : a.data.lookup (sortColumn queryName orderBy) with
  | none =>
    rw [hcell] at hdiffer
    exact Bool.false_ne_true hdiffer
  | some c =>
    rw [hcell] at hdiffer
    cases c with
    | string s => exact of_decide_eq_true hdiffer rfl
    | float v =>
      have hirrefl : GoMath.lt v v = false := by
        cases h : GoMath.lt v v with
        | false => rfl
        | true => exact h.symm.trans (GoMath.lt_asymm v v h)
      rw [cellsDiffer, differ, hirrefl] at hdiffer
      cases hnan : GoFloat.isNaN v <;> simp [hnan] at hdiffer

/-- **When the rows come out in one order**: every pass can sort them, and rows that differ in a sort key
are told apart by some query, by the first column in which their values differ or by their names if one
has no value before. -/
theorem sortsConsistently_iff (builderQueries : Go.Map BuilderQuery) (queryNames : List String)
    (rows : List (TableRow F)) :
    SortsConsistently builderQueries queryNames rows ↔
      (∀ queryName ∈ queryNames, PassInOrder queryName (orderByListOf builderQueries queryName) rows) ∧
      ∀ a ∈ rows, ∀ b ∈ rows, (∃ queryName ∈ queryNames, SortKeysDiffer builderQueries queryName a b) →
        ∃ queryName ∈ queryNames,
          GoesBefore TableRow.queryName
            (orderColumns queryName (orderByListOf builderQueries queryName)) a b ∨
          GoesBefore TableRow.queryName
            (orderColumns queryName (orderByListOf builderQueries queryName)) b a := by
  let differ : TableRow F → TableRow F → Prop := fun a b =>
    ∃ queryName ∈ queryNames, SortKeysDiffer builderQueries queryName a b
  have hdiffer : ∀ a, ¬ differ a a := by
    rintro a ⟨queryName, -, h⟩
    exact not_sortKeysDiffer_self queryName a h
  -- what a pass says of two rows
  have hgoes : (∀ queryName ∈ queryNames,
      PassInOrder queryName (orderByListOf builderQueries queryName) rows) →
      ∀ queryName ∈ queryNames, ∀ a ∈ rows, ∀ b ∈ rows,
        (rowLess queryName a b (orderByListOf builderQueries queryName) = true ↔
          GoesBefore TableRow.queryName
            (orderColumns queryName (orderByListOf builderQueries queryName)) a b) := by
    intro hpass queryName hname a ha b hb
    rw [rowLess_eq ((hpass queryName hname).numbers a ha) ((hpass queryName hname).numbers b hb),
      byColumns_iff]
  constructor
  · intro h
    have hpass := fun queryName hname => strictWeak_rowLess_iff.mp (h.weak queryName hname)
    refine ⟨hpass, fun a ha b hb hab => ?_⟩
    have hsame := (sortPasses_consistent_iff h.weak differ hdiffer).mp
      fun S rows₁ rows₂ hperm₁ hperm₂ x hx y hy hxy => by
      have heq := h.same (sortingEnv S) rows₁ rows₂ hperm₁ hperm₂ x hx y hy hxy
      rwa [sortRows_eq, sortRows_eq] at heq
    obtain ⟨queryName, hname, hless⟩ := hsame a ha b hb hab
    refine ⟨queryName, hname, ?_⟩
    rwa [hgoes hpass queryName hname a ha b hb, hgoes hpass queryName hname b hb a ha] at hless
  · rintro ⟨hpass, happart⟩
    have hweak := fun queryName hname => strictWeak_rowLess_iff.mpr (hpass queryName hname)
    refine ⟨hweak, fun env rows₁ rows₂ hperm₁ hperm₂ a ha b hb hab => ?_⟩
    rw [sortRows_eq, sortRows_eq]
    refine (sortPasses_consistent_iff hweak differ hdiffer).mpr (fun x hx y hy hxy => ?_) env.rowSort
      rows₁ rows₂ hperm₁ hperm₂ a ha b hb hab
    obtain ⟨queryName, hname, hgo⟩ := happart x hx y hy hxy
    refine ⟨queryName, hname, ?_⟩
    rwa [hgoes hpass queryName hname x hx y hy, hgoes hpass queryName hname y hy x hx]

end Ordering

/-! ### A row without a value -/

/-- The queries `A` and `B`, sorted by their values. -/
def twoValues : Go.Map BuilderQuery :=
  ⟨[("A", ⟨"A", 60, none, "A", 0, [], .unspecified⟩), ("B", ⟨"B", 60, none, "B", 0, [], .unspecified⟩)], by decide⟩

/-- A row with the value 1 for `A`, and some value or none for `B`. -/
def rowWith (value : Option GoNumber) : TableRow GoNumber where
  data := value.elim (Go.Map.empty.set "A" (.float (.finite 1))) fun b =>
    (Go.Map.empty.set "A" (.float (.finite 1))).set "B" (.float b)
  queryName := "A"

def fiveRow : TableRow GoNumber := rowWith (some (.finite 5))
def threeRow : TableRow GoNumber := rowWith (some (.finite 3))

/-- The greater value comes first if the rows come so, with a row without a value between them. -/
theorem sortRows_greater_first :
    sortRows (sortingEnv (.insertion _)) twoValues ["A", "B"] [fiveRow, rowWith none, threeRow] =
      [fiveRow, rowWith none, threeRow] := rfl

theorem sortRows_less_first :
    sortRows (sortingEnv (.insertion _)) twoValues ["A", "B"] [threeRow, rowWith none, fiveRow] =
      [threeRow, rowWith none, fiveRow] := rfl

theorem not_sortsConsistently_twoValues :
    ¬ SortsConsistently twoValues ["A", "B"] [fiveRow, rowWith none, threeRow] := by
  intro h
  have hperm : [threeRow, rowWith none, fiveRow].Perm [fiveRow, rowWith none, threeRow] :=
    List.reverse_perm [fiveRow, rowWith none, threeRow]
  have hkeys : SortKeysDiffer twoValues "B" fiveRow threeRow :=
    ⟨⟨"#SIGNOZ_VALUE", "desc"⟩, List.mem_singleton_self _, rfl⟩
  have hsame := h.same (sortingEnv (.insertion _)) _ _ (.refl _) hperm fiveRow List.mem_cons_self threeRow
    (List.mem_cons_of_mem _ (List.mem_cons_of_mem _ List.mem_cons_self))
    ⟨"B", List.mem_cons_of_mem _ List.mem_cons_self, hkeys⟩
  rw [sortRows_greater_first, sortRows_less_first] at hsame
  have hfirst : [fiveRow, threeRow].Sublist [fiveRow, rowWith none, threeRow] :=
    .cons_cons _ (.cons _ (.refl _))
  -- which rows have another value than 5
  have hother := (hsame.mp hfirst).map fun row =>
    cellsDiffer (row.data.lookup "B") (some (.float (.finite 5)))
  have hnot : ¬ [false, true].Sublist [true, true, false] := by decide
  exact hnot hother

end PostProcess
end QueryService
