import BoringPanel.Lib.CursorPages
import BoringPanel.QueryService.Querier.ListQuery

/-!
# What the windows of a list query return

The page that a list request asks for (`expectedPage`), and the exact condition under which
`runWindowBasedListQuery` returns it (`PageCondition`,
`runWindowBasedListQuery_pageCorrect_iff`). The loop of the traces branch computes a page of
`Windowed.overlapping`, the loop of the logs branch is `Windowed.cursorPages`; what goes wrong in
either is what the two libraries say about closed windows that share their boundaries.
-/

namespace QueryService
namespace Querier

variable {F R : Type}

/-! ### The request -/

/-- The matching rows of the whole range, newest first. -/
def inRange (t : RowTable F R) (q : ListQuery F) (start end_ : Int) : List R :=
  Windowed.within t.timestamp (Utils.getEpochNanoSecs start) (Utils.getEpochNanoSecs end_)
    (t.matching q.items)

/-- The rows that one window holds. -/
def windowRows (t : RowTable F R) (q : ListQuery F) (v : Utils.LogsListTsRange) : List R :=
  Windowed.within t.timestamp v.nanos.1 v.nanos.2 (t.matching q.items)

/-- The boundaries between the windows of a range, newest first. -/
def boundaries (start end_ : Int) : List Int :=
  (Utils.getListTsRanges start end_).dropLast.map fun v => v.nanos.1

/-- How many rows the logs query over the whole range is limited to. -/
def logsCap (q : ListQuery F) : Nat :=
  if q.limit = 0 then q.pageSize.toNat else min q.pageSize.toNat (q.limit.toNat - q.offset.toNat)

/-- **The page that is asked for**: the first rows for logs, whose later pages are asked for with
an `id` filter, and the rows from `offset` on for traces. -/
def expectedPage (t : RowTable F R) (q : ListQuery F) (start end_ : Int) : List R :=
  match q.dataSource with
  | .logs => (inRange t q start end_).take (logsCap q)
  | _ => ((inRange t q start end_).drop q.offset.toNat).take q.limit.toNat

/-- No sum of the run wraps. -/
def NoOverflow (q : ListQuery F) : Prop :=
  match q.dataSource with
  | .logs => 0 < q.limit → q.offset.toNat + q.pageSize.toNat < 2 ^ 64
  | _ => q.limit.toNat + q.offset.toNat < 2 ^ 64

/-- The subtractions of the run. -/
def subtractions (t : RowTable F R) (q : ListQuery F) (start end_ : Int) : List (Nat × Nat) :=
  match q.dataSource with
  | .logs => logsSubtractions t q (Utils.getListTsRanges start end_) q.filters []
  | _ => tracesSubtractions t q (Utils.getListTsRanges start end_) (q.limit + q.offset) q.offset []

/-- **The answer is right**: it is the page that is asked for, unless the request is refused with an
error, and no `uint64` of the run wraps. -/
structure PageCorrect (t : RowTable F R) (q : ListQuery F) (start end_ : Int) : Prop where
  page : runWindowBasedListQuery t q (Utils.getListTsRanges start end_) =
      .ok (expectedPage t q start end_) ∨
    ∃ text, runWindowBasedListQuery t q (Utils.getListTsRanges start end_) = .error (.message text)
  noOverflow : NoOverflow q
  noUnderflow : ∀ p ∈ subtractions t q start end_, p.2 ≤ p.1

/-! ### Traces -/

section Traces

variable {t : RowTable F R} {q : ListQuery F}

theorem answer_limit (st : ListStatement F) {n : Nat} (hl : st.limit = some n) (ho : st.offset = 0) :
    t.answer st =
      (Windowed.within t.timestamp st.start st.end_ (t.matching st.items)).take n := by
  simp [RowTable.answer, hl, ho]

theorem tracesWindow_eq (hshift : q.shiftBy = 0) (v : Utils.LogsListTsRange) (tracesLimit : UInt64) :
    tracesWindow t q v tracesLimit =
      (windowRows t q v).take (if tracesLimit = 0 then 100 else tracesLimit.toNat) := by
  unfold tracesWindow shifted
  rw [if_neg (by simp [hshift]), if_neg (by simp [hshift]), answer_limit _ rfl rfl]
  rfl

theorem foldl_skipRow (rows : List R) :
    ∀ (offset : UInt64) (data : List R),
      (rows.foldl skipRow (offset, data)).1.toNat = offset.toNat - rows.length ∧
      (rows.foldl skipRow (offset, data)).2 = data ++ rows.drop offset.toNat := by
  induction rows with
  | nil => simp
  | cons row rows ih =>
    intro offset data
    rw [List.foldl_cons]
    by_cases h0 : offset = 0
    · subst h0
      obtain ⟨h₁, h₂⟩ := ih 0 (data ++ [row])
      simp only [skipRow, if_true, UInt64.toNat_zero] at h₁ h₂ ⊢
      rw [h₁, h₂]
      simp
    · have hpos : 1 ≤ offset.toNat := by
        have : offset.toNat ≠ 0 := fun h => h0 (UInt64.toNat_inj.mp h)
        omega
      obtain ⟨h₁, h₂⟩ := ih (offset - 1) data
      have hsub : (offset - 1).toNat = offset.toNat - 1 :=
        UInt64.toNat_sub_of_le _ _ (UInt64.le_iff_toNat_le.mpr hpos)
      simp only [skipRow, if_neg h0]
      rw [h₁, h₂, hsub, List.length_cons]
      refine ⟨by omega, ?_⟩
      obtain ⟨n, hn⟩ : ∃ n, offset.toNat = n + 1 := ⟨offset.toNat - 1, by omega⟩
      simp [hn]

/-- **The loop of the traces branch** reads a page of what the windows hold together. -/
theorem runTraces_eq (hshift : q.shiftBy = 0) (hlimit : 0 < q.limit.toNat)
    (hmax : q.limit.toNat + q.offset.toNat ≤ 10000) :
    ∀ (tsRanges : List Utils.LogsListTsRange) (S : List R) (tracesLimit offset : UInt64),
      S.length < q.limit.toNat + q.offset.toNat →
      tracesLimit.toNat = q.limit.toNat + q.offset.toNat - S.length →
      offset.toNat = q.offset.toNat - S.length →
      runTraces t q tsRanges tracesLimit offset (S.drop q.offset.toNat) =
          .ok (((S ++ tsRanges.flatMap (windowRows t q)).take
            (q.limit.toNat + q.offset.toNat)).drop q.offset.toNat) ∧
        ∀ p ∈ tracesSubtractions t q tsRanges tracesLimit offset (S.drop q.offset.toNat),
          p.2 ≤ p.1 := by
  intro tsRanges
  induction tsRanges with
  | nil =>
    intro S tracesLimit offset hS _ _
    rw [runTraces, List.flatMap_nil, List.append_nil, List.take_of_length_le hS.le]
    exact ⟨rfl, by simp [tracesSubtractions]⟩
  | cons v tsRanges ih =>
    intro S tracesLimit offset hS htl hoff
    set P := q.limit.toNat + q.offset.toNat with hP
    have hnotmax : ¬ tracesLimit > maxPaginationLimit := by
      rw [gt_iff_lt, UInt64.lt_iff_toNat_lt, maxPaginationLimit]
      have : (10000 : UInt64).toNat = 10000 := rfl
      omega
    have htl0 : tracesLimit ≠ 0 := by
      rintro rfl
      rw [UInt64.toNat_zero] at htl
      omega
    set W := windowRows t q v with hW
    have hrows : tracesWindow t q v tracesLimit = W.take (P - S.length) := by
      rw [tracesWindow_eq hshift, if_neg htl0, htl]
    obtain ⟨hskip₁, hskip₂⟩ := foldl_skipRow (W.take (P - S.length)) offset (S.drop q.offset.toNat)
    have hdata : S.drop q.offset.toNat ++ (W.take (P - S.length)).drop offset.toNat =
        (S ++ W.take (P - S.length)).drop q.offset.toNat := by
      rw [hoff, List.drop_append]
    rw [hdata] at hskip₂
    have hS' : (S ++ W.take (P - S.length)).length ≤ P := by
      rw [List.length_append, List.length_take]
      omega
    have hlen : (W.take (P - S.length)).length ≤ tracesLimit.toNat := by
      rw [htl]
      exact List.length_take_le _ _
    have hofNat : (UInt64.ofNat (W.take (P - S.length)).length).toNat =
        (W.take (P - S.length)).length := by
      refine UInt64.toNat_ofNat_of_lt' ?_
      have := tracesLimit.toNat_lt
      simp only [UInt64.size]
      omega
    simp only [runTraces, tracesSubtractions, hrows]
    rw [if_neg hnotmax, if_neg hnotmax, hskip₂]
    by_cases hdone : q.limit.toNat ≤ ((S ++ W.take (P - S.length)).drop q.offset.toNat).length
    · -- the page is full
      rw [if_pos hdone, if_pos hdone]
      rw [List.length_drop] at hdone
      refine ⟨?_, by simpa using hlen⟩
      congr 1
      have hfull : (S ++ W.take (P - S.length)).length = P := by omega
      rw [List.flatMap_cons, ← hW, ← List.append_assoc]
      have hpre : (S ++ W).take P = S ++ W.take (P - S.length) := by
        rw [List.take_append, List.take_of_length_le hS.le]
      have hlenW : P ≤ (S ++ W).length := by
        have := congrArg List.length hpre
        rw [hfull, List.length_take] at this
        omega
      rw [List.take_append_of_le_length hlenW, hpre]
    · rw [if_neg hdone, if_neg hdone]
      rw [List.length_drop] at hdone
      -- the window has been read to its end
      have hshort : W.length ≤ P - S.length := by
        by_contra hlong
        rw [List.length_append, List.length_take] at hdone
        omega
      rw [List.take_of_length_le hshort] at hlen hofNat hdone hskip₁ hS' ⊢
      rw [List.length_append] at hdone hS'
      have hsub : (tracesLimit - UInt64.ofNat W.length).toNat = P - (S ++ W).length := by
        rw [UInt64.toNat_sub_of_le _ _ (UInt64.le_iff_toNat_le.mpr (by rw [hofNat]; exact hlen)),
          hofNat, htl, List.length_append]
        omega
      obtain ⟨hrun, hsubs⟩ := ih (S ++ W) (tracesLimit - UInt64.ofNat W.length) _
        (by rw [List.length_append]; omega) hsub
        (by rw [hskip₁, hoff, List.length_append]; omega)
      refine ⟨?_, List.forall_mem_cons.mpr ⟨hlen, hsubs⟩⟩
      rw [hrun, List.flatMap_cons, ← hW, List.append_assoc]

/-- A request for more than can be paged through is refused. -/
theorem runTraces_refused (v : Utils.LogsListTsRange) (tsRanges : List Utils.LogsListTsRange)
    {tracesLimit : UInt64} (hmax : 10000 < tracesLimit.toNat) (offset : UInt64) :
    runTraces t q (v :: tsRanges) tracesLimit offset [] =
        .error (.message "maximum traces that can be paginated is 10000") ∧
      tracesSubtractions t q (v :: tsRanges) tracesLimit offset [] = [] := by
  have h : tracesLimit > maxPaginationLimit := UInt64.lt_iff_toNat_lt.mpr hmax
  simp only [runTraces, tracesSubtractions]
  rw [if_pos h, if_pos h]
  exact ⟨rfl, rfl⟩

/-- With a limit of zero the loop ends after the newest window. -/
theorem runTraces_limit_zero (hshift : q.shiftBy = 0) (hlimit : q.limit = 0)
    (hmax : q.offset.toNat ≤ 10000) (v : Utils.LogsListTsRange)
    (tsRanges : List Utils.LogsListTsRange) :
    ∃ rows, rows = (windowRows t q v).take (if q.offset = 0 then 100 else q.offset.toNat) ∧
      runTraces t q (v :: tsRanges) q.offset q.offset [] = .ok (rows.drop q.offset.toNat) ∧
      tracesSubtractions t q (v :: tsRanges) q.offset q.offset [] =
        [(q.offset.toNat, rows.length)] := by
  have hnotmax : ¬ q.offset > maxPaginationLimit := by
    rw [gt_iff_lt, UInt64.lt_iff_toNat_lt, maxPaginationLimit]
    exact not_lt.mpr hmax
  refine ⟨_, rfl, ?_⟩
  simp only [runTraces, tracesSubtractions, tracesWindow_eq hshift]
  rw [if_neg hnotmax, if_neg hnotmax, hlimit, UInt64.toNat_zero, if_pos (Nat.zero_le _),
    if_pos (Nat.zero_le _), (foldl_skipRow _ _ _).2, List.nil_append]
  exact ⟨rfl, rfl⟩

end Traces

/-! ### Logs -/

section Logs

variable {t : RowTable F R} {q : ListQuery F}

/-- The filters say what the request says, and that the rows come after those read. -/
def FiltersAfter (t : RowTable F R) (q : ListQuery F) (fs : FilterSet F) (data : List R) : Prop :=
  ∀ r, (fs.items.all fun item => t.satisfies item r) = true ↔
    (q.items.all fun item => t.satisfies item r) = true ∧ Windowed.after t.id data r

theorem FiltersAfter.init {fs : FilterSet F} (h : q.filters = some fs) : FiltersAfter t q fs [] := by
  intro r
  simp [ListQuery.items, h]

theorem FiltersAfter.matching {fs : FilterSet F} {data : List R} (h : FiltersAfter t q fs data) :
    t.matching fs.items = (t.matching q.items).filter fun r => Windowed.after t.id data r := by
  unfold RowTable.matching
  rw [List.filter_filter]
  refine List.filter_congr fun r _ => ?_
  rw [Bool.eq_iff_iff, h r]
  simp [and_comm]

/-- The added condition replaces the earlier ones: its row comes after theirs. -/
theorem FiltersAfter.step {fs : FilterSet F} {data rows : List R} {last : R}
    (h : FiltersAfter t q fs data) (hrows : ∀ r ∈ rows, Windowed.after t.id data r)
    (hlast : rows.getLast? = some last) :
    FiltersAfter t q { fs with items := fs.items ++ [idLessThan (t.id last)] } (data ++ rows) := by
  intro r
  have hne : rows ≠ [] := by
    rintro rfl
    cases hlast
  have hafter : Windowed.after t.id (data ++ rows) r ↔ t.id r < t.id last := by
    unfold Windowed.after
    rw [List.getLast?_append_of_ne_nil data hne, hlast]
    simp
  simp only [List.all_append, List.all_cons, List.all_nil, Bool.and_true, Bool.and_eq_true,
    t.satisfies_idLessThan, decide_eq_true_eq, h r, hafter]
  constructor
  · rintro ⟨⟨hi, -⟩, hlt⟩
    exact ⟨hi, hlt⟩
  · rintro ⟨hi, hlt⟩
    refine ⟨⟨hi, fun last' hlast' => ?_⟩, hlt⟩
    exact hlt.trans (hrows last (List.mem_of_getLast? hlast) last' hlast')

/-- The statement of a window when more rows are wanted. -/
theorem prepareLogsQuery_ok (start end_ : Int) (filters : Option (FilterSet F)) {n : Nat}
    (hopen : ¬ (0 < q.limit ∧ q.limit ≤ q.offset))
    (hwrap : 0 < q.limit → q.offset.toNat + q.pageSize.toNat < 2 ^ 64)
    (hn : n < q.pageSize.toNat) :
    ∃ st, prepareLogsQuery start end_
        { q with filters := filters, pageSize := q.pageSize - UInt64.ofNat n } = .ok st ∧
      st.start = Utils.getEpochNanoSecs start ∧ st.end_ = Utils.getEpochNanoSecs end_ ∧
      st.items = (filters.map FilterSet.items).getD [] ∧ st.offset = 0 ∧
      st.limit = some (min (q.pageSize.toNat - n) (logsCap q)) := by
  have hlt := q.pageSize.toNat_lt
  have hofNat : (UInt64.ofNat n).toNat = n :=
    UInt64.toNat_ofNat_of_lt' (by simp only [UInt64.size]; omega)
  have hsub : (q.pageSize - UInt64.ofNat n).toNat = q.pageSize.toNat - n := by
    rw [UInt64.toNat_sub_of_le _ _ (UInt64.le_iff_toNat_le.mpr (by omega)), hofNat]
  have hpos : q.pageSize - UInt64.ofNat n > 0 := by
    rw [gt_iff_lt, UInt64.lt_iff_toNat_lt, hsub, UInt64.toNat_zero]
    omega
  have hne : q.pageSize - UInt64.ofNat n ≠ 0 := by
    rintro h0
    rw [h0, UInt64.toNat_zero] at hsub
    omega
  unfold prepareLogsQuery logsCap
  simp only [gt_iff_lt, ge_iff_le]
  rw [if_neg hopen, if_pos hpos]
  by_cases hl : q.limit = 0
  · rw [if_neg (by simp [hl]), if_pos hl]
    exact ⟨_, rfl, rfl, rfl, rfl, rfl, by simp [hne, hsub]⟩
  · have hl0 : 0 < q.limit := by
      rw [UInt64.lt_iff_toNat_lt, UInt64.toNat_zero]
      have : q.limit.toNat ≠ 0 := fun h => hl (UInt64.toNat_inj.mp h)
      omega
    have hol : q.offset < q.limit := UInt64.not_le.mp fun h => hopen ⟨hl0, h⟩
    have hol' := UInt64.lt_iff_toNat_lt.mp hol
    have hwrap' := hwrap hl0
    have hsum : (q.offset + (q.pageSize - UInt64.ofNat n)).toNat =
        q.offset.toNat + (q.pageSize.toNat - n) := by
      rw [UInt64.toNat_add, hsub, Nat.mod_eq_of_lt (by omega)]
    have hdiff : (q.limit - q.offset).toNat = q.limit.toNat - q.offset.toNat :=
      UInt64.toNat_sub_of_le _ _ (UInt64.le_of_lt hol)
    rw [if_neg hl]
    by_cases hcut : q.limit < q.offset + (q.pageSize - UInt64.ofNat n)
    · have hdiffne : q.limit - q.offset ≠ 0 := by
        rintro h0
        rw [h0, UInt64.toNat_zero] at hdiff
        omega
      rw [if_pos ⟨hl0, hcut⟩]
      refine ⟨_, rfl, rfl, rfl, rfl, rfl, ?_⟩
      rw [UInt64.lt_iff_toNat_lt, hsum] at hcut
      simp only [if_neg hdiffne, hdiff, Option.some.injEq]
      omega
    · rw [if_neg fun h => hcut h.2]
      refine ⟨_, rfl, rfl, rfl, rfl, rfl, ?_⟩
      rw [UInt64.lt_iff_toNat_lt, hsum] at hcut
      simp only [if_neg hne, hsub, Option.some.injEq]
      omega

/-- **The loop of the logs branch** is the reading of windows with a cursor. -/
theorem runLogs_eq (hshift : q.shiftBy = 0) (hopen : ¬ (0 < q.limit ∧ q.limit ≤ q.offset))
    (hwrap : 0 < q.limit → q.offset.toNat + q.pageSize.toNat < 2 ^ 64) :
    ∀ (tsRanges : List Utils.LogsListTsRange) (fs : FilterSet F) (data : List R),
      data.length < q.pageSize.toNat → FiltersAfter t q fs data →
      runLogs t q tsRanges (some fs) data =
          .ok (Windowed.cursorPages t.timestamp t.id q.pageSize.toNat (logsCap q)
            (t.matching q.items) (tsRanges.map Utils.LogsListTsRange.nanos) data) ∧
        ∀ p ∈ logsSubtractions t q tsRanges (some fs) data, p.2 ≤ p.1 := by
  intro tsRanges
  induction tsRanges with
  | nil => exact fun fs data _ _ => ⟨rfl, by simp [logsSubtractions]⟩
  | cons v tsRanges ih =>
    intro fs data hdata hfs
    obtain ⟨st, hst, hstart, hend, hitems, hoffset, hlimit⟩ :=
      prepareLogsQuery_ok v.start v.end_ (some fs) hopen hwrap hdata
    have hrows : t.answer st =
        (Windowed.visible t.timestamp t.id v.nanos (t.matching q.items) data).take
          (min (q.pageSize.toNat - data.length) (logsCap q)) := by
      rw [answer_limit st hlimit hoffset, hstart, hend, hitems]
      change (Windowed.within _ _ _ (t.matching fs.items)).take _ = _
      rw [hfs.matching]
      congr 1
      unfold Windowed.visible Windowed.within
      rw [List.filter_filter, List.filter_filter]
      refine List.filter_congr fun r _ => Bool.and_comm _ _
    have hsh : ∀ time, shifted q time = time := fun time => by simp [shifted, hshift]
    simp only [runLogs, logsSubtractions, hsh, hst, Go.ok_bind, hrows, List.map_cons,
      Windowed.cursorPages]
    set X := (Windowed.visible t.timestamp t.id v.nanos (t.matching q.items) data).take
      (min (q.pageSize.toNat - data.length) (logsCap q)) with hX
    have hXafter : ∀ r ∈ X, Windowed.after t.id data r :=
      fun r hr => Windowed.after_visible (List.mem_of_mem_take hr)
    cases hlast : X.getLast? with
    | none =>
      have hnil : X = [] := List.getLast?_eq_none_iff.mp hlast
      have hnot : ¬ q.pageSize.toNat ≤ (data ++ X).length := by
        rw [hnil, List.append_nil]
        omega
      obtain ⟨hrun, hsubs⟩ := ih fs data hdata hfs
      rw [if_neg hnot, if_neg hnot, if_neg hnot, hnil, List.append_nil]
      exact ⟨hrun, List.forall_mem_cons.mpr ⟨hdata.le, hsubs⟩⟩
    | some last =>
      have hfs' := hfs.step hXafter hlast
      simp only [addIdFilter, Go.ok_bind]
      by_cases hfull : q.pageSize.toNat ≤ (data ++ X).length
      · rw [if_pos hfull, if_pos hfull, if_pos hfull]
        exact ⟨rfl, List.forall_mem_cons.mpr ⟨hdata.le, List.forall_mem_nil _⟩⟩
      · obtain ⟨hrun, hsubs⟩ := ih _ (data ++ X) (not_le.mp hfull) hfs'
        rw [if_neg hfull, if_neg hfull, if_neg hfull]
        exact ⟨hrun, List.forall_mem_cons.mpr ⟨hdata.le, hsubs⟩⟩

theorem logsCap_pos (hopen : ¬ (0 < q.limit ∧ q.limit ≤ q.offset)) (hp : 0 < q.pageSize) :
    0 < logsCap q := by
  rw [UInt64.lt_iff_toNat_lt, UInt64.toNat_zero] at hp
  unfold logsCap
  by_cases hl : q.limit = 0
  · rw [if_pos hl]
    exact hp
  · have hl0 : 0 < q.limit := UInt64.pos_iff_ne_zero.mpr hl
    have hol := UInt64.lt_iff_toNat_lt.mp (UInt64.not_le.mp fun h => hopen ⟨hl0, h⟩)
    rw [if_neg hl]
    omega

theorem logsCap_le : logsCap q ≤ q.pageSize.toNat := by
  unfold logsCap
  split
  · exact le_rfl
  · exact min_le_left _ _

/-- Without a filter set the first row that is found ends the request. -/
theorem runLogs_none (hshift : q.shiftBy = 0) (hfilters : q.filters = none) (hp : 0 < q.pageSize)
    (hopen : ¬ (0 < q.limit ∧ q.limit ≤ q.offset))
    (hwrap : 0 < q.limit → q.offset.toNat + q.pageSize.toNat < 2 ^ 64) :
    ∀ tsRanges : List Utils.LogsListTsRange,
      ((∀ v ∈ tsRanges, windowRows t q v = []) → runLogs t q tsRanges none [] = .ok []) ∧
      ((∃ v ∈ tsRanges, windowRows t q v ≠ []) →
        runLogs t q tsRanges none [] = .error .nilDereference) ∧
      ∀ p ∈ logsSubtractions t q tsRanges none [], p.2 ≤ p.1 := by
  have hp' : 0 < q.pageSize.toNat := by
    rwa [UInt64.lt_iff_toNat_lt, UInt64.toNat_zero] at hp
  have hcap := logsCap_pos hopen hp
  have hitems : q.items = [] := by simp [ListQuery.items, hfilters]
  intro tsRanges
  induction tsRanges with
  | nil => exact ⟨by simp [runLogs], by simp [logsSubtractions]⟩
  | cons v tsRanges ih =>
    obtain ⟨st, hst, hstart, hend, hit, hoffset, hlimit⟩ :=
      prepareLogsQuery_ok v.start v.end_ (none : Option (FilterSet F)) hopen hwrap hp'
    have hrows : t.answer st = (windowRows t q v).take (min q.pageSize.toNat (logsCap q)) := by
      rw [answer_limit st hlimit hoffset, hstart, hend, hit]
      unfold windowRows
      rw [hitems]
      rfl
    have hsh : ∀ time, shifted q time = time := fun time => by simp [shifted, hshift]
    simp only [runLogs, logsSubtractions, hsh, List.length_nil]
    simp only [hst, Go.ok_bind, hrows, List.nil_append]
    by_cases hv : windowRows t q v = []
    · obtain ⟨hok, herr, hsubs⟩ := ih
      have hnot : ¬ q.pageSize.toNat ≤ 0 := by omega
      simp only [hv, List.take_nil, List.getLast?_nil, List.length_nil]
      rw [if_neg hnot, if_neg hnot]
      refine ⟨fun h => hok fun v' hv' => h v' (List.mem_cons_of_mem v hv'), ?_,
        List.forall_mem_cons.mpr ⟨Nat.zero_le _, hsubs⟩⟩
      rintro ⟨v', hv', hne⟩
      rcases List.mem_cons.mp hv' with rfl | hv'
      · exact absurd hv hne
      · exact herr ⟨v', hv', hne⟩
    · have hne : (windowRows t q v).take (min q.pageSize.toNat (logsCap q)) ≠ [] := by
        rw [Ne, List.take_eq_nil_iff, not_or]
        exact ⟨by omega, hv⟩
      obtain ⟨last, hlast⟩ := Option.isSome_iff_exists.mp (List.getLast?_isSome.mpr hne)
      simp only [hlast, addIdFilter, Go.error_bind]
      refine ⟨fun h => absurd (h v List.mem_cons_self) hv, fun _ => trivial,
        List.forall_mem_cons.mpr ⟨Nat.zero_le _, ?_⟩⟩
      split <;> simp

/-- A page of no rows: the first window is read to its limit. -/
theorem runLogs_pageSize_zero (hshift : q.shiftBy = 0) (hp : q.pageSize = 0)
    (hopen : ¬ (0 < q.limit ∧ q.limit ≤ q.offset)) (v : Utils.LogsListTsRange)
    (tsRanges : List Utils.LogsListTsRange) :
    (runLogs t q (v :: tsRanges) q.filters [] = .ok [] ↔ windowRows t q v = []) ∧
      (∀ text, runLogs t q (v :: tsRanges) q.filters [] ≠ .error (.message text)) ∧
      ∀ p ∈ logsSubtractions t q (v :: tsRanges) q.filters [], p.2 ≤ p.1 := by
  have hsh : ∀ time, shifted q time = time := fun time => by simp [shifted, hshift]
  have hst : prepareLogsQuery v.start v.end_
      { q with filters := q.filters, pageSize := q.pageSize - UInt64.ofNat ([] : List R).length } =
      .ok { start := v.nanos.1, end_ := v.nanos.2, items := q.items,
            limit := if q.limit = 0 then none else some q.limit.toNat, offset := 0 } := by
    have hps : q.pageSize - UInt64.ofNat ([] : List R).length = 0 := by simp [hp]
    unfold prepareLogsQuery
    simp only [gt_iff_lt, ge_iff_le, hps]
    rw [if_neg hopen, if_neg (by simp)]
    rfl
  set rows := t.answer (F := F)
    { start := v.nanos.1, end_ := v.nanos.2, items := q.items,
      limit := if q.limit = 0 then none else some q.limit.toNat, offset := 0 } with hrowsdef
  have hrows : rows = [] ↔ windowRows t q v = [] := by
    rw [hrowsdef]
    unfold RowTable.answer windowRows
    by_cases hl : q.limit = 0
    · simp [hl]
    · have : q.limit.toNat ≠ 0 := fun h => hl (UInt64.toNat_inj.mp h)
      simp [hl, this]
  simp only [runLogs, logsSubtractions, hsh, hst, Go.ok_bind, ← hrowsdef, List.nil_append]
  simp only [hp, UInt64.toNat_zero, Nat.zero_le, if_true]
  refine ⟨?_, ?_, by simp⟩
  · rw [← hrows]
    cases hlast : rows.getLast? with
    | none => simp
    | some last =>
      have hne : rows ≠ [] := List.ne_nil_of_mem (List.mem_of_getLast? hlast)
      cases q.filters <;> simp [addIdFilter, hne]
  · intro text
    cases hlast : rows.getLast? with
    | none => simp
    | some last => cases q.filters <;> simp [addIdFilter]

end Logs

/-! ### The condition -/

/-- The rows of the newest window. -/
def newestRows (t : RowTable F R) (q : ListQuery F) (start end_ : Int) : List R :=
  ((Utils.getListTsRanges start end_).head?.map (windowRows t q)).getD []

/-- **When the answer is right.**

* A traces page is right if it ends before a row on a boundary between two windows is read a second
  time, or if its offset skips all rows, those on boundaries counted twice.
* A logs page is right if there are filters to put the `id` condition into and at each boundary the
  `id` of the last row shown separates the rows shown from the ones to come.
* A limit or page size of zero is right if nothing is found at once, and a request that is refused
  returns no page. -/
def PageCondition (t : RowTable F R) (q : ListQuery F) (start end_ : Int) : Prop :=
  match q.dataSource with
  | .logs =>
    (0 < q.limit → q.offset.toNat + q.pageSize.toNat < 2 ^ 64) ∧
    ((0 < q.limit ∧ q.limit ≤ q.offset) ∨
      (q.pageSize = 0 ∧ newestRows t q start end_ = []) ∨
      (0 < q.pageSize ∧ (q.filters = none → inRange t q start end_ = []) ∧
        ∀ w ∈ ((Utils.getListTsRanges start end_).map Utils.LogsListTsRange.nanos).tail,
          Windowed.CursorAgrees t.timestamp t.id q.pageSize.toNat (logsCap q)
            (inRange t q start end_) ((inRange t q start end_).take (logsCap q)) w))
  | _ =>
    q.limit.toNat + q.offset.toNat < 2 ^ 64 ∧
    (10000 < q.limit.toNat + q.offset.toNat ∨
      (q.limit = 0 ∧ (0 < q.offset ∨ newestRows t q start end_ = [])) ∨
      (0 < q.limit ∧
        ((inRange t q start end_).length + ((boundaries start end_).map fun b =>
            (Windowed.onBoundary t.timestamp b (t.matching q.items)).length).sum ≤
              q.offset.toNat ∨
          ∀ b ∈ boundaries start end_,
            Windowed.onBoundary t.timestamp b (t.matching q.items) ≠ [] →
            q.offset.toNat + q.limit.toNat ≤ (Windowed.within t.timestamp b
              (Utils.getEpochNanoSecs end_) (t.matching q.items)).length)))

section Condition

variable {t : RowTable F R} {q : ListQuery F} {start end_ : Int}

theorem matching_newestFirst (t : RowTable F R) (items : List (FilterItem F)) :
    Windowed.NewestFirst t.timestamp (t.matching items) :=
  t.newestFirst.filter _

theorem matching_nodup (t : RowTable F R) (items : List (FilterItem F)) :
    (t.matching items).Nodup :=
  t.nodup.filter _

theorem getListTsRanges_ne_nil (start end_ : Int) : Utils.getListTsRanges start end_ ≠ [] := by
  simp only [Utils.getListTsRanges]
  split
  · exact List.cons_ne_nil _ _
  · exact List.cons_ne_nil _ _

theorem flatMap_windowRows (t : RowTable F R) (q : ListQuery F) {bs : List Int}
    (hws : (Utils.getListTsRanges start end_).map Utils.LogsListTsRange.nanos =
      Windowed.windows (Utils.getEpochNanoSecs start) (Utils.getEpochNanoSecs end_) bs) :
    (Utils.getListTsRanges start end_).flatMap (windowRows t q) =
      Windowed.overlapping t.timestamp (Utils.getEpochNanoSecs start)
        (Utils.getEpochNanoSecs end_) bs (t.matching q.items) := by
  unfold Windowed.overlapping
  rw [← hws, List.flatMap_map]
  rfl

/-- Nothing is found in the range exactly when nothing is found in its windows. -/
theorem windowRows_eq_nil_iff (t : RowTable F R) (q : ListQuery F) {bs : List Int}
    (hb : Windowed.Boundaries (Utils.getEpochNanoSecs start) (Utils.getEpochNanoSecs end_) bs)
    (hws : (Utils.getListTsRanges start end_).map Utils.LogsListTsRange.nanos =
      Windowed.windows (Utils.getEpochNanoSecs start) (Utils.getEpochNanoSecs end_) bs) :
    (∀ v ∈ Utils.getListTsRanges start end_, windowRows t q v = []) ↔
      inRange t q start end_ = [] := by
  constructor
  · intro h
    have hle := Windowed.length_within_le_overlapping (matching_newestFirst t q.items) bs _ hb
    rw [← flatMap_windowRows t q hws, List.flatMap_eq_nil_iff.mpr h] at hle
    exact List.length_eq_zero_iff.mp (Nat.le_zero.mp hle)
  · intro h v hv
    have hv' : v.nanos ∈ Windowed.windows (Utils.getEpochNanoSecs start)
        (Utils.getEpochNanoSecs end_) bs := hws ▸ List.mem_map_of_mem hv
    obtain ⟨hlo, hhi⟩ := Windowed.windows_inside hb hv'
    unfold windowRows
    rw [← Windowed.within_within hlo hhi]
    change Windowed.within _ _ _ (inRange t q start end_) = []
    rw [h]
    rfl

theorem boundaries_eq {bs : List Int}
    (hws : (Utils.getListTsRanges start end_).map Utils.LogsListTsRange.nanos =
      Windowed.windows (Utils.getEpochNanoSecs start) (Utils.getEpochNanoSecs end_) bs) :
    boundaries start end_ = bs := by
  unfold boundaries
  rw [← Windowed.dropLast_windows (Utils.getEpochNanoSecs start) bs (Utils.getEpochNanoSecs end_),
    ← hws, ← List.map_dropLast, List.map_map]
  rfl

theorem pageCorrect_iff_of_ok {rows : List R}
    (hrun : runWindowBasedListQuery t q (Utils.getListTsRanges start end_) = .ok rows)
    (hsum : NoOverflow q) :
    PageCorrect t q start end_ ↔
      rows = expectedPage t q start end_ ∧ ∀ p ∈ subtractions t q start end_, p.2 ≤ p.1 := by
  constructor
  · rintro ⟨hpage, -, hsubs⟩
    refine ⟨?_, hsubs⟩
    rcases hpage with h | ⟨text, h⟩
    · exact Except.ok.inj (hrun.symm.trans h)
    · cases hrun.symm.trans h
  · rintro ⟨rfl, hsubs⟩
    exact ⟨.inl hrun, hsum, hsubs⟩

theorem tracesPageCorrect_iff (hsource : q.dataSource = .traces) (hshift : q.shiftBy = 0)
    {bs : List Int}
    (hb : Windowed.Boundaries (Utils.getEpochNanoSecs start) (Utils.getEpochNanoSecs end_) bs)
    (hws : (Utils.getListTsRanges start end_).map Utils.LogsListTsRange.nanos =
      Windowed.windows (Utils.getEpochNanoSecs start) (Utils.getEpochNanoSecs end_) bs) :
    PageCorrect t q start end_ ↔ PageCondition t q start end_ := by
  have hrun : runWindowBasedListQuery t q (Utils.getListTsRanges start end_) =
      runTraces t q (Utils.getListTsRanges start end_) (q.limit + q.offset) q.offset [] := by
    simp [runWindowBasedListQuery, hsource]
  have hpage : expectedPage t q start end_ =
      ((inRange t q start end_).drop q.offset.toNat).take q.limit.toNat := by
    simp [expectedPage, hsource]
  have hsubs : subtractions t q start end_ =
      tracesSubtractions t q (Utils.getListTsRanges start end_) (q.limit + q.offset) q.offset [] := by
    simp [subtractions, hsource]
  have hno : NoOverflow q ↔ q.limit.toNat + q.offset.toNat < 2 ^ 64 := by
    simp [NoOverflow, hsource]
  unfold PageCondition
  simp only [hsource]
  by_cases hwrap : q.limit.toNat + q.offset.toNat < 2 ^ 64
  swap
  · exact ⟨fun h => absurd (hno.mp h.noOverflow) hwrap, fun h => absurd h.1 hwrap⟩
  have hsum : (q.limit + q.offset).toNat = q.limit.toNat + q.offset.toNat := by
    rw [UInt64.toNat_add, Nat.mod_eq_of_lt hwrap]
  rw [and_iff_right hwrap]
  obtain ⟨v, tsRanges, hranges⟩ := List.exists_cons_of_ne_nil (getListTsRanges_ne_nil start end_)
  by_cases hmax : 10000 < q.limit.toNat + q.offset.toNat
  · -- the request is refused
    rw [← hsum] at hmax
    obtain ⟨hr, hs⟩ := runTraces_refused (t := t) (q := q) v tsRanges hmax q.offset
    rw [hsum] at hmax
    rw [← hranges] at hr hs
    refine ⟨fun _ => .inl hmax, fun _ => ⟨.inr ⟨_, hrun.trans hr⟩, hno.mpr hwrap, ?_⟩⟩
    rw [hsubs, hs]
    exact List.forall_mem_nil _
  rw [or_iff_right hmax]
  by_cases hlimit : q.limit = 0
  · have h0 : q.limit + q.offset = q.offset := by rw [hlimit, UInt64.zero_add]
    obtain ⟨rows, hrows, hr, hs⟩ := runTraces_limit_zero (t := t) hshift hlimit (by omega) v tsRanges
    rw [← hranges] at hr hs
    rw [h0] at hrun hsubs
    have hnewest : newestRows t q start end_ = windowRows t q v := by simp [newestRows, hranges]
    rw [pageCorrect_iff_of_ok (hrun.trans hr) (hno.mpr hwrap), hsubs, hs, hpage, hlimit, hnewest]
    by_cases hoff : q.offset = 0
    · simp [hrows, hoff]
    · have hpos : 0 < q.offset := UInt64.pos_iff_ne_zero.mpr hoff
      rw [if_neg hoff] at hrows
      simp [hrows, hpos]
  · have hlimit' : 0 < q.limit := UInt64.pos_iff_ne_zero.mpr hlimit
    have hlimit0 : 0 < q.limit.toNat := by
      rwa [UInt64.lt_iff_toNat_lt, UInt64.toNat_zero] at hlimit'
    obtain ⟨hr, hs⟩ := runTraces_eq (t := t) hshift hlimit0 (by omega)
      (Utils.getListTsRanges start end_) [] (q.limit + q.offset) q.offset (by simpa using by omega)
      (by simpa using hsum) (by simp)
    rw [List.drop_nil] at hr hs
    rw [pageCorrect_iff_of_ok (hrun.trans hr) (hno.mpr hwrap), hsubs, and_iff_left hs, hpage,
      List.nil_append, flatMap_windowRows t q hws, Nat.add_comm, ← List.take_drop,
      inRange, Windowed.page_overlapping_iff (matching_newestFirst t q.items)
        (matching_nodup t q.items) hb, Windowed.length_overlapping (matching_newestFirst t q.items)
        bs _ hb, boundaries_eq hws]
    simp only [hlimit, hlimit', false_and, true_and, false_or]
    rw [or_iff_right (by omega)]

/-- Refused by every window, so by the first. -/
theorem runLogs_refused (hopen : 0 < q.limit ∧ q.limit ≤ q.offset) (v : Utils.LogsListTsRange)
    (tsRanges : List Utils.LogsListTsRange) :
    runLogs t q (v :: tsRanges) q.filters [] = .error (.message "max limit exceeded") ∧
      ∀ p ∈ logsSubtractions t q (v :: tsRanges) q.filters [], p.2 ≤ p.1 := by
  have hst : ∀ start end_ : Int, prepareLogsQuery start end_
      { q with filters := q.filters, pageSize := q.pageSize - UInt64.ofNat ([] : List R).length } =
      .error (.message "max limit exceeded") := by
    intro start end_
    unfold prepareLogsQuery
    simp only [gt_iff_lt, ge_iff_le]
    rw [if_pos hopen]
  simp only [runLogs, logsSubtractions, hst, Go.error_bind]
  exact ⟨trivial, List.forall_mem_cons.mpr ⟨Nat.zero_le _, List.forall_mem_nil _⟩⟩

theorem logsPageCorrect_iff (hsource : q.dataSource = .logs) (hshift : q.shiftBy = 0)
    {bs : List Int}
    (hb : Windowed.Boundaries (Utils.getEpochNanoSecs start) (Utils.getEpochNanoSecs end_) bs)
    (hws : (Utils.getListTsRanges start end_).map Utils.LogsListTsRange.nanos =
      Windowed.windows (Utils.getEpochNanoSecs start) (Utils.getEpochNanoSecs end_) bs) :
    PageCorrect t q start end_ ↔ PageCondition t q start end_ := by
  have hrun : runWindowBasedListQuery t q (Utils.getListTsRanges start end_) =
      runLogs t q (Utils.getListTsRanges start end_) q.filters [] := by
    simp [runWindowBasedListQuery, hsource]
  have hpage : expectedPage t q start end_ = (inRange t q start end_).take (logsCap q) := by
    simp [expectedPage, hsource]
  have hsubs : subtractions t q start end_ =
      logsSubtractions t q (Utils.getListTsRanges start end_) q.filters [] := by
    simp [subtractions, hsource]
  have hno : NoOverflow q ↔ (0 < q.limit → q.offset.toNat + q.pageSize.toNat < 2 ^ 64) := by
    simp [NoOverflow, hsource]
  unfold PageCondition
  simp only [hsource]
  by_cases hwrap : 0 < q.limit → q.offset.toNat + q.pageSize.toNat < 2 ^ 64
  swap
  · exact ⟨fun h => absurd (hno.mp h.noOverflow) hwrap, fun h => absurd h.1 hwrap⟩
  rw [and_iff_right hwrap]
  obtain ⟨v, tsRanges, hranges⟩ := List.exists_cons_of_ne_nil (getListTsRanges_ne_nil start end_)
  by_cases hopen : 0 < q.limit ∧ q.limit ≤ q.offset
  · -- the request is refused
    obtain ⟨hr, hs⟩ := runLogs_refused (t := t) hopen v tsRanges
    rw [← hranges] at hr hs
    exact ⟨fun _ => .inl hopen, fun _ => ⟨.inr ⟨_, hrun.trans hr⟩, hno.mpr hwrap, hsubs ▸ hs⟩⟩
  rw [or_iff_right hopen]
  by_cases hp : q.pageSize = 0
  · -- no rows are asked for
    obtain ⟨hr, hmsg, hs⟩ := runLogs_pageSize_zero (t := t) hshift hp hopen v tsRanges
    rw [← hranges] at hr hmsg hs
    have hcap : logsCap q = 0 := by
      unfold logsCap
      split <;> simp [hp]
    have hnewest : newestRows t q start end_ = windowRows t q v := by simp [newestRows, hranges]
    rw [hcap, List.take_zero] at hpage
    rw [hnewest, ← hr]
    simp only [hp, true_and, UInt64.lt_irrefl, false_and, or_false]
    constructor
    · rintro ⟨hok | ⟨text, herr⟩, -, -⟩
      · rw [← hrun, hok, hpage]
      · exact absurd (hrun.symm.trans herr) (hmsg text)
    · intro hok
      exact ⟨.inl (by rw [hrun, hok, hpage]), hno.mpr hwrap, hsubs ▸ hs⟩
  have hp' : 0 < q.pageSize := UInt64.pos_iff_ne_zero.mpr hp
  have hpNat : 0 < q.pageSize.toNat := by
    rwa [UInt64.lt_iff_toNat_lt, UInt64.toNat_zero] at hp'
  simp only [hp, hp', false_and, true_and, false_or]
  cases hfilters : q.filters with
  | none =>
    obtain ⟨hok, herr, hs⟩ := runLogs_none (t := t) hshift hfilters hp' hopen hwrap
      (Utils.getListTsRanges start end_)
    rw [hfilters] at hrun hsubs
    by_cases hnil : inRange t q start end_ = []
    · have hr := hok ((windowRows_eq_nil_iff t q hb hws).mpr hnil)
      rw [pageCorrect_iff_of_ok (hrun.trans hr) (hno.mpr hwrap), hsubs, and_iff_left hs, hpage, hnil,
        List.take_nil]
      refine ⟨fun _ => ⟨fun _ => rfl, fun w _ last _ _ a ha => ?_⟩, fun _ => rfl⟩
      exact absurd ha List.not_mem_nil
    · have hr := herr (by simpa using fun h => hnil ((windowRows_eq_nil_iff t q hb hws).mp h))
      constructor
      · rintro ⟨hok | ⟨text, herr⟩, -, -⟩
        · cases hr.symm.trans (hrun.symm.trans hok)
        · cases hr.symm.trans (hrun.symm.trans herr)
      · exact fun h => absurd (h.1 rfl) hnil
  | some fs =>
    obtain ⟨hr, hs⟩ := runLogs_eq (t := t) hshift hopen hwrap (Utils.getListTsRanges start end_) fs []
      hpNat (FiltersAfter.init hfilters)
    rw [hfilters] at hrun hsubs
    have hmem : ∀ r ∈ inRange t q start end_, Utils.getEpochNanoSecs start ≤ t.timestamp r ∧
        t.timestamp r ≤ Utils.getEpochNanoSecs end_ := by
      intro r hr
      simpa using (List.mem_filter.mp hr).2
    rw [pageCorrect_iff_of_ok (hrun.trans hr) (hno.mpr hwrap), hsubs, and_iff_left hs, hpage, hws,
      ← Windowed.cursorPages_within fun w hw => Windowed.windows_inside hb hw]
    have hiff := Windowed.cursorPages_eq_take_iff t.id (inRange t q start end_)
      ((matching_newestFirst t q.items).filter _) ((matching_nodup t q.items).filter _)
      (logsCap_pos hopen hp') logsCap_le hmem hb
    rw [inRange] at hiff ⊢
    rw [hiff]
    simp

end Condition

/-- A table of rows given by their timestamps and ids. -/
def pairTable (rows : List (Int × String)) (hs : Windowed.NewestFirst Prod.fst rows)
    (hn : rows.Nodup) : RowTable Int (Int × String) where
  rows := rows
  timestamp := Prod.fst
  id := Prod.snd
  satisfies := fun item r =>
    match item.operator, item.value with
    | .lessThan, .string v => decide (r.2 < v)
    | _, _ => true
  newestFirst := hs
  nodup := hn
  satisfies_idLessThan := fun _ _ => rfl

/-- Two hours, in milliseconds: the windows meet at `1722262800000`. -/
def twoHours : Int × Int := (1722259200000, 1722266400000)

/-- The row `b` lies on the boundary of the windows of `twoHours`. -/
def boundaryTable : RowTable Int (Int × String) :=
  pairTable [(1722264000000000000, "c"), (1722262800000000000, "b"), (1722260000000000000, "a")]
    (by decide) (by decide)

def tracesQuery (limit offset : UInt64) : ListQuery Int where
  dataSource := .traces
  filters := none
  limit := limit
  offset := offset
  pageSize := 0
  shiftBy := 0

def logsQuery (filters : Option (FilterSet Int)) (pageSize : UInt64) : ListQuery Int where
  dataSource := .logs
  filters := filters
  limit := 0
  offset := 0
  pageSize := pageSize
  shiftBy := 0

end Querier
end QueryService
