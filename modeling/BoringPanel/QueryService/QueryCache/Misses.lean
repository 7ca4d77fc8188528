import BoringPanel.QueryService.QueryCache.MergeIntervals

/-!
# The missing time ranges

What the loop of `FindMissingTimeRanges` finds: ranges inside the requested one (`mem_missesFrom`)
that together with the cached intervals, the last one cut at the flux end, cover it
(`covered_missesFrom`). What the cut leaves of the last interval is missed by a range that starts
after this interval, unless the whole interval lies in the flux interval and in the request
(`exists_miss_after_last`).
-/

namespace QueryService
namespace QueryCache

variable {F : Type}

/-- The range covers a time. -/
def MissInterval.Covers (m : MissInterval) (t : Int) : Prop := m.start ≤ t ∧ t < m.end_

theorem mem_missesFrom {start end_ : Int} (ds : List (CachedSeriesData F)) :
    ∀ (currentTime : Int), start ≤ currentTime →
      ∀ m ∈ missesFrom start end_ currentTime ds,
        start ≤ m.start ∧ m.start < m.end_ ∧ m.end_ ≤ end_ := by
  induction ds with
  | nil =>
    intro currentTime hc m hm
    simp only [missesFrom] at hm
    split at hm
    · obtain rfl := List.mem_singleton.mp hm
      exact ⟨hc, ‹_›, le_rfl⟩
    · exact absurd hm List.not_mem_nil
  | cons d ds ih =>
    intro currentTime hc m hm
    simp only [missesFrom] at hm
    split at hm
    · exact ih currentTime hc m hm
    · split at hm
      · split at hm
        · obtain rfl := List.mem_singleton.mp hm
          exact ⟨hc, ‹_›, le_rfl⟩
        · exact absurd hm List.not_mem_nil
      · rcases List.mem_append.mp hm with hm | hm
        · split at hm
          · obtain rfl := List.mem_singleton.mp hm
            refine ⟨hc, ?_, min_le_right _ _⟩
            simp only
            omega
          · exact absurd hm List.not_mem_nil
        · exact ih _ (hc.trans (le_max_left _ _)) m hm

/-- **Nothing is left out**: what no missing range covers, a cached interval does. -/
theorem covered_missesFrom (start : Int) {end_ t : Int} (ht : t < end_) (ds : List (CachedSeriesData F)) :
    ∀ currentTime ≤ t, (∃ m ∈ missesFrom start end_ currentTime ds, m.Covers t) ∨
      ∃ d ∈ ds, Covers d t := by
  induction ds with
  | nil =>
    intro currentTime hc
    refine .inl ⟨⟨currentTime, end_⟩, ?_, hc, ht⟩
    simp only [missesFrom]
    rw [if_pos (hc.trans_lt ht)]
    exact List.mem_singleton_self _
  | cons d ds ih =>
    intro currentTime hc
    have hrest : ∀ c ≤ t, (∃ m ∈ missesFrom start end_ c ds, m.Covers t) ∨
        ∃ d' ∈ d :: ds, Covers d' t := fun c hc =>
      (ih c hc).imp_right fun ⟨d', hd', hcov⟩ => ⟨d', List.mem_cons_of_mem d hd', hcov⟩
    simp only [missesFrom]
    split
    · exact hrest currentTime hc
    · split
      · refine .inl ⟨⟨currentTime, end_⟩, ?_, hc, ht⟩
        rw [if_pos (hc.trans_lt ht)]
        exact List.mem_singleton_self _
      · by_cases hnext : max currentTime (min d.end_ end_) ≤ t
        · obtain ⟨m, hm, hcov⟩ | h := hrest _ hnext
          · exact .inl ⟨m, List.mem_append_right _ hm, hcov⟩
          · exact .inr h
        · -- before the interval or in it
          by_cases hgap : t < d.start
          · refine .inl ⟨⟨currentTime, min d.start end_⟩, List.mem_append_left _ ?_, hc, ?_⟩
            · rw [if_pos (hc.trans_lt hgap)]
              exact List.mem_singleton_self _
            · simp only
              omega
          · refine .inr ⟨d, List.mem_cons_self, ?_, ?_⟩ <;> omega

/-- The flux part of the last interval is fetched by a range that starts after the interval. -/
theorem exists_miss_after_last (start : Int) {end_ t : Int} {c : CachedSeriesData F}
    (hcut : c.end_ ≤ t) (hct : c.start ≤ t) (ht : t < end_) (hlate : c.start < max start c.end_)
    (ds : List (CachedSeriesData F)) (hds : ∀ d ∈ ds, d.start < c.start ∧ d.end_ < c.start) :
    ∀ currentTime, start ≤ currentTime → currentTime ≤ t →
      ∃ m ∈ missesFrom start end_ currentTime (ds ++ [c]), m.Covers t ∧ c.start < m.start := by
  induction ds with
  | nil =>
    intro currentTime hsc hc
    simp only [List.nil_append, missesFrom]
    split
    · refine ⟨⟨currentTime, end_⟩, ?_, ⟨hc, ht⟩, ?_⟩
      · rw [if_pos (hc.trans_lt ht)]
        exact List.mem_singleton_self _
      · simp only
        omega
    · rw [if_neg (by omega)]
      refine ⟨⟨max currentTime (min c.end_ end_), end_⟩, List.mem_append_right _ ?_, ⟨?_, ht⟩, ?_⟩
      · rw [if_pos (by omega)]
        exact List.mem_singleton_self _
      · simp only
        omega
      · simp only
        omega
  | cons d ds ih =>
    intro currentTime hsc hc
    have hd := hds d List.mem_cons_self
    have ih' := ih fun d' hd' => hds d' (List.mem_cons_of_mem d hd')
    simp only [List.cons_append, missesFrom]
    split
    · exact ih' currentTime hsc hc
    · rw [if_neg (by omega)]
      obtain ⟨m, hm, hcov⟩ := ih' (max currentTime (min d.end_ end_))
        (hsc.trans (le_max_left _ _)) (by omega)
      exact ⟨m, List.mem_append_right _ hm, hcov⟩

/-! ### Cutting the last interval -/

theorem capLast_append_singleton (cap : Int) (ds : List (CachedSeriesData F))
    (c : CachedSeriesData F) :
    capLast cap (ds ++ [c]) = ds ++ [{ c with end_ := Go.minFloat64 c.end_ cap }] := by
  induction ds with
  | nil => rfl
  | cons d ds ih =>
    cases ds with
    | nil => rfl
    | cons e ds =>
      change d :: capLast cap (e :: ds ++ [c]) = _
      rw [ih]
      rfl

/-- A time that the cut list covers is covered by the list, and before the cut if by the last. -/
theorem covers_of_capLast {cap t : Int} {ds : List (CachedSeriesData F)}
    (hfloat : ∀ c, ds.getLast? = some c → Go.minFloat64 c.end_ cap = min c.end_ cap)
    (h : ∃ d ∈ capLast cap ds, Covers d t) :
    ∃ d ∈ ds, Covers d t ∧ (t < cap ∨ d ∈ ds.dropLast) := by
  cases ds using List.reverseRecOn with
  | nil => simp [capLast] at h
  | append_singleton ds c =>
    rw [capLast_append_singleton, hfloat c (by simp)] at h
    obtain ⟨d, hd, hcov⟩ := h
    rcases List.mem_append.mp hd with hd | hd
    · exact ⟨d, List.mem_append_left _ hd, hcov, .inr (by simpa using hd)⟩
    · obtain rfl := List.mem_singleton.mp hd
      simp only [Covers] at hcov
      exact ⟨c, by simp, ⟨hcov.1, by omega⟩, .inl (by omega)⟩

end QueryCache
end QueryService
