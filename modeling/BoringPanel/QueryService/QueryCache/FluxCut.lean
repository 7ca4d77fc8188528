import BoringPanel.QueryService.QueryCache.Misses

/-!
# Cutting the cached intervals at the flux end

The missing ranges that `FindMissingTimeRanges` should report (`FindsMisses`): apart from each other,
inside the request, and covering exactly what no cached interval covers before the flux end. The code
cuts only the interval that the sort puts last. The loop reports exactly what the cut list does not
cover (`exists_miss_iff`), but its ranges are apart from each other only as long as the cut does not
move the end of the last interval before its start (`pairwise_missesFrom_iff`). This gives the exact
condition under which the code finds the ranges (`findMissingTimeRanges_findsMisses_iff`).
-/

namespace QueryService
namespace QueryCache

variable {F : Type}

/-- **The ranges that are missing** from a request, where cached intervals count up to `cap`. -/
structure FindsMisses (cached : List (CachedSeriesData F)) (cap start end_ : Int)
    (misses : List MissInterval) : Prop where
  apart : misses.Pairwise fun m m' => m.end_ ≤ m'.start
  inside : ∀ m ∈ misses, start ≤ m.start ∧ m.start < m.end_ ∧ m.end_ ≤ end_
  exact : ∀ t, start ≤ t → t < end_ →
    ((∃ m ∈ misses, m.Covers t) ↔ ¬∃ d ∈ cached, Covers d t ∧ t < cap)

/-! ### What the loop covers -/

theorem le_start_of_mem_missesFrom {start end_ : Int} (ds : List (CachedSeriesData F)) :
    ∀ currentTime, ∀ m ∈ missesFrom start end_ currentTime ds, currentTime ≤ m.start := by
  induction ds with
  | nil =>
    intro currentTime m hm
    simp only [missesFrom] at hm
    split at hm
    · exact (List.mem_singleton.mp hm) ▸ le_rfl
    · exact absurd hm List.not_mem_nil
  | cons d ds ih =>
    intro currentTime m hm
    simp only [missesFrom] at hm
    split at hm
    · exact ih currentTime m hm
    · split at hm
      · split at hm
        · exact (List.mem_singleton.mp hm) ▸ le_rfl
        · exact absurd hm List.not_mem_nil
      · obtain hm | hm := List.mem_append.mp hm
        · split at hm
          · exact (List.mem_singleton.mp hm) ▸ le_rfl
          · exact absurd hm List.not_mem_nil
        · exact (le_max_left _ _).trans (ih _ m hm)

/-- **Nothing is reported twice**: no range covers what an interval covers. -/
theorem not_covers_of_mem_missesFrom {start end_ t : Int} (ds : List (CachedSeriesData F))
    (hsorted : ds.Pairwise fun d d' => d.start ≤ d'.start) :
    ∀ currentTime, start ≤ currentTime → ∀ m ∈ missesFrom start end_ currentTime ds, m.Covers t →
      ∀ d ∈ ds, ¬ Covers d t := by
  induction ds with
  | nil => exact fun _ _ _ _ _ d hd => absurd hd List.not_mem_nil
  | cons d ds ih =>
    intro currentTime hc m hm hcov d' hd' hd'cov
    obtain ⟨hfirst, hsorted⟩ := List.pairwise_cons.mp hsorted
    have hm_in := mem_missesFrom (d :: ds) currentTime hc m hm
    -- no interval starts before the first one
    have hle : d.start ≤ d'.start := by
      obtain rfl | hd' := List.mem_cons.mp hd'
      · exact le_rfl
      · exact hfirst d' hd'
    unfold MissInterval.Covers at hcov
    unfold Covers at hd'cov
    simp only [missesFrom] at hm
    split at hm
    · obtain rfl | hd' := List.mem_cons.mp hd'
      · omega
      · exact ih hsorted currentTime hc m hm hcov d' hd' hd'cov
    · split at hm
      · omega
      · obtain hm | hm := List.mem_append.mp hm
        · -- the gap ends where the first interval starts
          split at hm
          · obtain rfl := List.mem_singleton.mp hm
            simp only at hcov
            omega
          · exact absurd hm List.not_mem_nil
        · obtain rfl | hd' := List.mem_cons.mp hd'
          · have := le_start_of_mem_missesFrom ds _ m hm
            omega
          · exact ih hsorted _ (hc.trans (le_max_left _ _)) m hm hcov d' hd' hd'cov

theorem exists_miss_iff {start end_ t : Int} {ds : List (CachedSeriesData F)}
    (hsorted : ds.Pairwise fun d d' => d.start ≤ d'.start) (hs : start ≤ t) (he : t < end_) :
    (∃ m ∈ missesFrom start end_ start ds, m.Covers t) ↔ ¬∃ d ∈ ds, Covers d t := by
  constructor
  · rintro ⟨m, hm, hcov⟩ ⟨d, hd, hdcov⟩
    exact not_covers_of_mem_missesFrom ds hsorted start le_rfl m hm hcov d hd hdcov
  · exact (covered_missesFrom start he ds start hs).resolve_right

/-! ### When the ranges are apart -/

/-- The last interval ends before it starts, and the loop comes to it with nothing covered from its end
up to its start. -/
def TurnedAround (start end_ currentTime : Int) (front : List (CachedSeriesData F))
    (last : CachedSeriesData F) : Prop :=
  start < last.end_ ∧ last.end_ < last.start ∧ last.start < end_ ∧ currentTime < last.start ∧
    ∀ d ∈ front, d.end_ < last.start

theorem turnedAround_nil {start end_ currentTime : Int} {last : CachedSeriesData F} :
    TurnedAround start end_ currentTime [] last ↔
      start < last.end_ ∧ last.end_ < last.start ∧ last.start < end_ ∧ currentTime < last.start := by
  simp [TurnedAround]

theorem pairwise_missesFrom_iff {start end_ : Int} {last : CachedSeriesData F}
    (front : List (CachedSeriesData F)) (hordered : ∀ d ∈ front, d.start ≤ d.end_)
    (hlast : ∀ d ∈ front, d.start ≤ last.start) :
    ∀ currentTime, ((missesFrom start end_ currentTime (front ++ [last])).Pairwise
        fun m m' => m.end_ ≤ m'.start) ↔ ¬ TurnedAround start end_ currentTime front last := by
  induction front with
  | nil =>
    intro currentTime
    rw [turnedAround_nil]
    simp only [List.nil_append, missesFrom]
    split
    · split <;> simp only [List.Pairwise.nil, List.pairwise_singleton, true_iff] <;> omega
    · split
      · split <;> simp only [List.Pairwise.nil, List.pairwise_singleton, true_iff] <;> omega
      · -- the range before the last interval, and the one after it
        split <;> split <;>
          simp only [List.nil_append, List.append_nil, List.singleton_append, List.Pairwise.nil,
            List.pairwise_singleton, List.pairwise_pair, true_iff] <;> omega
  | cons d front ih =>
    intro currentTime
    have hd := hordered d List.mem_cons_self
    have hdlast := hlast d List.mem_cons_self
    have ih := ih (fun d' hd' => hordered d' (List.mem_cons_of_mem d hd'))
      fun d' hd' => hlast d' (List.mem_cons_of_mem d hd')
    simp only [List.cons_append, missesFrom]
    split
    · rw [ih]
      unfold TurnedAround
      rw [List.forall_mem_cons]
      refine not_congr ⟨?_, ?_⟩
      · rintro ⟨h₁, h₂, h₃, h₄, h₅⟩
        exact ⟨h₁, h₂, h₃, h₄, by omega, h₅⟩
      · rintro ⟨h₁, h₂, h₃, h₄, -, h₅⟩
        exact ⟨h₁, h₂, h₃, h₄, h₅⟩
    · split
      · refine iff_of_true ?_ ?_
        · split
          · exact List.pairwise_singleton _ _
          · exact List.Pairwise.nil
        · rintro ⟨-, -, h₃, -⟩
          omega
      · -- what comes later starts after this interval
        have hgap : ∀ m ∈ if currentTime < d.start then [(⟨currentTime, min d.start end_⟩ : MissInterval)] else [],
            ∀ m' ∈ missesFrom start end_ (max currentTime (min d.end_ end_)) (front ++ [last]),
              m.end_ ≤ m'.start := by
          intro m hm m' hm'
          have hlate := le_start_of_mem_missesFrom _ _ m' hm'
          split at hm
          · obtain rfl := List.mem_singleton.mp hm
            simp only
            omega
          · exact absurd hm List.not_mem_nil
        have hone : (if currentTime < d.start then
            [(⟨currentTime, min d.start end_⟩ : MissInterval)] else []).Pairwise
              fun m m' => m.end_ ≤ m'.start := by
          split
          · exact List.pairwise_singleton _ _
          · exact List.Pairwise.nil
        rw [List.pairwise_append, and_iff_right hone, and_iff_left hgap, ih]
        unfold TurnedAround
        rw [List.forall_mem_cons]
        refine not_congr ⟨?_, ?_⟩
        · rintro ⟨h₁, h₂, h₃, h₄, h₅⟩
          exact ⟨h₁, h₂, h₃, by omega, by omega, h₅⟩
        · rintro ⟨h₁, h₂, h₃, h₄, h₄', h₅⟩
          exact ⟨h₁, h₂, h₃, by omega, h₅⟩

/-! ### The cut -/

/-- **The cut of the last interval is enough**, for a request: no other interval reaches into the flux
interval, the end of the last one is what it should be, and the cut does not turn it around. -/
structure CutSuffices (cap start end_ : Int) (front : List (CachedSeriesData F))
    (last : CachedSeriesData F) : Prop where
  front_before : ∀ d ∈ front, ∀ t, start ≤ t → t < end_ → Covers d t → t < cap
  last_cut : ∀ t, start ≤ t → t < end_ → (∀ d ∈ front, ¬ Covers d t) → last.start ≤ t →
    (t < Go.minFloat64 last.end_ cap ↔ t < last.end_ ∧ t < cap)
  not_turned : ¬ TurnedAround start end_ start front
    { last with end_ := Go.minFloat64 last.end_ cap }

/-- The cut list covers what the intervals cover before the flux end. -/
theorem covers_capLast_iff {cap start end_ : Int} {front : List (CachedSeriesData F)}
    {last : CachedSeriesData F} :
    (∀ t, start ≤ t → t < end_ →
      ((∃ d ∈ front ++ [{ last with end_ := Go.minFloat64 last.end_ cap }], Covers d t) ↔
        ∃ d ∈ front ++ [last], Covers d t ∧ t < cap)) ↔
      (∀ d ∈ front, ∀ t, start ≤ t → t < end_ → Covers d t → t < cap) ∧
      ∀ t, start ≤ t → t < end_ → (∀ d ∈ front, ¬ Covers d t) → last.start ≤ t →
        (t < Go.minFloat64 last.end_ cap ↔ t < last.end_ ∧ t < cap) := by
  simp only [List.mem_append, List.mem_singleton, or_and_right, exists_or, exists_eq_left]
  constructor
  · intro h
    refine ⟨fun d hd t hs he hcov => ?_, fun t hs he hnone hle => ?_⟩
    · obtain ⟨-, -, -, hlt⟩ | ⟨-, hlt⟩ := (h t hs he).mp (.inl ⟨d, hd, hcov⟩)
      · exact hlt
      · exact hlt
    · have hno : ¬∃ d ∈ front, Covers d t := by
        rintro ⟨d, hd, hcov⟩
        exact hnone d hd hcov
      have hno' : ¬∃ d ∈ front, Covers d t ∧ t < cap := by
        rintro ⟨d, hd, hcov, -⟩
        exact hnone d hd hcov
      have ht := h t hs he
      rw [or_iff_right hno, or_iff_right hno'] at ht
      simpa only [Covers, hle, true_and] using ht
  · rintro ⟨hfront, hlast⟩ t hs he
    by_cases hcov : ∃ d ∈ front, Covers d t
    · obtain ⟨d, hd, hcov⟩ := hcov
      exact iff_of_true (.inl ⟨d, hd, hcov⟩) (.inl ⟨d, hd, hcov, hfront d hd t hs he hcov⟩)
    · have hnone : ∀ d ∈ front, ¬ Covers d t := fun d hd h => hcov ⟨d, hd, h⟩
      have hno' : ¬∃ d ∈ front, Covers d t ∧ t < cap := by
        rintro ⟨d, hd, h, -⟩
        exact hnone d hd h
      rw [or_iff_right hcov, or_iff_right hno']
      by_cases hle : last.start ≤ t
      · simpa only [Covers, hle, true_and] using hlast t hs he hnone hle
      · exact iff_of_false (fun h => hle h.1) fun h => hle h.1.1

theorem findsMisses_capLast_iff {cap start end_ : Int} {front : List (CachedSeriesData F)}
    {last : CachedSeriesData F} (hordered : ∀ d ∈ front, d.start ≤ d.end_)
    (hsorted : (front ++ [last]).Pairwise fun d d' => d.start ≤ d'.start) :
    FindsMisses (front ++ [last]) cap start end_
        (missesFrom start end_ start (capLast cap (front ++ [last]))) ↔
      CutSuffices cap start end_ front last := by
  obtain ⟨hsortedFront, -, hlast⟩ := List.pairwise_append.mp hsorted
  have hlast : ∀ d ∈ front, d.start ≤ last.start := fun d hd => hlast d hd last (List.mem_singleton_self _)
  rw [capLast_append_singleton]
  set cut := { last with end_ := Go.minFloat64 last.end_ cap } with hcut
  have hsortedCut : (front ++ [cut]).Pairwise fun d d' => d.start ≤ d'.start := by
    refine List.pairwise_append.mpr ⟨hsortedFront, List.pairwise_singleton _ _, fun d hd e he => ?_⟩
    obtain rfl := List.mem_singleton.mp he
    exact hlast d hd
  have hcutLast : ∀ d ∈ front, d.start ≤ cut.start := hlast
  have hapart : ((missesFrom start end_ start (front ++ [cut])).Pairwise fun m m' => m.end_ ≤ m'.start) ↔
      ¬ TurnedAround start end_ start front cut := pairwise_missesFrom_iff front hordered hcutLast start
  constructor
  · intro h
    have hcovers := covers_capLast_iff.mp fun t hs he =>
      not_iff_not.mp ((exists_miss_iff hsortedCut hs he).symm.trans (h.exact t hs he))
    exact ⟨hcovers.1, hcovers.2, hapart.mp h.apart⟩
  · intro h
    have hcovers := covers_capLast_iff.mpr ⟨h.front_before, h.last_cut⟩
    exact ⟨hapart.mpr h.not_turned, mem_missesFrom _ start le_rfl,
      fun t hs he => (exists_miss_iff hsortedCut hs he).trans (not_congr (hcovers t hs he))⟩

/-! ### The missing ranges of a request -/

/-- **`FindMissingTimeRanges` finds the missing ranges**, with the flux end of `now` and the step. -/
def FindsMissing (env : CacheEnv F) (fluxInterval now start end_ step : Int)
    (cached : Option (List (CachedSeriesData F))) : Prop :=
  ∃ cap misses, fluxEnd fluxInterval now step = some cap ∧
    findMissingTimeRanges env fluxInterval now start end_ step cached = some misses ∧
    FindsMisses (cached.getD []) cap start end_ misses

/-- The step can be divided by, and if intervals are cached, cutting the last one is enough. -/
def FluxCutSuffices (env : CacheEnv F) (fluxInterval now start end_ step : Int)
    (cached : Option (List (CachedSeriesData F))) : Prop :=
  ∃ cap, fluxEnd fluxInterval now step = some cap ∧
    ∀ front last, env.intervalSort.sort (cached.getD []) = front ++ [last] →
      CutSuffices cap start end_ front last

theorem FindsMisses.perm {cached cached' : List (CachedSeriesData F)} {cap start end_ : Int}
    {misses : List MissInterval} (hperm : cached.Perm cached')
    (h : FindsMisses cached cap start end_ misses) : FindsMisses cached' cap start end_ misses where
  apart := h.apart
  inside := h.inside
  exact := fun t hs he => by simpa only [hperm.mem_iff] using h.exact t hs he

/-- With nothing cached the whole range is missing. -/
theorem findsMisses_nil (cap start end_ : Int) :
    FindsMisses ([] : List (CachedSeriesData F)) cap start end_ (missesFrom start end_ start
      ([] : List (CachedSeriesData F))) where
  apart := by
    unfold missesFrom
    split
    · exact List.pairwise_singleton _ _
    · exact List.Pairwise.nil
  inside := mem_missesFrom [] start le_rfl
  exact := fun t hs he => by
    rw [exists_miss_iff List.Pairwise.nil hs he]
    simp

/-- **The ranges found are the missing ones** exactly if cutting the last interval is enough. -/
theorem findMissingTimeRanges_findsMisses_iff (env : CacheEnv F)
    (fluxInterval now start end_ step : Int) (cached : Option (List (CachedSeriesData F)))
    (hordered : ∀ d ∈ cached.getD [], d.start ≤ d.end_) :
    FindsMissing env fluxInterval now start end_ step cached ↔
      FluxCutSuffices env fluxInterval now start end_ step cached := by
  have hperm := env.intervalSort.perm (cached.getD [])
  unfold FindsMissing FluxCutSuffices
  refine exists_congr fun cap => ?_
  rw [exists_and_left]
  refine and_congr_right fun hcap => ?_
  have hfind : findMissingTimeRanges env fluxInterval now start end_ step cached =
      some (missesFrom start end_ start (capLast cap (env.intervalSort.sort (cached.getD [])))) := by
    rw [findMissingTimeRanges, hcap]
    rfl
  rw [hfind]
  simp only [Option.some.injEq, exists_eq_left']
  have hsorted := env.intervalSort.sorted (cached.getD [])
  -- what the sort puts last, if there is something
  cases hsort : env.intervalSort.sort (cached.getD []) using List.reverseRecOn with
  | nil =>
    rw [hsort] at hperm
    rw [← hperm.nil_eq]
    exact iff_of_true (findsMisses_nil cap start end_)
      fun front last h => absurd h (by simp)
  | append_singleton front last =>
    rw [hsort] at hperm hsorted
    have hfront : ∀ d ∈ front, d.start ≤ d.end_ := fun d hd =>
      hordered d (hperm.mem_iff.mp (List.mem_append_left _ hd))
    have hcut : FindsMisses (front ++ [last]) cap start end_
        (missesFrom start end_ start (capLast cap (front ++ [last]))) ↔ CutSuffices cap start end_ front last :=
      findsMisses_capLast_iff hfront hsorted
    constructor
    · intro h front' last' heq
      obtain ⟨rfl, hlast⟩ := List.append_inj' heq rfl
      obtain rfl := List.singleton_inj.mp hlast
      exact hcut.mp (h.perm hperm.symm)
    · intro h
      exact (hcut.mpr (h front last rfl)).perm hperm

/-- Two intervals that reach into the flux interval of the last five minutes, at minute ten. -/
def reachingIntervals : List (CachedSeriesData Int) :=
  [⟨0, 350000, []⟩, ⟨400000, 500000, []⟩]

/-- The request of the last ten minutes finds two ranges that overlap, and the first fifty seconds after
the flux end are in neither. -/
theorem not_findsMissing_reaching :
    (findMissingTimeRanges (.insertion Int) 300000 600000 0 600000 60 reachingIntervals =
      some [⟨350000, 400000⟩, ⟨350000, 600000⟩]) ∧
    ¬ FindsMissing (.insertion Int) 300000 600000 0 600000 60 reachingIntervals := by
  have hfind : findMissingTimeRanges (.insertion Int) 300000 600000 0 600000 60 reachingIntervals =
      some [⟨350000, 400000⟩, ⟨350000, 600000⟩] := by decide
  refine ⟨hfind, ?_⟩
  rintro ⟨cap, misses, -, h, hmisses⟩
  obtain rfl := Option.some.inj (hfind.symm.trans h)
  have := hmisses.apart
  simp at this

/-- With one interval, of which a part lies in the flux interval, the range after the flux end is found. -/
theorem findsMissing_oneInterval :
    FindsMissing (.insertion Int) 300000 600000 0 600000 60 (some [⟨0, 350000, []⟩]) := by
  refine (findMissingTimeRanges_findsMisses_iff _ _ _ _ _ _ _ (by simp)).mpr
    ⟨300000, by decide, fun front last h => ?_⟩
  have h : [] ++ [⟨0, 350000, []⟩] = front ++ [last] := h
  obtain ⟨rfl, hlast⟩ := List.append_inj' h rfl
  obtain rfl := List.singleton_inj.mp hlast
  refine ⟨by simp, fun t _ _ _ _ => ?_, ?_⟩
  · rw [Go.minFloat64_eq (by decide) (by decide)]
    exact lt_min_iff
  · rw [turnedAround_nil]
    decide

end QueryCache
end QueryService
