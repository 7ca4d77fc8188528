import BoringPanel.QueryService.QueryCache.Misses

/-!
# The cached path answers like the store

The cached path of `runBuilderQuery` (`app/querier/v2/helper.go`) under one cache key, in a world
whose store changes between the requests. `Correct` says that a request gets what the store holds in
its range at that moment.

The code does not always achieve this. What is fetched inside the flux interval is cached like
everything else, and only the last cached interval is cut at the flux end when it is read, by the
clock of the reading request. `History` keeps track of the times at which the store has changed since
they were fetched; a request is safe (`RequestOk`) if such times in its range are cut off when it
reads the cache, so that they are fetched again. `runCorrect`: in a run of safe steps every request is
answered correctly. The invariant is `Faithful`.
-/

namespace QueryService
namespace QueryCache

variable {F S : Type}

/-! ### The store -/

/-- A store whose answer for an interval is the set of its points in `[start, end)`. -/
structure Backend (F S : Type) where
  value : S → Go.StringMap → Int → Option F
  query : S → Int → Int → List (Series F)
  mem_query : ∀ σ start end_ L p, p ∈ pointsOf (query σ start end_) L ↔
    (start ≤ p.timestamp ∧ p.timestamp < end_) ∧ value σ L p.timestamp = some p.value
  /-- One series for each label set. -/
  nodup : ∀ σ start end_, (labelSets (query σ start end_)).Nodup

/-! ### Requests -/

structure Request where
  now : Int
  start : Int
  end_ : Int
  step : Int
deriving DecidableEq, Repr

/-- The cached path: find the missing ranges, fetch them, merge them with what is cached, read the
answer off. Returns the answer and the new content of the cache; `none` where the code panics. -/
def cachedPath (env : CacheEnv F) (fluxInterval : Int) (fetch : Int → Int → List (Series F))
    (cached : Option (List (CachedSeriesData F))) (r : Request) :
    Option (List (Series F) × List (CachedSeriesData F)) := do
  let misses ← findMissingTimeRanges env fluxInterval r.now r.start r.end_ r.step cached
  let missedSeries := misses.map fun miss =>
    { start := miss.start, end_ := miss.end_, data := fetch miss.start miss.end_ }
  let mergedSeries := mergeWithCachedSeriesData env cached missedSeries
  pure (getSeriesFromCachedData env mergedSeries r.start r.end_, mergedSeries)

/-! ### Runs -/

/-- What the cache of the key holds, and what the store holds. -/
structure World (F S : Type) where
  cached : Option (List (CachedSeriesData F))
  store : S

/-- A step of a run: a request, or a change of the store. -/
inductive Step (S : Type) where
  | request (r : Request)
  | update (store : S)

variable (env : CacheEnv F) (fluxInterval : Int) (b : Backend F S)

def World.step (w : World F S) : Step S → World F S
  | .request r =>
    { w with cached := match cachedPath env fluxInterval (b.query w.store) w.cached r with
        | none => w.cached
        | some res => some res.2 }
  | .update σ => { w with store := σ }

/-- **The request gets what the store holds** in its range: the same points for each label set. -/
def Correct (w : World F S) (r : Request) : Prop :=
  ∃ res, cachedPath env fluxInterval (b.query w.store) w.cached r = some res ∧
    ∀ L p, p ∈ pointsOf res.1 L ↔ p ∈ pointsOf (b.query w.store r.start r.end_) L

/-- All requests of a run get what the store holds at that moment. -/
def RunCorrect (w : World F S) : List (Step S) → Prop
  | [] => True
  | .request r :: steps =>
    Correct env fluxInterval b w r ∧ RunCorrect (w.step env fluxInterval b (.request r)) steps
  | .update σ :: steps => RunCorrect (w.step env fluxInterval b (.update σ)) steps

/-! ### The condition -/

/-- What has happened to the store since the times were fetched. -/
structure History where
  /-- The times at which it has changed. -/
  dirty : Set Int
  /-- The times at which a value has been replaced. -/
  replaced : Set Int

/-- The intervals in the cache. -/
def World.intervals (w : World F S) : List (CachedSeriesData F) := w.cached.getD []

/-- The ranges that a request fetches. -/
def World.misses (w : World F S) (r : Request) : List MissInterval :=
  (findMissingTimeRanges env fluxInterval r.now r.start r.end_ r.step w.cached).getD []

/-- The times that a request fetches. -/
def fetched (w : World F S) (r : Request) : Set Int :=
  {t | ∃ m ∈ w.misses env fluxInterval r, m.Covers t}

def History.step (h : History) (w : World F S) : Step S → History
  | .request r =>
    { dirty := h.dirty \ fetched env fluxInterval w r
      replaced := h.replaced \ fetched env fluxInterval w r }
  | .update σ =>
    { dirty := h.dirty ∪ {t | ∃ L, b.value w.store L t ≠ b.value σ L t}
      replaced := h.replaced ∪ {t | ∃ L x y, b.value w.store L t = some x ∧
        b.value σ L t = some y ∧ x ≠ y} }

/-- **A change of the store is safe** if it removes no point at a time that is cached. -/
def UpdateOk (w : World F S) (σ : S) : Prop :=
  ∀ d ∈ w.intervals, ∀ t, Covers d t → ∀ L, (b.value w.store L t).isSome → (b.value σ L t).isSome

/-- **A request is safe.** -/
structure RequestOk (h : History) (w : World F S) (r : Request) (cap : Int) : Prop where
  /-- The step is not zero, and `cap` is the flux end as of the request. -/
  cap_eq : fluxEnd fluxInterval r.now r.step = some cap
  /-- The times that are compared as `float64` have no more than 53 bits. -/
  cap_le : cap.natAbs ≤ 2 ^ 53
  end_le : ∀ d ∈ w.intervals, d.end_.natAbs ≤ 2 ^ 53
  /-- What has changed since it was cached is in the last interval, after the flux end. -/
  dirty : ∀ t ∈ h.dirty, r.start ≤ t → t < r.end_ → ∀ d ∈ w.intervals, Covers d t →
    w.intervals.getLast? = some d ∧ cap ≤ t
  /-- Where a cached value has been replaced, sorting keeps the order of ties, and the interval
  does not begin in the flux interval and in the request. -/
  replaced : ∀ t ∈ h.replaced, r.start ≤ t → t < r.end_ → ∀ d ∈ w.intervals, Covers d t →
    env.pointSort.Stable ∧ d.start < max r.start cap
  /-- No point is cached for the very end of the range. -/
  end_free : ∀ L p, Holds w.intervals L p → p.timestamp ≠ r.end_

/-- All steps of a run are safe. -/
def RunOk (h : History) (w : World F S) : List (Step S) → Prop
  | [] => True
  | .request r :: steps =>
    (∃ cap, RequestOk env fluxInterval h w r cap) ∧
      RunOk (h.step env fluxInterval b w (.request r)) (w.step env fluxInterval b (.request r)) steps
  | .update σ :: steps =>
    UpdateOk b w σ ∧
      RunOk (h.step env fluxInterval b w (.update σ)) (w.step env fluxInterval b (.update σ)) steps

/-! ### The invariant -/

/-- **The invariant of the cache.** The intervals are well formed and apart, and what they hold is
what the store holds, except at the times that have changed since. -/
structure Faithful (U : Set Go.StringMap) (h : History) (w : World F S) : Prop where
  wellFormed : ∀ d ∈ w.intervals, WellFormed U d
  apart : w.intervals.Pairwise fun a b => a.end_ < b.start
  /-- What a cached time lacks has come since. -/
  seen : ∀ d ∈ w.intervals, ∀ t, Covers d t → t ∉ h.dirty → ∀ L x, b.value w.store L t = some x →
    ⟨t, x⟩ ∈ pointsOf d.data L
  /-- No cached point has gone. -/
  kept : ∀ L p, Holds w.intervals L p → (b.value w.store L p.timestamp).isSome
  /-- Another value has come since. -/
  current : ∀ L p, Holds w.intervals L p → p.timestamp ∉ h.replaced →
    b.value w.store L p.timestamp = some p.value
  replaced_dirty : h.replaced ⊆ h.dirty

/-! ### What is fetched -/

section Fetched

variable {env : CacheEnv F} {fluxInterval : Int} {b : Backend F S} {U : Set Go.StringMap}

/-- What a miss is fetched as. -/
def Backend.fetch (b : Backend F S) (σ : S) (miss : MissInterval) : CachedSeriesData F where
  start := miss.start
  end_ := miss.end_
  data := b.query σ miss.start miss.end_

/-- The label sets of all answers are among `U`. -/
def Backend.LabelsIn (b : Backend F S) (U : Set Go.StringMap) : Prop :=
  ∀ σ start end_, ∀ L ∈ labelSets (b.query σ start end_), L ∈ U

theorem mem_fetch {σ : S} {m : MissInterval} {L : Go.StringMap} {p : Point F} :
    p ∈ pointsOf (b.fetch σ m).data L ↔
      m.Covers p.timestamp ∧ b.value σ L p.timestamp = some p.value :=
  b.mem_query σ m.start m.end_ L p

theorem wellFormed_fetch (hb : b.LabelsIn U) (σ : S) {m : MissInterval} (hm : m.start < m.end_) :
    WellFormed U (b.fetch σ m) where
  nonempty := hm
  inside := fun _ _ hp => (mem_fetch.mp hp).1
  nodup := b.nodup σ m.start m.end_
  labels := hb σ m.start m.end_
  unique := fun L p q hp hq h => by
    obtain ⟨tp, vp⟩ := p
    obtain ⟨tq, vq⟩ := q
    obtain rfl : tp = tq := h
    obtain rfl : vp = vq := Option.some.inj ((mem_fetch.mp hp).2.symm.trans (mem_fetch.mp hq).2)
    rfl

end Fetched

/-! ### One request -/

section Request

variable {env : CacheEnv F} {fluxInterval : Int} {b : Backend F S} {U : Set Go.StringMap}
  {h : History} {w : World F S} {r : Request} {cap : Int}

theorem Faithful.sorted (hF : Faithful b U h w) :
    w.intervals.Pairwise fun x y => x.start < y.start := by
  refine List.Pairwise.imp_of_mem ?_ hF.apart
  intro x y hx _ hxy
  have := (hF.wellFormed x hx).nonempty
  omega

/-- The ranges that are fetched, computed from the cached intervals as they are. -/
theorem misses_eq (hF : Faithful b U h w) (hok : RequestOk env fluxInterval h w r cap) :
    findMissingTimeRanges env fluxInterval r.now r.start r.end_ r.step w.cached =
      some (missesFrom r.start r.end_ r.start (capLast cap w.intervals)) := by
  have hsort : env.intervalSort.sort (w.cached.getD []) = w.intervals :=
    env.intervalSort.sort_eq_self hF.sorted
  simp [findMissingTimeRanges, hok.cap_eq, hsort]

/-- The intervals before merging: those cached and those fetched, sorted by their starts. -/
def World.parts (env : CacheEnv F) (fluxInterval : Int) (b : Backend F S) (w : World F S)
    (r : Request) : List (CachedSeriesData F) :=
  env.intervalSort.sort
    (w.intervals ++ (w.misses env fluxInterval r).map (b.fetch w.store))

/-- **The cached path**, with the list that it merges. -/
theorem cachedPath_eq (hF : Faithful b U h w) (hok : RequestOk env fluxInterval h w r cap) :
    cachedPath env fluxInterval (b.query w.store) w.cached r =
      some (getSeriesFromCachedData env (mergeAll env (w.parts env fluxInterval b r)) r.start r.end_,
        mergeAll env (w.parts env fluxInterval b r)) := by
  have hmerged : mergeWithCachedSeriesData env w.cached
      ((w.misses env fluxInterval r).map (b.fetch w.store)) =
      mergeAll env (w.parts env fluxInterval b r) := by
    have hmisses := misses_eq hF hok
    unfold World.parts World.intervals World.misses
    cases hc : w.cached with
    | some ds => rfl
    | none =>
      -- with an empty cache there is at most one range
      have hnil : w.intervals = [] := by simp [World.intervals, hc]
      rw [hnil, hc] at hmisses
      rw [hmisses]
      simp only [mergeWithCachedSeriesData, Option.getD_none, Option.getD_some, capLast, missesFrom,
        List.nil_append]
      split
      · rw [SortSlice.sort_eq_self _ (by simp)]
        rfl
      · rw [SortSlice.sort_eq_self _ (by simp)]
        rfl
  have hmisses : findMissingTimeRanges env fluxInterval r.now r.start r.end_ r.step w.cached =
      some (w.misses env fluxInterval r) := by
    rw [misses_eq hF hok, World.misses, misses_eq hF hok]
    rfl
  unfold cachedPath
  rw [hmisses]
  change some (getSeriesFromCachedData env (mergeWithCachedSeriesData env w.cached
    ((w.misses env fluxInterval r).map (b.fetch w.store))) r.start r.end_,
    mergeWithCachedSeriesData env w.cached
    ((w.misses env fluxInterval r).map (b.fetch w.store))) = _
  rw [hmerged]

theorem mem_parts {d : CachedSeriesData F} :
    d ∈ w.parts env fluxInterval b r ↔
      d ∈ w.intervals ∨ ∃ m ∈ w.misses env fluxInterval r, b.fetch w.store m = d := by
  rw [World.parts, (env.intervalSort.perm _).mem_iff, List.mem_append, List.mem_map]

theorem holds_parts {L : Go.StringMap} {p : Point F} :
    Holds (w.parts env fluxInterval b r) L p ↔ Holds w.intervals L p ∨
      (p.timestamp ∈ fetched env fluxInterval w r ∧
        b.value w.store L p.timestamp = some p.value) := by
  constructor
  · rintro ⟨d, hd, hp⟩
    rcases mem_parts.mp hd with hd | ⟨m, hm, rfl⟩
    · exact .inl ⟨d, hd, hp⟩
    · exact .inr ⟨⟨m, hm, (mem_fetch.mp hp).1⟩, (mem_fetch.mp hp).2⟩
  · rintro (⟨d, hd, hp⟩ | ⟨⟨m, hm, hcov⟩, hvalue⟩)
    · exact ⟨d, mem_parts.mpr (.inl hd), hp⟩
    · exact ⟨_, mem_parts.mpr (.inr ⟨m, hm, rfl⟩), mem_fetch.mpr ⟨hcov, hvalue⟩⟩

theorem mem_misses (hF : Faithful b U h w) (hok : RequestOk env fluxInterval h w r cap)
    {m : MissInterval} (hm : m ∈ w.misses env fluxInterval r) :
    r.start ≤ m.start ∧ m.start < m.end_ ∧ m.end_ ≤ r.end_ := by
  rw [World.misses, misses_eq hF hok, Option.getD_some] at hm
  exact mem_missesFrom _ _ le_rfl m hm

theorem fetched_subset (hF : Faithful b U h w) (hok : RequestOk env fluxInterval h w r cap) {t : Int}
    (ht : t ∈ fetched env fluxInterval w r) : r.start ≤ t ∧ t < r.end_ := by
  obtain ⟨m, hm, hcov⟩ := ht
  obtain ⟨h₁, -, h₃⟩ := mem_misses hF hok hm
  exact ⟨h₁.trans hcov.1, hcov.2.trans_le h₃⟩

theorem minFloat64_last (hok : RequestOk env fluxInterval h w r cap) :
    ∀ c, w.intervals.getLast? = some c → Go.minFloat64 c.end_ cap = min c.end_ cap :=
  fun c hc => Go.minFloat64_eq (hok.end_le c (List.mem_of_getLast? hc)) hok.cap_le

/-- The parts are merged as they should be. -/
theorem merges_parts (hU : Set.InjOn env.hash U) (hb : b.LabelsIn U) (hF : Faithful b U h w)
    (hok : RequestOk env fluxInterval h w r cap) :
    Merges env U (w.parts env fluxInterval b r)
      (mergeAll env (w.parts env fluxInterval b r)) := by
  refine mergeAll_merges hU (fun d hd => ?_) (env.intervalSort.sorted _)
  rcases mem_parts.mp hd with hd | ⟨m, hm, rfl⟩
  · exact hF.wellFormed d hd
  · exact wellFormed_fetch hb w.store (mem_misses hF hok hm).2.1

/-- A time in the range that is not fetched is cached, and nothing has come since. -/
theorem cached_of_not_fetched (hF : Faithful b U h w) (hok : RequestOk env fluxInterval h w r cap)
    {t : Int} (hs : r.start ≤ t) (he : t < r.end_) (ht : t ∉ fetched env fluxInterval w r) :
    ∃ d ∈ w.intervals, Covers d t ∧ t ∉ h.dirty := by
  have hmisses : w.misses env fluxInterval r =
      missesFrom r.start r.end_ r.start (capLast cap w.intervals) := by
    rw [World.misses, misses_eq hF hok, Option.getD_some]
  obtain hm | hcov := covered_missesFrom r.start he (capLast cap w.intervals) r.start hs
  · exact absurd (show t ∈ fetched env fluxInterval w r by rw [fetched, hmisses]; exact hm) ht
  · obtain ⟨d, hd, hdt, hcut⟩ := covers_of_capLast (minFloat64_last hok) hcov
    refine ⟨d, hd, hdt, fun hdirty => ?_⟩
    obtain ⟨hlast, hcap⟩ := hok.dirty t hdirty hs he d hd hdt
    rcases hcut with hlt | hinit
    · omega
    · -- the last interval is none of those before it
      obtain ⟨ds, hds⟩ := List.getLast?_eq_some_iff.mp hlast
      have hapart := hF.apart
      rw [hds] at hinit hapart
      rw [List.dropLast_concat] at hinit
      have := (List.pairwise_append.mp hapart).2.2 d hinit d (List.mem_singleton_self d)
      have := (hF.wellFormed d hd).nonempty
      omega

/-- **A replaced value loses**: a range that fetches its time starts after the cached interval. -/
theorem exists_fetch_after (hF : Faithful b U h w) (hok : RequestOk env fluxInterval h w r cap)
    {t : Int} (hs : r.start ≤ t) (he : t < r.end_) (ht : t ∈ h.replaced)
    {d : CachedSeriesData F} (hd : d ∈ w.intervals) (hdt : Covers d t) :
    ∃ m ∈ w.misses env fluxInterval r, m.Covers t ∧ d.start < m.start := by
  obtain ⟨hlast, hcap⟩ := hok.dirty t (hF.replaced_dirty ht) hs he d hd hdt
  obtain ⟨-, hlate⟩ := hok.replaced t ht hs he d hd hdt
  obtain ⟨ds, hds⟩ := List.getLast?_eq_some_iff.mp hlast
  have hmin := minFloat64_last hok d hlast
  have hcut : min d.end_ cap ≤ t := (min_le_right _ _).trans hcap
  have hcapd : min d.end_ cap = cap := by
    have := hdt.2
    omega
  have hbefore : ∀ e ∈ ds, e.start < d.start ∧ e.end_ < d.start := by
    intro e he
    have hapart := hF.apart
    rw [hds] at hapart
    have hend := (List.pairwise_append.mp hapart).2.2 e he d (List.mem_singleton_self d)
    have hne := (hF.wellFormed e (by rw [hds]; exact List.mem_append_left _ he)).nonempty
    omega
  obtain ⟨m, hm, hcov, hstart⟩ := exists_miss_after_last r.start
    (c := { d with end_ := Go.minFloat64 d.end_ cap }) (by simp only [hmin]; exact hcut) hdt.1 he
    (by simp only [hmin, hcapd]; exact hlate) ds hbefore r.start le_rfl hs
  refine ⟨m, ?_, hcov, hstart⟩
  rw [World.misses, misses_eq hF hok, Option.getD_some, hds, capLast_append_singleton]
  exact hm

/-- **In the range, the merged list holds what the store holds.** -/
theorem holds_merged_iff (hU : Set.InjOn env.hash U) (hb : b.LabelsIn U) (hF : Faithful b U h w)
    (hok : RequestOk env fluxInterval h w r cap) {L : Go.StringMap} {p : Point F}
    (hs : r.start ≤ p.timestamp) (he : p.timestamp < r.end_) :
    Holds (mergeAll env (w.parts env fluxInterval b r)) L p ↔
      b.value w.store L p.timestamp = some p.value := by
  have hM := merges_parts hU hb hF hok
  have hright : ∀ q : Point F, q.timestamp = p.timestamp →
      Holds (mergeAll env (w.parts env fluxInterval b r)) L q →
      b.value w.store L q.timestamp = some q.value := by
    intro q hqp hq
    rcases holds_parts.mp (hM.holds L q hq) with ⟨d, hd, hqd⟩ | ⟨-, hvalue⟩
    swap
    · exact hvalue
    by_cases hrep : q.timestamp ∈ h.replaced
    swap
    · exact hF.current L q ⟨d, hd, hqd⟩ hrep
    -- the value has been replaced: the point of the last part is a fetched one
    have hdt := (hF.wellFormed d hd).inside L q hqd
    rw [← hqp] at hs he
    obtain ⟨hstable, -⟩ := hok.replaced _ hrep hs he d hd hdt
    obtain ⟨m, hm, hcov, hafter⟩ := exists_fetch_after hF hok hs he hrep hd hdt
    obtain ⟨x, hx⟩ := Option.isSome_iff_exists.mp (hF.kept L q ⟨d, hd, hqd⟩)
    obtain ⟨e, hepart, hqe, hlast⟩ :=
      (hM.last hstable L q hq).exists_last (env.intervalSort.sorted _)
    rcases mem_parts.mp hepart with hecached | ⟨m', -, rfl⟩
    · have hed : e = d :=
        eq_of_covers hF.apart hecached hd ((hF.wellFormed e hecached).inside L q hqe) hdt
      have hle := hlast (b.fetch w.store m) (mem_parts.mpr (.inr ⟨m, hm, rfl⟩)) ⟨q.timestamp, x⟩
        (mem_fetch.mpr ⟨hcov, hx⟩) rfl
      rw [hed] at hle
      exact absurd hafter (not_lt.mpr hle)
    · exact (mem_fetch.mp hqe).2
  refine ⟨hright p rfl, fun hvalue => ?_⟩
  have hpart : Holds (w.parts env fluxInterval b r) L p := by
    rw [holds_parts]
    by_cases ht : p.timestamp ∈ fetched env fluxInterval w r
    · exact .inr ⟨ht, hvalue⟩
    · obtain ⟨d, hd, hdt, hclean⟩ := cached_of_not_fetched hF hok hs he ht
      exact .inl ⟨d, hd, hF.seen d hd _ hdt hclean L _ hvalue⟩
  obtain ⟨q, hq, hqp⟩ := hM.keeps L p hpart
  have hqv := hright q hqp hq
  obtain ⟨tq, vq⟩ := q
  obtain rfl : tq = p.timestamp := hqp
  obtain rfl : vq = p.value := Option.some.inj (hqv.symm.trans hvalue)
  exact hq

/-- Outside the range, the merged list holds what was cached. -/
theorem holds_merged_iff_of_outside (hU : Set.InjOn env.hash U) (hb : b.LabelsIn U)
    (hF : Faithful b U h w) (hok : RequestOk env fluxInterval h w r cap) {L : Go.StringMap}
    {p : Point F} (hout : ¬ (r.start ≤ p.timestamp ∧ p.timestamp < r.end_)) :
    Holds (mergeAll env (w.parts env fluxInterval b r)) L p ↔ Holds w.intervals L p := by
  have hM := merges_parts hU hb hF hok
  have hcached : ∀ q : Point F, q.timestamp = p.timestamp →
      Holds (w.parts env fluxInterval b r) L q → Holds w.intervals L q := by
    intro q hqp hq
    rcases holds_parts.mp hq with hq | ⟨hfetched, -⟩
    · exact hq
    · rw [hqp] at hfetched
      exact absurd (fetched_subset hF hok hfetched) hout
  refine ⟨fun hp => hcached p rfl (hM.holds L p hp), fun hp => ?_⟩
  obtain ⟨q, hq, hqp⟩ := hM.keeps L p (holds_parts.mpr (.inl hp))
  rwa [holds_unique hF.wellFormed hF.apart (hcached q hqp (hM.holds L q hq)) hp hqp] at hq

/-- The merged list covers what was cached and what is fetched. -/
theorem covers_merged_iff (hU : Set.InjOn env.hash U) (hb : b.LabelsIn U) (hF : Faithful b U h w)
    (hok : RequestOk env fluxInterval h w r cap) (t : Int) :
    (∃ d ∈ mergeAll env (w.parts env fluxInterval b r), Covers d t) ↔
      (∃ d ∈ w.intervals, Covers d t) ∨ t ∈ fetched env fluxInterval w r := by
  rw [(merges_parts hU hb hF hok).covers]
  constructor
  · rintro ⟨d, hd, hcov⟩
    rcases mem_parts.mp hd with hd | ⟨m, hm, rfl⟩
    · exact .inl ⟨d, hd, hcov⟩
    · exact .inr ⟨m, hm, hcov⟩
  · rintro (⟨d, hd, hcov⟩ | ⟨m, hm, hcov⟩)
    · exact ⟨d, mem_parts.mpr (.inl hd), hcov⟩
    · exact ⟨_, mem_parts.mpr (.inr ⟨m, hm, rfl⟩), hcov⟩

end Request

end QueryCache
end QueryService
