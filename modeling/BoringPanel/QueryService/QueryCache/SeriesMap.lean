import BoringPanel.QueryService.QueryCache.QueryRangeCache

/-!
# What the series maps hold

Both loops over series put them into a map by the hash of their labels. As long as no two label sets
that occur share a hash, the map holds for each label set the points of all its series, in order
(`Collected`), and what is read off it are these points, the last one of each timestamp
(`mem_pointsOf_mergeSeries`, `mem_pointsOf_getSeries`).
-/

namespace QueryService
namespace QueryCache

variable {F : Type}

/-- The points of a label set. -/
def pointsOf (data : List (Series F)) (L : Go.StringMap) : List (Point F) :=
  (data.filter fun s => s.labels = L).flatMap Series.points

theorem mem_pointsOf {data : List (Series F)} {L : Go.StringMap} {p : Point F} :
    p ∈ pointsOf data L ↔ ∃ s ∈ data, s.labels = L ∧ p ∈ s.points := by
  simp only [pointsOf, List.mem_flatMap, List.mem_filter, decide_eq_true_eq, and_assoc]

theorem pointsOf_append (a b : List (Series F)) (L : Go.StringMap) :
    pointsOf (a ++ b) L = pointsOf a L ++ pointsOf b L := by
  simp [pointsOf]

theorem pointsOf_eq_nil {data : List (Series F)} {L : Go.StringMap}
    (h : ∀ s ∈ data, s.labels ≠ L) : pointsOf data L = [] := by
  have : (data.filter fun s => s.labels = L) = [] := by
    rw [List.filter_eq_nil_iff]
    exact fun s hs => by simpa using h s hs
  rw [pointsOf, this, List.flatMap_nil]

/-- The label sets of a list of series. -/
def labelSets (data : List (Series F)) : List Go.StringMap := data.map Series.labels

variable (env : CacheEnv F)

/-- The map holds the points of the series seen so far. -/
structure Collected (items : List (Series F)) (m : SeriesMap F) : Prop where
  nodup : m.keys.Nodup
  keys : ∀ h, h ∈ m.keys ↔ (m.find h).isSome
  found : ∀ h s, m.find h = some s → h = env.hash s.labels ∧ s.labels ∈ labelSets items ∧
    s.points = pointsOf items s.labels
  all : ∀ L ∈ labelSets items, (m.find (env.hash L)).isSome

theorem Collected.empty : Collected env [] SeriesMap.empty where
  nodup := List.nodup_nil
  keys := by simp [SeriesMap.empty]
  found := by simp [SeriesMap.empty]
  all := by simp [labelSets]

theorem find_put_self (m : SeriesMap F) (h : UInt64) (s : Series F) :
    (m.put h s).find h = some s := by
  simp [SeriesMap.put]

theorem find_put_of_ne (m : SeriesMap F) {h k : UInt64} (s : Series F) (hk : k ≠ h) :
    (m.put h s).find k = m.find k :=
  Function.update_of_ne hk _ _

theorem mem_keys_put {m : SeriesMap F} (hkeys : ∀ h, h ∈ m.keys ↔ (m.find h).isSome) (h : UInt64)
    (s : Series F) (k : UInt64) : k ∈ (m.put h s).keys ↔ ((m.put h s).find k).isSome := by
  by_cases hk : k = h
  · subst hk
    rw [find_put_self]
    unfold SeriesMap.put
    by_cases hs : (m.find k).isSome
    · simp [hs, hkeys]
    · simp [hs]
  · rw [find_put_of_ne m s hk, ← hkeys]
    unfold SeriesMap.put
    split <;> simp [hk]

theorem nodup_keys_put {m : SeriesMap F} (hnd : m.keys.Nodup)
    (hkeys : ∀ h, h ∈ m.keys ↔ (m.find h).isSome) (h : UInt64) (s : Series F) :
    (m.put h s).keys.Nodup := by
  unfold SeriesMap.put
  by_cases hs : (m.find h).isSome
  · simpa [hs] using hnd
  · have hmem : h ∉ m.keys := fun hm => hs ((hkeys h).mp hm)
    simp only [hs]
    exact List.nodup_append.mpr ⟨hnd, List.nodup_singleton h, by
      rintro a ha b hb rfl
      exact hmem (List.mem_singleton.mp hb ▸ ha)⟩

variable {env}

/-- A series is stored under the hash of its labels. -/
theorem Collected.put {items items' : List (Series F)} {m : SeriesMap F} (h : Collected env items m)
    {s : Series F} (hlabels : ∀ L, L ∈ labelSets items' ↔ L ∈ labelSets items ∨ L = s.labels)
    (hothers : ∀ L, L ≠ s.labels → pointsOf items' L = pointsOf items L)
    (hpoints : s.points = pointsOf items' s.labels) :
    Collected env items' (m.put (env.hash s.labels) s) where
  nodup := nodup_keys_put h.nodup h.keys _ _
  keys := mem_keys_put h.keys _ _
  found := by
    intro k x hk
    by_cases hkey : k = env.hash s.labels
    · subst hkey
      rw [find_put_self] at hk
      obtain rfl : s = x := Option.some.inj hk
      exact ⟨rfl, (hlabels _).mpr (.inr rfl), hpoints⟩
    · rw [find_put_of_ne m s hkey] at hk
      obtain ⟨hhash, hmem, hx⟩ := h.found _ _ hk
      refine ⟨hhash, (hlabels _).mpr (.inl hmem), ?_⟩
      rw [hothers _ fun he => hkey (by rw [← he]; exact hhash), hx]
  all := by
    intro L hL
    by_cases hkey : env.hash L = env.hash s.labels
    · rw [hkey, find_put_self]
      rfl
    · rw [find_put_of_ne m s hkey]
      exact h.all L (((hlabels L).mp hL).resolve_right fun he => hkey (congrArg env.hash he))

/-- A join puts the points of a label set after those seen so far. -/
theorem Collected.join {items : List (Series F)} {m : SeriesMap F} (h : Collected env items m)
    {s : Series F} (hinj : Set.InjOn env.hash {L | L ∈ labelSets (items ++ [s])}) :
    Collected env (items ++ [s]) (m.join env s) := by
  have hlabels : ∀ L, L ∈ labelSets (items ++ [s]) ↔ L ∈ labelSets items ∨ L = s.labels := by
    intro L
    rw [labelSets, List.map_append, List.mem_append]
    simp [labelSets]
  -- what is stored under the hash of `s`
  obtain ⟨new, hjoin, hnew, hpoints⟩ : ∃ new : Series F,
      m.join env s = m.put (env.hash new.labels) new ∧ new.labels = s.labels ∧
      new.points = pointsOf (items ++ [s]) s.labels := by
    cases hf : m.find (env.hash s.labels) with
    | none =>
      refine ⟨s, by simp only [SeriesMap.join, hf], rfl, ?_⟩
      have hnone : pointsOf items s.labels = [] := by
        refine pointsOf_eq_nil fun x hx hxs => ?_
        have := h.all x.labels (List.mem_map_of_mem hx)
        rw [hxs, hf] at this
        cases this
      rw [pointsOf_append, hnone]
      simp [pointsOf]
    | some old =>
      obtain ⟨hhash, hmem, hold⟩ := h.found _ _ hf
      have heq : old.labels = s.labels :=
        hinj ((hlabels _).mpr (.inl hmem)) ((hlabels _).mpr (.inr rfl)) hhash.symm
      refine ⟨{ old with points := old.points ++ s.points }, ?_, heq, ?_⟩
      · simp only [SeriesMap.join, hf, heq]
      · rw [pointsOf_append]
        simp only [hold, heq]
        simp [pointsOf]
  rw [hjoin]
  rw [← hnew] at hlabels hpoints
  refine h.put hlabels (fun L hL => ?_) hpoints
  rw [hnew] at hL
  rw [pointsOf_append]
  simp [pointsOf, hL.symm]

theorem Collected.foldl_join {items : List (Series F)} {m : SeriesMap F} (h : Collected env items m)
    (b : List (Series F)) (hinj : Set.InjOn env.hash {L | L ∈ labelSets (items ++ b)}) :
    Collected env (items ++ b) (b.foldl (SeriesMap.join env) m) := by
  induction b using List.reverseRecOn with
  | nil => simpa using h
  | append_singleton b s ih =>
    rw [List.foldl_append, List.foldl_cons, List.foldl_nil, ← List.append_assoc]
    rw [← List.append_assoc] at hinj
    refine (ih (hinj.mono fun L hL => ?_)).join hinj
    rw [Set.mem_ofPred_eq, labelSets, List.map_append]
    exact List.mem_append_left _ hL

theorem collected_foldl (items : List (Series F))
    (hinj : Set.InjOn env.hash {L | L ∈ labelSets items}) :
    Collected env items (items.foldl (SeriesMap.join env) SeriesMap.empty) :=
  (Collected.empty env).foldl_join items hinj

/-! ### Series of the same labels -/

/-- The last series of each label set: all that stays where series are put into the map one by one. -/
def lastOnly : List (Series F) → List (Series F)
  | [] => []
  | s :: data => if s.labels ∈ labelSets data then lastOnly data else s :: lastOnly data

theorem mem_labelSets_lastOnly {data : List (Series F)} {L : Go.StringMap} :
    L ∈ labelSets (lastOnly data) ↔ L ∈ labelSets data := by
  induction data with
  | nil => rfl
  | cons s data ih =>
    have hcons : L ∈ labelSets (s :: data) ↔ L = s.labels ∨ L ∈ labelSets data := List.mem_cons
    unfold lastOnly
    split
    · rw [ih, hcons, iff_comm, or_iff_right_iff_imp]
      rintro rfl
      assumption
    · rw [hcons, ← ih]
      exact List.mem_cons

theorem lastOnly_eq_self {data : List (Series F)} (hnd : (labelSets data).Nodup) :
    lastOnly data = data := by
  induction data with
  | nil => rfl
  | cons s data ih =>
    obtain ⟨hs, hnd⟩ := List.nodup_cons.mp hnd
    have hs : s.labels ∉ labelSets data := hs
    rw [lastOnly, if_neg hs, ih hnd]

theorem lastOnly_append_singleton (data : List (Series F)) (s : Series F) :
    lastOnly (data ++ [s]) = (lastOnly data).filter (fun x => x.labels ≠ s.labels) ++ [s] := by
  induction data with
  | nil => simp [lastOnly, labelSets]
  | cons x data ih =>
    have hmem : x.labels ∈ labelSets (data ++ [s]) ↔ x.labels ∈ labelSets data ∨ x.labels = s.labels := by
      simp [labelSets]
    rw [List.cons_append]
    unfold lastOnly
    by_cases hdata : x.labels ∈ labelSets data
    · rw [if_pos (hmem.mpr (.inl hdata)), if_pos hdata, ih]
    · rw [if_neg hdata]
      by_cases hs : x.labels = s.labels
      · rw [if_pos (hmem.mpr (.inr hs)), ih, List.filter_cons_of_neg (by simpa using hs)]
      · rw [if_neg fun h => (hmem.mp h).elim hdata hs, ih, List.filter_cons_of_pos (by simpa using hs)]
        rfl

theorem collected_foldl_put (data : List (Series F))
    (hinj : Set.InjOn env.hash {L | L ∈ labelSets data}) :
    Collected env (lastOnly data)
      (data.foldl (fun m s => m.put (env.hash s.labels) s) SeriesMap.empty) := by
  induction data using List.reverseRecOn with
  | nil => exact Collected.empty env
  | append_singleton data s ih =>
    have hlabels : ∀ L, L ∈ labelSets (data ++ [s]) ↔ L ∈ labelSets data ∨ L = s.labels := by
      simp [labelSets]
    rw [List.foldl_append, List.foldl_cons, List.foldl_nil]
    refine (ih (hinj.mono fun L hL => (hlabels L).mpr (.inl hL))).put (fun L => ?_) (fun L hL => ?_) ?_
    · rw [mem_labelSets_lastOnly, hlabels, mem_labelSets_lastOnly]
    · -- the other label sets keep their series
      rw [lastOnly_append_singleton, pointsOf_append, pointsOf, List.filter_filter]
      have hsame : (lastOnly data).filter (fun x => decide (x.labels = L) && decide (x.labels ≠ s.labels)) =
          (lastOnly data).filter fun x => x.labels = L := by
        refine List.filter_congr fun x _ => ?_
        by_cases hx : x.labels = L
        · simp [hx, hL]
        · simp [hx]
      rw [hsame]
      simp [pointsOf, hL.symm]
    · rw [lastOnly_append_singleton, pointsOf_append, pointsOf_eq_nil fun x hx => by
        simpa using (List.mem_filter.mp hx).2]
      simp [pointsOf]

/-! ### Reading the map -/

section Read

variable {items : List (Series F)} {m : SeriesMap F} {ks : List UInt64}

theorem mem_pointsOf_tidy (h : Collected env items m)
    (hinj : Set.InjOn env.hash {L | L ∈ labelSets items}) (hks : ∀ k, k ∈ ks ↔ k ∈ m.keys)
    (L : Go.StringMap) (p : Point F) :
    p ∈ pointsOf ((ks.filterMap m.find).map (tidy env)) L ↔
      p ∈ LastWins.dedup Point.timestamp (env.pointSort.sort (pointsOf items L)) := by
  rw [mem_pointsOf]
  constructor
  · rintro ⟨s, hs, rfl, hp⟩
    obtain ⟨x, hx, rfl⟩ := List.mem_map.mp hs
    obtain ⟨k, -, hk⟩ := List.mem_filterMap.mp hx
    obtain ⟨-, -, hpoints⟩ := h.found _ _ hk
    change p ∈ LastWins.dedup Point.timestamp (env.pointSort.sort x.points) at hp
    rwa [hpoints] at hp
  · intro hp
    have hmem := LastWins.mem_of_mem_dedup_sort env.pointSort hp
    obtain ⟨s, hs, hsL, -⟩ := mem_pointsOf.mp hmem
    have hL : L ∈ labelSets items := hsL ▸ List.mem_map_of_mem hs
    obtain ⟨x, hx⟩ := Option.isSome_iff_exists.mp (h.all L hL)
    obtain ⟨hhash, hxmem, hpoints⟩ := h.found _ _ hx
    have hxL : L = x.labels := hinj hL hxmem hhash
    refine ⟨tidy env x, List.mem_map_of_mem (List.mem_filterMap.mpr ⟨_, ?_, hx⟩), hxL.symm, ?_⟩
    · rw [hks, h.keys, hx]
      rfl
    · change p ∈ LastWins.dedup Point.timestamp (env.pointSort.sort x.points)
      rwa [hpoints, ← hxL]

/-- The labels that are read off the map are those that were put in, each once. -/
theorem labelSets_tidy (h : Collected env items m) (hks : ∀ k, k ∈ ks ↔ k ∈ m.keys)
    (hnd : ks.Nodup) :
    (labelSets ((ks.filterMap m.find).map (tidy env))).Nodup ∧
      ∀ L ∈ labelSets ((ks.filterMap m.find).map (tidy env)), L ∈ labelSets items := by
  have hlabels : labelSets ((ks.filterMap m.find).map (tidy env)) =
      labelSets (ks.filterMap m.find) := by
    rw [labelSets, List.map_map]
    rfl
  rw [hlabels]
  constructor
  · -- the hashes of the labels are the keys
    refine List.Nodup.of_map env.hash ?_
    have hall : ∀ k ∈ ks, (m.find k).isSome := fun k hk => (h.keys k).mp ((hks k).mp hk)
    have hkeys : (labelSets (ks.filterMap m.find)).map env.hash = ks := by
      clear hnd hlabels hks
      induction ks with
      | nil => rfl
      | cons k ks ih =>
        obtain ⟨x, hx⟩ := Option.isSome_iff_exists.mp (hall k List.mem_cons_self)
        have hk := (h.found _ _ hx).1
        rw [List.filterMap_cons_some hx, labelSets, List.map_cons, List.map_cons, ← hk]
        exact congrArg _ (ih fun k' hk' => hall k' (List.mem_cons_of_mem k hk'))
    rwa [hkeys]
  · intro L hL
    obtain ⟨x, hx, rfl⟩ := List.mem_map.mp hL
    obtain ⟨k, -, hk⟩ := List.mem_filterMap.mp hx
    exact (h.found _ _ hk).2.1

end Read

/-! ### `mergeSeries` and `GetSeriesFromCachedData` -/

section Merge

variable {a b : List (Series F)}

theorem injOn_lastOnly (hinj : Set.InjOn env.hash {L | L ∈ labelSets (a ++ b)}) :
    Set.InjOn env.hash {L | L ∈ labelSets (lastOnly a ++ b)} := by
  refine hinj.mono fun L hL => ?_
  rw [Set.mem_ofPred_eq, labelSets, List.map_append, List.mem_append] at hL ⊢
  exact hL.imp_left mem_labelSets_lastOnly.mp

theorem collected_mergeSeries (hinj : Set.InjOn env.hash {L | L ∈ labelSets (a ++ b)}) :
    Collected env (lastOnly a ++ b) (b.foldl (SeriesMap.join env)
      (a.foldl (fun m s => m.put (env.hash s.labels) s) SeriesMap.empty)) := by
  refine (collected_foldl_put a (hinj.mono fun L hL => ?_)).foldl_join b (injOn_lastOnly hinj)
  rw [Set.mem_ofPred_eq, labelSets, List.map_append]
  exact List.mem_append_left _ hL

/-- **Merged series** hold the points of both, the last one of each timestamp; of cached series with the
same labels only the last one counts. -/
theorem mem_pointsOf_mergeSeries_lastOnly (hinj : Set.InjOn env.hash {L | L ∈ labelSets (a ++ b)})
    (L : Go.StringMap) (p : Point F) :
    p ∈ pointsOf (mergeSeries env a b) L ↔
      p ∈ LastWins.dedup Point.timestamp
        (env.pointSort.sort (pointsOf (lastOnly a) L ++ pointsOf b L)) := by
  rw [← pointsOf_append]
  exact mem_pointsOf_tidy (collected_mergeSeries hinj) (injOn_lastOnly hinj)
    (fun k => (List.perm_insertionSort _ _).mem_iff) L p

theorem mem_pointsOf_mergeSeries (hnd : (labelSets a).Nodup)
    (hinj : Set.InjOn env.hash {L | L ∈ labelSets (a ++ b)}) (L : Go.StringMap) (p : Point F) :
    p ∈ pointsOf (mergeSeries env a b) L ↔
      p ∈ LastWins.dedup Point.timestamp (env.pointSort.sort (pointsOf a L ++ pointsOf b L)) := by
  rw [mem_pointsOf_mergeSeries_lastOnly hinj, lastOnly_eq_self hnd]

theorem labelSets_mergeSeries (hinj : Set.InjOn env.hash {L | L ∈ labelSets (a ++ b)}) :
    (labelSets (mergeSeries env a b)).Nodup ∧
      ∀ L ∈ labelSets (mergeSeries env a b), L ∈ labelSets (a ++ b) := by
  have h := collected_mergeSeries hinj
  have hread : (labelSets (mergeSeries env a b)).Nodup ∧
      ∀ L ∈ labelSets (mergeSeries env a b), L ∈ labelSets (lastOnly a ++ b) :=
    labelSets_tidy h (fun _ => (List.perm_insertionSort _ _).mem_iff)
      ((List.perm_insertionSort _ _).nodup_iff.mpr h.nodup)
  refine ⟨hread.1, fun L hL => ?_⟩
  have hL := hread.2 L hL
  rw [labelSets, List.map_append, List.mem_append] at hL ⊢
  exact hL.imp_left mem_labelSets_lastOnly.mp

/-- The points of a merged series have strictly increasing timestamps. -/
theorem increasing_mergeSeries {s : Series F} (hs : s ∈ mergeSeries env a b) :
    s.points.Pairwise fun p q => p.timestamp < q.timestamp := by
  obtain ⟨x, -, rfl⟩ := List.mem_map.mp hs
  exact LastWins.pairwise_dedup_sort env.pointSort x.points

end Merge

/-- **The answer** holds the cached points of the range, its end included. -/
theorem mem_pointsOf_getSeries {data : List (CachedSeriesData F)} {start end_ : Int}
    (hinj : Set.InjOn env.hash {L | L ∈ labelSets (data.flatMap CachedSeriesData.data)})
    (L : Go.StringMap) (p : Point F) :
    p ∈ pointsOf (getSeriesFromCachedData env data start end_) L ↔
      p ∈ LastWins.dedup Point.timestamp (env.pointSort.sort
        ((pointsOf (data.flatMap CachedSeriesData.data) L).filter
          fun p => p.timestamp ≥ start ∧ p.timestamp ≤ end_)) := by
  set all := data.flatMap CachedSeriesData.data with hall
  -- the loop joins the series with their points cut to the range
  set cut : Series F → Series F := fun s =>
    { s with points := s.points.filter fun p => p.timestamp ≥ start ∧ p.timestamp ≤ end_ } with hcut
  have hfold : all.foldl (SeriesMap.collect env start end_) SeriesMap.empty =
      (all.map cut).foldl (SeriesMap.join env) SeriesMap.empty := by
    rw [List.foldl_map]
    rfl
  have hlabels : labelSets (all.map cut) = labelSets all := by
    rw [labelSets, List.map_map]
    rfl
  have hpoints : pointsOf (all.map cut) L =
      (pointsOf all L).filter fun p => p.timestamp ≥ start ∧ p.timestamp ≤ end_ := by
    unfold pointsOf
    conv_rhs => rw [List.filter_flatMap]
    rw [List.filter_map, List.flatMap_map]
    rfl
  rw [← hlabels] at hinj
  rw [← hpoints]
  unfold getSeriesFromCachedData
  rw [← hall]
  simp only [hfold]
  exact mem_pointsOf_tidy (collected_foldl _ hinj) hinj (fun _ => Iff.rfl) L p

end QueryCache
end QueryService
