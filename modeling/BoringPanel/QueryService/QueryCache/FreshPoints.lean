import BoringPanel.QueryService.QueryCache.MergedClusters

/-!
# Fresh points win

Whether `MergeWithCachedSeriesData` stores the new value wherever the new data have one (`FreshWins`),
whatever order the sorts leave ties in. The comment of `RemoveDuplicatePoints` promises the most recent
point, but the order in which points are appended is that of the starts of their intervals, and the
points are sorted again by a sort that need not keep it. So the new value is stored for certain only
where no other value counts (`mergeWithCachedSeriesData_freshWins_iff`).
-/

namespace QueryService
namespace QueryCache

variable {F : Type}

/-- The new data have a point of the label set at `t`, in an interval that covers `t`, its end
included. -/
def IsFresh (newData : List (CachedSeriesData F)) (L : Go.StringMap) (t : Int) : Prop :=
  ∃ d ∈ newData, d.start ≤ t ∧ t ≤ d.end_ ∧ ∃ p ∈ pointsOf d.data L, p.timestamp = t

/-- **The new value is stored** wherever the new data have one. -/
def FreshWins (newData out : List (CachedSeriesData F)) : Prop :=
  ∀ L t, IsFresh newData L t → (∃ q, Holds out L q ∧ q.timestamp = t) ∧
    ∀ q, Holds out L q → q.timestamp = t → Holds newData L q

/-! ### The points that count -/

/-- In the sorted list, the interval comes first of several that are merged. -/
def LeadsOthers (front : List (CachedSeriesData F)) (d : CachedSeriesData F)
    (back : List (CachedSeriesData F)) : Prop :=
  (∀ e ∈ front, e.end_ < d.start) ∧ ∃ e ∈ back, e.start ≤ d.end_

/-- **The point counts**: an interval of the sorted list holds it, in the last series of its label set if
the interval leads others. -/
def Counts (ds : List (CachedSeriesData F)) (L : Go.StringMap) (p : Point F) : Prop :=
  ∃ front d back, ds = front ++ d :: back ∧ p ∈ pointsOf d.data L ∧
    (LeadsOthers front d back → p ∈ pointsOf (lastOnly d.data) L)

theorem mem_of_mem_lastOnly {data : List (Series F)} {s : Series F} (h : s ∈ lastOnly data) : s ∈ data := by
  induction data with
  | nil => exact h
  | cons x data ih =>
    unfold lastOnly at h
    split at h
    · exact List.mem_cons_of_mem x (ih h)
    · obtain rfl | h := List.mem_cons.mp h
      · exact List.mem_cons_self
      · exact List.mem_cons_of_mem x (ih h)

theorem mem_pointsOf_of_lastOnly {data : List (Series F)} {L : Go.StringMap} {p : Point F}
    (h : p ∈ pointsOf (lastOnly data) L) : p ∈ pointsOf data L := by
  rw [mem_pointsOf] at h ⊢
  obtain ⟨s, hs, hp⟩ := h
  exact ⟨s, mem_of_mem_lastOnly hs, hp⟩

theorem Counts.holds {ds : List (CachedSeriesData F)} {L : Go.StringMap} {p : Point F}
    (h : Counts ds L p) : Holds ds L p := by
  obtain ⟨front, d, back, rfl, hp, -⟩ := h
  exact ⟨d, by simp, hp⟩

/-- Where no interval holds two series of a label set, all points count. -/
theorem counts_iff_holds {ds : List (CachedSeriesData F)} (hnd : ∀ d ∈ ds, (labelSets d.data).Nodup)
    {L : Go.StringMap} {p : Point F} : Counts ds L p ↔ Holds ds L p := by
  refine ⟨Counts.holds, fun ⟨d, hd, hp⟩ => ?_⟩
  obtain ⟨front, back, rfl⟩ := List.append_of_mem hd
  exact ⟨front, d, back, rfl, hp, fun _ => by rwa [lastOnly_eq_self (hnd d hd)]⟩

/-- The points that count are those that count in a cluster. -/
theorem counts_iff_countedPoints {ds : List (CachedSeriesData F)}
    (hsorted : ds.Pairwise fun d e => d.start ≤ e.start) {L : Go.StringMap} {p : Point F} :
    Counts ds L p ↔ ∃ c ∈ intervalClusters ds, p ∈ countedPoints c L := by
  constructor
  · rintro ⟨front, d, back, hds, hp, hlead⟩
    obtain ⟨c, hc, m₁, m₂, hplace⟩ : ∃ c ∈ intervalClusters ds, ∃ m₁ m₂,
        PlacedIn CachedSeriesData.start CachedSeriesData.end_ c front d back m₁ m₂ := exists_placedIn hsorted hds
    refine ⟨c, hc, ?_⟩
    obtain ⟨hmem, ⟨before, rfl, hbefore⟩, ⟨after, rfl, -⟩⟩ := hplace
    have hlinked := linked_of_mem_clusters c hc
    obtain ⟨first, others⟩ := c
    have hmem : first :: others = m₁ ++ d :: m₂ := hmem
    unfold countedPoints joinedPoints
    cases m₁ with
    | nil =>
      obtain ⟨rfl, rfl⟩ := List.cons.inj hmem
      split
      · exact hp
      · refine List.mem_append_left _ (hlead ⟨fun e he => ?_, ?_⟩)
        · rw [List.append_nil] at he
          exact hbefore e he first List.mem_cons_self
        · -- the next interval of the cluster touches the first one
          cases others with
          | nil => exact absurd rfl ‹¬ _›
          | cons e others =>
            obtain ⟨b, hb, hle⟩ := hlinked [] e others rfl
            obtain rfl := List.mem_singleton.mp hb
            exact ⟨e, List.mem_cons_self, hle⟩
    | cons b m₁ =>
      obtain ⟨rfl, rfl⟩ := List.cons.inj hmem
      rw [if_neg (by simp)]
      exact List.mem_append_right _ (List.mem_flatMap.mpr ⟨d, by simp, hp⟩)
  · rintro ⟨c, hc, hp⟩
    have hlinked := linked_of_mem_clusters c hc
    unfold countedPoints at hp
    split at hp
    · -- an interval alone leads no others
      have hnil : c.others = [] := List.isEmpty_iff.mp ‹_›
      have hmem : c.members = [] ++ c.first :: [] := by
        rw [Cluster.members, hnil]
        rfl
      obtain ⟨front, back, hds, -, -, after, hback, hafter⟩ := exists_split_of_mem_clusters hsorted hc hmem
      obtain rfl : back = after := hback
      refine ⟨front, c.first, back, hds, hp, ?_⟩
      rintro ⟨-, e, he, hle⟩
      exact absurd (hafter e he c.first List.mem_cons_self) (not_lt.mpr hle)
    · obtain hp | hp := List.mem_append.mp hp
      · obtain ⟨front, back, hds, -⟩ := exists_split_of_mem_clusters hsorted hc
          (show c.members = [] ++ c.first :: c.others from rfl)
        exact ⟨front, c.first, back, hds, mem_pointsOf_of_lastOnly hp, fun _ => hp⟩
      · -- one that joins others touches one before it
        obtain ⟨d, hd, hp⟩ := List.mem_flatMap.mp hp
        obtain ⟨m₁, m₂, hothers⟩ := List.append_of_mem hd
        have hmem : c.members = (c.first :: m₁) ++ d :: m₂ := by
          rw [Cluster.members, hothers]
          rfl
        obtain ⟨front, back, hds, hplace⟩ := exists_split_of_mem_clusters hsorted hc hmem
        refine ⟨front, d, back, hds, hp, ?_⟩
        rintro ⟨hbefore, -⟩
        obtain ⟨b, hb, hle⟩ := hlinked m₁ d m₂ hothers
        obtain ⟨before, rfl, -⟩ := hplace.before
        exact absurd (hbefore b (List.mem_append_right _ hb)) (not_lt.mpr hle)

theorem holds_mergeAll {env : CacheEnv F} {ds : List (CachedSeriesData F)} {L : Go.StringMap} {p : Point F} :
    Holds (mergeAll env ds) L p ↔ ∃ c ∈ intervalClusters ds, p ∈ pointsOf (merged env c).data L := by
  unfold Holds
  rw [mergeAll_eq_map_merged]
  simp only [List.mem_map, exists_exists_and_eq_and]

section Merging

variable {env : CacheEnv F} {U : Set Go.StringMap} {ds : List (CachedSeriesData F)}

theorem labelsIn_members (hds : ∀ d ∈ ds, LabelsIn U d) {c : Cluster (CachedSeriesData F)}
    (hc : c ∈ intervalClusters ds) : ∀ d ∈ c.members, LabelsIn U d := by
  exact fun d hd => hds d (mem_of_mem_members hc hd)

variable (hU : Set.InjOn env.hash U) (hds : ∀ d ∈ ds, LabelsIn U d)
  (hsorted : ds.Pairwise fun d e => d.start ≤ e.start) {L : Go.StringMap} {p : Point F}

include hU hds hsorted

/-- Only what counts is stored. -/
theorem counts_of_holds_mergeAll (h : Holds (mergeAll env ds) L p) : Counts ds L p := by
  obtain ⟨c, hc, hp⟩ := holds_mergeAll.mp h
  exact (counts_iff_countedPoints hsorted).mpr
    ⟨c, hc, mem_counted_of_mem_merged hU (labelsIn_members hds hc) hp⟩

/-- Each timestamp of a point that counts is stored. -/
theorem exists_holds_mergeAll (h : Counts ds L p) :
    ∃ q, Holds (mergeAll env ds) L q ∧ q.timestamp = p.timestamp := by
  obtain ⟨c, hc, hp⟩ := (counts_iff_countedPoints hsorted).mp h
  obtain ⟨q, hq, hqp⟩ := exists_mem_merged hU (labelsIn_members hds hc) hp
  exact ⟨q, holds_mergeAll.mpr ⟨c, hc, hq⟩, hqp⟩

/-- A point that counts is stored if the sort of the points puts it last. -/
theorem holds_mergeAll_of_kept (h : Counts ds L p)
    (hs : ∀ l, p ∈ l → p ∈ LastWins.dedup Point.timestamp (env.pointSort.sort l)) :
    Holds (mergeAll env ds) L p := by
  obtain ⟨c, hc, hp⟩ := (counts_iff_countedPoints hsorted).mp h
  exact holds_mergeAll.mpr ⟨c, hc, mem_merged_of_kept hU (labelsIn_members hds hc) hs hp⟩

end Merging

/-! ### When the fresh points win -/

/-- Of the points that count in a sorted list, at a time of a fresh one, there is one, and all are
points of the new data. -/
def OnlyFreshCounts (newData ds : List (CachedSeriesData F)) : Prop :=
  ∀ L t, IsFresh newData L t → (∃ q, Counts ds L q ∧ q.timestamp = t) ∧
    ∀ q, Counts ds L q → q.timestamp = t → Holds newData L q

/-- **The new values are stored, whatever the sorts do with ties,** exactly if in each order of the
intervals by their starts only points of the new data count where the new data have one. -/
theorem mergeWithCachedSeriesData_freshWins_iff (hash : Go.StringMap → UInt64)
    (cached : Option (List (CachedSeriesData F))) (newData : List (CachedSeriesData F))
    (hhash : Set.InjOn hash {L | ∃ d ∈ cached.getD [] ++ newData, L ∈ labelSets d.data}) :
    (∀ pointSort intervalSort,
      FreshWins newData (mergeWithCachedSeriesData ⟨pointSort, intervalSort, hash⟩ cached newData)) ↔
    ∀ existingData, cached = some existingData → ∀ ds : List (CachedSeriesData F),
      ds.Perm (existingData ++ newData) → (ds.Pairwise fun d e => d.start ≤ e.start) →
        OnlyFreshCounts newData ds := by
  cases cached with
  | none =>
    refine iff_of_true (fun _ _ L t ⟨d, hd, _, _, p, hp, hpt⟩ => ?_) nofun
    exact ⟨⟨p, ⟨d, hd, hp⟩, hpt⟩, fun q hq _ => hq⟩
  | some existingData =>
    have hlabels : ∀ ds : List (CachedSeriesData F), ds.Perm (existingData ++ newData) →
        ∀ d ∈ ds, LabelsIn {L | ∃ d ∈ existingData ++ newData, L ∈ labelSets d.data} d :=
      fun ds hperm d hd L hL => ⟨d, hperm.mem_iff.mp hd, hL⟩
    constructor
    · intro h existingData' hcached ds hperm hsorted L t hfresh
      obtain rfl := Option.some.inj hcached
      obtain ⟨intervalSort, hsort⟩ := SortSlice.exists_sort_eq hperm hsorted
      have hmerge : ∀ pointSort, mergeWithCachedSeriesData ⟨pointSort, intervalSort, hash⟩
          (some existingData) newData = mergeAll ⟨pointSort, intervalSort, hash⟩ ds := fun pointSort =>
        congrArg (mergeAll ⟨pointSort, intervalSort, hash⟩) hsort
      constructor
      · obtain ⟨q, hq, hqt⟩ := (h (.insertion _) intervalSort L t hfresh).1
        rw [hmerge] at hq
        exact ⟨q, counts_of_holds_mergeAll hhash (hlabels ds hperm) hsorted hq, hqt⟩
      · -- some sort of the points keeps this one
        intro q hq hqt
        obtain ⟨pointSort, hkeeps⟩ := LastWins.exists_sort_keeping q
        refine (h pointSort intervalSort L t hfresh).2 q ?_ hqt
        rw [hmerge]
        exact holds_mergeAll_of_kept hhash (hlabels ds hperm) hsorted hq hkeeps
    · intro h pointSort intervalSort L t hfresh
      have hperm := intervalSort.perm (existingData ++ newData)
      have hsorted := intervalSort.sorted (existingData ++ newData)
      obtain ⟨⟨q, hq, hqt⟩, hall⟩ := h existingData rfl _ hperm hsorted L t hfresh
      constructor
      · obtain ⟨r, hr, hrq⟩ : ∃ r, Holds (mergeAll ⟨pointSort, intervalSort, hash⟩ _) L r ∧
            r.timestamp = q.timestamp := exists_holds_mergeAll hhash (hlabels _ hperm) hsorted hq
        exact ⟨r, hr, hrq.trans hqt⟩
      · intro r hr hrt
        have hr : Holds (mergeAll ⟨pointSort, intervalSort, hash⟩ _) L r := hr
        exact hall r (counts_of_holds_mergeAll hhash (hlabels _ hperm) hsorted hr) hrt

/-! ### A stale point that wins -/

/-- An interval of the flux interval has been cached. -/
def staleInterval : List (CachedSeriesData Int) := [⟨400000, 500000, onePoint 450000 1⟩]

/-- What a request of the last ten minutes fetches then, with a late point. -/
def fetchedAround : List (CachedSeriesData Int) :=
  [⟨0, 400000, []⟩, ⟨300000, 600000, onePoint 450000 2⟩]

/-- The interval of the new point starts before the cached one, so the cached point is appended later and
wins. -/
theorem not_freshWins_staleInterval :
    mergeWithCachedSeriesData (.insertion Int) (some staleInterval) fetchedAround =
      [⟨0, 600000, onePoint 450000 1⟩] ∧
    ¬ ∀ pointSort intervalSort, FreshWins fetchedAround (mergeWithCachedSeriesData
      ⟨pointSort, intervalSort, (CacheEnv.insertion Int).hash⟩ (some staleInterval) fetchedAround) := by
  have hmerge : mergeWithCachedSeriesData (.insertion Int) (some staleInterval) fetchedAround =
      [⟨0, 600000, onePoint 450000 1⟩] := rfl
  refine ⟨hmerge, fun h => ?_⟩
  have hwins : FreshWins fetchedAround
      (mergeWithCachedSeriesData (.insertion Int) (some staleInterval) fetchedAround) := h _ _
  rw [hmerge] at hwins
  have hfresh : IsFresh fetchedAround ∅ 450000 :=
    ⟨⟨300000, 600000, onePoint 450000 2⟩, by simp [fetchedAround], by decide, by decide, ⟨450000, 2⟩,
      by simp [pointsOf, onePoint], rfl⟩
  have hstale : Holds fetchedAround ∅ ⟨450000, 1⟩ :=
    (hwins ∅ 450000 hfresh).2 ⟨450000, 1⟩ ⟨_, List.mem_singleton_self _, by simp [pointsOf, onePoint]⟩ rfl
  simp [Holds, fetchedAround, pointsOf, onePoint] at hstale

/-- A point that is fetched again with its value is stored with it. -/
theorem freshWins_fetchedAgain : FreshWins [⟨0, 200, onePoint 50 7⟩]
    (mergeWithCachedSeriesData (.insertion Int) (some [⟨0, 100, onePoint 50 7⟩])
      [⟨0, 200, onePoint 50 7⟩]) := by
  refine (mergeWithCachedSeriesData_freshWins_iff (CacheEnv.insertion Int).hash
    (some [⟨0, 100, onePoint 50 7⟩]) [⟨0, 200, onePoint 50 7⟩] ?_).mpr ?_ _ _
  · -- all label sets are empty
    have hempty : ∀ L, (∃ d ∈ (some [(⟨0, 100, onePoint 50 7⟩ : CachedSeriesData Int)]).getD [] ++
        [⟨0, 200, onePoint 50 7⟩], L ∈ labelSets d.data) → L = ∅ := by
      simp [labelSets, onePoint]
    exact fun L hL L' hL' _ => (hempty L hL).trans (hempty L' hL').symm
  · intro existingData hcached ds hperm _ L t hfresh
    obtain rfl := Option.some.inj hcached
    have hnew : ∀ q, Holds ds L q → Holds [(⟨0, 200, onePoint 50 7⟩ : CachedSeriesData Int)] L q := by
      rintro q ⟨d, hd, hq⟩
      obtain rfl | rfl : d = ⟨0, 100, onePoint 50 7⟩ ∨ d = ⟨0, 200, onePoint 50 7⟩ := by
        simpa using hperm.mem_iff.mp hd
      · exact ⟨_, List.mem_singleton_self _, hq⟩
      · exact ⟨_, List.mem_singleton_self _, hq⟩
    have hnd : ∀ d ∈ ds, (labelSets d.data).Nodup := by
      intro d hd
      obtain rfl | rfl : d = ⟨0, 100, onePoint 50 7⟩ ∨ d = ⟨0, 200, onePoint 50 7⟩ := by
        simpa using hperm.mem_iff.mp hd
      · exact List.nodup_singleton _
      · exact List.nodup_singleton _
    obtain ⟨d, hd, -, -, p, hp, hpt⟩ := hfresh
    refine ⟨⟨p, (counts_iff_holds hnd).mpr ⟨d, ?_, hp⟩, hpt⟩, fun q hq _ => hnew q hq.holds⟩
    exact hperm.mem_iff.mpr (List.mem_append_right _ hd)

end QueryCache
end QueryService
