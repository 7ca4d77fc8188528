import BoringPanel.Lib.Table
import BoringPanel.QueryService.QueryCache.MergedClusters

/-!
# The stored entry

What the cache stores should be sorted, apart, cover what has been merged into it, and hold each
timestamp of a label set once, in a series with strictly increasing timestamps (`WellMerged`). The code
establishes this where it merges, but it stores the first data as they are, does not touch the series of
an interval that joins no other, and does not look for the points of one interval in another. So the
entry is well merged along a sequence of merges exactly if each of them is given what it does not put in
order itself (`runWellMerged_iff`).
-/

namespace QueryService
namespace QueryCache

variable {F : Type}

/-- The interval covers a time, its end included. -/
def CoversClosed (d : CachedSeriesData F) (t : Int) : Prop := d.start ≤ t ∧ t ≤ d.end_

/-- The interval holds a point of the label set at `t`. -/
def HoldsAt (d : CachedSeriesData F) (L : Go.StringMap) (t : Int) : Prop :=
  ∃ p ∈ pointsOf d.data L, p.timestamp = t

/-- The points of each series have strictly increasing timestamps. -/
def Increasing (d : CachedSeriesData F) : Prop :=
  ∀ s ∈ d.data, s.points.Pairwise fun p q => p.timestamp < q.timestamp

/-- The timestamps of a label set in a list of intervals. -/
def timesOf (out : List (CachedSeriesData F)) (L : Go.StringMap) : List Int :=
  (pointsOf (out.flatMap CachedSeriesData.data) L).map Point.timestamp

/-- **The entry is what the intervals should be merged into.** With `ordered`, intervals that are `apart`
are sorted by their starts, disjoint and do not touch. -/
structure WellMerged (ds out : List (CachedSeriesData F)) : Prop where
  ordered : ∀ d ∈ out, d.start ≤ d.end_
  apart : out.Pairwise fun a b => a.end_ < b.start
  covers : ∀ t, (∃ d ∈ out, CoversClosed d t) ↔ ∃ d ∈ ds, CoversClosed d t
  once : ∀ L t, (∃ d ∈ ds, HoldsAt d L t) → (timesOf out L).count t = 1
  increasing : ∀ d ∈ out, Increasing d

/-- Two intervals hold no timestamp of a label set both. -/
def HoldNothingBoth (a b : CachedSeriesData F) : Prop := ∀ L t, HoldsAt a L t → ¬ HoldsAt b L t

/-! ### Each timestamp once -/

/-- The intervals hold the same. -/
def SameTimes (ds out : List (CachedSeriesData F)) : Prop :=
  ∀ L t, (∃ d ∈ out, HoldsAt d L t) ↔ ∃ d ∈ ds, HoldsAt d L t

theorem mem_timesOf {out : List (CachedSeriesData F)} {L : Go.StringMap} {t : Int} :
    t ∈ timesOf out L ↔ ∃ d ∈ out, HoldsAt d L t := by
  simp only [timesOf, HoldsAt, List.mem_map, mem_pointsOf, List.mem_flatMap]
  constructor
  · rintro ⟨p, ⟨s, ⟨d, hd, hs⟩, hL, hp⟩, hpt⟩
    exact ⟨d, hd, p, ⟨s, hs, hL, hp⟩, hpt⟩
  · rintro ⟨d, hd, p, ⟨s, hs, hL, hp⟩, hpt⟩
    exact ⟨p, ⟨s, ⟨d, hd, hs⟩, hL, hp⟩, hpt⟩

theorem timesOf_eq_flatMap (out : List (CachedSeriesData F)) (L : Go.StringMap) :
    timesOf out L = out.flatMap fun d => (pointsOf d.data L).map Point.timestamp := by
  unfold timesOf pointsOf
  rw [List.filter_flatMap, List.flatMap_assoc, List.map_flatMap]

theorem nodup_times {d : CachedSeriesData F} (hnd : (labelSets d.data).Nodup) (hinc : Increasing d)
    (L : Go.StringMap) : ((pointsOf d.data L).map Point.timestamp).Nodup := by
  -- there is one series of the label set at most
  rw [pointsOf, Go.Table.filter_eq_toList Series.labels L hnd]
  cases hfound : d.data.find? fun s => s.labels = L with
  | none => exact List.nodup_nil
  | some s =>
    rw [Option.toList_some, List.flatMap_singleton]
    exact List.pairwise_map.mpr ((hinc s (List.mem_of_find?_eq_some hfound)).imp ne_of_lt)

/-- Each timestamp is held once exactly if no two intervals hold one both. -/
theorem once_iff {ds out : List (CachedSeriesData F)} (hsame : SameTimes ds out)
    (hnd : ∀ d ∈ out, (labelSets d.data).Nodup) (hinc : ∀ d ∈ out, Increasing d) :
    (∀ L t, (∃ d ∈ ds, HoldsAt d L t) → (timesOf out L).count t = 1) ↔ out.Pairwise HoldNothingBoth := by
  have hnodup : (∀ L, (timesOf out L).Nodup) ↔ out.Pairwise HoldNothingBoth := by
    have hdisjoint : ∀ L (a b : CachedSeriesData F), List.Disjoint ((pointsOf a.data L).map Point.timestamp)
        ((pointsOf b.data L).map Point.timestamp) ↔ ∀ t, HoldsAt a L t → ¬ HoldsAt b L t := by
      intro L a b
      simp only [List.Disjoint, List.mem_map, HoldsAt]
    simp only [timesOf_eq_flatMap, List.nodup_flatMap]
    constructor
    · intro h
      refine List.pairwise_iff_forall_sublist.mpr fun hsub L t ha hb => ?_
      have := List.pairwise_iff_forall_sublist.mp (h L).2 hsub
      exact (hdisjoint L _ _).mp this t ha hb
    · intro h L
      exact ⟨fun d hd => nodup_times (hnd d hd) (hinc d hd) L,
        h.imp fun {a b} hab => (hdisjoint L a b).mpr fun t => hab L t⟩
  rw [← hnodup]
  constructor
  · intro h L
    refine List.nodup_iff_count_le_one.mpr fun t => ?_
    by_cases ht : t ∈ timesOf out L
    · exact (h L t ((hsame L t).mp (mem_timesOf.mp ht))).le
    · rw [List.count_eq_zero_of_not_mem ht]
      exact Nat.zero_le 1
  · exact fun h L t hds => List.count_eq_one_of_mem (h L) (mem_timesOf.mpr ((hsame L t).mpr hds))

theorem WellMerged.congr {ds ds' out : List (CachedSeriesData F)}
    (hcovers : ∀ t, (∃ d ∈ ds, CoversClosed d t) ↔ ∃ d ∈ ds', CoversClosed d t)
    (hsame : SameTimes ds ds') : WellMerged ds out ↔ WellMerged ds' out where
  mp h := ⟨h.ordered, h.apart, fun t => (h.covers t).trans (hcovers t),
    fun L t ht => h.once L t ((hsame L t).mp ht), h.increasing⟩
  mpr h := ⟨h.ordered, h.apart, fun t => (h.covers t).trans (hcovers t).symm,
    fun L t ht => h.once L t ((hsame L t).mpr ht), h.increasing⟩

/-! ### Intervals that are merged -/

/-- An interval that can be cached: it does not end before it starts, has one series for each label set,
and its label sets are among `U`. -/
structure Cacheable (U : Set Go.StringMap) (d : CachedSeriesData F) : Prop where
  ordered : d.start ≤ d.end_
  nodup : (labelSets d.data).Nodup
  labels : LabelsIn U d

/-- Some instant divides the intervals, with one interval before it and the other from it on. -/
def Divided (ds : List (CachedSeriesData F)) (a b : CachedSeriesData F) : Prop :=
  ∃ x, a.end_ < x ∧ x ≤ b.start ∧ ∀ d ∈ ds, d.end_ < x ∨ x ≤ d.start

/-- **What the loop does not put in order is in order already**: the series of an interval that is apart
from all others, and the points of intervals that are divided. -/
structure Mergeable (ds : List (CachedSeriesData F)) : Prop where
  isolated : ∀ d rest, ds.Perm (d :: rest) → (∀ e ∈ rest, d.end_ < e.start ∨ e.end_ < d.start) → Increasing d
  divided : ∀ a ∈ ds, ∀ b ∈ ds, Divided ds a b → HoldNothingBoth a b

theorem Mergeable.perm {ds ds' : List (CachedSeriesData F)} (hperm : ds.Perm ds') (h : Mergeable ds) :
    Mergeable ds' where
  isolated := fun d rest hrest => h.isolated d rest (hperm.trans hrest)
  divided := fun a ha b hb ⟨x, hend, hstart, hdiv⟩ => h.divided a (hperm.mem_iff.mpr ha) b (hperm.mem_iff.mpr hb)
    ⟨x, hend, hstart, fun d hd => hdiv d (hperm.mem_iff.mp hd)⟩

/-- Points inside their intervals, in order in each series, are mergeable. -/
theorem mergeable_of_inside {ds : List (CachedSeriesData F)} (hinc : ∀ d ∈ ds, Increasing d)
    (hinside : ∀ d ∈ ds, ∀ L t, HoldsAt d L t → CoversClosed d t) : Mergeable ds where
  isolated := fun d rest hperm _ => hinc d (hperm.mem_iff.mpr List.mem_cons_self)
  divided := fun a ha b hb ⟨x, hend, hstart, _⟩ L t hat hbt => by
    have hend' := (hinside a ha L t hat).2
    have hstart' := (hinside b hb L t hbt).1
    omega

section Clusters

variable {env : CacheEnv F} {U : Set Go.StringMap} {ds : List (CachedSeriesData F)}
  {c : Cluster (CachedSeriesData F)}

/-- With one series for each label set, all points count. -/
theorem mem_countedPoints (hnd : (labelSets c.first.data).Nodup) {L : Go.StringMap} {p : Point F} :
    p ∈ countedPoints c L ↔ ∃ d ∈ c.members, p ∈ pointsOf d.data L := by
  have hmembers : (∃ d ∈ c.members, p ∈ pointsOf d.data L) ↔
      p ∈ pointsOf c.first.data L ∨ ∃ d ∈ c.others, p ∈ pointsOf d.data L := by
    simp [Cluster.members]
  rw [hmembers]
  unfold countedPoints
  split
  · have hnil : c.others = [] := List.isEmpty_iff.mp ‹_›
    simp [hnil]
  · rw [joinedPoints, lastOnly_eq_self hnd, List.mem_append, List.mem_flatMap]

variable (hU : Set.InjOn env.hash U) (hds : ∀ d ∈ ds, Cacheable U d)
  (hsorted : ds.Pairwise fun d e => d.start ≤ e.start)

include hds hsorted

omit hds in
theorem coversClosed_merged_iff (hc : c ∈ intervalClusters ds) (t : Int) :
    CoversClosed (merged env c) t ↔ ∃ d ∈ c.members, CoversClosed d t := by
  have hfirst := first_le_of_mem_clusters hsorted hc
  unfold CoversClosed
  rw [merged_end, merged_start fun d hd => hfirst d (List.mem_cons_of_mem _ hd)]
  constructor
  · rintro ⟨hs, he⟩
    exact (linked_of_mem_clusters c hc).exists_covering hs he
  · rintro ⟨d, hd, hs, he⟩
    exact ⟨(hfirst d hd).trans hs, (Cluster.le_reach_iff _ c t).mpr ⟨d, hd, he⟩⟩

theorem ordered_merged (hc : c ∈ intervalClusters ds) : (merged env c).start ≤ (merged env c).end_ := by
  have hfirst := first_le_of_mem_clusters hsorted hc
  rw [merged_end, merged_start fun d hd => hfirst d (List.mem_cons_of_mem _ hd), Cluster.le_reach_iff]
  exact ⟨c.first, List.mem_cons_self, (hds c.first (mem_of_mem_members hc List.mem_cons_self)).ordered⟩

omit hds in
theorem apart_mergeAll : (mergeAll env ds).Pairwise fun a b => a.end_ < b.start := by
  rw [mergeAll_eq_map_merged, List.pairwise_map]
  refine (pairwise_clusters hsorted).imp_of_mem fun {c c'} _ hc' h => ?_
  have hfirst := first_le_of_mem_clusters hsorted hc'
  rw [merged_end, merged_start fun d hd => hfirst d (List.mem_cons_of_mem _ hd), Cluster.reach_lt_iff]
  exact fun d hd => h d hd c'.first List.mem_cons_self

include hU

omit hsorted in
theorem nodup_merged (hc : c ∈ intervalClusters ds) : (labelSets (merged env c).data).Nodup := by
  by_cases h : c.others = []
  · have : merged env c = c.first := by
      rw [merged, h]
      rfl
    rw [this]
    exact (hds c.first (mem_of_mem_members hc List.mem_cons_self)).nodup
  · exact nodup_labelSets_merged hU (fun d hd => (hds d (mem_of_mem_members hc hd)).labels) h

omit hsorted in
theorem holdsAt_merged_iff (hc : c ∈ intervalClusters ds) {L : Go.StringMap} {t : Int} :
    HoldsAt (merged env c) L t ↔ ∃ d ∈ c.members, HoldsAt d L t := by
  have hlabels : ∀ d ∈ c.members, LabelsIn U d := fun d hd => (hds d (mem_of_mem_members hc hd)).labels
  have hnd := (hds c.first (mem_of_mem_members hc List.mem_cons_self)).nodup
  constructor
  · rintro ⟨p, hp, hpt⟩
    obtain ⟨d, hd, hpd⟩ := (mem_countedPoints hnd).mp (mem_counted_of_mem_merged hU hlabels hp)
    exact ⟨d, hd, p, hpd, hpt⟩
  · rintro ⟨d, hd, p, hp, hpt⟩
    obtain ⟨q, hq, hqp⟩ := exists_mem_merged hU hlabels ((mem_countedPoints hnd).mpr ⟨d, hd, hp⟩)
    exact ⟨q, hq, hqp.trans hpt⟩

omit hsorted in
theorem sameTimes_mergeAll : SameTimes ds (mergeAll env ds) := by
  intro L t
  rw [mergeAll_eq_map_merged]
  constructor
  · rintro ⟨o, ho, hold⟩
    obtain ⟨c, hc, rfl⟩ := List.mem_map.mp ho
    obtain ⟨d, hd, hold⟩ := (holdsAt_merged_iff hU hds hc).mp hold
    exact ⟨d, mem_of_mem_members hc hd, hold⟩
  · rintro ⟨d, hd, hold⟩
    obtain ⟨c, hc, hdc⟩ := exists_cluster hd
    exact ⟨merged env c, List.mem_map_of_mem hc, (holdsAt_merged_iff hU hds hc).mpr ⟨d, hdc, hold⟩⟩

theorem cacheable_mergeAll : ∀ d ∈ mergeAll env ds, Cacheable U d := by
  rw [mergeAll_eq_map_merged]
  intro d hd
  obtain ⟨c, hc, rfl⟩ := List.mem_map.mp hd
  exact ⟨ordered_merged hds hsorted hc, nodup_merged hU hds hc,
    labelsIn_merged hU fun d hd => (hds d (mem_of_mem_members hc hd)).labels⟩

/-- Intervals of different clusters hold nothing both if divided intervals do not. -/
theorem pairwise_merged (h : Mergeable ds) : (mergeAll env ds).Pairwise HoldNothingBoth := by
  rw [mergeAll_eq_map_merged, List.pairwise_map]
  refine (pairwise_clusters hsorted).imp_of_mem fun {c c'} hc hc' hapart L t ha hb => ?_
  obtain ⟨a, hac, ha⟩ := (holdsAt_merged_iff hU hds hc).mp ha
  obtain ⟨b, hbc, hb⟩ := (holdsAt_merged_iff hU hds hc').mp hb
  -- the start of the later cluster divides them
  refine h.divided a (mem_of_mem_members hc hac) b (mem_of_mem_members hc' hbc)
    ⟨c'.first.start, hapart a hac c'.first List.mem_cons_self, ?_, divided_at_first hsorted hc'⟩ L t ha hb
  exact first_le_of_mem_clusters hsorted hc' b hbc

omit hU hds in
/-- An interval that joins no other is apart from all others. -/
theorem increasing_mergeAll (h : Mergeable ds) : ∀ d ∈ mergeAll env ds, Increasing d := by
  rw [mergeAll_eq_map_merged]
  intro o ho
  obtain ⟨c, hc, rfl⟩ := List.mem_map.mp ho
  by_cases hothers : c.others = []
  · have hmem : c.members = [] ++ c.first :: [] := by
      rw [Cluster.members, hothers]
      rfl
    obtain ⟨front, back, hsplit, -, ⟨before, hfront, hbefore⟩, after, hback, hafter⟩ :=
      exists_split_of_mem_clusters hsorted hc hmem
    obtain rfl : front = before := hfront.trans (List.append_nil before)
    obtain rfl : back = after := hback
    have hmerged : merged env c = c.first := by
      rw [merged, hothers]
      rfl
    rw [hmerged]
    refine h.isolated c.first (front ++ back) (hsplit ▸ List.perm_middle) fun e he => ?_
    obtain he | he := List.mem_append.mp he
    · exact .inr (hbefore e he c.first List.mem_cons_self)
    · exact .inl (hafter e he c.first List.mem_cons_self)
  · exact increasing_merged hothers

/-- **What the loop makes of sorted intervals is well merged** exactly if they are mergeable. -/
theorem wellMerged_mergeAll_iff : WellMerged ds (mergeAll env ds) ↔ Mergeable ds := by
  have hsame := sameTimes_mergeAll hU hds
  have hnd : ∀ d ∈ mergeAll env ds, (labelSets d.data).Nodup := fun d hd =>
    (cacheable_mergeAll hU hds hsorted d hd).nodup
  have hmem : ∀ c ∈ intervalClusters ds, merged env c ∈ mergeAll env ds := fun c hc => by
    rw [mergeAll_eq_map_merged]
    exact List.mem_map_of_mem hc
  constructor
  · intro h
    have hboth : (intervalClusters ds).Pairwise fun c c' => HoldNothingBoth (merged env c) (merged env c') := by
      have := (once_iff hsame hnd h.increasing).mp h.once
      rwa [mergeAll_eq_map_merged, List.pairwise_map] at this
    refine ⟨fun d rest hperm hapart => ?_, fun a ha b hb ⟨x, hend, hstart, hdiv⟩ L t hat hbt => ?_⟩
    · -- it is a cluster of its own
      obtain ⟨front, back, hsplit⟩ := List.append_of_mem (hperm.mem_iff.mpr List.mem_cons_self)
      have hrest : rest.Perm (front ++ back) := by
        refine ((hperm.symm.trans ?_).cons_inv)
        rw [hsplit]
        exact List.perm_middle
      obtain ⟨c, hc, rfl, hothers⟩ := others_eq_nil_of_isolated hsorted (fun e he => (hds e he).ordered) hsplit
        fun e he => hapart e (hrest.mem_iff.mpr he)
      have hmerged : merged env c = c.first := by
        rw [merged, hothers]
        rfl
      exact hmerged ▸ h.increasing _ (hmem c hc)
    · -- divided intervals are in different clusters
      obtain ⟨c, hc, hac⟩ := exists_cluster ha
      obtain ⟨c', hc', hbc⟩ := exists_cluster hb
      have hne : c ≠ c' := by
        rintro rfl
        exact (linked_of_mem_clusters c hc).not_divided (fun e he => (hds e (mem_of_mem_members hc he)).ordered)
          (first_le_of_mem_clusters hsorted hc) hac hbc hend hstart fun e he => hdiv e (mem_of_mem_members hc he)
      have hsymm : Std.Symm fun c c' => HoldNothingBoth (merged env c) (merged env c') :=
        ⟨fun _ _ hcc' L t h h' => hcc' L t h' h⟩
      exact hboth.forall hc hc' hne L t ((holdsAt_merged_iff hU hds hc).mpr ⟨a, hac, hat⟩)
        ((holdsAt_merged_iff hU hds hc').mpr ⟨b, hbc, hbt⟩)
  · intro h
    have hinc : ∀ d ∈ mergeAll env ds, Increasing d := increasing_mergeAll hsorted h
    refine ⟨fun d hd => (cacheable_mergeAll hU hds hsorted d hd).ordered, apart_mergeAll hsorted, fun t => ?_,
      (once_iff hsame hnd hinc).mpr (pairwise_merged hU hds hsorted h), hinc⟩
    rw [mergeAll_eq_map_merged]
    constructor
    · rintro ⟨o, ho, hcov⟩
      obtain ⟨c, hc, rfl⟩ := List.mem_map.mp ho
      obtain ⟨d, hd, hcov⟩ := (coversClosed_merged_iff hsorted hc t).mp hcov
      exact ⟨d, mem_of_mem_members hc hd, hcov⟩
    · rintro ⟨d, hd, hcov⟩
      obtain ⟨c, hc, hdc⟩ := exists_cluster hd
      exact ⟨merged env c, List.mem_map_of_mem hc, (coversClosed_merged_iff hsorted hc t).mpr ⟨d, hdc, hcov⟩⟩

end Clusters

/-! ### One merge -/

/-- The first data are stored as they are, so they have to be in order. -/
structure StorableAsIs (newData : List (CachedSeriesData F)) : Prop where
  apart : newData.Pairwise fun a b => a.end_ < b.start
  once : newData.Pairwise HoldNothingBoth
  increasing : ∀ d ∈ newData, Increasing d

/-- What a merge has to be given. -/
def MergesWell (cached : Option (List (CachedSeriesData F))) (newData : List (CachedSeriesData F)) : Prop :=
  match cached with
  | none => StorableAsIs newData
  | some existingData => Mergeable (existingData ++ newData)

section Merge

variable {env : CacheEnv F} {U : Set Go.StringMap} {cached : Option (List (CachedSeriesData F))}
  {newData : List (CachedSeriesData F)} (hU : Set.InjOn env.hash U)
  (hds : ∀ d ∈ cached.getD [] ++ newData, Cacheable U d)

include hU hds

theorem cacheable_merge : ∀ d ∈ mergeWithCachedSeriesData env cached newData, Cacheable U d := by
  cases cached with
  | none => exact hds
  | some existingData =>
    have hperm := env.intervalSort.perm (existingData ++ newData)
    exact cacheable_mergeAll hU (fun d hd => hds d (hperm.mem_iff.mp hd)) (env.intervalSort.sorted _)

theorem sameTimes_merge :
    SameTimes (cached.getD [] ++ newData) (mergeWithCachedSeriesData env cached newData) := by
  cases cached with
  | none => exact fun L t => Iff.rfl
  | some existingData =>
    have hperm := env.intervalSort.perm (existingData ++ newData)
    intro L t
    refine (sameTimes_mergeAll hU (fun d hd => hds d (hperm.mem_iff.mp hd)) L t).trans ?_
    simp only [hperm.mem_iff]
    rfl

/-- **What is stored is well merged** exactly if the merge is given what it does not put in order. -/
theorem wellMerged_merge_iff :
    WellMerged (cached.getD [] ++ newData) (mergeWithCachedSeriesData env cached newData) ↔
      MergesWell cached newData := by
  cases cached with
  | none =>
    have hsame : SameTimes newData newData := fun _ _ => Iff.rfl
    have honce := once_iff hsame fun d hd => (hds d hd).nodup
    constructor
    · exact fun h => ⟨h.apart, (honce h.increasing).mp h.once, h.increasing⟩
    · exact fun h => ⟨fun d hd => (hds d hd).ordered, h.apart, fun _ => Iff.rfl,
        (honce h.increasing).mpr h.once, h.increasing⟩
  | some existingData =>
    have hperm := env.intervalSort.perm (existingData ++ newData)
    have hds' : ∀ d ∈ env.intervalSort.sort (existingData ++ newData), Cacheable U d := fun d hd =>
      hds d (hperm.mem_iff.mp hd)
    calc WellMerged (existingData ++ newData) (mergeAll env (env.intervalSort.sort (existingData ++ newData)))
        ↔ WellMerged (env.intervalSort.sort (existingData ++ newData))
            (mergeAll env (env.intervalSort.sort (existingData ++ newData))) :=
          WellMerged.congr (fun t => by simp only [hperm.mem_iff]) fun L t => by simp only [hperm.mem_iff]
      _ ↔ Mergeable (env.intervalSort.sort (existingData ++ newData)) :=
          wellMerged_mergeAll_iff hU hds' (env.intervalSort.sorted _)
      _ ↔ Mergeable (existingData ++ newData) := ⟨Mergeable.perm hperm, Mergeable.perm hperm.symm⟩

end Merge

/-! ### Any sequence of merges -/

/-- **Each stored entry is what all intervals so far should be merged into.** -/
def RunWellMerged (env : CacheEnv F) (ds : List (CachedSeriesData F))
    (cached : Option (List (CachedSeriesData F))) : List (List (CachedSeriesData F)) → Prop
  | [] => True
  | newData :: updates =>
    WellMerged (ds ++ newData) (mergeWithCachedSeriesData env cached newData) ∧
      RunWellMerged env (ds ++ newData) (some (mergeWithCachedSeriesData env cached newData)) updates

/-- Each merge is given what it does not put in order. -/
def RunMergesWell (env : CacheEnv F) (cached : Option (List (CachedSeriesData F))) :
    List (List (CachedSeriesData F)) → Prop
  | [] => True
  | newData :: updates =>
    MergesWell cached newData ∧
      RunMergesWell env (some (mergeWithCachedSeriesData env cached newData)) updates

theorem run_iff {env : CacheEnv F} {U : Set Go.StringMap} (hU : Set.InjOn env.hash U)
    (updates : List (List (CachedSeriesData F))) :
    ∀ (ds : List (CachedSeriesData F)) (cached : Option (List (CachedSeriesData F))),
      (∀ d ∈ cached.getD [] ++ updates.flatten, Cacheable U d) →
      (∀ t, (∃ d ∈ cached.getD [], CoversClosed d t) ↔ ∃ d ∈ ds, CoversClosed d t) →
      SameTimes ds (cached.getD []) →
      (RunWellMerged env ds cached updates ↔ RunMergesWell env cached updates) := by
  induction updates with
  | nil => exact fun _ _ _ _ _ => Iff.rfl
  | cons newData updates ih =>
    intro ds cached hall hcovers hsame
    have hstep : ∀ d ∈ cached.getD [] ++ newData, Cacheable U d := by
      intro d hd
      refine hall d ?_
      rw [List.flatten_cons, ← List.append_assoc]
      exact List.mem_append_left _ hd
    -- what was merged so far and what is cached do the same
    have hcovers' : ∀ t, (∃ d ∈ ds ++ newData, CoversClosed d t) ↔
        ∃ d ∈ cached.getD [] ++ newData, CoversClosed d t := by
      intro t
      simp only [List.mem_append, or_and_right, exists_or, hcovers t]
    have hsame' : SameTimes (ds ++ newData) (cached.getD [] ++ newData) := by
      intro L t
      simp only [List.mem_append, or_and_right, exists_or, hsame L t]
    have hwell : WellMerged (ds ++ newData) (mergeWithCachedSeriesData env cached newData) ↔
        MergesWell cached newData :=
      (WellMerged.congr (fun t => hcovers' t) hsame').trans (wellMerged_merge_iff hU hstep)
    unfold RunWellMerged RunMergesWell
    rw [← hwell]
    refine and_congr_right fun h => ih _ _ (fun d hd => ?_) h.covers fun L t => ?_
    · obtain hd | hd := List.mem_append.mp hd
      · exact cacheable_merge hU hstep d hd
      · refine hall d (List.mem_append_right _ ?_)
        rw [List.flatten_cons]
        exact List.mem_append_right _ hd
    · exact (sameTimes_merge hU hstep L t).trans (hsame' L t)

/-- **The stored entry stays well merged** over a sequence of merges exactly if each merge is given what
it does not put in order itself. -/
theorem runWellMerged_iff (env : CacheEnv F) (cached : Option (List (CachedSeriesData F)))
    (updates : List (List (CachedSeriesData F)))
    (hordered : ∀ d ∈ cached.getD [] ++ updates.flatten, d.start ≤ d.end_)
    (hnodup : ∀ d ∈ cached.getD [] ++ updates.flatten, (labelSets d.data).Nodup)
    (hhash : Set.InjOn env.hash {L | ∃ d ∈ cached.getD [] ++ updates.flatten, L ∈ labelSets d.data}) :
    RunWellMerged env (cached.getD []) cached updates ↔ RunMergesWell env cached updates :=
  run_iff hhash updates _ cached (fun d hd => ⟨hordered d hd, hnodup d hd, fun _ hL => ⟨d, hd, hL⟩⟩)
    (fun _ => Iff.rfl) fun _ _ => Iff.rfl

/-! ### A point that is sent twice -/

/-- An interval with two points of one time, which joins no cached interval. -/
def sentTwice : CachedSeriesData Int :=
  ⟨200000, 300000, [{ labels := ∅, labelsArray := [], points := [⟨250000, 1⟩, ⟨250000, 2⟩] }]⟩

/-- Both points are stored. -/
theorem not_runWellMerged_sentTwice :
    mergeWithCachedSeriesData (.insertion Int) (some [⟨0, 100000, []⟩]) [sentTwice] =
      [⟨0, 100000, []⟩, sentTwice] ∧
    ¬ RunWellMerged (.insertion Int) [⟨0, 100000, []⟩] (some [⟨0, 100000, []⟩]) [[sentTwice]] := by
  have hmerge : mergeWithCachedSeriesData (.insertion Int) (some [⟨0, 100000, []⟩]) [sentTwice] =
      [⟨0, 100000, []⟩, sentTwice] := rfl
  refine ⟨hmerge, fun ⟨h, _⟩ => ?_⟩
  rw [hmerge] at h
  have hinc := h.increasing sentTwice (by simp) _ (List.mem_singleton_self _)
  simp at hinc

/-- Two ranges that are fetched one after the other are merged well. -/
theorem runWellMerged_twoRanges :
    RunWellMerged (.insertion Int) [] none [[⟨0, 100, onePoint 50 7⟩], [⟨100, 200, onePoint 150 8⟩]] := by
  have hall : ∀ d ∈ (none : Option (List (CachedSeriesData Int))).getD [] ++
      [[(⟨0, 100, onePoint 50 7⟩ : CachedSeriesData Int)], [⟨100, 200, onePoint 150 8⟩]].flatten,
      d = ⟨0, 100, onePoint 50 7⟩ ∨ d = ⟨100, 200, onePoint 150 8⟩ := by simp
  have hincreasing : ∀ d, d = (⟨0, 100, onePoint 50 7⟩ : CachedSeriesData Int) ∨
      d = ⟨100, 200, onePoint 150 8⟩ → Increasing d := by
    rintro d (rfl | rfl) <;> simp [Increasing, onePoint]
  refine (runWellMerged_iff (.insertion Int) none _ (fun d hd => ?_) (fun d hd => ?_) ?_).mpr ⟨?_, ?_, trivial⟩
  · obtain rfl | rfl := hall d hd <;> decide
  · obtain rfl | rfl := hall d hd <;> exact List.nodup_singleton _
  · -- all label sets are empty
    have hempty : ∀ L, (∃ d ∈ (none : Option (List (CachedSeriesData Int))).getD [] ++
        [[(⟨0, 100, onePoint 50 7⟩ : CachedSeriesData Int)], [⟨100, 200, onePoint 150 8⟩]].flatten,
        L ∈ labelSets d.data) → L = ∅ := by
      rintro L ⟨d, hd, hL⟩
      obtain rfl | rfl := hall d hd <;> simpa [labelSets, onePoint] using hL
    exact fun L hL L' hL' _ => (hempty L hL).trans (hempty L' hL').symm
  · exact ⟨List.pairwise_singleton _ _, List.pairwise_singleton _ _, fun d hd =>
      hincreasing d (.inl (List.mem_singleton.mp hd))⟩
  · refine mergeable_of_inside (fun d hd => hincreasing d ?_) fun d hd L t ⟨p, hp, hpt⟩ => ?_
    · simpa [mergeWithCachedSeriesData] using hd
    · have hd : d = ⟨0, 100, onePoint 50 7⟩ ∨ d = ⟨100, 200, onePoint 150 8⟩ := by
        simpa [mergeWithCachedSeriesData] using hd
      subst hpt
      rw [mem_pointsOf] at hp
      obtain ⟨s, hs, -, hp⟩ := hp
      obtain rfl | rfl := hd
      · obtain rfl := List.mem_singleton.mp hs
        obtain rfl := List.mem_singleton.mp hp
        exact ⟨by decide, by decide⟩
      · obtain rfl := List.mem_singleton.mp hs
        obtain rfl := List.mem_singleton.mp hp
        exact ⟨by decide, by decide⟩

end QueryCache
end QueryService
