import BoringPanel.Lib.Clusters
import BoringPanel.QueryService.QueryCache.MergeIntervals

/-!
# Merging cluster by cluster

The loop of `MergeWithCachedSeriesData` merges each cluster of the sorted intervals into one
(`mergeAll_eq_map_merged`). Nothing is assumed here of the points of the intervals: they may lie
outside, be unsorted or doubled. What counts in a cluster of several intervals are the points of all of
them, except that the first interval counts only with the last series of each label set
(`joinedPoints`): each timestamp stays (`exists_mem_merged`), and which of its points stays is up to the
sort of the points (`mem_merged_of_kept`).
-/

namespace QueryService
namespace QueryCache

variable {F : Type}

/-- The clusters of the sorted intervals. -/
abbrev intervalClusters (ds : List (CachedSeriesData F)) : List (Cluster (CachedSeriesData F)) :=
  clusters CachedSeriesData.start CachedSeriesData.end_ ds

theorem mem_of_mem_members {ds : List (CachedSeriesData F)}
    {c : Cluster (CachedSeriesData F)} (hc : c ∈ intervalClusters ds) {d : CachedSeriesData F}
    (hd : d ∈ c.members) : d ∈ ds := by
  have := List.mem_flatMap.mpr ⟨c, hc, hd⟩
  rwa [flatMap_members_clusters] at this

theorem exists_cluster {ds : List (CachedSeriesData F)} {d : CachedSeriesData F} (hd : d ∈ ds) :
    ∃ c ∈ intervalClusters ds, d ∈ c.members := by
  rw [← flatMap_members_clusters CachedSeriesData.start CachedSeriesData.end_ ds] at hd
  exact List.mem_flatMap.mp hd

/-- What the loop makes of a cluster. -/
def merged (env : CacheEnv F) (c : Cluster (CachedSeriesData F)) : CachedSeriesData F :=
  c.others.foldl (joined env) c.first

variable {env : CacheEnv F} {c : Cluster (CachedSeriesData F)}

theorem merged_push (d : CachedSeriesData F) : merged env (c.push d) = joined env (merged env c) d := by
  unfold merged Cluster.push
  rw [List.foldl_append]
  rfl

theorem merged_end (c : Cluster (CachedSeriesData F)) :
    (merged env c).end_ = c.reach CachedSeriesData.end_ := by
  induction c using Cluster.push_induction with
  | single d => rfl
  | push c d ih =>
    rw [merged_push, Cluster.reach_push, ← ih]
    rfl

theorem merged_start (h : ∀ d ∈ c.others, c.first.start ≤ d.start) :
    (merged env c).start = c.first.start := by
  induction c using Cluster.push_induction with
  | single d => rfl
  | push c d ih =>
    obtain ⟨hothers, hd⟩ := List.forall_mem_append.mp h
    rw [merged_push]
    change min (merged env c).start d.start = c.first.start
    rw [ih hothers]
    exact min_eq_left (hd d (List.mem_singleton_self d))

theorem mergeFrom_merged (env : CacheEnv F) (ds : List (CachedSeriesData F)) :
    ∀ c, mergeFrom env (merged env c) ds =
      (clustersFrom CachedSeriesData.start CachedSeriesData.end_ c ds).map (merged env) := by
  induction ds with
  | nil => exact fun c => rfl
  | cons d ds ih =>
    intro c
    unfold mergeFrom clustersFrom
    rw [merged_end]
    split
    · rw [← ih, merged_push]
      unfold joined
      rw [merged_end]
    · rw [List.map_cons, ← ih]
      rfl

/-- **The merged list** holds one interval for each cluster. -/
theorem mergeAll_eq_map_merged (env : CacheEnv F) (ds : List (CachedSeriesData F)) :
    mergeAll env ds = (intervalClusters ds).map (merged env) := by
  cases ds with
  | nil => rfl
  | cons d ds => exact mergeFrom_merged env ds ⟨d, []⟩

/-! ### The points of a cluster -/

/-- The points that count where intervals are joined. -/
def joinedPoints (c : Cluster (CachedSeriesData F)) (L : Go.StringMap) : List (Point F) :=
  pointsOf (lastOnly c.first.data) L ++ c.others.flatMap fun d => pointsOf d.data L

/-- The points that count in a cluster: an interval that joins no other keeps its points. -/
def countedPoints (c : Cluster (CachedSeriesData F)) (L : Go.StringMap) : List (Point F) :=
  if c.others.isEmpty then pointsOf c.first.data L else joinedPoints c L

theorem joinedPoints_push (d : CachedSeriesData F) (L : Go.StringMap) :
    joinedPoints (c.push d) L = joinedPoints c L ++ pointsOf d.data L := by
  simp [joinedPoints, Cluster.push]

section Points

variable {U : Set Go.StringMap} (hU : Set.InjOn env.hash U)

include hU

theorem labelsIn_merged (hc : ∀ d ∈ c.members, LabelsIn U d) : LabelsIn U (merged env c) := by
  induction c using Cluster.push_induction with
  | single d => exact hc d List.mem_cons_self
  | push c d ih =>
    obtain ⟨hc, hd⟩ := Cluster.forall_members_push.mp hc
    rw [merged_push]
    exact labelsIn_joined hU (ih hc) hd

/-- Where intervals have been joined, each label set has one series. -/
theorem nodup_labelSets_merged (hc : ∀ d ∈ c.members, LabelsIn U d) (h : c.others ≠ []) :
    (labelSets (merged env c).data).Nodup := by
  induction c using Cluster.push_induction with
  | single d => exact absurd rfl h
  | push c d _ =>
    obtain ⟨hc, hd⟩ := Cluster.forall_members_push.mp hc
    rw [merged_push]
    exact (labelSets_mergeSeries (injOn_append hU (labelsIn_merged hU hc) hd)).1

/-- What one more interval does to the points. -/
theorem mem_merged_push {d : CachedSeriesData F} (hc : ∀ e ∈ c.members, LabelsIn U e)
    (hd : LabelsIn U d) {L : Go.StringMap} {p : Point F} :
    p ∈ pointsOf (lastOnly (merged env (c.push d)).data) L ↔
      p ∈ LastWins.dedup Point.timestamp (env.pointSort.sort
        (pointsOf (lastOnly (merged env c).data) L ++ pointsOf d.data L)) := by
  have hpush := Cluster.forall_members_push.mpr ⟨hc, hd⟩
  rw [lastOnly_eq_self (nodup_labelSets_merged hU hpush (Cluster.others_push_ne_nil c d)), merged_push]
  exact mem_pointsOf_mergeSeries_lastOnly (injOn_append hU (labelsIn_merged hU hc) hd) L p

/-- An induction over the intervals of a cluster in the order in which they join. -/
theorem points_induction {L : Go.StringMap} {P : List (Point F) → List (Point F) → Prop}
    (hc : ∀ d ∈ c.members, LabelsIn U d) (hrefl : ∀ l, P l l)
    (hpush : ∀ counted stored stored' new : List (Point F), P counted stored →
      (∀ p, p ∈ stored' ↔ p ∈ LastWins.dedup Point.timestamp (env.pointSort.sort (stored ++ new))) →
      P (counted ++ new) stored') :
    P (joinedPoints c L) (pointsOf (lastOnly (merged env c).data) L) := by
  induction c using Cluster.push_induction with
  | single d =>
    have hnil : joinedPoints ⟨d, []⟩ L = pointsOf (lastOnly d.data) L := by simp [joinedPoints]
    rw [hnil]
    exact hrefl _
  | push c d ih =>
    obtain ⟨hc, hd⟩ := Cluster.forall_members_push.mp hc
    rw [joinedPoints_push]
    exact hpush _ _ _ _ (ih hc) fun p => mem_merged_push hU hc hd

theorem joined_facts (hc : ∀ d ∈ c.members, LabelsIn U d) (L : Go.StringMap) :
    (∀ p ∈ pointsOf (lastOnly (merged env c).data) L, p ∈ joinedPoints c L) ∧
    (∀ p ∈ joinedPoints c L, ∃ q ∈ pointsOf (lastOnly (merged env c).data) L, q.timestamp = p.timestamp) ∧
    ∀ p, (∀ l, p ∈ l → p ∈ LastWins.dedup Point.timestamp (env.pointSort.sort l)) →
      p ∈ joinedPoints c L → p ∈ pointsOf (lastOnly (merged env c).data) L := by
  refine points_induction hU (P := fun counted stored => (∀ p ∈ stored, p ∈ counted) ∧
    (∀ p ∈ counted, ∃ q ∈ stored, q.timestamp = p.timestamp) ∧
    ∀ p, (∀ l, p ∈ l → p ∈ LastWins.dedup Point.timestamp (env.pointSort.sort l)) →
      p ∈ counted → p ∈ stored) hc (fun l => ⟨fun _ h => h, fun p h => ⟨p, h, rfl⟩, fun _ _ h => h⟩) ?_
  intro counted stored stored' new ⟨hsub, hkeeps, hkept⟩ hstored
  refine ⟨fun p hp => ?_, fun p hp => ?_, fun p hs hp => ?_⟩
  · -- nothing is invented
    have := LastWins.mem_of_mem_dedup_sort env.pointSort ((hstored p).mp hp)
    exact List.mem_append.mpr ((List.mem_append.mp this).imp_left (hsub p))
  · -- each timestamp stays
    have hmem : ∃ q ∈ stored ++ new, q.timestamp = p.timestamp := by
      obtain hp | hp := List.mem_append.mp hp
      · obtain ⟨q, hq, hqp⟩ := hkeeps p hp
        exact ⟨q, List.mem_append_left _ hq, hqp⟩
      · exact ⟨p, List.mem_append_right _ hp, rfl⟩
    obtain ⟨q, hq, hqp⟩ := hmem
    obtain ⟨r, hr, hrq⟩ := LastWins.exists_mem_dedup_sort env.pointSort hq
    exact ⟨r, (hstored r).mpr hr, hrq.trans hqp⟩
  · -- the point that the sort puts last stays
    refine (hstored p).mpr (hs _ ?_)
    exact List.mem_append.mpr ((List.mem_append.mp hp).imp_left (hkept p hs))

/-- What is stored for a cluster is what the sort of the points lets stay. -/
theorem pointsOf_merged_eq (hc : ∀ d ∈ c.members, LabelsIn U d) (h : c.others ≠ []) (L : Go.StringMap) :
    pointsOf (merged env c).data L = pointsOf (lastOnly (merged env c).data) L := by
  rw [lastOnly_eq_self (nodup_labelSets_merged hU hc h)]

theorem mem_counted_of_mem_merged (hc : ∀ d ∈ c.members, LabelsIn U d) {L : Go.StringMap} {p : Point F}
    (hp : p ∈ pointsOf (merged env c).data L) : p ∈ countedPoints c L := by
  unfold countedPoints
  split
  · have hnil : c.others = [] := List.isEmpty_iff.mp ‹_›
    rwa [merged, hnil] at hp
  · have hne : c.others ≠ [] := fun h => ‹¬ _› (List.isEmpty_iff.mpr h)
    rw [pointsOf_merged_eq hU hc hne] at hp
    exact (joined_facts hU hc L).1 p hp

theorem exists_mem_merged (hc : ∀ d ∈ c.members, LabelsIn U d) {L : Go.StringMap} {p : Point F}
    (hp : p ∈ countedPoints c L) : ∃ q ∈ pointsOf (merged env c).data L, q.timestamp = p.timestamp := by
  unfold countedPoints at hp
  split at hp
  · have hnil : c.others = [] := List.isEmpty_iff.mp ‹_›
    refine ⟨p, ?_, rfl⟩
    rwa [merged, hnil]
  · have hne : c.others ≠ [] := fun h => ‹¬ _› (List.isEmpty_iff.mpr h)
    rw [pointsOf_merged_eq hU hc hne]
    exact (joined_facts hU hc L).2.1 p hp

theorem mem_merged_of_kept (hc : ∀ d ∈ c.members, LabelsIn U d) {L : Go.StringMap} {p : Point F}
    (hs : ∀ l, p ∈ l → p ∈ LastWins.dedup Point.timestamp (env.pointSort.sort l))
    (hp : p ∈ countedPoints c L) : p ∈ pointsOf (merged env c).data L := by
  unfold countedPoints at hp
  split at hp
  · have hnil : c.others = [] := List.isEmpty_iff.mp ‹_›
    rwa [merged, hnil]
  · have hne : c.others ≠ [] := fun h => ‹¬ _› (List.isEmpty_iff.mpr h)
    rw [pointsOf_merged_eq hU hc hne]
    exact (joined_facts hU hc L).2.2 p hs hp

omit hU in
/-- Where intervals have been joined, the points of each series have strictly increasing timestamps. -/
theorem increasing_merged (h : c.others ≠ []) : ∀ s ∈ (merged env c).data,
    s.points.Pairwise fun p q => p.timestamp < q.timestamp := by
  induction c using Cluster.push_induction with
  | single d => exact absurd rfl h
  | push c d _ =>
    rw [merged_push]
    exact fun s hs => increasing_mergeSeries hs

end Points

end QueryCache
end QueryService
