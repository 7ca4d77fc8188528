import BoringPanel.QueryService.QueryCache.SeriesMap

/-!
# Merging intervals

What `MergeWithCachedSeriesData` does to a list of intervals sorted by their starts (`Merges`): the
merged intervals are apart from each other, cover what the intervals cover, and hold for each
timestamp of a label set one of the points that the intervals hold for it. It is the point of the
last interval that has one if the order of ties is kept.
-/

namespace QueryService
namespace QueryCache

variable {F : Type} {env : CacheEnv F} {U : Set Go.StringMap}

/-- The interval covers a time. -/
def Covers (d : CachedSeriesData F) (t : Int) : Prop := d.start ≤ t ∧ t < d.end_

/-- Some interval holds the point. -/
def Holds (ds : List (CachedSeriesData F)) (L : Go.StringMap) (p : Point F) : Prop :=
  ∃ d ∈ ds, p ∈ pointsOf d.data L

/-- The point is that of the last interval that has one at its timestamp. -/
def LastHolds (L : Go.StringMap) (p : Point F) : List (CachedSeriesData F) → Prop
  | [] => False
  | d :: ds => LastHolds L p ds ∨
      (p ∈ pointsOf d.data L ∧ ∀ q, Holds ds L q → q.timestamp ≠ p.timestamp)

/-- The label sets of an interval are among `U`. -/
def LabelsIn (U : Set Go.StringMap) (d : CachedSeriesData F) : Prop := ∀ L ∈ labelSets d.data, L ∈ U

/-- **An interval of the cache.** Its points lie inside, one for each timestamp of a label set, and
its label sets are among `U`. -/
structure WellFormed (U : Set Go.StringMap) (d : CachedSeriesData F) : Prop where
  nonempty : d.start < d.end_
  inside : ∀ L p, p ∈ pointsOf d.data L → Covers d p.timestamp
  nodup : (labelSets d.data).Nodup
  labels : ∀ L ∈ labelSets d.data, L ∈ U
  unique : ∀ L p q, p ∈ pointsOf d.data L → q ∈ pointsOf d.data L → p.timestamp = q.timestamp → p = q

theorem holds_cons {d : CachedSeriesData F} {ds : List (CachedSeriesData F)} {L : Go.StringMap}
    {p : Point F} : Holds (d :: ds) L p ↔ p ∈ pointsOf d.data L ∨ Holds ds L p := by
  simp [Holds]

/-- In a list sorted by starts, no interval with a point at that timestamp starts later. -/
theorem LastHolds.exists_last {L : Go.StringMap} {p : Point F} {ds : List (CachedSeriesData F)}
    (h : LastHolds L p ds) (hsorted : ds.Pairwise fun x y => x.start ≤ y.start) :
    ∃ d ∈ ds, p ∈ pointsOf d.data L ∧
      ∀ e ∈ ds, ∀ q ∈ pointsOf e.data L, q.timestamp = p.timestamp → e.start ≤ d.start := by
  induction ds with
  | nil => exact h.elim
  | cons a ds ih =>
    obtain ⟨hhead, htail⟩ := List.pairwise_cons.mp hsorted
    rcases h with h | ⟨hp, hnone⟩
    · obtain ⟨d, hd, hpd, hlast⟩ := ih h htail
      refine ⟨d, List.mem_cons_of_mem a hd, hpd, fun e he q hq hqp => ?_⟩
      rcases List.mem_cons.mp he with rfl | he
      · exact hhead d hd
      · exact hlast e he q hq hqp
    · refine ⟨a, List.mem_cons_self, hp, fun e he q hq hqp => ?_⟩
      rcases List.mem_cons.mp he with rfl | he
      · exact le_rfl
      · exact absurd hqp (hnone q ⟨e, he, hq⟩)

/-- Intervals that are apart do not cover the same time. -/
theorem eq_of_covers {ds : List (CachedSeriesData F)}
    (hapart : ds.Pairwise fun a b => a.end_ < b.start) {d e : CachedSeriesData F} {t : Int}
    (hd : d ∈ ds) (he : e ∈ ds) (hdt : Covers d t) (het : Covers e t) : d = e := by
  simp only [Covers] at hdt het
  induction ds with
  | nil => exact absurd hd List.not_mem_nil
  | cons a ds ih =>
    obtain ⟨hhead, htail⟩ := List.pairwise_cons.mp hapart
    rcases List.mem_cons.mp hd with hda | hd' <;> rcases List.mem_cons.mp he with hea | he'
    · rw [hda, hea]
    · have := hhead e he'
      subst hda
      omega
    · have := hhead d hd'
      subst hea
      omega
    · exact ih htail hd' he'

/-- Well-formed intervals that are apart hold one point for each timestamp of a label set. -/
theorem holds_unique {ds : List (CachedSeriesData F)} (hds : ∀ d ∈ ds, WellFormed U d)
    (hapart : ds.Pairwise fun a b => a.end_ < b.start) {L : Go.StringMap} {p q : Point F}
    (hp : Holds ds L p) (hq : Holds ds L q) (h : p.timestamp = q.timestamp) : p = q := by
  obtain ⟨d, hd, hpd⟩ := hp
  obtain ⟨e, he, hqe⟩ := hq
  have hdt := (hds d hd).inside L p hpd
  rw [h] at hdt
  obtain rfl := eq_of_covers hapart hd he hdt ((hds e he).inside L q hqe)
  exact (hds d hd).unique L p q hpd hqe h

/-! ### Two intervals -/

/-- Two intervals that touch, as one. -/
def joined (env : CacheEnv F) (a b : CachedSeriesData F) : CachedSeriesData F where
  start := min a.start b.start
  end_ := max a.end_ b.end_
  data := mergeSeries env a.data b.data

section Joined

variable {a b : CachedSeriesData F} {L : Go.StringMap} {p : Point F}

theorem covers_joined (hab : a.start ≤ b.start) (htouch : b.start ≤ a.end_) (t : Int) :
    Covers (joined env a b) t ↔ Covers a t ∨ Covers b t := by
  simp only [Covers, joined]
  omega

theorem injOn_append (hU : Set.InjOn env.hash U) (ha : LabelsIn U a) (hb : LabelsIn U b) :
    Set.InjOn env.hash {L | L ∈ labelSets (a.data ++ b.data)} := by
  refine hU.mono fun L hL => ?_
  rw [Set.mem_ofPred_eq, labelSets, List.map_append, List.mem_append] at hL
  exact hL.elim (ha L) (hb L)

theorem labelsIn_joined (hU : Set.InjOn env.hash U) (ha : LabelsIn U a) (hb : LabelsIn U b) :
    LabelsIn U (joined env a b) := by
  intro L hL
  have := (labelSets_mergeSeries (injOn_append hU ha hb)).2 L hL
  rw [labelSets, List.map_append, List.mem_append] at this
  exact this.elim (ha L) (hb L)

theorem mem_joined (hU : Set.InjOn env.hash U) (ha : WellFormed U a) (hb : WellFormed U b) :
    p ∈ pointsOf (joined env a b).data L ↔
      p ∈ LastWins.dedup Point.timestamp
        (env.pointSort.sort (pointsOf a.data L ++ pointsOf b.data L)) :=
  mem_pointsOf_mergeSeries ha.nodup (injOn_append hU ha.labels hb.labels) L p

/-- Nothing is invented. -/
theorem mem_of_mem_joined (hU : Set.InjOn env.hash U) (ha : WellFormed U a) (hb : WellFormed U b)
    (h : p ∈ pointsOf (joined env a b).data L) :
    p ∈ pointsOf a.data L ∨ p ∈ pointsOf b.data L :=
  List.mem_append.mp (LastWins.mem_of_mem_dedup_sort env.pointSort ((mem_joined hU ha hb).mp h))

/-- Each timestamp stays. -/
theorem exists_mem_joined (hU : Set.InjOn env.hash U) (ha : WellFormed U a) (hb : WellFormed U b)
    (h : p ∈ pointsOf a.data L ∨ p ∈ pointsOf b.data L) :
    ∃ q ∈ pointsOf (joined env a b).data L, q.timestamp = p.timestamp := by
  obtain ⟨q, hq, hkey⟩ :=
    LastWins.exists_mem_dedup_sort env.pointSort (List.mem_append.mpr h)
  exact ⟨q, (mem_joined hU ha hb).mpr hq, hkey⟩

/-- The later interval wins if the order of ties is kept. -/
theorem mem_right_of_mem_joined (hU : Set.InjOn env.hash U) (ha : WellFormed U a)
    (hb : WellFormed U b) (hs : env.pointSort.Stable)
    (h : p ∈ pointsOf (joined env a b).data L) {q : Point F} (hq : q ∈ pointsOf b.data L)
    (hqp : q.timestamp = p.timestamp) : p ∈ pointsOf b.data L :=
  LastWins.mem_of_mem_dedup_sort_append env.pointSort hs ((mem_joined hU ha hb).mp h) hq hqp

theorem WellFormed.joined (hU : Set.InjOn env.hash U) (ha : WellFormed U a) (hb : WellFormed U b)
    (hab : a.start ≤ b.start) (htouch : b.start ≤ a.end_) : WellFormed U (joined env a b) where
  nonempty := by
    have := ha.nonempty
    simp only [QueryCache.joined]
    omega
  inside := fun L p hp => by
    rw [covers_joined hab htouch]
    exact (mem_of_mem_joined hU ha hb hp).imp (ha.inside L p) (hb.inside L p)
  nodup := (labelSets_mergeSeries (injOn_append hU ha.labels hb.labels)).1
  labels := labelsIn_joined hU ha.labels hb.labels
  unique := fun L p q hp hq h =>
    LastWins.eq_of_mem_dedup_sort env.pointSort ((mem_joined hU ha hb).mp hp)
      ((mem_joined hU ha hb).mp hq) h

end Joined

/-! ### A sorted list of intervals -/

/-- `out` is what the intervals `ds` are merged into. -/
structure Merges (env : CacheEnv F) (U : Set Go.StringMap) (ds out : List (CachedSeriesData F)) :
    Prop where
  wellFormed : ∀ d ∈ out, WellFormed U d
  apart : out.Pairwise fun a b => a.end_ < b.start
  covers : ∀ t, (∃ d ∈ out, Covers d t) ↔ ∃ d ∈ ds, Covers d t
  holds : ∀ L p, Holds out L p → Holds ds L p
  keeps : ∀ L p, Holds ds L p → ∃ q, Holds out L q ∧ q.timestamp = p.timestamp
  last : env.pointSort.Stable → ∀ L p, Holds out L p → LastHolds L p ds

/-- The interval that is being built takes the next one in. -/
theorem Merges.join (hU : Set.InjOn env.hash U) {a b : CachedSeriesData F}
    {ds out : List (CachedSeriesData F)} (ha : WellFormed U a) (hb : WellFormed U b)
    (hab : a.start ≤ b.start) (htouch : b.start ≤ a.end_)
    (h : Merges env U (joined env a b :: ds) out) : Merges env U (a :: b :: ds) out where
  wellFormed := h.wellFormed
  apart := h.apart
  covers := fun t => by
    rw [h.covers]
    simp only [List.mem_cons, exists_eq_or_imp, covers_joined hab htouch, or_assoc]
  holds := fun L p hp => by
    rcases holds_cons.mp (h.holds L p hp) with hp | hp
    · rcases mem_of_mem_joined hU ha hb hp with hp | hp
      · exact holds_cons.mpr (.inl hp)
      · exact holds_cons.mpr (.inr (holds_cons.mpr (.inl hp)))
    · exact holds_cons.mpr (.inr (holds_cons.mpr (.inr hp)))
  keeps := fun L p hp => by
    simp only [holds_cons] at hp
    rw [← or_assoc] at hp
    rcases hp with hp | hp
    · obtain ⟨q, hq, hqp⟩ := exists_mem_joined hU ha hb hp
      obtain ⟨r, hr, hrq⟩ := h.keeps L q (holds_cons.mpr (.inl hq))
      exact ⟨r, hr, hrq.trans hqp⟩
    · exact h.keeps L p (holds_cons.mpr (.inr hp))
  last := fun hs L p hp => by
    rcases h.last hs L p hp with hlast | ⟨hmem, hnone⟩
    · exact .inl (.inl hlast)
    · -- the point is that of `b` if `b` has one
      by_cases hbt : ∃ q ∈ pointsOf b.data L, q.timestamp = p.timestamp
      · obtain ⟨q, hq, hqp⟩ := hbt
        exact .inl (.inr ⟨mem_right_of_mem_joined hU ha hb hs hmem hq hqp, hnone⟩)
      · have hpb : p ∉ pointsOf b.data L := fun hp => hbt ⟨p, hp, rfl⟩
        refine .inr ⟨(mem_of_mem_joined hU ha hb hmem).resolve_right hpb, fun q hq => ?_⟩
        rcases holds_cons.mp hq with hq | hq
        · exact fun hqp => hbt ⟨q, hq, hqp⟩
        · exact hnone q hq

/-- The interval that is being built is finished. -/
theorem Merges.cons {a : CachedSeriesData F} {ds out : List (CachedSeriesData F)}
    (ha : WellFormed U a) (hds : ∀ d ∈ ds, WellFormed U d) (hgap : ∀ d ∈ ds, a.end_ < d.start)
    (hout : ∀ d ∈ out, a.end_ < d.start) (h : Merges env U ds out) :
    Merges env U (a :: ds) (a :: out) where
  wellFormed := List.forall_mem_cons.mpr ⟨ha, h.wellFormed⟩
  apart := List.pairwise_cons.mpr ⟨hout, h.apart⟩
  covers := fun t => by
    simp only [List.mem_cons, exists_eq_or_imp, h.covers]
  holds := fun L p hp => holds_cons.mpr ((holds_cons.mp hp).imp_right (h.holds L p))
  keeps := fun L p hp => by
    rcases holds_cons.mp hp with hp | hp
    · exact ⟨p, holds_cons.mpr (.inl hp), rfl⟩
    · obtain ⟨q, hq, hqp⟩ := h.keeps L p hp
      exact ⟨q, holds_cons.mpr (.inr hq), hqp⟩
  last := fun hs L p hp => by
    rcases holds_cons.mp hp with hp | hp
    · -- the later intervals start after all points of `a`
      refine .inr ⟨hp, fun q hq hqp => ?_⟩
      obtain ⟨d, hd, hq⟩ := hq
      have h₁ := ha.inside L p hp
      have h₂ := (hds d hd).inside L q hq
      have h₃ := hgap d hd
      simp only [Covers] at h₁ h₂
      omega
    · exact .inl (h.last hs L p hp)

theorem mergeFrom_merges (hU : Set.InjOn env.hash U) (ds : List (CachedSeriesData F)) :
    ∀ a : CachedSeriesData F, WellFormed U a → (∀ d ∈ ds, WellFormed U d) →
      ((a :: ds).Pairwise fun x y => x.start ≤ y.start) →
      Merges env U (a :: ds) (mergeFrom env a ds) ∧
        ∀ d ∈ mergeFrom env a ds, a.start ≤ d.start := by
  induction ds with
  | nil =>
    intro a ha _ _
    refine ⟨⟨by simpa [mergeFrom] using ha, by simp [mergeFrom], by simp [mergeFrom], fun L p hp => hp,
      fun L p hp => ⟨p, hp, rfl⟩, fun _ L p hp => ?_⟩, by simp [mergeFrom]⟩
    obtain ⟨d, hd, hp⟩ := hp
    obtain rfl : d = a := by simpa [mergeFrom] using hd
    exact .inr ⟨hp, by simp [Holds]⟩
  | cons b ds ih =>
    intro a ha hds hsorted
    obtain ⟨hhead, htail⟩ := List.pairwise_cons.mp hsorted
    have hb := hds b List.mem_cons_self
    have hds' : ∀ d ∈ ds, WellFormed U d := fun d hd => hds d (List.mem_cons_of_mem b hd)
    have hab := hhead b List.mem_cons_self
    by_cases htouch : b.start ≤ a.end_
    · have hstart : (joined env a b).start = a.start := min_eq_left hab
      obtain ⟨hm, hstarts⟩ := ih (joined env a b) (ha.joined hU hb hab htouch) hds'
        (List.pairwise_cons.mpr ⟨fun d hd => by
          rw [hstart]
          exact hhead d (List.mem_cons_of_mem b hd), (List.pairwise_cons.mp htail).2⟩)
      rw [mergeFrom, if_pos htouch]
      exact ⟨hm.join hU ha hb hab htouch, fun d hd => hstart ▸ hstarts d hd⟩
    · obtain ⟨hm, hstarts⟩ := ih b hb hds' htail
      have hgap : a.end_ < b.start := not_le.mp htouch
      rw [mergeFrom, if_neg htouch]
      refine ⟨hm.cons ha hds (fun d hd => ?_) (fun d hd => hgap.trans_le (hstarts d hd)), ?_⟩
      · rcases List.mem_cons.mp hd with rfl | hd
        · exact hgap
        · exact hgap.trans_le ((List.pairwise_cons.mp htail).1 d hd)
      · intro d hd
        rcases List.mem_cons.mp hd with rfl | hd
        · exact le_rfl
        · exact hab.trans (hstarts d hd)

/-- **The merged list.** -/
theorem mergeAll_merges (hU : Set.InjOn env.hash U) {ds : List (CachedSeriesData F)}
    (hds : ∀ d ∈ ds, WellFormed U d) (hsorted : ds.Pairwise fun x y => x.start ≤ y.start) :
    Merges env U ds (mergeAll env ds) := by
  cases ds with
  | nil =>
    exact ⟨by simp [mergeAll], by simp [mergeAll], by simp [mergeAll], fun L p hp => hp,
      fun L p hp => ⟨p, hp, rfl⟩, fun _ L p hp => by simp [Holds, mergeAll] at hp⟩
  | cons a ds =>
    exact (mergeFrom_merges hU ds a (hds a List.mem_cons_self)
      (fun d hd => hds d (List.mem_cons_of_mem a hd)) hsorted).1

end QueryCache
end QueryService
