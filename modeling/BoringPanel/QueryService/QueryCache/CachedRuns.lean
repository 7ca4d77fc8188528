import BoringPanel.QueryService.QueryCache.CachedPath

/-!
# Runs of the cached path

A safe request is answered correctly (`RequestOk.correct`), and safe steps keep the cache faithful
(`Faithful.request`, `Faithful.update`); a run of safe steps is answered correctly throughout
(`Faithful.runCorrect`). Without the condition it is not: what was fetched inside the flux interval is
cached, and trusted as soon as the clock has moved on.
-/

namespace QueryService
namespace QueryCache

variable {F S : Type} {env : CacheEnv F} {fluxInterval : Int} {b : Backend F S}
  {U : Set Go.StringMap} {h : History} {w : World F S}

/-! ### The answer -/

section Request

variable {r : Request} {cap : Int}

theorem Merges.injOn {ds out : List (CachedSeriesData F)} (hM : Merges env U ds out)
    (hU : Set.InjOn env.hash U) :
    Set.InjOn env.hash {L | L ∈ labelSets (out.flatMap CachedSeriesData.data)} := by
  refine hU.mono fun L hL => ?_
  obtain ⟨s, hs, rfl⟩ := List.mem_map.mp hL
  obtain ⟨d, hd, hsd⟩ := List.mem_flatMap.mp hs
  exact (hM.wellFormed d hd).labels _ (List.mem_map_of_mem hsd)

theorem mem_pointsOf_flatMap {ds : List (CachedSeriesData F)} {L : Go.StringMap} {p : Point F} :
    p ∈ pointsOf (ds.flatMap CachedSeriesData.data) L ↔ Holds ds L p := by
  simp only [mem_pointsOf, List.mem_flatMap, Holds]
  constructor
  · rintro ⟨s, ⟨d, hd, hs⟩, hL, hp⟩
    exact ⟨d, hd, s, hs, hL, hp⟩
  · rintro ⟨d, hd, s, hs, hL, hp⟩
    exact ⟨s, ⟨d, hd, hs⟩, hL, hp⟩

/-- What is read off a merged list are its points of the range, the end included. -/
theorem Merges.mem_getSeries {ds out : List (CachedSeriesData F)} (hM : Merges env U ds out)
    (hU : Set.InjOn env.hash U) {start end_ : Int} {L : Go.StringMap} {p : Point F} :
    p ∈ pointsOf (getSeriesFromCachedData env out start end_) L ↔
      Holds out L p ∧ start ≤ p.timestamp ∧ p.timestamp ≤ end_ := by
  rw [mem_pointsOf_getSeries (hM.injOn hU)]
  have hfilter : ∀ q, q ∈ ((pointsOf (out.flatMap CachedSeriesData.data) L).filter
      fun p => p.timestamp ≥ start ∧ p.timestamp ≤ end_) ↔
      Holds out L q ∧ start ≤ q.timestamp ∧ q.timestamp ≤ end_ := by
    intro q
    rw [List.mem_filter, mem_pointsOf_flatMap, decide_eq_true_eq]
  constructor
  · intro hp
    exact (hfilter p).mp (LastWins.mem_of_mem_dedup_sort env.pointSort hp)
  · intro hp
    refine LastWins.mem_dedup_sort_of_agree env.pointSort ((hfilter p).mpr hp) fun q hq hqp => ?_
    exact holds_unique hM.wellFormed hM.apart ((hfilter q).mp hq).1 hp.1 hqp

/-- **A safe request gets what the store holds.** -/
theorem RequestOk.correct (hok : RequestOk env fluxInterval h w r cap) (hU : Set.InjOn env.hash U)
    (hb : b.LabelsIn U) (hF : Faithful b U h w) : Correct env fluxInterval b w r := by
  refine ⟨_, cachedPath_eq hF hok, fun L p => ?_⟩
  rw [(merges_parts hU hb hF hok).mem_getSeries hU, b.mem_query]
  constructor
  · rintro ⟨hp, hs, he⟩
    have hne : p.timestamp ≠ r.end_ := by
      intro hpe
      refine hok.end_free L p ?_ hpe
      exact (holds_merged_iff_of_outside hU hb hF hok (by omega)).mp hp
    have hlt : p.timestamp < r.end_ := by omega
    exact ⟨⟨hs, hlt⟩, (holds_merged_iff hU hb hF hok hs hlt).mp hp⟩
  · rintro ⟨⟨hs, he⟩, hvalue⟩
    exact ⟨(holds_merged_iff hU hb hF hok hs he).mpr hvalue, hs, he.le⟩

/-! ### The steps -/

theorem World.step_request (hF : Faithful b U h w) (hok : RequestOk env fluxInterval h w r cap) :
    w.step env fluxInterval b (.request r) =
      { w with cached := some (mergeAll env (w.parts env fluxInterval b r)) } := by
  simp only [World.step, cachedPath_eq hF hok]

/-- **A safe request keeps the cache faithful.** -/
theorem Faithful.request (hF : Faithful b U h w) (hok : RequestOk env fluxInterval h w r cap)
    (hU : Set.InjOn env.hash U) (hb : b.LabelsIn U) :
    Faithful b U (h.step env fluxInterval b w (.request r))
      (w.step env fluxInterval b (.request r)) := by
  rw [World.step_request hF hok]
  have hM := merges_parts hU hb hF hok
  set out := mergeAll env (w.parts env fluxInterval b r) with hout
  -- a time is in the range, or it is not fetched
  have hcases : ∀ t, (r.start ≤ t ∧ t < r.end_) ∨
      (¬ (r.start ≤ t ∧ t < r.end_) ∧ t ∉ fetched env fluxInterval w r) := by
    intro t
    by_cases ht : r.start ≤ t ∧ t < r.end_
    · exact .inl ht
    · exact .inr ⟨ht, fun hfetched => ht (fetched_subset hF hok hfetched)⟩
  refine ⟨hM.wellFormed, hM.apart, ?_, ?_, ?_, ?_⟩
  · intro d hd t hdt hclean L x hx
    have hholds : Holds out L ⟨t, x⟩ := by
      rcases hcases t with ⟨hs, he⟩ | ⟨hrange, hnot⟩
      · exact (holds_merged_iff hU hb hF hok hs he).mpr hx
      · rw [hout, holds_merged_iff_of_outside hU hb hF hok hrange]
        obtain ⟨c, hc, hct⟩ :=
          ((covers_merged_iff hU hb hF hok t).mp ⟨d, hd, hdt⟩).resolve_right hnot
        exact ⟨c, hc, hF.seen c hc t hct (fun hdirty => hclean ⟨hdirty, hnot⟩) L x hx⟩
    obtain ⟨e, he, hmem⟩ := hholds
    obtain rfl := eq_of_covers hM.apart he hd ((hM.wellFormed e he).inside L _ hmem) hdt
    exact hmem
  · intro L p hp
    change Holds out L p at hp
    rcases hcases p.timestamp with ⟨hs, he⟩ | ⟨hrange, -⟩
    · exact Option.isSome_of_eq_some ((holds_merged_iff hU hb hF hok hs he).mp hp)
    · exact hF.kept L p ((holds_merged_iff_of_outside hU hb hF hok hrange).mp hp)
  · intro L p hp hcur
    change Holds out L p at hp
    rcases hcases p.timestamp with ⟨hs, he⟩ | ⟨hrange, hnot⟩
    · exact (holds_merged_iff hU hb hF hok hs he).mp hp
    · refine hF.current L p ((holds_merged_iff_of_outside hU hb hF hok hrange).mp hp) ?_
      exact fun hrep => hcur ⟨hrep, hnot⟩
  · exact Set.sdiff_subset_sdiff_left hF.replaced_dirty

end Request

/-- **A safe change of the store keeps the cache faithful.** -/
theorem Faithful.update (hF : Faithful b U h w) {σ : S} (hok : UpdateOk b w σ) :
    Faithful b U (h.step env fluxInterval b w (.update σ))
      (w.step env fluxInterval b (.update σ)) where
  wellFormed := hF.wellFormed
  apart := hF.apart
  seen := by
    intro d hd t hdt hclean L x hx
    change b.value σ L t = some x at hx
    have hsame : b.value w.store L t = b.value σ L t := by
      by_contra hne
      exact hclean (.inr ⟨L, hne⟩)
    exact hF.seen d hd t hdt (fun hdirty => hclean (.inl hdirty)) L x (hsame.trans hx)
  kept := by
    rintro L p ⟨d, hd, hp⟩
    exact hok d hd _ ((hF.wellFormed d hd).inside L p hp) L (hF.kept L p ⟨d, hd, hp⟩)
  current := by
    rintro L p ⟨d, hd, hp⟩ hcur
    have hold := hF.current L p ⟨d, hd, hp⟩ fun hrep => hcur (.inl hrep)
    have hsome := hok d hd _ ((hF.wellFormed d hd).inside L p hp) L (hF.kept L p ⟨d, hd, hp⟩)
    obtain ⟨y, hy⟩ := Option.isSome_iff_exists.mp hsome
    by_cases hne : p.value = y
    · exact hne ▸ hy
    · exact absurd (.inr ⟨L, p.value, y, hold, hy, hne⟩) hcur
  replaced_dirty := by
    refine Set.union_subset_union hF.replaced_dirty ?_
    rintro t ⟨L, x, y, hx, hy, hne⟩
    refine ⟨L, fun heq => hne ?_⟩
    rw [hx, hy] at heq
    exact Option.some.inj heq

/-- **In a run of safe steps every request gets what the store holds.** The label sets that occur are
among `U`, where the hash tells them apart. -/
theorem Faithful.runCorrect (hU : Set.InjOn env.hash U) (hb : b.LabelsIn U)
    (steps : List (Step S)) (hF : Faithful b U h w) (hok : RunOk env fluxInterval b h w steps) :
    RunCorrect env fluxInterval b w steps := by
  induction steps generalizing h w with
  | nil => trivial
  | cons step steps ih =>
    cases step with
    | request r =>
      obtain ⟨⟨cap, hr⟩, hrest⟩ := hok
      exact ⟨hr.correct hU hb hF, ih (hF.request hr hU hb) hrest⟩
    | update σ =>
      obtain ⟨hσ, hrest⟩ := hok
      exact ih (hF.update hσ) hrest

/-! ### A late point -/

section LatePoint

/-- A store with one series, without labels. -/
def Backend.single (F : Type) :
    Backend F {points : List (Point F) // (points.map Point.timestamp).Nodup} where
  value σ L t := if L = ∅ then (σ.1.find? fun p => p.timestamp = t).map Point.value else none
  query σ start end_ :=
    [{ labels := ∅, labelsArray := []
       points := σ.1.filter fun p => start ≤ p.timestamp ∧ p.timestamp < end_ }]
  mem_query := by
    rintro ⟨points, hnd⟩ start end_ L p
    simp only [mem_pointsOf, List.mem_singleton, exists_eq_left, List.mem_filter, decide_eq_true_eq]
    by_cases hL : L = ∅
    swap
    · simp [hL, eq_comm]
    have hfind : (points.find? fun q => q.timestamp = p.timestamp).map Point.value = some p.value ↔
        p ∈ points := by
      rw [Option.map_eq_some_iff]
      constructor
      · rintro ⟨⟨tq, vq⟩, hq, rfl⟩
        obtain rfl : tq = p.timestamp := by simpa using List.find?_some hq
        exact List.mem_of_find?_eq_some hq
      · intro hp
        have hsome : (points.find? fun q => q.timestamp = p.timestamp).isSome := by
          rw [List.find?_isSome]
          exact ⟨p, hp, by simp⟩
        obtain ⟨q, hq⟩ := Option.isSome_iff_exists.mp hsome
        have hqt : q.timestamp = p.timestamp := by simpa using List.find?_some hq
        rw [List.inj_on_of_nodup_map hnd (List.mem_of_find?_eq_some hq) hp hqt] at hq
        exact ⟨p, hq, rfl⟩
    simp only [hL, true_and, if_true, hfind, and_comm]
  nodup := fun _ _ _ => by simp [labelSets]

/-- A value of the last minute, before and after a late point has come. -/
def World.lateValue (x : Int) :
    {points : List (Point Int) // (points.map Point.timestamp).Nodup} :=
  ⟨[⟨540000, x⟩], List.nodup_singleton _⟩

/-- Nothing is cached, and the late point has not come. -/
def World.early : World Int {points : List (Point Int) // (points.map Point.timestamp).Nodup} where
  cached := none
  store := World.lateValue 1

/-- The dashboard of the last ten minutes, opened at minute ten. -/
def Request.atTen : Request := ⟨600000, 0, 600000, 60⟩

theorem faithful_early : Faithful (Backend.single Int) {∅} ⟨∅, ∅⟩ World.early where
  wellFormed := by simp [World.intervals, World.early]
  apart := by simp [World.intervals, World.early]
  seen := by simp [World.intervals, World.early]
  kept := by simp [World.intervals, World.early, Holds]
  current := by simp [World.intervals, World.early, Holds]
  replaced_dirty := subset_rfl

/-- What the first request caches. -/
theorem intervals_early :
    (World.early.step (CacheEnv.insertion Int) 300000 (Backend.single Int)
        (.request Request.atTen)).intervals =
      [{ start := 0, end_ := 600000
         data := [{ labels := ∅, labelsArray := [], points := [⟨540000, 1⟩] }] }] := rfl

/-- The store changes in one place. -/
theorem changed_late {L : Go.StringMap} {t : Int}
    (h : (Backend.single Int).value (World.lateValue 1) L t ≠
      (Backend.single Int).value (World.lateValue 2) L t) : t = 540000 := by
  by_contra ht
  simp [Backend.single, World.lateValue, Ne.symm ht] at h

/-- It is opened again at minute eleven. -/
theorem Faithful.runCorrect_late :
    RunCorrect (CacheEnv.insertion Int) 300000 (Backend.single Int) World.early
      [.request Request.atTen, .update (World.lateValue 2),
        .request ⟨660000, 60000, 660000, 60⟩] := by
  refine Faithful.runCorrect (h := ⟨∅, ∅⟩) (U := {∅}) (Set.injOn_singleton _ _) ?_ _
    faithful_early ⟨⟨300000, ?_⟩, ?_, ⟨360000, ?_⟩, trivial⟩
  · intro σ start end_ L hL
    exact List.mem_singleton.mp hL
  · exact ⟨by decide, by decide, by simp [World.intervals, World.early], by simp, by simp,
      by simp [World.intervals, World.early, Holds]⟩
  · intro d hd t hdt L ht
    change ((Backend.single Int).value (World.lateValue 1) L t).isSome at ht
    by_cases hL : L = ∅ <;> by_cases h540 : (540000 : Int) = t <;>
      simp [Backend.single, World.lateValue, hL, h540] at ht ⊢
  · refine ⟨by decide, by decide, ?_, ?_, ?_, ?_⟩
    · intro d hd
      obtain rfl := List.mem_singleton.mp (intervals_early ▸ hd)
      decide
    · rintro t (⟨ht, -⟩ | ⟨L, hL⟩) hs he d hd hdt
      · exact ht.elim
      · obtain rfl := List.mem_singleton.mp (intervals_early ▸ hd)
        exact ⟨rfl, by rw [changed_late hL]; decide⟩
    · intro t ht hs he d hd hdt
      obtain rfl := List.mem_singleton.mp (intervals_early ▸ hd)
      exact ⟨SortSlice.insertion_stable, by decide⟩
    · rintro L p ⟨d, hd, hp⟩ hpe
      obtain rfl := List.mem_singleton.mp (intervals_early ▸ hd)
      obtain ⟨s, hs, -, hp⟩ := mem_pointsOf.mp hp
      obtain rfl := List.mem_singleton.mp hs
      obtain rfl := List.mem_singleton.mp hp
      revert hpe
      decide

/-- **A late point is missed**: the dashboard of minutes zero to ten, opened again at minute thirty.
In between the store has changed in the flux interval of minute ten only. -/
theorem runCorrect_late_fails :
    Faithful (Backend.single Int) {∅} ⟨∅, ∅⟩ World.early ∧
      (∀ L t, (Backend.single Int).value (World.lateValue 1) L t ≠
        (Backend.single Int).value (World.lateValue 2) L t → Request.atTen.now - 300000 ≤ t) ∧
      ¬ RunCorrect (CacheEnv.insertion Int) 300000 (Backend.single Int) World.early
        [.request Request.atTen, .update (World.lateValue 2),
          .request ⟨1800000, 0, 600000, 60⟩] := by
  refine ⟨faithful_early, fun L t h => ?_, ?_⟩
  · rw [changed_late h]
    decide
  · rintro ⟨-, ⟨res, hres, hsame⟩, -⟩
    have hanswer : pointsOf res.1 ∅ = [⟨540000, 1⟩] := by
      obtain rfl := Option.some.inj hres
      decide
    have hstale := (hsame ∅ ⟨540000, 1⟩).mp (by rw [hanswer]; exact List.mem_singleton_self _)
    revert hstale
    decide

end LatePoint

end QueryCache
end QueryService
