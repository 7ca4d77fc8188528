import BoringPanel.QueryService.PostProcess.Results

/-!
# The timestamps of a table panel

`applyReduceTo` and `tablePanelResultProcessor`. The second one is to give all points of a table one
timestamp, so that a formula can join them. Its loop takes the first timestamp that is not zero for all
points after it, and leaves the points before it alone; and zero is the timestamp that the first one
gives to a sum, an average, a minimum or a maximum. So the points of one timestamp are those of a table
that begins with another timestamp, or has no other (`tablePanelResultProcessor_sameTimestamp_iff`).
-/

namespace QueryService
namespace PostProcess

variable {F : Type}

/-! ### The reduce step -/

section ReduceTo

variable [GoMath F]

/-- The running minimum or maximum of the loops; the variable starts as zero. -/
def extremum (better : F → F → Bool) : List (Point F) → F
  | [] => GoFloat.ofInt 0
  | p :: ps => ps.foldl (fun m q => if better q.value m then q.value else m) p.value

def sumOfPoints (ps : List (Point F)) : F :=
  ps.foldl (fun sum p => GoMath.add sum p.value) (GoFloat.ofInt 0)

/-- The points that one series is reduced to. The new points have no timestamp, which is zero. -/
def ReduceToOperator.reduce : ReduceToOperator → List (Point F) → List (Point F)
  | .unspecified, ps => ps
  | .last, ps => ps.getLast?.toList
  | .sum, ps => [⟨0, sumOfPoints ps⟩]
  | .avg, ps => [⟨0, GoMath.div (sumOfPoints ps) (GoFloat.ofInt ps.length)⟩]
  | .min, ps => [⟨0, extremum GoMath.lt ps⟩]
  | .max, ps => [⟨0, extremum (fun v m => GoMath.lt m v) ps⟩]

/-- `applyReduceTo`: metrics only, in table and value panels. -/
def applyReduceTo (panelType : PanelType) (builderQueries : BuilderQueries)
    (results : List (Result F)) : List (Result F) :=
  results.map fun result =>
    match builderQueries result.queryName with
    | none => result
    | some query =>
      if query.dataSource = some .metrics ∧ (panelType = .table ∨ panelType = .value) then
        { result with
          series := result.series.map fun s => { s with points := query.reduceTo.reduce s.points } }
      else result

end ReduceTo

/-! ### The table step -/

/-- The body of the innermost loop: the variable `ts` and the point. -/
def settle (ts : Int) (p : Point F) : Int × Point F :=
  if ts = 0 then (p.timestamp, p) else (ts, { p with timestamp := ts })

/-- `tablePanelResultProcessor`. -/
def tablePanelResultProcessor (results : List (Result F)) : List (Result F) :=
  (mapState (fun ts (r : Result F) =>
    let series := mapState (fun ts (s : Series F) =>
      let points := mapState settle ts s.points
      (points.1, { s with points := points.2 })) ts r.series
    (series.1, { r with series := series.2 })) 0 results).2

/-- The three loops are one loop over all points. -/
theorem pointsOfResults_tablePanelResultProcessor (results : List (Result F)) :
    pointsOfResults (tablePanelResultProcessor results) =
      (mapState settle 0 (pointsOfResults results)).2 := by
  have hpoints := Rewrites.refl (settle (F := F))
  have hseries := (hpoints.field Series.points (fun s ps => { s with points := ps })
    fun _ _ => rfl).nested
  have hresults := (hseries.field Result.series (fun r ss => { r with series := ss })
    fun _ _ => rfl).nested
  exact hresults.held 0 results

/-- Once a timestamp is chosen, all points get it. -/
theorem timestamp_of_mem_settle {ts : Int} (hts : ts ≠ 0) (ps : List (Point F)) :
    ∀ p ∈ (mapState settle ts ps).2, p.timestamp = ts := by
  induction ps with
  | nil => exact List.forall_mem_nil _
  | cons q ps ih =>
    simp only [mapState, settle, if_neg hts]
    exact List.forall_mem_cons.mpr ⟨rfl, ih⟩

/-- Points that all have the timestamp zero stay as they are. -/
theorem settle_of_zero {ps : List (Point F)} (h : ∀ p ∈ ps, p.timestamp = 0) :
    (mapState settle 0 ps).2 = ps := by
  induction ps with
  | nil => rfl
  | cons q ps ih =>
    obtain ⟨hq, hps⟩ := List.forall_mem_cons.mp h
    simp only [mapState, settle, hq, if_true]
    rw [ih hps]

/-- A timestamp other than zero does not get lost while none is chosen. -/
theorem exists_timestamp_ne_zero {ps : List (Point F)} (h : ∃ p ∈ ps, p.timestamp ≠ 0) :
    ∃ p ∈ (mapState settle 0 ps).2, p.timestamp ≠ 0 := by
  induction ps with
  | nil =>
    obtain ⟨p, hp, -⟩ := h
    exact absurd hp List.not_mem_nil
  | cons q ps ih =>
    simp only [mapState, settle, if_true]
    by_cases hq : q.timestamp = 0
    · rw [hq]
      obtain ⟨p, hp, hne⟩ := h
      have hps : p ∈ ps := (List.mem_cons.mp hp).resolve_left fun hpq => hne (hpq ▸ hq)
      obtain ⟨r, hr, hrne⟩ := ih ⟨p, hps, hne⟩
      exact ⟨r, List.mem_cons_of_mem q hr, hrne⟩
    · exact ⟨q, List.mem_cons_self, hq⟩

/-- All points of all series of all results carry one timestamp. -/
def SameTimestamp (results : List (Result F)) : Prop :=
  ∃ ts, ∀ p ∈ pointsOfResults results, p.timestamp = ts

/-- The table does not begin with the timestamp zero, unless it has no other. -/
def BeginsWithTimestamp (results : List (Result F)) : Prop :=
  ∀ p, (pointsOfResults results).head? = some p → p.timestamp = 0 →
    ∀ q ∈ pointsOfResults results, q.timestamp = 0

/-- **One timestamp for the table**, exactly when its first timestamp is one that the loop takes. -/
theorem tablePanelResultProcessor_sameTimestamp_iff (results : List (Result F)) :
    SameTimestamp (tablePanelResultProcessor results) ↔ BeginsWithTimestamp results := by
  unfold SameTimestamp BeginsWithTimestamp
  rw [pointsOfResults_tablePanelResultProcessor]
  cases hall : pointsOfResults results with
  | nil =>
    refine ⟨fun _ p hp => ?_, fun _ => ⟨0, List.forall_mem_nil _⟩⟩
    cases hp
  | cons p ps =>
    constructor
    · rintro ⟨ts, hts⟩ p' hp' hzero q hq
      obtain rfl : p = p' := Option.some.inj hp'
      -- the first point keeps its zero, so that another timestamp would show
      have hfirst : p ∈ (mapState settle 0 (p :: ps)).2 := by
        simp only [mapState, settle, if_true]
        exact List.mem_cons_self
      by_contra hne
      obtain ⟨r, hr, hrne⟩ := exists_timestamp_ne_zero ⟨q, hq, hne⟩
      exact hrne ((hts r hr).trans ((hts p hfirst).symm.trans hzero))
    · intro h
      by_cases hzero : p.timestamp = 0
      · have hzeros := h p rfl hzero
        rw [settle_of_zero hzeros]
        exact ⟨0, hzeros⟩
      · refine ⟨p.timestamp, ?_⟩
        simp only [mapState, settle, if_true]
        exact List.forall_mem_cons.mpr ⟨rfl, timestamp_of_mem_settle hzero ps⟩

/-! ### A sum before a log query -/

/-- Query `A` counts by a metric and sums it up; query `B` counts logs. -/
def sumAndLogs : BuilderQueries
  | "A" => some ⟨"A", 60, some .metrics, "A", 0, [], .sum⟩
  | "B" => some ⟨"B", 60, some .logs, "B", 0, [], .unspecified⟩
  | _ => none

def tableResults : List (Result ℚ) :=
  [⟨"A", [⟨∅, [], [⟨60000, 1⟩, ⟨120000, 2⟩]⟩]⟩, ⟨"B", [⟨∅, [], [⟨180000, 5⟩]⟩]⟩]

theorem not_sameTimestamp_sumAndLogs :
    ¬ SameTimestamp (tablePanelResultProcessor (applyReduceTo .table sumAndLogs tableResults)) := by
  rintro ⟨ts, hts⟩
  have hsum : (⟨0, 3⟩ : Point ℚ) ∈ pointsOfResults
      (tablePanelResultProcessor (applyReduceTo .table sumAndLogs tableResults)) := by decide +kernel
  have hlogs : (⟨180000, 5⟩ : Point ℚ) ∈ pointsOfResults
      (tablePanelResultProcessor (applyReduceTo .table sumAndLogs tableResults)) := by decide +kernel
  exact absurd ((hts _ hsum).trans (hts _ hlogs).symm) (by decide)

end PostProcess
end QueryService
