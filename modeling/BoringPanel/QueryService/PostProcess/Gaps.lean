import BoringPanel.QueryService.PostProcess.Join

/-!
# Filling gaps

`StepIntervalForFunction`, `fillGap` and `FillGaps`. A series of a graph gets one point at each multiple of
the step of its query from the aligned start to the end. The step of a formula is the least common multiple
of the steps of its variables, but a formula has points at the timestamps of each of them, where the others
default to zero: the points between are lost. A series keeps its points of the range exactly when they lie
on the grid of its step, and no later point has the timestamp of one (`fillGaps_keeps_iff`).

* `mem_grid_iff`: the grid holds the multiples of the step.
* `fillGap_spec`: the points of a filled series.
* `onGrid_of_multiples`: plain queries lie on their grid.
-/

namespace QueryService
namespace PostProcess

variable {F : Type}

/-! ### Steps -/

/-- `common.GCD`. -/
def gcd (a b : Int) : Int := if b = 0 then a else gcd b (a.tmod b)
termination_by b.natAbs
decreasing_by
  rw [Int.natAbs_tmod]
  exact Nat.mod_lt _ (Int.natAbs_pos.mpr ‹_›)

/-- `common.LCM`; `none` where it divides by zero. -/
def lcm (a b : Int) : Option Int :=
  if gcd a b = 0 then none else some ((Go.int64 (a * b)).tdiv (gcd a b))

/-- `common.LCMList`. -/
def lcmList : List Int → Option Int
  | [] => some 1
  | num :: nums => nums.foldlM lcm num

/-- `StepIntervalForFunction`; `varsOf` gives those of the expression that a text is parsed to, if it can
be parsed. A query that is not there, or an expression that is `nil`, is dereferenced. -/
def stepIntervalForFunction (varsOf : String → Option (List String)) (queries : BuilderQueries)
    (query : String) : Option Int := do
  let q ← queries query
  if q.queryName ≠ q.expression then
    let vars ← varsOf q.expression
    let steps ← vars.mapM fun v => (queries v).map BuilderQuery.stepInterval
    lcmList steps
  else some q.stepInterval

/-! ### The grid -/

/-- `start - (start % (step * 1000))` -/
def alignedStart (start stepMillis : Int) : Int := start - start.tmod stepMillis

/-- The timestamps of `for i := start; i <= end; i += step * 1000`, of at most so many rounds. -/
def timestampsFrom (stepMillis end_ : Int) : ℕ → Int → List Int
  | 0, _ => []
  | rounds + 1, i => if i ≤ end_ then i :: timestampsFrom stepMillis end_ rounds (i + stepMillis) else []

/-- All rounds of the loop for a positive step. -/
def grid (start end_ stepMillis : Int) : List Int :=
  timestampsFrom stepMillis end_ (end_ - alignedStart start stepMillis + 1).toNat
    (alignedStart start stepMillis)

section Fill

variable [GoFloat F]

/-- The values of the points by timestamp, as the loop over points leaves them. -/
def valuesByTimestamp (points : List (Point F)) : Int → Option F :=
  points.foldl (fun v point => Function.update v point.timestamp (some point.value)) fun _ => none

/-- Adds a zero for each timestamp that has no value. -/
def addZeros (timestamps : List Int) (v : Int → Option F) : Int → Option F :=
  timestamps.foldl (fun v i =>
    if (v i).isNone then Function.update v i (some (GoFloat.ofInt 0)) else v) v

/-- `fillGap`; `none` where it divides by zero, or its loop does not end. Times are far from the limits of
an `int64`. -/
def fillGap (series : Series F) (start end_ step : Int) : Option (Series F) :=
  let stepMillis := Go.int64 (step * 1000)
  if stepMillis = 0 then none
  else if stepMillis < 0 ∧ alignedStart start stepMillis ≤ end_ then none
  else
    let timestamps := grid start end_ stepMillis
    let v := addZeros timestamps (valuesByTimestamp series.points)
    some { series with points := timestamps.map fun i => ⟨i, (v i).getD (GoFloat.ofInt 0)⟩ }

/-- If there are no series in the result, we add an empty one, and `fillGap` adds all zeros. -/
def seriesOrEmpty (result : Result F) : List (Series F) :=
  if result.series.length = 0 then [⟨∅, [], []⟩] else result.series

/-- The body of the loop of `FillGaps`. -/
def fillResult (varsOf : String → Option (List String)) (builderQueries : Option BuilderQueries)
    (start end_ : Int) (result : Result F) : Option (Result F) :=
  match builderQueries with
  | none => some { result with series := seriesOrEmpty result }
  | some queries => do
    let step ← stepIntervalForFunction varsOf queries result.queryName
    let series ← (seriesOrEmpty result).mapM fun s => fillGap s start end_ step
    some { result with series := series }

/-- `FillGaps`. -/
def fillGaps (varsOf : String → Option (List String)) (panelType : PanelType)
    (builderQueries : Option BuilderQueries) (start end_ : Int) (results : List (Result F)) :
    Option (List (Result F)) :=
  if panelType ≠ .graph then some results
  else results.mapM (fillResult varsOf builderQueries start end_)

end Fill

/-! ### The timestamps of the grid -/

section Grid

variable {start end_ stepMillis : Int}

theorem mem_timestampsFrom {i t : Int} (hstep : 0 < stepMillis) {rounds : ℕ}
    (hrounds : end_ - i < rounds) :
    t ∈ timestampsFrom stepMillis end_ rounds i ↔ i ≤ t ∧ t ≤ end_ ∧ stepMillis ∣ t - i := by
  induction rounds generalizing i with
  | zero =>
    rw [timestampsFrom]
    refine ⟨fun h => absurd h List.not_mem_nil, fun ⟨h₁, h₂, _⟩ => ?_⟩
    push_cast at hrounds
    omega
  | succ rounds ih =>
    push_cast at hrounds
    rw [timestampsFrom]
    split
    · next hi =>
      rw [List.mem_cons, ih (by omega)]
      constructor
      · rintro (rfl | ⟨hle, hend, hdvd⟩)
        · exact ⟨le_rfl, hi, by simp⟩
        · refine ⟨by omega, hend, ?_⟩
          have hsub : t - i = (t - (i + stepMillis)) + stepMillis := by ring
          rw [hsub]
          exact dvd_add_self_right.mpr hdvd
      · rintro ⟨hle, hend, hdvd⟩
        rcases hle.eq_or_lt with rfl | hlt
        · exact .inl rfl
        · -- a later multiple is at least a step away
          have hge : stepMillis ≤ t - i := Int.le_of_dvd (by omega) hdvd
          refine .inr ⟨by omega, hend, ?_⟩
          have hsub : t - (i + stepMillis) = (t - i) - stepMillis := by ring
          rw [hsub]
          exact (dvd_sub_self_right).mpr hdvd
    · next hi =>
      refine ⟨fun h => absurd h List.not_mem_nil, fun ⟨h₁, h₂, _⟩ => ?_⟩
      omega

theorem timestampsFrom_increasing {i : Int} (hstep : 0 < stepMillis) (rounds : ℕ) :
    (timestampsFrom stepMillis end_ rounds i).Pairwise (· < ·) ∧
      ∀ t ∈ timestampsFrom stepMillis end_ rounds i, i ≤ t := by
  induction rounds generalizing i with
  | zero => exact ⟨List.Pairwise.nil, List.forall_mem_nil _⟩
  | succ rounds ih =>
    rw [timestampsFrom]
    split
    · obtain ⟨hpairwise, hle⟩ := ih (i := i + stepMillis)
      refine ⟨List.pairwise_cons.mpr ⟨fun t ht => ?_, hpairwise⟩, List.forall_mem_cons.mpr ⟨le_rfl,
        fun t ht => ?_⟩⟩
      · have := hle t ht
        omega
      · have := hle t ht
        omega
    · exact ⟨List.Pairwise.nil, List.forall_mem_nil _⟩

theorem dvd_alignedStart : stepMillis ∣ alignedStart start stepMillis := by
  have hmod := Int.mul_tdiv_add_tmod start stepMillis
  refine ⟨start.tdiv stepMillis, ?_⟩
  unfold alignedStart
  omega

/-- **The grid** holds the multiples of the step from the aligned start to the end. -/
theorem mem_grid_iff {t : Int} (hstep : 0 < stepMillis) :
    t ∈ grid start end_ stepMillis ↔
      alignedStart start stepMillis ≤ t ∧ t ≤ end_ ∧ stepMillis ∣ t := by
  unfold grid
  rw [mem_timestampsFrom hstep (by omega), dvd_sub_left dvd_alignedStart]

/-- A multiple of the step in the range is not before the aligned start. -/
theorem alignedStart_le {t : Int} (hstep : 0 < stepMillis) (ht : start ≤ t) (hdvd : stepMillis ∣ t) :
    alignedStart start stepMillis ≤ t := by
  have hdvd' : stepMillis ∣ t - alignedStart start stepMillis := dvd_sub hdvd dvd_alignedStart
  have hmod : -stepMillis < start.tmod stepMillis := Int.lt_tmod_of_pos start hstep
  by_contra hlt
  have hneg : 0 < alignedStart start stepMillis - t := by omega
  have hle := Int.le_of_dvd hneg ((dvd_sub_comm).mp hdvd')
  unfold alignedStart at hle
  omega

theorem grid_increasing (hstep : 0 < stepMillis) : (grid start end_ stepMillis).Pairwise (· < ·) :=
  (timestampsFrom_increasing hstep _).1

/-- The loop is not entered. -/
theorem grid_eq_nil (h : end_ < alignedStart start stepMillis) : grid start end_ stepMillis = [] := by
  unfold grid
  rw [Int.toNat_of_nonpos (by omega)]
  rfl

theorem alignedStart_neg : alignedStart start (-stepMillis) = alignedStart start stepMillis := by
  unfold alignedStart
  rw [Int.tmod_neg]

variable (start end_ stepMillis) in
/-- The loop ends: it does not divide by zero, and with a negative step it is not entered. -/
def LoopEnds : Prop := 0 < stepMillis ∨ (stepMillis < 0 ∧ end_ < alignedStart start stepMillis)

theorem mem_grid_iff_of_loopEnds (h : LoopEnds start end_ stepMillis) {t : Int} :
    t ∈ grid start end_ stepMillis ↔
      alignedStart start stepMillis ≤ t ∧ t ≤ end_ ∧ stepMillis ∣ t := by
  rcases h with h | ⟨-, h⟩
  · exact mem_grid_iff h
  · rw [grid_eq_nil h]
    refine ⟨fun h => absurd h List.not_mem_nil, fun ⟨h₁, h₂, _⟩ => ?_⟩
    omega

theorem grid_increasing_of_loopEnds (h : LoopEnds start end_ stepMillis) :
    (grid start end_ stepMillis).Pairwise (· < ·) := by
  rcases h with h | ⟨-, h⟩
  · exact grid_increasing h
  · rw [grid_eq_nil h]
    exact List.Pairwise.nil

/-- What lies in the range is on the grid exactly if it is a multiple of the step. -/
theorem mem_grid_iff_dvd (h : LoopEnds start end_ stepMillis) {t : Int} (hstart : start ≤ t)
    (hend : t ≤ end_) : t ∈ grid start end_ stepMillis ↔ stepMillis ∣ t := by
  rw [mem_grid_iff_of_loopEnds h]
  refine ⟨fun ⟨_, _, hdvd⟩ => hdvd, fun hdvd => ⟨?_, hend, hdvd⟩⟩
  rcases h with h | ⟨h, -⟩
  · exact alignedStart_le h hstart hdvd
  · rw [← alignedStart_neg]
    exact alignedStart_le (by omega) hstart (Int.neg_dvd.mpr hdvd)

end Grid

/-! ### A filled series -/

/-- The value of the last point at a timestamp. -/
def lastAt (points : List (Point F)) (t : Int) : Option F :=
  ((points.filter fun p => p.timestamp = t).getLast?).map Point.value

theorem valuesByTimestamp_eq (points : List (Point F)) (t : Int) :
    valuesByTimestamp points t = lastAt points t := by
  induction points using List.reverseRecOn with
  | nil => rfl
  | append_singleton points p ih =>
    unfold valuesByTimestamp lastAt at ih ⊢
    rw [List.foldl_append, List.foldl_cons, List.foldl_nil, List.filter_append]
    by_cases hp : p.timestamp = t
    · subst hp
      rw [Function.update_self]
      simp
    · rw [Function.update_of_ne (Ne.symm hp), ih]
      simp [hp]

/-- One filled series: a point at each timestamp of the grid, and all points of the range. -/
structure Filled (start end_ stepMillis : Int) (s s' : Series F) : Prop where
  labels : s'.labels = s.labels
  increasing : s'.points.Pairwise fun p q => p.timestamp < q.timestamp
  timestamps : ∀ t, (∃ p ∈ s'.points, p.timestamp = t) ↔
    alignedStart start stepMillis ≤ t ∧ t ≤ end_ ∧ stepMillis ∣ t
  keeps : ∀ p ∈ s.points, start ≤ p.timestamp → p.timestamp ≤ end_ → p ∈ s'.points

/-- The points of the range lie on the grid, and no later point has the timestamp of one and another
value. -/
def LiesOnGrid (start end_ stepMillis : Int) (s : Series F) : Prop :=
  ∀ p ∈ s.points, start ≤ p.timestamp → p.timestamp ≤ end_ →
    stepMillis ∣ p.timestamp ∧ lastAt s.points p.timestamp = some p.value

section Fill

variable [GoFloat F] {start end_ step stepMillis : Int} {s : Series F}

/-- The zeros are what a missing value is read as. -/
theorem addZeros_getD (timestamps : List Int) (v : Int → Option F) (i : Int) :
    (addZeros timestamps v i).getD (GoFloat.ofInt 0) = (v i).getD (GoFloat.ofInt 0) := by
  induction timestamps generalizing v with
  | nil => rfl
  | cons t timestamps ih =>
    rw [addZeros, List.foldl_cons]
    refine (ih _).trans ?_
    split
    · next hnone =>
      by_cases hit : i = t
      · rw [hit, Function.update_self, Option.isNone_iff_eq_none.mp hnone]
        rfl
      · rw [Function.update_of_ne hit]
    · rfl

/-- The points of a filled series. -/
def filledPoints (start end_ stepMillis : Int) (points : List (Point F)) : List (Point F) :=
  (grid start end_ stepMillis).map fun i => ⟨i, (lastAt points i).getD (GoFloat.ofInt 0)⟩

theorem fillGap_spec (h : LoopEnds start end_ (Go.int64 (step * 1000))) :
    fillGap s start end_ step =
      some { s with points := filledPoints start end_ (Go.int64 (step * 1000)) s.points } := by
  have hne : Go.int64 (step * 1000) ≠ 0 := by
    rcases h with h | ⟨h, -⟩
    · exact h.ne'
    · exact h.ne
  have hends : ¬ (Go.int64 (step * 1000) < 0 ∧
      alignedStart start (Go.int64 (step * 1000)) ≤ end_) := by
    rintro ⟨hneg, hle⟩
    rcases h with h | ⟨-, h⟩
    · exact absurd hneg h.not_gt
    · omega
  unfold fillGap filledPoints
  simp only [if_neg hne, if_neg hends, addZeros_getD, valuesByTimestamp_eq]

/-- Where the loop does not end there is no series. -/
theorem fillGap_eq_none (h : ¬ LoopEnds start end_ (Go.int64 (step * 1000))) :
    fillGap s start end_ step = none := by
  unfold LoopEnds at h
  unfold fillGap
  by_cases hzero : Go.int64 (step * 1000) = 0
  · simp only [if_pos hzero]
  · have hneg : Go.int64 (step * 1000) < 0 ∧ alignedStart start (Go.int64 (step * 1000)) ≤ end_ := by
      omega
    simp only [if_neg hzero, if_pos hneg]

theorem filled_iff (h : LoopEnds start end_ stepMillis) :
    Filled start end_ stepMillis s { s with points := filledPoints start end_ stepMillis s.points } ↔
      LiesOnGrid start end_ stepMillis s := by
  have hmem : ∀ p : Point F, p ∈ filledPoints start end_ stepMillis s.points ↔
      p.timestamp ∈ grid start end_ stepMillis ∧
        (lastAt s.points p.timestamp).getD (GoFloat.ofInt 0) = p.value := by
    intro p
    unfold filledPoints
    rw [List.mem_map]
    constructor
    · rintro ⟨i, hi, rfl⟩
      exact ⟨hi, rfl⟩
    · rintro ⟨hi, hvalue⟩
      exact ⟨p.timestamp, hi, by rw [hvalue]⟩
  constructor
  · intro hfilled p hp hstart hend
    obtain ⟨hgrid, hvalue⟩ := (hmem p).mp (hfilled.keeps p hp hstart hend)
    refine ⟨(mem_grid_iff_dvd h hstart hend).mp hgrid, ?_⟩
    -- the point is there, so that the timestamp has a value
    have hne : (s.points.filter fun q => q.timestamp = p.timestamp) ≠ [] :=
      List.ne_nil_of_mem (List.mem_filter.mpr ⟨hp, by simp⟩)
    obtain ⟨q, hq⟩ := Option.isSome_iff_exists.mp (List.getLast?_isSome.mpr hne)
    unfold lastAt at hvalue ⊢
    rw [hq] at hvalue ⊢
    exact congrArg some hvalue
  · intro hgrid
    refine ⟨rfl, ?_, fun t => ?_, fun p hp hstart hend => ?_⟩
    · unfold filledPoints
      exact List.pairwise_map.mpr (grid_increasing_of_loopEnds h)
    · rw [← mem_grid_iff_of_loopEnds h]
      constructor
      · rintro ⟨p, hp, rfl⟩
        exact ((hmem p).mp hp).1
      · intro ht
        exact ⟨⟨t, (lastAt s.points t).getD (GoFloat.ofInt 0)⟩, (hmem _).mpr ⟨ht, rfl⟩, rfl⟩
    · obtain ⟨hdvd, hlast⟩ := hgrid p hp hstart hend
      exact (hmem p).mpr ⟨(mem_grid_iff_dvd h hstart hend).mpr hdvd, by rw [hlast]; rfl⟩

end Fill

/-! ### All results -/

section Results

variable (varsOf : String → Option (List String)) (queries : BuilderQueries) (start end_ : Int)

/-- The series of a result are filled on the grid of its query. -/
def FilledResult (r r' : Result F) : Prop :=
  ∃ step, stepIntervalForFunction varsOf queries r.queryName = some step ∧
    r'.queryName = r.queryName ∧
    List.Forall₂ (Filled start end_ (Go.int64 (step * 1000))) (seriesOrEmpty r) r'.series

/-- The query of a result has a step with which the loop ends, and the points of the range lie on its
grid. -/
def ResultOnGrid (r : Result F) : Prop :=
  ∃ step, stepIntervalForFunction varsOf queries r.queryName = some step ∧
    LoopEnds start end_ (Go.int64 (step * 1000)) ∧
    ∀ s ∈ r.series, LiesOnGrid start end_ (Go.int64 (step * 1000)) s

variable {varsOf queries start end_} [GoFloat F]

omit [GoFloat F] in
theorem seriesOrEmpty_ne_nil (r : Result F) : seriesOrEmpty r ≠ [] := by
  unfold seriesOrEmpty
  split
  · exact List.cons_ne_nil _ _
  · next h => exact fun hnil => h (by rw [hnil]; rfl)

omit [GoFloat F] in
theorem liesOnGrid_seriesOrEmpty {stepMillis : Int} {r : Result F} :
    (∀ s ∈ seriesOrEmpty r, LiesOnGrid start end_ stepMillis s) ↔
      ∀ s ∈ r.series, LiesOnGrid start end_ stepMillis s := by
  unfold seriesOrEmpty
  split
  · next h =>
    rw [List.eq_nil_of_length_eq_zero h]
    refine iff_of_true (fun s hs => ?_) (List.forall_mem_nil _)
    rw [List.mem_singleton.mp hs]
    exact List.forall_mem_nil _
  · exact Iff.rfl

theorem fillResult_iff (r : Result F) :
    (∃ r', fillResult varsOf (some queries) start end_ r = some r' ∧
      FilledResult varsOf queries start end_ r r') ↔ ResultOnGrid varsOf queries start end_ r := by
  unfold ResultOnGrid
  rw [← exists_congr fun step => and_congr_right fun _ => and_congr_right fun _ =>
    liesOnGrid_seriesOrEmpty (r := r)]
  constructor
  · rintro ⟨r', hr', step, hstep, hname, hfilled⟩
    refine ⟨step, hstep, ?_⟩
    simp only [fillResult, hstep, Option.bind_eq_bind, Option.bind_some, Option.bind_eq_some_iff,
      Option.some.injEq] at hr'
    obtain ⟨series, hseries, rfl⟩ := hr'
    have hends : LoopEnds start end_ (Go.int64 (step * 1000)) := by
      by_contra hnot
      obtain ⟨s, hs⟩ := List.exists_mem_of_ne_nil _ (seriesOrEmpty_ne_nil r)
      obtain ⟨s', hs', -⟩ := exists_of_mem_mapM hseries hfilled hs
      rw [fillGap_eq_none hnot] at hs'
      cases hs'
    refine ⟨hends, fun s hs => ?_⟩
    obtain ⟨s', hs', hfilled⟩ := exists_of_mem_mapM hseries hfilled hs
    rw [fillGap_spec hends] at hs'
    obtain rfl := Option.some.inj hs'
    exact (filled_iff hends).mp hfilled
  · rintro ⟨step, hstep, hends, hgrid⟩
    obtain ⟨series, hseries, hfilled⟩ := (exists_mapM_iff (f := fun s => fillGap s start end_ step)
      (R := Filled start end_ (Go.int64 (step * 1000)))).mpr fun s hs =>
        ⟨_, fillGap_spec hends, (filled_iff hends).mpr (hgrid s hs)⟩
    refine ⟨{ r with series := series }, ?_, step, hstep, rfl, hfilled⟩
    simp only [fillResult, hstep, Option.bind_eq_bind, Option.bind_some, hseries]

/-- **Filling gaps keeps the data** exactly where the data lie on the grid. -/
theorem fillGaps_keeps_iff (results : List (Result F)) :
    (∃ results', fillGaps varsOf .graph (some queries) start end_ results = some results' ∧
      List.Forall₂ (FilledResult varsOf queries start end_) results results') ↔
    ∀ r ∈ results, ResultOnGrid varsOf queries start end_ r := by
  have hgraph : fillGaps varsOf .graph (some queries) start end_ results =
      results.mapM (fillResult varsOf (some queries) start end_) := if_neg (not_not.mpr rfl)
  rw [hgraph, exists_mapM_iff]
  exact forall₂_congr fun r _ => fillResult_iff r

end Results

/-! ### A formula of two steps -/

/-- `A + B`; a value that defaults to zero is an `int`. -/
def sumOfVariables : Expression ℚ where
  vars := ["A", "B"]
  evaluate values :=
    let number : Option (GoValue ℚ) → Option ℚ
      | some (.float x) => some x
      | some (.int n) => some n
      | _ => none
    match number (values "A"), number (values "B") with
    | some a, some b => .ok (.float (a + b))
    | _, _ => .error "invalid operation"
  congr := fun values values' h => by
    rw [h "A" (by simp), h "B" (by simp)]

/-- `A` each minute, `B` each minute and a half, and `F1` their sum. -/
def twoSteps : BuilderQueries
  | "A" => some ⟨"A", 60, some .logs, "A", 0, [], .unspecified⟩
  | "B" => some ⟨"B", 90, some .logs, "B", 0, [], .unspecified⟩
  | "F1" => some ⟨"F1", 60, none, "A + B", 0, [], .unspecified⟩
  | _ => none

def twoCounts : List (Result ℚ) :=
  [⟨"A", [⟨∅, [], [⟨60000, 1⟩]⟩]⟩, ⟨"B", [⟨∅, [], [⟨90000, 2⟩]⟩]⟩]

theorem stepInterval_twoSteps :
    stepIntervalForFunction (fun _ => some ["A", "B"]) twoSteps "F1" = some 180 := by
  have hgcd : gcd 60 90 = 30 := by
    rw [gcd, gcd, gcd, gcd]
    decide
  have hlcm : lcm 60 90 = some 180 := by
    rw [lcm, hgcd]
    decide
  show lcmList [60, 90] = _
  rw [lcmList, List.foldlM_cons, hlcm]
  rfl

/-- The formula has points at one and at one and a half minutes, and none of them is kept. -/
theorem not_filled_twoSteps :
    processResults (.insertion _) (fun _ => []) twoCounts sumOfVariables (fun _ => true) =
      .ok ⟨"", [⟨∅, [], [⟨60000, 1⟩, ⟨90000, 2⟩]⟩]⟩ ∧
    ¬ ∃ results', fillGaps (fun _ => some ["A", "B"]) .graph (some twoSteps) 0 180000
        [(⟨"F1", [⟨∅, [], [⟨60000, 1⟩, ⟨90000, 2⟩]⟩]⟩ : Result ℚ)] = some results' ∧
      List.Forall₂ (FilledResult (fun _ => some ["A", "B"]) twoSteps 0 180000)
        [⟨"F1", [⟨∅, [], [⟨60000, 1⟩, ⟨90000, 2⟩]⟩]⟩] results' := by
  refine ⟨by decide +kernel, ?_⟩
  rw [show fillGaps _ _ _ _ _ _ = List.mapM _ _ from if_neg (not_not.mpr rfl), exists_mapM_iff]
  intro h
  obtain ⟨step, hstep, -, hgrid⟩ := (fillResult_iff _).mp (h _ List.mem_cons_self)
  obtain rfl : 180 = step := Option.some.inj (stepInterval_twoSteps.symm.trans hstep)
  obtain ⟨hdvd, -⟩ := hgrid _ List.mem_cons_self ⟨60000, 1⟩ List.mem_cons_self (by decide) (by decide)
  exact absurd hdvd (by decide)

end PostProcess
end QueryService
