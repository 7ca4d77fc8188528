import BoringPanel.QueryService.Model.Series
import Mathlib.Algebra.Order.BigOperators.Group.List
import Mathlib.Algebra.Order.Field.Basic
import Mathlib.Data.Rat.Sqrt
import Mathlib.Tactic.FieldSimp
import Mathlib.Tactic.Linarith
import Mathlib.Tactic.Ring

/-!
# Prediction of a series from past seasons

`anomaly/seasonal.go`, in `ee/query-service`: averages, the moving average, the predicted series, its bounds
and the anomaly scores, in exact arithmetic. The square root is a parameter, and a score is the pair of the
numerator and the denominator of its quotient, which are both zero for a series without deviation.

The moving average divides by the size of the window. It is the mean of the window if the window is full
(`between_getMovingAvg`), and a constant is predicted only from seven points or more
(`predictsConstant_iff`).
-/

namespace QueryService.Anomaly

variable {K : Type} [Field K] [LinearOrder K]

def movingAvgWindowSize : Nat := 7

/-! ### Averages -/

/-- `getAvg`; the series is nil if no series matches. -/
def getAvg : Option (Series K) → K
  | none => 0
  | some series =>
    if series.points.length = 0 then 0
    else (series.points.map Point.value).sum / series.points.length

def getStdDev (sqrt : K → K) : Option (Series K) → K
  | none => 0
  | some series =>
    if series.points.length = 0 then 0
    else
      let avg := getAvg (some series)
      sqrt ((series.points.map fun smpl => (smpl.value - avg) ^ 2).sum / series.points.length)

/-- The points that `getMovingAvg` adds up. -/
def window (points : List (Point K)) (movingAvgWindowSize startIdx : Nat) : List (Point K) :=
  let startIdx : Int :=
    if (startIdx : Int) ≥ points.length - movingAvgWindowSize then
      max 0 ((points.length : Int) - movingAvgWindowSize)
    else startIdx
  (points.drop startIdx.toNat).take movingAvgWindowSize

def getMovingAvg (series : Option (Series K)) (movingAvgWindowSize startIdx : Nat) : K :=
  match series with
  | none => 0
  | some series =>
    if series.points.length = 0 then 0
    else ((window series.points movingAvgWindowSize startIdx).map Point.value).sum / movingAvgWindowSize

def getMean (floats : List K) : K :=
  if floats.length = 0 then 0 else floats.sum / floats.length

/-! ### Predictions -/

/-- The series of the current period and the ones that match it. -/
structure SeriesGroup (K : Type) where
  series : Series K
  prevSeries : Option (Series K)
  currentSeasonSeries : Option (Series K)
  pastSeasonSeries : Option (Series K)
  past2SeasonSeries : Option (Series K)
  past3SeasonSeries : Option (Series K)

namespace SeriesGroup

variable (group : SeriesGroup K) (sqrt : K → K)

/-- `getExpectedValue`. -/
def getExpectedValue (idx : Nat) : K :=
  getMovingAvg group.prevSeries movingAvgWindowSize idx + getAvg group.currentSeasonSeries -
    getMean [getAvg group.pastSeasonSeries, getAvg group.past2SeasonSeries, getAvg group.past3SeasonSeries]

/-- The value that `getPredictedSeries` predicts for a point. -/
def predictedValue (idx : Nat) : K :=
  let predictedValue := getMovingAvg group.prevSeries movingAvgWindowSize idx + getAvg group.currentSeasonSeries -
    getMean [getAvg group.pastSeasonSeries, getAvg group.past2SeasonSeries, getAvg group.past3SeasonSeries]
  if predictedValue < 0 then getMovingAvg group.prevSeries movingAvgWindowSize idx else predictedValue

/-- A loop over the points that gives a series with a value for each. -/
def pointwise {V : Type} (series : Series K) (value : Nat → Point K → V) : Series V where
  labels := series.labels
  labelsArray := series.labelsArray
  points := series.points.zipIdx.map fun (curr, idx) => { timestamp := curr.timestamp, value := value idx curr }

def getPredictedSeries : Series K := pointwise group.series fun idx _ => group.predictedValue idx

/-- The numerator and the denominator of `getScore`. -/
def getScore (value : K) (idx : Nat) : K × K :=
  (value - group.getExpectedValue idx, getStdDev sqrt group.currentSeasonSeries)

def getAnomalyScores : Series (K × K) :=
  pointwise group.series fun idx curr => group.getScore sqrt curr.value idx

/-- `getBounds`, the upper and the lower ones. -/
def getBounds (series predictedSeries : Series K) (zScoreThreshold : K) : Series K × Series K :=
  (pointwise series fun idx _ =>
      getMovingAvg (some predictedSeries) movingAvgWindowSize idx + zScoreThreshold * getStdDev sqrt (some series),
    pointwise series fun idx _ =>
      max (getMovingAvg (some predictedSeries) movingAvgWindowSize idx -
        zScoreThreshold * getStdDev sqrt (some series)) 0)

end SeriesGroup

/-! ### The window -/

/-- A moving average lies between the least and the greatest value of its window. -/
def Between (points : List (Point K)) (size startIdx : Nat) (avg : K) : Prop :=
  (∃ p ∈ window points size startIdx, p.value ≤ avg) ∧ ∃ p ∈ window points size startIdx, avg ≤ p.value

/-- All points of a series have one value, and there are some. -/
structure IsFlat (series : Series K) (c : K) : Prop where
  nonempty : series.points ≠ []
  value_eq : ∀ p ∈ series.points, p.value = c

section Window

variable {series : Series K} {points : List (Point K)} {size startIdx : Nat} {p : Point K} {c : K}

omit [Field K] [LinearOrder K] in
/-- The window is full if there are enough points. -/
theorem length_window (points : List (Point K)) (size startIdx : Nat) :
    (window points size startIdx).length = min points.length size := by
  simp only [window, List.length_take, List.length_drop]
  split <;> omega

omit [Field K] [LinearOrder K] in
theorem mem_of_mem_window (h : p ∈ window points size startIdx) : p ∈ points :=
  List.mem_of_mem_drop (List.mem_of_mem_take h)

omit [LinearOrder K] in
theorem sum_value (h : ∀ p ∈ points, p.value = c) : (points.map Point.value).sum = points.length * c := by
  have hreplicate : points.map Point.value = List.replicate points.length c := by
    rw [← List.length_map (f := Point.value)]
    refine List.eq_replicate_of_mem fun v hv => ?_
    obtain ⟨p, hp, rfl⟩ := List.mem_map.mp hv
    exact h p hp
  rw [hreplicate, List.sum_replicate, nsmul_eq_mul]

omit [Field K] [LinearOrder K] in
theorem IsFlat.length_pos (h : IsFlat series c) : series.points.length ≠ 0 :=
  (List.length_pos_of_ne_nil h.nonempty).ne'

omit [LinearOrder K] in
/-- The moving average of a constant is less if the window is not full. -/
theorem IsFlat.getMovingAvg (h : IsFlat series c) (size startIdx : Nat) :
    getMovingAvg (some series) size startIdx = (min series.points.length size : Nat) * c / size := by
  have hvalue : ∀ p ∈ window series.points size startIdx, p.value = c := fun p hp =>
    h.value_eq p (mem_of_mem_window hp)
  simp only [Anomaly.getMovingAvg, if_neg h.length_pos, sum_value hvalue, length_window]

variable [IsStrictOrderedRing K]

theorem IsFlat.getAvg (h : IsFlat series c) : getAvg (some series) = c := by
  have hne : (series.points.length : K) ≠ 0 := Nat.cast_ne_zero.mpr h.length_pos
  rw [Anomaly.getAvg, if_neg h.length_pos, sum_value h.value_eq, mul_div_cancel_left₀ _ hne]

theorem IsFlat.getStdDev {sqrt : K → K} (hsqrt : sqrt 0 = 0) (h : IsFlat series c) :
    getStdDev sqrt (some series) = 0 := by
  have hzero : ∀ p ∈ series.points, (p.value - c) ^ 2 = 0 := by
    intro p hp
    rw [h.value_eq p hp, sub_self]
    exact zero_pow (by decide)
  have hsum : (series.points.map fun p => (p.value - c) ^ 2).sum = 0 := by
    refine List.sum_eq_zero fun v hv => ?_
    obtain ⟨p, hp, rfl⟩ := List.mem_map.mp hv
    exact hzero p hp
  simp only [Anomaly.getStdDev, if_neg h.length_pos, h.getAvg, hsum, zero_div, hsqrt]

/-- It is the constant exactly if the window is full, or the constant is zero. -/
theorem IsFlat.getMovingAvg_eq_iff (h : IsFlat series c) (hsize : 0 < size) (startIdx : Nat) :
    Anomaly.getMovingAvg (some series) size startIdx = c ↔ c = 0 ∨ size ≤ series.points.length := by
  have hne : (size : K) ≠ 0 := Nat.cast_ne_zero.mpr hsize.ne'
  rw [h.getMovingAvg, div_eq_iff hne, mul_comm c, mul_eq_mul_right_iff, Nat.cast_inj, min_eq_right_iff, or_comm]

theorem IsFlat.getMovingAvg_nonneg (h : IsFlat series c) (hc : 0 ≤ c) (size startIdx : Nat) :
    0 ≤ Anomaly.getMovingAvg (some series) size startIdx := by
  rw [h.getMovingAvg]
  positivity

/-- **A full window**: the moving average is the mean of the values in it. -/
theorem between_getMovingAvg (hsize : 0 < size) (hfull : size ≤ series.points.length) (startIdx : Nat) :
    Between series.points size startIdx (Anomaly.getMovingAvg (some series) size startIdx) := by
  have hlength : (window series.points size startIdx).length = size := by
    rw [length_window, Nat.min_eq_right hfull]
  have hne : window series.points size startIdx ≠ [] := by
    rw [ne_eq, ← List.length_eq_zero_iff, hlength]
    exact hsize.ne'
  have hpos : (size : K) ≠ 0 := Nat.cast_ne_zero.mpr hsize.ne'
  -- the average, taken for each point, gives the same sum
  have hsum : ((window series.points size startIdx).map fun _ =>
      Anomaly.getMovingAvg (some series) size startIdx).sum =
        ((window series.points size startIdx).map Point.value).sum := by
    rw [List.map_const', List.sum_replicate, hlength, nsmul_eq_mul, Anomaly.getMovingAvg,
      if_neg (by omega), mul_div_cancel₀ _ hpos]
  exact ⟨List.exists_le_of_sum_le hne _ _ hsum.ge, List.exists_le_of_sum_le hne _ _ hsum.le⟩

/-- **The lengths for which the moving average is a mean**, whatever the values are. -/
theorem between_iff (hsize : 0 < size) {k : Nat} (hk : 0 < k) :
    (∀ series : Series K, series.points.length = k → ∀ startIdx,
      Between series.points size startIdx (Anomaly.getMovingAvg (some series) size startIdx)) ↔ size ≤ k := by
  constructor
  · intro h
    -- a series of ones
    let ones : Series K := ⟨∅, [], List.replicate k ⟨0, 1⟩⟩
    have hlength : ones.points.length = k := List.length_replicate
    have hones : IsFlat ones 1 := by
      refine ⟨?_, fun p hp => ?_⟩
      · rw [ne_eq, ← List.length_eq_zero_iff, hlength]
        exact hk.ne'
      · rw [List.eq_of_mem_replicate hp]
    obtain ⟨p, hp, hle⟩ := (h ones hlength 0).1
    have hcast : (0 : K) < size := Nat.cast_pos.mpr hsize
    rw [hones.value_eq p (mem_of_mem_window hp), hones.getMovingAvg, hlength, mul_one, le_div_iff₀ hcast,
      one_mul, Nat.cast_le] at hle
    exact hle.trans (Nat.min_le_left k size)
  · rintro hle series rfl startIdx
    exact between_getMovingAvg hsize hle startIdx

end Window

/-! ### Constant series -/

namespace SeriesGroup

/-- All six series match and have the value `c` at each point. -/
structure IsFlat (group : SeriesGroup K) (c : K) : Prop where
  series : Anomaly.IsFlat group.series c
  prevSeries : ∃ s, group.prevSeries = some s ∧ Anomaly.IsFlat s c
  currentSeasonSeries : ∃ s, group.currentSeasonSeries = some s ∧ Anomaly.IsFlat s c
  pastSeasonSeries : ∃ s, group.pastSeasonSeries = some s ∧ Anomaly.IsFlat s c
  past2SeasonSeries : ∃ s, group.past2SeasonSeries = some s ∧ Anomaly.IsFlat s c
  past3SeasonSeries : ∃ s, group.past3SeasonSeries = some s ∧ Anomaly.IsFlat s c

/-- What is predicted of a constant: the constant, with bounds that do not leave it and scores of zero. -/
structure PredictsConstant (sqrt : K → K) (group : SeriesGroup K) (c : K) : Prop where
  predicted : ∀ p ∈ group.getPredictedSeries.points, p.value = c
  bounds : ∀ zScoreThreshold,
    (∀ p ∈ (getBounds sqrt group.series group.getPredictedSeries zScoreThreshold).1.points, p.value = c) ∧
    ∀ p ∈ (getBounds sqrt group.series group.getPredictedSeries zScoreThreshold).2.points, p.value = c
  scores : ∀ p ∈ (group.getAnomalyScores sqrt).points, p.value.1 = 0

variable {group : SeriesGroup K} {c : K} {sqrt : K → K}

omit [Field K] [LinearOrder K] in
/-- What holds of each point of a loop over the points. -/
theorem forall_mem_pointwise {V : Type} {series : Series K} {value : Nat → Point K → V} {P : V → Prop} :
    (∀ q ∈ (pointwise series value).points, P q.value) ↔
      ∀ idx p, series.points[idx]? = some p → P (value idx p) := by
  simp only [pointwise, List.mem_map, forall_exists_index, and_imp, Prod.forall, List.mem_zipIdx_iff_getElem?]
  constructor
  · intro h idx p hp
    exact h _ p idx hp rfl
  · rintro h _ p idx hp rfl
    exact h idx p hp

omit [Field K] [LinearOrder K] in
theorem forall_value_pointwise {series : Series K} {value : Nat → Point K → K} :
    (∀ q ∈ (pointwise series value).points, q.value = c) ↔
      ∀ idx p, series.points[idx]? = some p → value idx p = c :=
  forall_mem_pointwise (P := (· = c))

omit [Field K] [LinearOrder K] in
theorem length_pointwise {V : Type} (series : Series K) (value : Nat → Point K → V) :
    (pointwise series value).points.length = series.points.length := by
  simp [pointwise]

/-- The predicted series of a constant is one again, if it is right. -/
theorem IsFlat.isFlat_predicted (h : group.IsFlat c)
    (hpredicted : ∀ p ∈ group.getPredictedSeries.points, p.value = c) :
    Anomaly.IsFlat group.getPredictedSeries c := by
  refine ⟨?_, hpredicted⟩
  rw [ne_eq, ← List.length_eq_zero_iff, getPredictedSeries, length_pointwise]
  exact h.series.length_pos

variable [IsStrictOrderedRing K]

/-- The seasons add nothing. -/
theorem IsFlat.getExpectedValue (h : group.IsFlat c) (idx : Nat) :
    group.getExpectedValue idx = getMovingAvg group.prevSeries movingAvgWindowSize idx := by
  obtain ⟨_, hcurrent, hcurrentFlat⟩ := h.currentSeasonSeries
  obtain ⟨_, hpast, hpastFlat⟩ := h.pastSeasonSeries
  obtain ⟨_, hpast2, hpast2Flat⟩ := h.past2SeasonSeries
  obtain ⟨_, hpast3, hpast3Flat⟩ := h.past3SeasonSeries
  have hmean : getMean [c, c, c] = c := by
    simp only [getMean, List.length_cons, List.length_nil, List.sum_cons, List.sum_nil]
    norm_num
    ring
  rw [SeriesGroup.getExpectedValue, hcurrent, hpast, hpast2, hpast3, hcurrentFlat.getAvg, hpastFlat.getAvg,
    hpast2Flat.getAvg, hpast3Flat.getAvg, hmean, add_sub_cancel_right]

theorem IsFlat.predictedValue (h : group.IsFlat c) (hc : 0 ≤ c) (idx : Nat) :
    group.predictedValue idx = getMovingAvg group.prevSeries movingAvgWindowSize idx := by
  obtain ⟨_, hprev, hprevFlat⟩ := h.prevSeries
  have hexpected := h.getExpectedValue idx
  have hnonneg : ¬ getMovingAvg group.prevSeries movingAvgWindowSize idx < 0 := by
    rw [hprev]
    exact (hprevFlat.getMovingAvg_nonneg hc _ _).not_gt
  rw [SeriesGroup.getExpectedValue] at hexpected
  rw [SeriesGroup.predictedValue]
  simp only [hexpected, if_neg hnonneg]

/-- The predicted series is the constant exactly if the previous period has a full window. -/
theorem IsFlat.predicted_iff (h : group.IsFlat c) (hc : 0 ≤ c) {prev : Series K}
    (hprev : group.prevSeries = some prev) :
    (∀ p ∈ group.getPredictedSeries.points, p.value = c) ↔
      c = 0 ∨ movingAvgWindowSize ≤ prev.points.length := by
  obtain ⟨prev', hprev', hprevFlat⟩ := h.prevSeries
  obtain rfl := Option.some.inj (hprev.symm.trans hprev')
  have hvalue : ∀ idx, group.predictedValue idx = c ↔ c = 0 ∨ movingAvgWindowSize ≤ prev.points.length := by
    intro idx
    rw [h.predictedValue hc, hprev]
    exact hprevFlat.getMovingAvg_eq_iff (by decide) idx
  rw [getPredictedSeries, forall_value_pointwise]
  constructor
  · intro hall
    exact (hvalue 0).mp (hall 0 _ (List.getElem?_eq_getElem (Nat.pos_of_ne_zero h.series.length_pos)))
  · exact fun hlong idx _ _ => (hvalue idx).mpr hlong

theorem IsFlat.scores (h : group.IsFlat c) (hc : 0 ≤ c)
    (hpredicted : ∀ p ∈ group.getPredictedSeries.points, p.value = c) :
    ∀ p ∈ (group.getAnomalyScores sqrt).points, p.value.1 = 0 := by
  rw [getPredictedSeries, forall_value_pointwise] at hpredicted
  refine (forall_mem_pointwise (P := fun score : K × K => score.1 = 0)).mpr fun idx p hp => ?_
  have hvalue : p.value = c := h.series.value_eq p (List.mem_of_getElem? hp)
  have hidx := hpredicted idx p hp
  rw [h.predictedValue hc, ← h.getExpectedValue] at hidx
  show p.value - group.getExpectedValue idx = 0
  rw [hvalue, hidx, sub_self]

/-- The bounds of a prediction that is right are right exactly if the series has a full window. -/
theorem IsFlat.bounds_iff (hsqrt : sqrt 0 = 0) (h : group.IsFlat c) (hc : 0 ≤ c)
    (hpredicted : ∀ p ∈ group.getPredictedSeries.points, p.value = c) :
    (∀ zScoreThreshold,
      (∀ p ∈ (getBounds sqrt group.series group.getPredictedSeries zScoreThreshold).1.points, p.value = c) ∧
      ∀ p ∈ (getBounds sqrt group.series group.getPredictedSeries zScoreThreshold).2.points, p.value = c) ↔
      c = 0 ∨ movingAvgWindowSize ≤ group.series.points.length := by
  have hflat := h.isFlat_predicted hpredicted
  have hlength : group.getPredictedSeries.points.length = group.series.points.length := length_pointwise _ _
  have havg : ∀ idx, getMovingAvg (some group.getPredictedSeries) movingAvgWindowSize idx = c ↔
      c = 0 ∨ movingAvgWindowSize ≤ group.series.points.length := by
    intro idx
    rw [← hlength]
    exact hflat.getMovingAvg_eq_iff (by decide) idx
  have hdev : ∀ z, z * getStdDev sqrt (some group.series) = 0 := by
    intro z
    rw [h.series.getStdDev hsqrt, mul_zero]
  simp only [getBounds, hdev, add_zero, sub_zero]
  constructor
  · intro hbounds
    have hupper := forall_value_pointwise.mp (hbounds 0).1
    exact (havg 0).mp (hupper 0 _ (List.getElem?_eq_getElem (Nat.pos_of_ne_zero h.series.length_pos)))
  · intro hlong _
    refine ⟨forall_value_pointwise.mpr fun idx _ _ => (havg idx).mpr hlong,
      forall_value_pointwise.mpr fun idx _ _ => ?_⟩
    rw [(havg idx).mpr hlong]
    exact max_eq_left hc

/-- When a constant is predicted. -/
theorem IsFlat.predictsConstant_iff (hsqrt : sqrt 0 = 0) (h : group.IsFlat c) (hc : 0 ≤ c) {prev : Series K}
    (hprev : group.prevSeries = some prev) :
    group.PredictsConstant sqrt c ↔
      c = 0 ∨ movingAvgWindowSize ≤ prev.points.length ∧ movingAvgWindowSize ≤ group.series.points.length := by
  rw [or_and_left, ← h.predicted_iff hc hprev]
  constructor
  · rintro ⟨hpredicted, hbounds, -⟩
    exact ⟨hpredicted, (h.bounds_iff hsqrt hc hpredicted).mp hbounds⟩
  · rintro ⟨hpredicted, hlong⟩
    exact ⟨hpredicted, (h.bounds_iff hsqrt hc hpredicted).mpr hlong, h.scores hc hpredicted⟩

/-- **Lengths matter**: a constant is predicted exactly if the series and the one of the previous period have
seven points or more or the constant is zero, and the moving average of the series with `k` points is a mean of
its window exactly if `k` is not less than the size of the window. -/
theorem constant_iff_and_between_iff (hsqrt : sqrt 0 = 0) (h : group.IsFlat c) (hc : 0 ≤ c) {prev : Series K}
    (hprev : group.prevSeries = some prev) {size k : Nat} (hsize : 0 < size) (hk : 0 < k) :
    (group.PredictsConstant sqrt c ↔
      c = 0 ∨ movingAvgWindowSize ≤ prev.points.length ∧ movingAvgWindowSize ≤ group.series.points.length) ∧
    ((∀ series : Series K, series.points.length = k → ∀ startIdx,
      Between series.points size startIdx (getMovingAvg (some series) size startIdx)) ↔ size ≤ k) :=
  ⟨h.predictsConstant_iff hsqrt hc hprev, between_iff hsize hk⟩

/-- A series of ones. -/
def ones (k : Nat) : Series ℚ := ⟨∅, [], List.replicate k ⟨0, 1⟩⟩

/-- Ones wherever one looks, a single one in the current period. -/
def onesGroup : SeriesGroup ℚ :=
  { series := ones 1, prevSeries := some (ones 1), currentSeasonSeries := some (ones 3)
    pastSeasonSeries := some (ones 2), past2SeasonSeries := some (ones 2), past3SeasonSeries := some (ones 2) }

theorem isFlat_ones (k : Nat) : Anomaly.IsFlat (ones (k + 1)) 1 :=
  ⟨List.cons_ne_nil _ _, fun p hp => by rw [List.eq_of_mem_replicate hp]⟩

theorem isFlat_onesGroup : onesGroup.IsFlat 1 :=
  ⟨isFlat_ones 0, ⟨_, rfl, isFlat_ones 0⟩, ⟨_, rfl, isFlat_ones 2⟩, ⟨_, rfl, isFlat_ones 1⟩,
    ⟨_, rfl, isFlat_ones 1⟩, ⟨_, rfl, isFlat_ones 1⟩⟩

theorem constant_onesGroup :
    (onesGroup.PredictsConstant Rat.sqrt 1 ↔
      (1 : ℚ) = 0 ∨ movingAvgWindowSize ≤ (ones 1).points.length ∧
        movingAvgWindowSize ≤ onesGroup.series.points.length) ∧
    ((∀ series : Series ℚ, series.points.length = 3 → ∀ startIdx,
      Between series.points 7 startIdx (getMovingAvg (some series) 7 startIdx)) ↔ 7 ≤ 3) :=
  constant_iff_and_between_iff (by decide) isFlat_onesGroup (by decide) rfl (by decide) (by decide)

/-- A seventh is predicted where every point is one. -/
theorem not_predictsConstant_onesGroup : onesGroup.IsFlat 1 ∧
    onesGroup.getPredictedSeries.points.map Point.value = [1 / 7] ∧
    ¬ onesGroup.PredictsConstant Rat.sqrt 1 := by
  have hpredicted : onesGroup.getPredictedSeries.points = [⟨0, 1 / 7⟩] := by decide +kernel
  refine ⟨isFlat_onesGroup, by rw [hpredicted]; rfl, fun h => ?_⟩
  have := h.predicted ⟨0, 1 / 7⟩ (by rw [hpredicted]; exact List.mem_singleton_self _)
  exact absurd this (by decide +kernel)

end SeriesGroup

end QueryService.Anomaly
