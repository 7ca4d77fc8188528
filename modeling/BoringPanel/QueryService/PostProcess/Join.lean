import BoringPanel.Lib.Fallible
import BoringPanel.QueryService.PostProcess.Formula

/-!
# What a formula joins

The points of `joinAndCalculate` (`IsJoin`): in increasing time, one at each timestamp of a matching series
at which every variable has a value or may default to zero, and at which the expression has a finite value.

The two maps hold what the loops visited last (`JoinedFrom`); the loop over timestamps asks for each of them
once. Where no two series of a query match the label set, the points do not depend on the order of the
series (`joinAndCalculate_of_perm`).
-/

namespace QueryService
namespace PostProcess

variable {F : Type}

/-! ### What the maps hold -/

/-- The points of the matching series of a result. -/
def matchingPoints (uniqueLabelSet : Go.StringMap) (r : Result F) : List (String × Point F) :=
  match matchingSeries uniqueLabelSet r with
  | none => []
  | some s => s.points.map fun p => (r.queryName, p)

/-- The points that the loops visit, with the names of their queries. -/
def visited (results : List (Result F)) (uniqueLabelSet : Go.StringMap) : List (String × Point F) :=
  results.flatMap (matchingPoints uniqueLabelSet)

/-- The last value of a query at a timestamp. -/
def lastValue (points : List (String × Point F)) (name : String) (t : Int) : Option F :=
  ((points.filter fun e => e.1 = name ∧ e.2.timestamp = t).getLast?).map fun e => e.2.value

/-- The maps after the loops visited these points. -/
structure JoinedFrom (points : List (String × Point F)) (joined : Joined F) : Prop where
  value : ∀ name t, joined.seriesMap name t = lastValue points name t
  mem_iff : ∀ t, t ∈ joined.uniqueTimestamps ↔ ∃ e ∈ points, e.2.timestamp = t
  nodup : joined.uniqueTimestamps.Nodup

theorem lastValue_append_self (points : List (String × Point F)) (name : String) (p : Point F) :
    lastValue (points ++ [(name, p)]) name p.timestamp = some p.value := by
  unfold lastValue
  rw [List.filter_append]
  simp

theorem lastValue_append_of_ne (points : List (String × Point F)) {name name' : String} {p : Point F}
    {t : Int} (h : ¬ (name' = name ∧ p.timestamp = t)) :
    lastValue (points ++ [(name', p)]) name t = lastValue points name t := by
  unfold lastValue
  rw [List.filter_append]
  simp [h]

theorem JoinedFrom.add {points : List (String × Point F)} {joined : Joined F} (h : JoinedFrom points joined)
    (name : String) (p : Point F) : JoinedFrom (points ++ [(name, p)]) (joined.add name p) where
  value := fun name' t => by
    show Function.update joined.seriesMap name _ name' t = _
    by_cases hname : name' = name
    · subst hname
      rw [Function.update_self]
      by_cases ht : t = p.timestamp
      · subst ht
        rw [Function.update_self, lastValue_append_self]
      · rw [Function.update_of_ne ht, lastValue_append_of_ne points fun hp => ht hp.2.symm, h.value]
    · rw [Function.update_of_ne hname, lastValue_append_of_ne points fun hp => hname hp.1.symm, h.value]
  mem_iff := fun t => by
    have hold := h.mem_iff
    show t ∈ (if p.timestamp ∈ joined.uniqueTimestamps then _ else _) ↔ _
    simp only [List.mem_append, List.mem_singleton, or_and_right, exists_or, exists_eq_left, ← hold]
    split
    · next hp => exact ⟨.inl, fun h => h.elim id fun hpt => hpt ▸ hp⟩
    · rw [List.mem_append, List.mem_singleton]
      exact or_congr_right eq_comm
  nodup := by
    show (if p.timestamp ∈ joined.uniqueTimestamps then _ else _ : List Int).Nodup
    split
    · exact h.nodup
    · next hp => exact h.nodup.append (List.nodup_singleton _) (by simpa using hp)

theorem JoinedFrom.foldl {points : List (String × Point F)} {joined : Joined F}
    (h : JoinedFrom points joined) (name : String) (ps : List (Point F)) :
    JoinedFrom (points ++ ps.map fun p => (name, p)) (ps.foldl (Joined.add name) joined) := by
  induction ps using List.reverseRecOn with
  | nil => simpa using h
  | append_singleton ps p ih =>
    rw [List.foldl_append, List.foldl_cons, List.foldl_nil, List.map_append, ← List.append_assoc]
    exact ih.add name p

theorem JoinedFrom.addResult {points : List (String × Point F)} {joined : Joined F}
    (h : JoinedFrom points joined) (L : Go.StringMap) (r : Result F) :
    JoinedFrom (points ++ matchingPoints L r) (joined.addResult L r) := by
  unfold matchingPoints Joined.addResult
  cases matchingSeries L r with
  | none =>
    rw [List.append_nil]
    exact h
  | some s => exact h.foldl r.queryName s.points

/-- **The loops over results and points.** -/
theorem joinedFrom_joinResults (results : List (Result F)) (L : Go.StringMap) :
    JoinedFrom (visited results L) (joinResults results L) := by
  induction results using List.reverseRecOn with
  | nil => exact ⟨fun _ _ => rfl, fun t => by simp [visited, joinResults, Joined.empty], List.nodup_nil⟩
  | append_singleton results r ih =>
    unfold visited joinResults
    rw [List.foldl_append, List.foldl_cons, List.foldl_nil, List.flatMap_append, List.flatMap_singleton]
    exact ih.addResult L r

/-! ### The points -/

section Points

variable (results : List (Result F)) (L : Go.StringMap) (expression : Expression F)
  (canDefaultZero : String → Bool)

/-- The timestamp occurs in a matching series. -/
def OccursAt (t : Int) : Prop :=
  ∃ r ∈ results, ∃ s, matchingSeries L r = some s ∧ ∃ p ∈ s.points, p.timestamp = t

/-- The value of a variable at a timestamp, or its default. -/
def argument (t : Int) (v : String) : Option (GoValue F) :=
  match lastValue (visited results L) v t with
  | some x => some (.float x)
  | none => if canDefaultZero v then some (.int 0) else none

/-- The values of the variables. -/
def arguments (t : Int) (v : String) : Option (GoValue F) :=
  if v ∈ expression.vars then argument results L canDefaultZero t v else none

/-- The expression has all its values at a timestamp of a matching series. -/
structure Evaluable (t : Int) : Prop where
  occurs : OccursAt results L t
  values : ∀ v ∈ expression.vars,
    (lastValue (visited results L) v t).isSome ∨ canDefaultZero v = true

/-- Not a number, or infinite. -/
def IsFinite [GoFloat F] (x : F) : Prop := GoFloat.isNaN x = false ∧ GoFloat.isInf x = false

/-- **The join of the matching series.** -/
structure IsJoin [GoFloat F] (s : Series F) : Prop where
  labels : s.labels = L
  increasing : s.points.Pairwise fun p q => p.timestamp < q.timestamp
  finite : ∀ p ∈ s.points, IsFinite p.value
  mem_iff : ∀ t x, ⟨t, x⟩ ∈ s.points ↔ Evaluable results L expression canDefaultZero t ∧
    expression.evaluate (arguments results L expression canDefaultZero t) = .ok (.float x) ∧ IsFinite x

variable {results L expression canDefaultZero}

theorem occursAt_iff {t : Int} :
    OccursAt results L t ↔ ∃ e ∈ visited results L, e.2.timestamp = t := by
  unfold OccursAt visited
  constructor
  · rintro ⟨r, hr, s, hs, p, hp, rfl⟩
    refine ⟨(r.queryName, p), List.mem_flatMap.mpr ⟨r, hr, ?_⟩, rfl⟩
    rw [matchingPoints, hs]
    exact List.mem_map_of_mem hp
  · rintro ⟨e, he, rfl⟩
    obtain ⟨r, hr, he⟩ := List.mem_flatMap.mp he
    unfold matchingPoints at he
    cases hs : matchingSeries L r with
    | none =>
      rw [hs] at he
      exact absurd he List.not_mem_nil
    | some s =>
      rw [hs] at he
      obtain ⟨p, hp, rfl⟩ := List.mem_map.mp he
      exact ⟨r, hr, s, hs, p, hp, rfl⟩

/-- What the code evaluates the expression at. -/
theorem evaluate_values (t : Int) :
    expression.evaluate ((joinResults results L).values expression.vars canDefaultZero t) =
      expression.evaluate (arguments results L expression canDefaultZero t) := by
  refine expression.congr _ _ fun v hv => ?_
  unfold Joined.values arguments argument
  rw [(joinedFrom_joinResults results L).value, if_pos hv]
  cases lastValue (visited results L) v t with
  | some x => rfl
  | none => simp only [hv, true_and]

theorem isNone_values_iff (t : Int) :
    (expression.vars.any fun v =>
      ((joinResults results L).values expression.vars canDefaultZero t v).isNone) = false ↔
    ∀ v ∈ expression.vars, (lastValue (visited results L) v t).isSome ∨ canDefaultZero v = true := by
  rw [List.any_eq_false]
  refine forall₂_congr fun v hv => ?_
  unfold Joined.values
  rw [(joinedFrom_joinResults results L).value]
  cases lastValue (visited results L) v t with
  | some x => simp
  | none => simp [hv]

section Calculate

variable [GoFloat F] {t : Int}

theorem pointOf_eq_some_iff {newValue : GoValue F} {p : Point F} :
    pointOf t newValue = .ok (some p) ↔
      newValue = .float p.value ∧ IsFinite p.value ∧ p.timestamp = t := by
  have hfinite : ∀ x : F, (GoFloat.isNaN x || GoFloat.isInf x) = false ↔ IsFinite x :=
    fun _ => Bool.or_eq_false_iff
  cases newValue with
  | float val =>
    rw [pointOf]
    split
    · next hnot =>
      refine ⟨fun h => (nomatch h), fun ⟨hval, h, _⟩ => ?_⟩
      obtain rfl : val = p.value := by injection hval
      exact absurd ((hfinite _).mpr h) (by simp [hnot])
    · next hval =>
      have hval := (hfinite _).mp (by simpa using hval)
      constructor
      · intro h
        obtain rfl := Option.some.inj (Except.ok.inj h)
        exact ⟨rfl, hval, rfl⟩
      · rintro ⟨h, -, rfl⟩
        obtain rfl : val = p.value := by injection h
        rfl
  | _ => exact ⟨fun h => (nomatch h), fun h => (nomatch h.1)⟩

theorem pointOf_ok_iff {newValue : GoValue F} :
    (∃ point, pointOf t newValue = .ok point) ↔ ∃ x, newValue = .float x := by
  cases newValue with
  | float val =>
    refine ⟨fun _ => ⟨val, rfl⟩, fun _ => ?_⟩
    rw [pointOf]
    split
    · exact ⟨_, rfl⟩
    · exact ⟨_, rfl⟩
  | _ => exact ⟨fun ⟨_, h⟩ => (nomatch h), fun ⟨_, h⟩ => (nomatch h)⟩

/-- Without all values there is no point. -/
theorem calculatePoint_of_missing
    (h : ¬ ∀ v ∈ expression.vars, (lastValue (visited results L) v t).isSome ∨ canDefaultZero v = true) :
    calculatePoint expression canDefaultZero (joinResults results L) t = .ok none := by
  rw [← isNone_values_iff, Bool.not_eq_false] at h
  unfold calculatePoint
  simp only [h, if_true]
  rfl

/-- With all values it is the point of the value of the expression. -/
theorem calculatePoint_of_values
    (h : ∀ v ∈ expression.vars, (lastValue (visited results L) v t).isSome ∨ canDefaultZero v = true) :
    calculatePoint expression canDefaultZero (joinResults results L) t =
      expression.evaluate (arguments results L expression canDefaultZero t) >>= pointOf t := by
  rw [← isNone_values_iff] at h
  unfold calculatePoint
  simp only [h, Bool.false_eq_true, if_false, evaluate_values]

/-- A point is appended. -/
theorem calculatePoint_eq_some_iff {p : Point F} :
    calculatePoint expression canDefaultZero (joinResults results L) t = .ok (some p) ↔
      (∀ v ∈ expression.vars, (lastValue (visited results L) v t).isSome ∨ canDefaultZero v = true) ∧
      expression.evaluate (arguments results L expression canDefaultZero t) = .ok (.float p.value) ∧
      IsFinite p.value ∧ p.timestamp = t := by
  by_cases hvalues : ∀ v ∈ expression.vars,
      (lastValue (visited results L) v t).isSome ∨ canDefaultZero v = true
  · rw [calculatePoint_of_values hvalues, Fallible.bind_eq_ok_iff]
    simp only [pointOf_eq_some_iff]
    constructor
    · rintro ⟨_, hevaluate, rfl, hpoint⟩
      exact ⟨hvalues, hevaluate, hpoint⟩
    · rintro ⟨-, hevaluate, hpoint⟩
      exact ⟨_, hevaluate, rfl, hpoint⟩
  · rw [calculatePoint_of_missing hvalues]
    exact ⟨fun h => (nomatch h), fun h => absurd h.1 hvalues⟩

/-- There is no error. -/
theorem calculatePoint_ok_iff :
    (∃ point, calculatePoint expression canDefaultZero (joinResults results L) t = .ok point) ↔
      ((∀ v ∈ expression.vars, (lastValue (visited results L) v t).isSome ∨ canDefaultZero v = true) →
        ∃ x, expression.evaluate (arguments results L expression canDefaultZero t) = .ok (.float x)) := by
  by_cases hvalues : ∀ v ∈ expression.vars,
      (lastValue (visited results L) v t).isSome ∨ canDefaultZero v = true
  · rw [calculatePoint_of_values hvalues]
    simp only [Fallible.bind_eq_ok_iff]
    constructor
    · rintro ⟨point, newValue, hevaluate, hpoint⟩ -
      obtain ⟨x, rfl⟩ := pointOf_ok_iff.mp ⟨point, hpoint⟩
      exact ⟨x, hevaluate⟩
    · intro h
      obtain ⟨x, hx⟩ := h hvalues
      obtain ⟨point, hpoint⟩ := pointOf_ok_iff.mpr ⟨x, rfl⟩
      exact ⟨point, _, hx, hpoint⟩
  · rw [calculatePoint_of_missing hvalues]
    exact ⟨fun _ h => absurd h hvalues, fun _ => ⟨none, rfl⟩⟩

end Calculate

end Points

/-! ### The loop over timestamps -/

section Loop

variable [GoFloat F] {expression : Expression F} {canDefaultZero : String → Bool} {joined : Joined F}
  {timestamps : List Int}

theorem calculatePoints_cons_eq_ok_iff {t : Int} {ps : List (Point F)} :
    calculatePoints expression canDefaultZero joined (t :: timestamps) = .ok ps ↔
      ∃ point points, calculatePoint expression canDefaultZero joined t = .ok point ∧
        calculatePoints expression canDefaultZero joined timestamps = .ok points ∧
        ps = point.toList ++ points := by
  rw [calculatePoints, Fallible.bind_eq_ok_iff]
  refine exists_congr fun point => ?_
  rw [Fallible.bind_eq_ok_iff]
  constructor
  · rintro ⟨hpoint, points, hpoints, h⟩
    exact ⟨points, hpoint, hpoints, (Except.ok.inj h).symm⟩
  · rintro ⟨points, hpoint, hpoints, rfl⟩
    exact ⟨hpoint, points, hpoints, rfl⟩

theorem calculatePoints_ok_iff :
    (∃ ps, calculatePoints expression canDefaultZero joined timestamps = .ok ps) ↔
      ∀ t ∈ timestamps, ∃ point, calculatePoint expression canDefaultZero joined t = .ok point := by
  induction timestamps with
  | nil => exact ⟨fun _ => List.forall_mem_nil _, fun _ => ⟨[], rfl⟩⟩
  | cons t timestamps ih =>
    rw [List.forall_mem_cons, ← ih]
    simp only [calculatePoints_cons_eq_ok_iff]
    constructor
    · rintro ⟨_, point, points, hpoint, hpoints, -⟩
      exact ⟨⟨point, hpoint⟩, points, hpoints⟩
    · rintro ⟨⟨point, hpoint⟩, points, hpoints⟩
      exact ⟨_, point, points, hpoint, hpoints, rfl⟩

/-- Each timestamp gives its point, if it gives one. -/
theorem mem_calculatePoints {ps : List (Point F)}
    (h : calculatePoints expression canDefaultZero joined timestamps = .ok ps) (p : Point F) :
    p ∈ ps ↔ ∃ t ∈ timestamps, calculatePoint expression canDefaultZero joined t = .ok (some p) := by
  induction timestamps generalizing ps with
  | nil =>
    obtain rfl : [] = ps := Except.ok.inj h
    simp
  | cons t timestamps ih =>
    obtain ⟨point, points, hpoint, hpoints, rfl⟩ := calculatePoints_cons_eq_ok_iff.mp h
    rw [List.mem_append, ih hpoints, List.exists_mem_cons_iff, hpoint, Option.mem_toList, Except.ok.injEq]

/-- Timestamps in increasing order give points in increasing time. -/
theorem calculatePoints_increasing {ps : List (Point F)}
    (hsome : ∀ t p, calculatePoint expression canDefaultZero joined t = .ok (some p) → p.timestamp = t)
    (h : calculatePoints expression canDefaultZero joined timestamps = .ok ps)
    (hincreasing : timestamps.Pairwise (· < ·)) : ps.Pairwise fun p q => p.timestamp < q.timestamp := by
  induction timestamps generalizing ps with
  | nil =>
    obtain rfl : [] = ps := Except.ok.inj h
    exact List.Pairwise.nil
  | cons t timestamps ih =>
    obtain ⟨point, points, hpoint, hpoints, rfl⟩ := calculatePoints_cons_eq_ok_iff.mp h
    obtain ⟨hfirst, hrest⟩ := List.pairwise_cons.mp hincreasing
    cases point with
    | none => exact ih hpoints hrest
    | some p =>
      refine List.pairwise_cons.mpr ⟨fun q hq => ?_, ih hpoints hrest⟩
      obtain ⟨u, hu, hq⟩ := (mem_calculatePoints hpoints q).mp hq
      rw [hsome t p hpoint, hsome u q hq]
      exact hfirst u hu

end Loop

/-- The timestamps that are gone through. -/
theorem sorted_timestamps {joined : Joined F} (h : joined.uniqueTimestamps.Nodup) :
    (joined.uniqueTimestamps.insertionSort (· ≤ ·)).Pairwise (· < ·) := by
  have hsorted : (joined.uniqueTimestamps.insertionSort (· ≤ ·)).Pairwise (· ≤ ·) :=
    List.pairwise_insertionSort _ _
  have hnodup : (joined.uniqueTimestamps.insertionSort (· ≤ ·)).Nodup :=
    (List.perm_insertionSort _ _).nodup_iff.mpr h
  exact hsorted.imp₂ (fun _ _ hle hne => lt_of_le_of_ne hle hne) hnodup

section Join

variable [GoFloat F] {results : List (Result F)} {L : Go.StringMap} {expression : Expression F}
  {canDefaultZero : String → Bool}

theorem joinAndCalculate_eq_ok_iff {s : Series F} :
    joinAndCalculate results L expression canDefaultZero = .ok s ↔
      ∃ ps, calculatePoints expression canDefaultZero (joinResults results L)
        ((joinResults results L).uniqueTimestamps.insertionSort (· ≤ ·)) = .ok ps ∧ s = ⟨L, [], ps⟩ := by
  unfold joinAndCalculate
  rw [Fallible.bind_eq_ok_iff]
  refine exists_congr fun ps => and_congr_right fun _ => ?_
  exact ⟨fun h => (Except.ok.inj h).symm, fun h => h ▸ rfl⟩

omit [GoFloat F] in
theorem mem_timestamps_iff {t : Int} :
    t ∈ (joinResults results L).uniqueTimestamps.insertionSort (· ≤ ·) ↔ OccursAt results L t := by
  rw [(List.perm_insertionSort _ _).mem_iff, (joinedFrom_joinResults results L).mem_iff, occursAt_iff]

/-- **The series of a label set.** -/
theorem isJoin_of_ok {s : Series F} (h : joinAndCalculate results L expression canDefaultZero = .ok s) :
    IsJoin results L expression canDefaultZero s := by
  obtain ⟨ps, hps, rfl⟩ := joinAndCalculate_eq_ok_iff.mp h
  have hsome : ∀ t p, calculatePoint expression canDefaultZero (joinResults results L) t =
      .ok (some p) → p.timestamp = t := fun t p hp => (calculatePoint_eq_some_iff.mp hp).2.2.2
  refine ⟨rfl, calculatePoints_increasing hsome hps
    (sorted_timestamps (joinedFrom_joinResults results L).nodup), fun p hp => ?_, fun t x => ?_⟩
  · obtain ⟨t, -, hp⟩ := (mem_calculatePoints hps p).mp hp
    exact (calculatePoint_eq_some_iff.mp hp).2.2.1
  · rw [show (⟨t, x⟩ ∈ (⟨L, [], ps⟩ : Series F).points) = (⟨t, x⟩ ∈ ps) from rfl,
      mem_calculatePoints hps]
    constructor
    · rintro ⟨u, hu, hpoint⟩
      obtain ⟨hvalues, hevaluate, hfinite, rfl⟩ := calculatePoint_eq_some_iff.mp hpoint
      exact ⟨⟨mem_timestamps_iff.mp hu, hvalues⟩, hevaluate, hfinite⟩
    · rintro ⟨⟨hoccurs, hvalues⟩, hevaluate, hfinite⟩
      exact ⟨t, mem_timestamps_iff.mpr hoccurs,
        calculatePoint_eq_some_iff.mpr ⟨hvalues, hevaluate, hfinite, rfl⟩⟩

/-- There is a series unless the expression has an error, or a value that is no number. -/
theorem joinAndCalculate_ok_iff :
    (∃ s, joinAndCalculate results L expression canDefaultZero = .ok s) ↔
      ∀ t, Evaluable results L expression canDefaultZero t →
        ∃ x, expression.evaluate (arguments results L expression canDefaultZero t) = .ok (.float x) := by
  have hps : (∃ s, joinAndCalculate results L expression canDefaultZero = .ok s) ↔
      ∃ ps, calculatePoints expression canDefaultZero (joinResults results L)
        ((joinResults results L).uniqueTimestamps.insertionSort (· ≤ ·)) = .ok ps := by
    simp only [joinAndCalculate_eq_ok_iff]
    exact ⟨fun ⟨_, ps, h, _⟩ => ⟨ps, h⟩, fun ⟨ps, h⟩ => ⟨_, ps, h, rfl⟩⟩
  rw [hps, calculatePoints_ok_iff]
  refine forall_congr' fun t => ?_
  rw [mem_timestamps_iff, calculatePoint_ok_iff]
  exact ⟨fun h ht => h ht.occurs ht.values, fun h hoccurs hvalues => h ⟨hoccurs, hvalues⟩⟩

end Join

/-! ### The order of the series -/

section Order

/-- The series with the names of their queries. -/
def namedSeries (results : List (Result F)) : List (String × Series F) :=
  results.flatMap fun r => r.series.map fun s => (r.queryName, s)

/-- The series whose labels are part of the label set. -/
def included (results : List (Result F)) (L : Go.StringMap) : List (String × Series F) :=
  (namedSeries results).filter fun e => isSubset L e.2.labels

/-- No two series of one query are included in the label set. -/
def AtMostOneEach (results : List (Result F)) (L : Go.StringMap) : Prop :=
  ((included results L).map Prod.fst).Nodup

def namedPoints (e : String × Series F) : List (String × Point F) := e.2.points.map fun p => (e.1, p)

variable {results results' : List (Result F)} {L : Go.StringMap}

/-- The only element that meets a condition is the first one. -/
theorem toList_find?_eq_filter {α : Type} {p : α → Bool} {l : List α} (h : (l.filter p).length ≤ 1) :
    (l.find? p).toList = l.filter p := by
  rw [← List.head?_filter]
  match l.filter p, h with
  | [], _ => rfl
  | [_], _ => rfl

theorem eq_of_perm_of_length_le_one {α : Type} {l l' : List α} (h : l.Perm l') (hone : l.length ≤ 1) :
    l = l' := by
  match l, hone, h with
  | [], _, h => exact h.nil_eq
  | [_], _, h => exact (List.perm_singleton.mp h.symm).symm

theorem matchingPoints_eq (L : Go.StringMap) (r : Result F) :
    matchingPoints L r = (matchingSeries L r).toList.flatMap fun s => namedPoints (r.queryName, s) := by
  unfold matchingPoints
  cases matchingSeries L r with
  | none => rfl
  | some s => exact (List.flatMap_singleton _ _).symm

/-- The loops visit the points of the included series. -/
theorem visited_eq (h : AtMostOneEach results L) :
    visited results L = (included results L).flatMap namedPoints := by
  induction results with
  | nil => rfl
  | cons r results ih =>
    have hincluded : included (r :: results) L =
        ((r.series.filter fun s => isSubset L s.labels).map fun s => (r.queryName, s)) ++
          included results L := by
      unfold included namedSeries
      rw [List.flatMap_cons, List.filter_append, List.filter_map]
      rfl
    unfold AtMostOneEach at h
    rw [hincluded, List.map_append, List.map_map, List.nodup_append] at h
    have hone : (r.series.filter fun s => isSubset L s.labels).length ≤ 1 := by
      have hreplicate : (r.series.filter fun s => isSubset L s.labels).map
          (Prod.fst ∘ fun s => (r.queryName, s)) =
          List.replicate (r.series.filter fun s => isSubset L s.labels).length r.queryName :=
        List.map_const'
      exact List.nodup_replicate.mp (hreplicate ▸ h.1)
    have hrest : visited results L = (included results L).flatMap namedPoints := ih h.2.1
    show matchingPoints L r ++ visited results L = _
    rw [hincluded, List.flatMap_append, hrest, matchingPoints_eq, matchingSeries,
      toList_find?_eq_filter hone, List.flatMap_map]

theorem filter_name (I : List (String × Series F)) (name : String) :
    (I.flatMap namedPoints).filter (fun e => e.1 = name) =
      (I.filter fun e => e.1 = name).flatMap namedPoints := by
  induction I with
  | nil => rfl
  | cons e I ih =>
    rw [List.flatMap_cons, List.filter_append, ih, List.filter_cons]
    by_cases he : e.1 = name
    · have hall : (namedPoints e).filter (fun e => e.1 = name) = namedPoints e := by
        refine List.filter_eq_self.mpr fun x hx => ?_
        obtain ⟨p, -, rfl⟩ := List.mem_map.mp hx
        exact decide_eq_true he
      rw [if_pos (decide_eq_true he), List.flatMap_cons, hall]
    · have hnone : (namedPoints e).filter (fun e => e.1 = name) = [] := by
        refine List.filter_eq_nil_iff.mpr fun x hx => ?_
        obtain ⟨p, -, rfl⟩ := List.mem_map.mp hx
        simpa using he
      rw [if_neg (by simpa using he), hnone, List.nil_append]

/-- With one series for each name, the order of the series does not show. -/
theorem lastValue_of_perm {I I' : List (String × Series F)} (hperm : I.Perm I')
    (hnodup : (I.map Prod.fst).Nodup) (name : String) (t : Int) :
    lastValue (I.flatMap namedPoints) name t = lastValue (I'.flatMap namedPoints) name t := by
  have hname : I.filter (fun e => e.1 = name) = I'.filter fun e => e.1 = name := by
    have hfilter := hperm.filter fun e => decide (e.1 = name)
    have hone : (I.filter fun e => e.1 = name).length ≤ 1 := by
      have hcount := List.nodup_iff_count_le_one.mp hnodup name
      rw [List.count, List.countP_map, List.countP_eq_length_filter] at hcount
      refine le_of_eq_of_le (congrArg List.length (List.filter_congr fun e _ => ?_)) hcount
      exact (beq_eq_decide e.1 name).symm
    exact eq_of_perm_of_length_le_one hfilter hone
  have hsplit : ∀ points : List (String × Point F),
      points.filter (fun e => e.1 = name ∧ e.2.timestamp = t) =
        (points.filter fun e => e.1 = name).filter fun e => e.2.timestamp = t := by
    intro points
    rw [List.filter_filter]
    exact List.filter_congr fun e _ => by rw [Bool.and_comm, Bool.decide_and]
  unfold lastValue
  rw [hsplit, hsplit, filter_name, filter_name, hname]

theorem included_perm (h : (namedSeries results').Perm (namedSeries results)) :
    (included results' L).Perm (included results L) := h.filter _

section Calculate

variable [GoFloat F] {expression : Expression F} {canDefaultZero : String → Bool}

theorem calculatePoints_congr {joined joined' : Joined F} (h : joined.seriesMap = joined'.seriesMap)
    (timestamps : List Int) :
    calculatePoints expression canDefaultZero joined timestamps =
      calculatePoints expression canDefaultZero joined' timestamps := by
  have hvalues : joined.values = joined'.values := by
    funext vars canDefaultZero t name
    unfold Joined.values
    rw [h]
  have hpoint : ∀ t, calculatePoint expression canDefaultZero joined t =
      calculatePoint expression canDefaultZero joined' t := by
    intro t
    unfold calculatePoint
    rw [hvalues]
  induction timestamps with
  | nil => rfl
  | cons t timestamps ih => rw [calculatePoints, calculatePoints, hpoint, ih]

/-- **Series in another order** give the same points. -/
theorem joinAndCalculate_of_perm (h : (namedSeries results').Perm (namedSeries results))
    (hone : AtMostOneEach results L) :
    joinAndCalculate results' L expression canDefaultZero =
      joinAndCalculate results L expression canDefaultZero := by
  have hperm := included_perm (L := L) h
  have hone' : AtMostOneEach results' L := ((hperm.map Prod.fst).nodup_iff).mpr hone
  have hjoined := joinedFrom_joinResults results L
  have hjoined' := joinedFrom_joinResults results' L
  have hmap : (joinResults results' L).seriesMap = (joinResults results L).seriesMap := by
    funext name t
    rw [hjoined'.value, hjoined.value, visited_eq hone', visited_eq hone]
    exact lastValue_of_perm hperm hone' name t
  have htimes : (joinResults results' L).uniqueTimestamps.Perm (joinResults results L).uniqueTimestamps := by
    refine (List.perm_ext_iff_of_nodup hjoined'.nodup hjoined.nodup).mpr fun t => ?_
    rw [hjoined'.mem_iff, hjoined.mem_iff, visited_eq hone', visited_eq hone]
    exact exists_congr fun e => and_congr_left fun _ => (hperm.flatMap_right namedPoints).mem_iff
  have hsorted : (joinResults results' L).uniqueTimestamps.insertionSort (· ≤ ·) =
      (joinResults results L).uniqueTimestamps.insertionSort (· ≤ ·) :=
    List.Perm.eq_of_pairwise' (List.pairwise_insertionSort _ _) (List.pairwise_insertionSort _ _)
      (((List.perm_insertionSort _ _).trans htimes).trans (List.perm_insertionSort _ _).symm)
  unfold joinAndCalculate
  dsimp only
  rw [hsorted, calculatePoints_congr hmap]

end Calculate

end Order

/-! ### A formula -/

/-- **The label sets of a formula and their series.** -/
theorem joinAndCalculate_findUniqueLabelSets [GoFloat F] (sort : SortSlice descendingSize)
    (results : List (Result F)) (expression : Expression F) (canDefaultZero : String → Bool) :
    (findUniqueLabelSets sort results expression.vars).Pairwise
      (fun a b => isSubset b a = false ∧ isSubset a b = false) ∧
    (∀ r ∈ results, r.queryName ∈ expression.vars → ∀ s ∈ r.series,
      ∃ L ∈ findUniqueLabelSets sort results expression.vars, isSubset L s.labels = true) ∧
    ∀ L ∈ findUniqueLabelSets sort results expression.vars,
      (∀ s, joinAndCalculate results L expression canDefaultZero = .ok s →
        IsJoin results L expression canDefaultZero s) ∧
      ((∃ s, joinAndCalculate results L expression canDefaultZero = .ok s) ↔
        ∀ t, Evaluable results L expression canDefaultZero t →
          ∃ x, expression.evaluate (arguments results L expression canDefaultZero t) = .ok (.float x)) ∧
      (AtMostOneEach results L → ∀ results', (namedSeries results').Perm (namedSeries results) →
        joinAndCalculate results' L expression canDefaultZero =
          joinAndCalculate results L expression canDefaultZero) := by
  have hsets := findUniqueLabelSets_keptGreatest sort results expression.vars
  refine ⟨hsets.incomparable, fun r hr hquery s hs => hsets.covers s.labels ?_, fun L _ =>
    ⟨fun s hs => isJoin_of_ok hs, joinAndCalculate_ok_iff, fun hone results' hperm =>
      joinAndCalculate_of_perm hperm hone⟩⟩
  refine List.mem_flatMap.mpr ⟨r, List.mem_filter.mpr ⟨hr, decide_eq_true hquery⟩, ?_⟩
  exact List.mem_map_of_mem hs

/-! ### A quotient by zero -/

/-- Whole numbers and `+Inf`. -/
@[reducible] def orInfinite : GoFloat (Option Int) where
  ofInt n := some n
  toInt x := x.getD 0
  formatV x := x.elim "+Inf" toString
  formatF x := x.elim "+Inf" fun n => toString n ++ ".000000"
  parse s := s.toInt?.map some
  isNaN _ := false
  isInf x := x.isNone

/-- `A / B`, for positive values of `A`. -/
def quotient : Expression (Option Int) where
  vars := ["A", "B"]
  evaluate values :=
    match values "A", values "B" with
    | some (.float (some a)), some (.float (some b)) => .ok (.float (if b = 0 then none else some (a / b)))
    | _, _ => .error "invalid operation"
  congr := fun values values' h => by
    rw [h "A" (by simp), h "B" (by simp)]

def dividedByZero : List (Result (Option Int)) :=
  [⟨"A", [⟨∅, [], [⟨60000, some 1⟩]⟩]⟩, ⟨"B", [⟨∅, [], [⟨60000, some 0⟩]⟩]⟩]

/-- All values are there, and there is no point. -/
theorem no_point_dividedByZero :
    ∅ ∈ findUniqueLabelSets (.insertion _) dividedByZero quotient.vars ∧
      Evaluable dividedByZero ∅ quotient (fun _ => false) 60000 ∧
      @joinAndCalculate _ orInfinite dividedByZero ∅ quotient (fun _ => false) = .ok ⟨∅, [], []⟩ := by
  refine ⟨by decide +kernel, ⟨occursAt_iff.mpr ?_, ?_⟩, ?_⟩
  · exact ⟨("A", ⟨60000, some 1⟩), by decide +kernel, rfl⟩
  · decide +kernel
  · decide +kernel

end PostProcess
end QueryService
