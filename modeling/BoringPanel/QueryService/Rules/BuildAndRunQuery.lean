import BoringPanel.QueryService.PostProcess.Results
import BoringPanel.QueryService.Rules.PatchRule
import BoringPanel.QueryService.Rules.ShouldAlert

/-!
# The query of a rule

`buildAndRunQuery` of `rules/threshold_rule.go` and of `rules/anomaly.go`, from what the querier returns
on, with the query that a condition selects (`GetSelectedQueryName`) and `removeDisabledQueries` of
`postprocess/process.go`. What the selected query is does not depend on which results are left, and the
loop over its series reads through a pointer that is `nil` where it has none.
-/

namespace QueryService.Rules

open PostProcess (Result)

variable {F : Type}

/-- What stops the process: a `nil` result, a `nil` query of a result, or an index out of range. -/
inductive Panic where
  | nilResult
  | nilQuery
  | noQueryNames
deriving DecidableEq, Repr

inductive QueryError where
  | error (message : String)
  | panic (p : Panic)
deriving DecidableEq, Repr

/-! ### The selected query -/

/-- The names of the queries of the condition; those of PromQL are not among them. -/
def RuleCondition.queryNames (c : RuleCondition F) : List String :=
  match c.compositeQuery with
  | none => []
  | some q =>
    if q.queryType = queryTypeBuilder then mapKeys q.builderQueries
    else if q.queryType = queryTypeClickHouseSQL then mapKeys q.clickHouseQueries
    else []

/-- `GetSelectedQueryName`: the one that is given, `F1`, or the last name; `none` where there is no last
one. -/
def RuleCondition.selectedQueryName (c : RuleCondition F) : Option String :=
  if c.selectedQuery ≠ "" then some c.selectedQuery
  else if "F1" ∈ c.queryNames then some "F1"
  else (Go.sortStrings c.queryNames).getLast?

/-! ### The results -/

/-- `removeDisabledQueries`; a result of an unknown query is `none`. -/
def removeDisabledQueries (builderQueries : Option (Go.Map BuilderQuery)) (results : List (Result F)) :
    Option (List (Result F)) :=
  match results with
  | [] => some []
  | res :: rest =>
    match builderQueries.bind fun m => m.lookup res.queryName with
    | none => none
    | some q =>
      (removeDisabledQueries builderQueries rest).map fun rest =>
        if q.disabled then rest else res :: rest

/-- What one evaluation meets: an error before the query runs, what the querier returns, what the steps
of `PostProcessResult` before `removeDisabledQueries` make of that and `FillGaps` after it, and the clock,
which is read twice. -/
structure Evaluation (F : Type) where
  failure : Option String
  queried : Except String (List (Result F))
  steps : List (Result F) → Except String (List (Result F))
  fillGaps : Result F → Result F
  now : Go.Time
  later : Go.Time

/-- `FillGaps` changes series only. -/
def Evaluation.fill (env : Evaluation F) (r : Result F) : Result F :=
  { env.fillGaps r with queryName := r.queryName }

/-- `PostProcessResult`. -/
def Evaluation.postProcess (env : Evaluation F) (q : CompositeQuery) (results : List (Result F)) :
    Except QueryError (List (Result F)) :=
  match env.steps results with
  | .error _ => .error (.error "internal error while post processing")
  | .ok results =>
    match removeDisabledQueries q.builderQueries results with
    | none => .error (.panic .nilQuery)
    | some results => .ok (if q.fillGaps then results.map env.fill else results)

/-- The results that the querier and `PostProcessResult` return. -/
def Evaluation.results (env : Evaluation F) (q : CompositeQuery) : Except QueryError (List (Result F)) :=
  match env.failure, env.queried with
  | some message, _ => .error (.error message)
  | none, .error _ => .error (.error "internal error while querying")
  | none, .ok results =>
    if q.queryType = queryTypeBuilder then env.postProcess q results else .ok results

/-! ### The loop over the series -/

/-- The first result of a query. -/
def findResult (name : String) (results : List (Result F)) : Option (Result F) :=
  results.find? fun res => res.queryName = name

section Loops

variable [GoLimits F]

/-- What a rule is to its query: a condition that `NewBaseRule` accepts, the target in its unit, and how it
lists labels and writes times. -/
structure QueryRule (F : Type) where
  ruleCondition : RuleCondition F
  accepted : ruleCondition.isValid = true
  targetVal : F
  labels : Go.StringMap → Labels
  formatTime : Go.Time → String

/-- An accepted condition has a composite query. -/
def QueryRule.compositeQuery (r : QueryRule F) : CompositeQuery :=
  r.ruleCondition.compositeQuery.getD .zero

/-- The samples of the series that alert. -/
def QueryRule.alerting (r : QueryRule F) (series : List (Series F)) : List (Sample F) :=
  series.filterMap fun s =>
    let (smpl, shouldAlert) := shouldAlert r.ruleCondition r.targetVal (r.labels s.labels) s
    if shouldAlert then some smpl else none

/-- Nothing has been found for as long as the condition allows: `AbsentFor` minutes, as a duration. -/
def QueryRule.absent (r : QueryRule F) (lastTimestampWithDatapoints now : Go.Time) : Bool :=
  r.ruleCondition.alertOnAbsent &&
    (lastTimestampWithDatapoints.add (Int64.ofNat r.ruleCondition.absentFor * 60000000000)).before now

/-- The sample of an alert for missing data. -/
def QueryRule.missing (r : QueryRule F) (lastTimestampWithDatapoints : Go.Time) : Sample F :=
  let lbls := Builder.new []
  let lbls := if lastTimestampWithDatapoints.isZero then lbls
    else lbls.set "lastSeen" (r.formatTime lastTimestampWithDatapoints)
  ⟨lbls.labels, GoMath.const 0, true⟩

/-- `ThresholdRule.buildAndRunQuery`, with the time of the last data that it leaves. -/
def QueryRule.buildAndRunQuery (r : QueryRule F) (env : Evaluation F) (lastTimestampWithDatapoints : Go.Time) :
    Except QueryError (List (Sample F)) × Go.Time :=
  match env.results r.compositeQuery with
  | .error err => (.error err, lastTimestampWithDatapoints)
  | .ok results =>
    match r.ruleCondition.selectedQueryName with
    | none => (.error (.panic .noQueryNames), lastTimestampWithDatapoints)
    | some selectedQuery =>
      let queryResult := findResult selectedQuery results
      let last := if queryResult.any fun res => !res.series.isEmpty then env.now else lastTimestampWithDatapoints
      if r.absent last env.later then (.ok [r.missing last], last)
      else
        match queryResult with
        | none => (.error (.panic .nilResult), last)
        | some queryResult => (.ok (r.alerting queryResult.series), last)

/-- A result of the anomaly provider; the scores are those of one series each. -/
structure AnomalyResult (F : Type) where
  queryName : String
  anomalyScores : List (Series F)

/-- The loop that looks for the result of the selected query, which it asks for at every turn. -/
def RuleCondition.findAnomaly (c : RuleCondition F) :
    List (AnomalyResult F) → Except QueryError (Option (AnomalyResult F))
  | [] => .ok none
  | result :: rest =>
    match c.selectedQueryName with
    | none => .error (.panic .noQueryNames)
    | some selectedQuery =>
      if result.queryName = selectedQuery then .ok (some result) else c.findAnomaly rest

/-- `AnomalyRule.buildAndRunQuery`, on what the provider returns. -/
def QueryRule.buildAndRunAnomalyQuery (r : QueryRule F) (anomalies : Except String (List (AnomalyResult F))) :
    Except QueryError (List (Sample F)) :=
  match anomalies with
  | .error message => .error (.error message)
  | .ok results =>
    match r.ruleCondition.findAnomaly results with
    | .error err => .error err
    | .ok none => .error (.panic .nilResult)
    | .ok (some queryResult) => .ok (r.alerting queryResult.anomalyScores)

end Loops

/-! ### What is left of the results -/

/-- There is a result of a query, which is not disabled if it is one of the builder. -/
def Evaluation.HasResult (env : Evaluation F) (q : CompositeQuery) (name : String) : Prop :=
  if q.queryType = queryTypeBuilder then
    ∃ queried stepped, env.queried = .ok queried ∧ env.steps queried = .ok stepped ∧
      (∃ res ∈ stepped, res.queryName = name) ∧
      ∃ b, (q.builderQueries.bind fun m => m.lookup name) = some b ∧ b.disabled = false
  else ∃ queried, env.queried = .ok queried ∧ ∃ res ∈ queried, res.queryName = name

section Results

variable {env : Evaluation F} {q : CompositeQuery} {builderQueries : Option (Go.Map BuilderQuery)}
  {results left : List (Result F)} {res : Result F} {name : String}

/-- The results of the queries that are not disabled are left. -/
theorem mem_removeDisabledQueries (h : removeDisabledQueries builderQueries results = some left) :
    res ∈ left ↔ res ∈ results ∧
      ∃ b, (builderQueries.bind fun m => m.lookup res.queryName) = some b ∧ b.disabled = false := by
  induction results generalizing left with
  | nil =>
    obtain rfl := Option.some.inj h
    simp only [List.not_mem_nil, false_and]
  | cons first rest ih =>
    rw [removeDisabledQueries] at h
    cases hlookup : builderQueries.bind fun m => m.lookup first.queryName with
    | none =>
      rw [hlookup] at h
      cases h
    | some b =>
      rw [hlookup] at h
      obtain ⟨left', hrest, rfl⟩ := Option.map_eq_some_iff.mp h
      rw [List.mem_cons]
      cases hb : b.disabled with
      | true =>
        rw [if_pos rfl, ih hrest]
        refine ⟨fun hres => ⟨.inr hres.1, hres.2⟩, ?_⟩
        rintro ⟨rfl | hmem, b', hb', henabled⟩
        · -- the first one is of a disabled query
          rw [hlookup] at hb'
          rw [← Option.some.inj hb', hb] at henabled
          cases henabled
        · exact ⟨hmem, b', hb', henabled⟩
      | false =>
        rw [if_neg Bool.false_ne_true, List.mem_cons, ih hrest]
        constructor
        · rintro (rfl | ⟨hmem, henabled⟩)
          · exact ⟨.inl rfl, b, hlookup, hb⟩
          · exact ⟨.inr hmem, henabled⟩
        · rintro ⟨rfl | hmem, henabled⟩
          · exact .inl rfl
          · exact .inr ⟨hmem, henabled⟩

theorem exists_mem_postProcess_iff {queried : List (Result F)} (hqueried : env.queried = .ok queried)
    (hbuilder : q.queryType = queryTypeBuilder) (h : env.postProcess q queried = .ok left) :
    (∃ res ∈ left, res.queryName = name) ↔ env.HasResult q name := by
  unfold Evaluation.postProcess at h
  cases hsteps : env.steps queried with
  | error message =>
    rw [hsteps] at h
    cases h
  | ok stepped =>
    rw [hsteps] at h
    cases hleft : removeDisabledQueries q.builderQueries stepped with
    | none => simp [hleft] at h
    | some kept =>
      simp only [hleft] at h
      have hnames : (∃ res ∈ left, res.queryName = name) ↔ ∃ res ∈ kept, res.queryName = name := by
        rw [← Except.ok.inj h]
        split
        · -- the gaps are filled under the same names
          simp only [List.mem_map, exists_exists_and_eq_and]
          rfl
        · rfl
      rw [hnames, Evaluation.HasResult, if_pos hbuilder]
      constructor
      · rintro ⟨res, hres, rfl⟩
        obtain ⟨hmem, henabled⟩ := (mem_removeDisabledQueries hleft).mp hres
        exact ⟨queried, stepped, hqueried, hsteps, ⟨res, hmem, rfl⟩, henabled⟩
      · rintro ⟨queried', stepped', hqueried', hsteps', ⟨res, hmem, rfl⟩, henabled⟩
        obtain rfl := Except.ok.inj (hqueried.symm.trans hqueried')
        obtain rfl := Except.ok.inj (hsteps.symm.trans hsteps')
        exact ⟨res, (mem_removeDisabledQueries hleft).mpr ⟨hmem, henabled⟩, rfl⟩

/-- **The names of the results that are returned.** -/
theorem exists_mem_results_iff (h : env.results q = .ok results) :
    (∃ res ∈ results, res.queryName = name) ↔ env.HasResult q name := by
  unfold Evaluation.results at h
  cases hfailure : env.failure with
  | some message => simp [hfailure] at h
  | none =>
    cases hqueried : env.queried with
    | error message => simp [hfailure, hqueried] at h
    | ok queried =>
      simp only [hfailure, hqueried] at h
      by_cases hbuilder : q.queryType = queryTypeBuilder
      · rw [if_pos hbuilder] at h
        exact exists_mem_postProcess_iff hqueried hbuilder h
      · rw [if_neg hbuilder] at h
        obtain rfl := Except.ok.inj h
        rw [Evaluation.HasResult, if_neg hbuilder]
        constructor
        · exact fun hres => ⟨queried, hqueried, hres⟩
        · rintro ⟨queried', hqueried', hres⟩
          obtain rfl := Except.ok.inj (hqueried.symm.trans hqueried')
          exact hres

theorem findResult_eq_none_iff : findResult name results = none ↔ ¬ ∃ res ∈ results, res.queryName = name := by
  rw [findResult, List.find?_eq_none]
  simp only [decide_eq_true_eq, not_exists, not_and]

end Results

/-! ### Crashes -/

section Crashes

variable [GoLimits F] {r : QueryRule F} {env : Evaluation F} {last : Go.Time}

/-- A vector or an error is returned. -/
def Returns {α : Type} (result : Except QueryError α) : Prop := ∀ p, result ≠ .error (.panic p)

theorem returns_threshold_iff {results : List (Result F)} (h : env.results r.compositeQuery = .ok results) :
    Returns (r.buildAndRunQuery env last).1 ↔
      ∃ name, r.ruleCondition.selectedQueryName = some name ∧
        (env.HasResult r.compositeQuery name ∨ r.absent last env.later = true) := by
  unfold QueryRule.buildAndRunQuery
  rw [h]
  cases hname : r.ruleCondition.selectedQueryName with
  | none =>
    refine iff_of_false (fun hreturns => hreturns .noQueryNames rfl) ?_
    rintro ⟨name, hsome, -⟩
    cases hsome
  | some name =>
    have hexists : (∃ name', some name = some name' ∧
        (env.HasResult r.compositeQuery name' ∨ r.absent last env.later = true)) ↔
        (env.HasResult r.compositeQuery name ∨ r.absent last env.later = true) := by
      simp only [Option.some.injEq, exists_eq_left']
    rw [hexists, ← exists_mem_results_iff h]
    simp only
    cases hfind : findResult name results with
    | none =>
      have hmissing := findResult_eq_none_iff.mp hfind
      simp only [Option.any_none, Bool.false_eq_true, if_false]
      cases habsent : r.absent last env.later with
      | true =>
        refine iff_of_true (fun p h => ?_) (.inr rfl)
        rw [if_pos rfl] at h
        cases h
      | false =>
        refine iff_of_false (fun hreturns => hreturns .nilResult ?_) ?_
        · rw [if_neg Bool.false_ne_true]
        · rintro (hsome | hfalse)
          · exact hmissing hsome
          · cases hfalse
    | some res =>
      have hfound : ∃ res ∈ results, res.queryName = name := by
        by_contra hnone
        rw [findResult_eq_none_iff.mpr hnone] at hfind
        cases hfind
      refine iff_of_true (fun p h => ?_) (.inl hfound)
      split at h <;> split at h <;> cases h

omit [GoLimits F] in
theorem findAnomaly_eq {c : RuleCondition F} {name : String} (hname : c.selectedQueryName = some name)
    (results : List (AnomalyResult F)) :
    c.findAnomaly results = .ok (results.find? fun res => res.queryName = name) := by
  induction results with
  | nil => rfl
  | cons res rest ih =>
    rw [RuleCondition.findAnomaly, hname]
    by_cases hres : res.queryName = name
    · simp only [hres, if_true, List.find?_cons, decide_true]
    · simp only [hres, if_false, List.find?_cons, decide_false, ih]

theorem returns_anomaly_iff (results : List (AnomalyResult F)) :
    Returns (r.buildAndRunAnomalyQuery (.ok results)) ↔
      ∃ name, r.ruleCondition.selectedQueryName = some name ∧ ∃ res ∈ results, res.queryName = name := by
  unfold QueryRule.buildAndRunAnomalyQuery
  cases hname : r.ruleCondition.selectedQueryName with
  | none =>
    refine iff_of_false (fun hreturns => ?_) ?_
    · cases results with
      | nil => exact hreturns .nilResult rfl
      | cons res rest =>
        refine hreturns .noQueryNames ?_
        simp only [RuleCondition.findAnomaly, hname]
    · rintro ⟨name, hsome, -⟩
      cases hsome
  | some name =>
    simp only [findAnomaly_eq hname, Option.some.injEq, exists_eq_left']
    cases hfind : results.find? fun res => res.queryName = name with
    | none =>
      refine iff_of_false (fun hreturns => hreturns .nilResult rfl) ?_
      rintro ⟨res, hres, heq⟩
      exact List.find?_eq_none.mp hfind res hres (decide_eq_true heq)
    | some res =>
      refine iff_of_true (fun p h => ?_) ⟨res, List.mem_of_find?_eq_some hfind, ?_⟩
      · cases h
      · simpa using List.find?_some hfind

/-- **The query of a rule returns if its condition selects a query that has a result**, or if missing data is
due. -/
theorem returns_iff (r : QueryRule F) (env : Evaluation F) (last : Go.Time) (results : List (Result F))
    (anomalies : List (AnomalyResult F)) (h : env.results r.compositeQuery = .ok results) :
    (Returns (r.buildAndRunQuery env last).1 ↔
      ∃ name, r.ruleCondition.selectedQueryName = some name ∧
        (env.HasResult r.compositeQuery name ∨ r.absent last env.later = true)) ∧
    (Returns (r.buildAndRunAnomalyQuery (.ok anomalies)) ↔
      ∃ name, r.ruleCondition.selectedQueryName = some name ∧ ∃ res ∈ anomalies, res.queryName = name) :=
  ⟨returns_threshold_iff h, returns_anomaly_iff anomalies⟩

/-- Two queries, of which the second one is disabled and no query is selected. -/
def oneDisabledCondition : RuleCondition GoNumber where
  compositeQuery := some { CompositeQuery.zero with
    queryType := queryTypeBuilder
    builderQueries := some ((Go.Map.empty.set "A" ⟨"", "A", false, ""⟩).set "B" ⟨"", "B", true, ""⟩) }
  compareOp := CompareOp.valueIsAbove.toString
  target := some (.finite 1)
  alertOnAbsent := false
  absentFor := 0
  matchType := MatchType.atleastOnce.toString
  targetUnit := ""
  algorithm := ""
  seasonality := ""
  selectedQuery := ""
  requireMinPoints := false
  requiredNumPoints := 0

def oneDisabled : QueryRule GoNumber where
  ruleCondition := oneDisabledCondition
  accepted := rfl
  targetVal := .finite 1
  labels _ := []
  formatTime _ := ""

/-- The querier has run both, and nothing else changes the results. -/
def bothQueried : Evaluation GoNumber where
  failure := none
  queried := .ok [⟨"A", []⟩, ⟨"B", []⟩]
  steps := .ok
  fillGaps := id
  now := .unix 0
  later := .unix 0

theorem results_bothQueried : bothQueried.results oneDisabled.compositeQuery = .ok [⟨"A", []⟩] := rfl

theorem selectedQueryName_oneDisabled : oneDisabled.ruleCondition.selectedQueryName = some "B" := by
  have hsort : Go.sortStrings ["A", "B"] = ["A", "B"] := by
    simp [Go.sortStrings, List.insertionSort]
  have hnames : oneDisabledCondition.queryNames = ["A", "B"] := rfl
  show oneDisabledCondition.selectedQueryName = some "B"
  rw [RuleCondition.selectedQueryName, if_neg (by decide), hnames, if_neg (by decide), hsort]
  rfl

theorem returns_oneDisabled :
    (Returns (oneDisabled.buildAndRunQuery bothQueried (.unix 0)).1 ↔
      ∃ name, oneDisabled.ruleCondition.selectedQueryName = some name ∧
        (bothQueried.HasResult oneDisabled.compositeQuery name ∨
          oneDisabled.absent (.unix 0) bothQueried.later = true)) ∧
    (Returns (oneDisabled.buildAndRunAnomalyQuery (.ok [])) ↔
      ∃ name, oneDisabled.ruleCondition.selectedQueryName = some name ∧
        ∃ res ∈ ([] : List (AnomalyResult GoNumber)), res.queryName = name) :=
  returns_iff oneDisabled bothQueried (.unix 0) _ [] results_bothQueried

/-- The last name is that of the disabled query, whose result has been removed. -/
theorem crashes_on_disabled : ¬ ∀ (r : QueryRule GoNumber) (env : Evaluation GoNumber) (last : Go.Time)
    (results : List (Result GoNumber)), env.results r.compositeQuery = .ok results →
    Returns (r.buildAndRunQuery env last).1 := by
  intro h
  refine h oneDisabled bothQueried (.unix 0) _ results_bothQueried .nilResult ?_
  rw [QueryRule.buildAndRunQuery, results_bothQueried, selectedQueryName_oneDisabled]
  rfl

end Crashes

end QueryService.Rules
