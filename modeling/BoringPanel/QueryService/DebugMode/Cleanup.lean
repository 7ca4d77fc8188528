import BoringPanel.Lib.DeleteStatements

/-!
# The cleanup of debug data

`runCleanup` of `app/debugmode/manager.go` deletes the debug data with the statements of
`debugDataCleanupQueries`. They do not name the organisation, and they find debug data by what stands in
the rows. `onlyOwn_iff` says for which contents of the tables they delete no row but those that the
generator has produced for the organisation (`Harmless`).

The collector writes the attributes of a resource into a map column, and the JSON text of them into the
column `labels` of the tables of resources (`Database`).
-/

namespace QueryService.DebugMode

open ClickHouse

/-! ### The statements -/

/-- The condition on a map column with the attributes of the resource. -/
def resourceCondition (column : String) : Condition :=
  .or (.mapEq column "scry.debug" "true") (.mapEq column "service.namespace" "scry-debug")

def metricV2Condition : Condition :=
  .or (.jsonEq "labels" "scry_debug" "true")
    (.or (.jsonEq "labels" "service_namespace" "scry-debug")
      (.jsonEq "labels" "resource_service_namespace" "scry-debug"))

def labelsCondition : Condition :=
  .or (.like "labels" "%scry-debug%") (.like "labels" "%scry.debug%")

/-- The samples of the debug series. -/
def samplesOf (table : String) : Delete :=
  ⟨table, .inSelect "fingerprint" "signoz_metrics.time_series_v4" (resourceCondition "resource_attrs")⟩

def summaryStatement : Delete :=
  ⟨"signoz_traces.trace_summary",
    .inSelect "trace_id" "signoz_traces.signoz_index_v3" (resourceCondition "resources_string")⟩

def errorStatement : Delete :=
  ⟨"signoz_traces.signoz_error_index_v2",
    .or (.mapEq "resourceTagsMap" "scry.debug" "true") (.startsWith "serviceName" "调试-")⟩

def dependencyStatement : Delete :=
  ⟨"signoz_traces.dependency_graph_minutes_v2",
    .or (.eq "deployment_environment" "debug")
      (.or (.startsWith "src" "调试-") (.startsWith "dest" "调试-"))⟩

def operationStatement : Delete :=
  ⟨"signoz_traces.top_level_operations", .startsWith "serviceName" "调试-"⟩

def samplesV2Statement : Delete :=
  ⟨"signoz_metrics.samples_v2",
    .inSelect "fingerprint" "signoz_metrics.time_series_v2" metricV2Condition⟩

def metadataStatement : Delete :=
  ⟨"signoz_metrics.metadata", .startsWith "metric_name" "scry_debug_"⟩

/-- What the statements of `debugDataCleanupQueries` say. -/
def cleanupStatements : List Delete :=
  [ summaryStatement,
    errorStatement,
    dependencyStatement,
    operationStatement,
    ⟨"signoz_traces.signoz_index_v3", resourceCondition "resources_string"⟩,
    ⟨"signoz_traces.traces_v3_resource", labelsCondition⟩,
    ⟨"signoz_logs.logs_v2", resourceCondition "resources_string"⟩,
    ⟨"signoz_logs.logs_v2_resource", labelsCondition⟩,
    samplesOf "signoz_metrics.samples_v4_agg_30m",
    samplesOf "signoz_metrics.samples_v4_agg_5m",
    samplesOf "signoz_metrics.samples_v4",
    ⟨"signoz_metrics.time_series_v4_1day", resourceCondition "resource_attrs"⟩,
    ⟨"signoz_metrics.time_series_v4_1week", resourceCondition "resource_attrs"⟩,
    ⟨"signoz_metrics.time_series_v4_6hrs", resourceCondition "resource_attrs"⟩,
    ⟨"signoz_metrics.time_series_v4", resourceCondition "resource_attrs"⟩,
    samplesV2Statement,
    ⟨"signoz_metrics.time_series_v2", metricV2Condition⟩,
    metadataStatement ]

/-- `debugDataCleanupQueries`. -/
def debugDataCleanupQueries : List String := cleanupStatements.map Delete.toSql

/-! ### Rows of the generator -/

/-- Who has written a row: the telemetry of a user, or the generator for an organisation. -/
inductive Origin where
  | real
  | debug (orgID : String)
deriving DecidableEq, Repr

inductive AttributeValue where
  | stringValue (s : String)
  | boolValue (b : Bool)

/-- How the collector writes the value into a map of strings. -/
def AttributeValue.text : AttributeValue → String
  | stringValue s => s
  | boolValue b => toString b

/-- The resource of `resourceWithScope`, for traces and logs. -/
def resourceWithScope (serviceName orgID caseID : String) : List (String × AttributeValue) :=
  [ ("service.name", .stringValue serviceName),
    ("service.namespace", .stringValue "scry-debug"),
    ("service.version", .stringValue "2.0.0-debug"),
    ("service.instance.id", .stringValue (serviceName ++ "-01")),
    ("deployment.environment", .stringValue "debug"),
    ("scry.debug", .boolValue true),
    ("scry.dataset", .stringValue "diagnostic-evaluation"),
    ("scry.debug.case_id", .stringValue caseID),
    ("scry.org.id", .stringValue orgID) ]

/-- The resource of `sendMetrics`. -/
def metricsResource (orgID caseID : String) : List (String × AttributeValue) :=
  [ ("service.name", .stringValue "调试-遥测生成器"),
    ("service.namespace", .stringValue "scry-debug"),
    ("deployment.environment", .stringValue "debug"),
    ("scry.debug", .boolValue true),
    ("scry.dataset", .stringValue "diagnostic-evaluation"),
    ("scry.debug.case_id", .stringValue caseID),
    ("scry.org.id", .stringValue orgID),
    ("host.name", .stringValue "scry-debug-host-01"),
    ("host_name", .stringValue "scry-debug-host-01"),
    ("os.type", .stringValue "linux") ]

/-- The resources that the generator sends for an organisation. -/
inductive Generated (orgID : String) : List (String × AttributeValue) → Prop
  | resourceWithScope (serviceName caseID : String) :
      Generated orgID (resourceWithScope serviceName orgID caseID)
  | metricsResource (caseID : String) : Generated orgID (metricsResource orgID caseID)

theorem Generated.marked {orgID : String} {attributes : List (String × AttributeValue)}
    (h : Generated orgID attributes) : ("scry.debug", .boolValue true) ∈ attributes := by
  cases h with
  | resourceWithScope serviceName caseID => simp [DebugMode.resourceWithScope]
  | metricsResource caseID => simp [DebugMode.metricsResource]

/-- The map columns with the attributes of a resource that the statements look at. -/
def resourceColumns : List (String × String) :=
  [ ("signoz_traces.signoz_index_v3", "resources_string"),
    ("signoz_logs.logs_v2", "resources_string"),
    ("signoz_metrics.time_series_v4_1day", "resource_attrs"),
    ("signoz_metrics.time_series_v4_1week", "resource_attrs"),
    ("signoz_metrics.time_series_v4_6hrs", "resource_attrs"),
    ("signoz_metrics.time_series_v4", "resource_attrs") ]

def errorIndex : String × String := ("signoz_traces.signoz_error_index_v2", "resourceTagsMap")

/-- The tables of resources. -/
def labelTables : List String :=
  ["signoz_traces.traces_v3_resource", "signoz_logs.logs_v2_resource"]

/-- The samples of the series in `time_series_v4`. -/
def sampleTables : List String :=
  ["signoz_metrics.samples_v4_agg_30m", "signoz_metrics.samples_v4_agg_5m",
    "signoz_metrics.samples_v4"]

/-- The tables, where the rows of the generator carry the attributes of their resources. -/
structure Database where
  tables : Tables Origin
  attributes : ∀ t column, (t, column) ∈ errorIndex :: resourceColumns → ∀ r ∈ tables t, ∀ orgID,
    r.info = .debug orgID → ∃ attributes, Generated orgID attributes ∧
      ∀ e ∈ attributes, r.map column e.1 = e.2.text
  labels : ∀ t ∈ labelTables, ∀ r ∈ tables t, ∀ orgID, r.info = .debug orgID →
    ∃ attributes, Generated orgID attributes ∧
      ∀ e ∈ attributes, e.1.toList <:+: (r.text "labels").toList

/-! ### What is deleted -/

variable (jsonExtractString : String → String → String)

/-- `deleteDebugData`, which ends when a statement fails; so many are executed. The organisation that
`Cleanup` is called for plays no role. -/
def deleteDebugData (executed : Nat) (tables : Tables Origin) : Tables Origin :=
  run jsonExtractString tables (cleanupStatements.take executed)

/-- **No row is deleted but those that the generator has produced for the organisation.** -/
def OnlyOwn (orgID : String) (tables : Tables Origin) : Prop :=
  ∀ executed t r, r ∈ tables t → r.info ≠ .debug orgID →
    r ∈ deleteDebugData jsonExtractString executed tables t

/-- A row looks like one of the generator, in `time_series_v2`. -/
def LooksDebug (r : Row Origin) : Prop :=
  jsonExtractString (r.text "labels") "scry_debug" = "true" ∨
    jsonExtractString (r.text "labels") "service_namespace" = "scry-debug" ∨
    jsonExtractString (r.text "labels") "resource_service_namespace" = "scry-debug"

/-- The contents for which nothing else is deleted: no other organisation has debug data, and what the
statements look for stands in no row of a user. -/
structure Harmless (orgID : String) (tables : Tables Origin) : Prop where
  alone : ∀ t ∈ labelTables ++ (errorIndex :: resourceColumns).map Prod.fst, ∀ r ∈ tables t,
    ∀ other, r.info = .debug other → other = orgID
  resources : ∀ t column, (t, column) ∈ resourceColumns → ∀ r ∈ tables t, r.info = .real →
    r.map column "scry.debug" ≠ "true" ∧ r.map column "service.namespace" ≠ "scry-debug"
  labels : ∀ t ∈ labelTables, ∀ r ∈ tables t, r.info = .real →
    ¬ "scry-debug".toList <:+: (r.text "labels").toList ∧
      ¬ "scry.debug".toList <:+: (r.text "labels").toList
  errors : ∀ r ∈ tables errorIndex.1, r.info = .real → r.map errorIndex.2 "scry.debug" ≠ "true" ∧
    ¬ "调试-".toList <+: (r.text "serviceName").toList
  summaries : ∀ r ∈ tables "signoz_traces.trace_summary", r.info ≠ .debug orgID →
    ∀ span ∈ tables "signoz_traces.signoz_index_v3", span.info = .debug orgID →
      span.text "trace_id" ≠ r.text "trace_id"
  dependencies : ∀ r ∈ tables "signoz_traces.dependency_graph_minutes_v2", r.info ≠ .debug orgID →
    r.text "deployment_environment" ≠ "debug" ∧ ¬ "调试-".toList <+: (r.text "src").toList ∧
      ¬ "调试-".toList <+: (r.text "dest").toList
  operations : ∀ r ∈ tables "signoz_traces.top_level_operations", r.info ≠ .debug orgID →
    ¬ "调试-".toList <+: (r.text "serviceName").toList
  samples : ∀ t ∈ sampleTables, ∀ r ∈ tables t, r.info ≠ .debug orgID →
    ∀ series ∈ tables "signoz_metrics.time_series_v4", series.info = .debug orgID →
      series.text "fingerprint" ≠ r.text "fingerprint"
  seriesV2 : ∀ r ∈ tables "signoz_metrics.time_series_v2", r.info ≠ .debug orgID →
    ¬ LooksDebug jsonExtractString r
  samplesV2 : ∀ r ∈ tables "signoz_metrics.samples_v2", r.info ≠ .debug orgID →
    ∀ series ∈ tables "signoz_metrics.time_series_v2", series.info = .debug orgID →
      LooksDebug jsonExtractString series → series.text "fingerprint" ≠ r.text "fingerprint"
  metadata : ∀ r ∈ tables "signoz_metrics.metadata", r.info ≠ .debug orgID →
    ¬ "scry_debug_".toList <+: (r.text "metric_name").toList

/-! ### What the conditions say -/

section Conditions

variable {jsonExtractString} {tables : Tables Origin} {r : Row Origin}

theorem labelsCondition_holds : labelsCondition.Holds jsonExtractString tables r ↔
    "scry-debug".toList <:+: (r.text "labels").toList ∨
      "scry.debug".toList <:+: (r.text "labels").toList := by
  have hname := @like_within_iff "scry-debug".toList (r.text "labels").toList (by simp)
  have hkey := @like_within_iff "scry.debug".toList (r.text "labels").toList (by simp)
  exact or_congr hname hkey

end Conditions

/-- No statement selects from a table that was cleaned before. -/
theorem selects_before :
    cleanupStatements.Pairwise fun s s' => s.table ∉ s'.condition.selects := by
  decide

/-! ### When nothing else is deleted -/

variable {jsonExtractString}

/-- The rows of the generator are found by the attributes of their resources. -/
theorem Database.found (db : Database) {t column orgID : String}
    (ht : (t, column) ∈ errorIndex :: resourceColumns) {r : Row Origin} (hr : r ∈ db.tables t)
    (hinfo : r.info = .debug orgID) : r.map column "scry.debug" = "true" := by
  obtain ⟨attributes, hgenerated, hmap⟩ := db.attributes t column ht r hr orgID hinfo
  exact hmap _ hgenerated.marked

theorem Database.labelled (db : Database) {t orgID : String} (ht : t ∈ labelTables)
    {r : Row Origin} (hr : r ∈ db.tables t) (hinfo : r.info = .debug orgID) :
    "scry.debug".toList <:+: (r.text "labels").toList := by
  obtain ⟨attributes, hgenerated, hlabels⟩ := db.labels t ht r hr orgID hinfo
  exact hlabels _ hgenerated.marked

/-- The rows that must stay. -/
theorem foreign_cases {orgID : String} {r : Row Origin} (h : r.info ≠ .debug orgID) :
    r.info = .real ∨ ∃ other, r.info = .debug other ∧ other ≠ orgID := by
  cases hinfo : r.info with
  | real => exact .inl rfl
  | debug other =>
    refine .inr ⟨other, rfl, ?_⟩
    rintro rfl
    exact h hinfo

/-- The statements, by what they look at. -/
theorem cleanupStatements_cases : ∀ s ∈ cleanupStatements,
    (∃ e ∈ resourceColumns, s = ⟨e.1, resourceCondition e.2⟩) ∨
    (∃ t ∈ labelTables, s = ⟨t, labelsCondition⟩) ∨
    (∃ t ∈ sampleTables, s = samplesOf t) ∨
    s ∈ [summaryStatement, errorStatement, dependencyStatement, operationStatement,
      samplesV2Statement, ⟨"signoz_metrics.time_series_v2", metricV2Condition⟩, metadataStatement] := by
  decide +kernel

theorem mem_cleanupStatements :
    (∀ e ∈ resourceColumns, ⟨e.1, resourceCondition e.2⟩ ∈ cleanupStatements) ∧
    (∀ t ∈ labelTables, ⟨t, labelsCondition⟩ ∈ cleanupStatements) ∧
    (∀ t ∈ sampleTables, samplesOf t ∈ cleanupStatements) ∧
    (∀ s ∈ [summaryStatement, errorStatement, dependencyStatement, operationStatement,
      samplesV2Statement, ⟨"signoz_metrics.time_series_v2", metricV2Condition⟩, metadataStatement],
      s ∈ cleanupStatements) := by
  decide +kernel

/-- A user's row, or a debug row of another organisation, is not one of the organisation. -/
theorem ne_debug_of_real {orgID : String} {r : Row Origin} (h : r.info = .real) :
    r.info ≠ .debug orgID := by
  rw [h]
  exact nofun

theorem harmless_of_spared (db : Database) {orgID : String}
    (h : ∀ s ∈ cleanupStatements, ∀ r ∈ db.tables s.table, r.info ≠ .debug orgID →
      ¬ s.condition.Holds jsonExtractString db.tables r) :
    Harmless jsonExtractString orgID db.tables := by
  obtain ⟨hresources, hlabels, hsamples, hrest⟩ := mem_cleanupStatements
  have hspans : ("signoz_traces.signoz_index_v3", "resources_string") ∈
      errorIndex :: resourceColumns := by decide
  have hseries : ("signoz_metrics.time_series_v4", "resource_attrs") ∈
      errorIndex :: resourceColumns := by decide
  refine ⟨fun t ht r hr other hinfo => ?_, fun t column ht r hr hinfo => ?_,
    fun t ht r hr hinfo => ?_, fun r hr hinfo => ?_, fun r hr hinfo span hspan hown heq => ?_,
    fun r hr hinfo => ?_, fun r hr hinfo => ?_, fun t ht r hr hinfo series hs hown heq => ?_,
    fun r hr hinfo => ?_, fun r hr hinfo series hs _ hlooks heq => ?_, fun r hr hinfo => ?_⟩
  · by_contra hother
    have hne : r.info ≠ .debug orgID := by
      rw [hinfo]
      exact fun h => hother (Origin.debug.inj h)
    rcases List.mem_append.mp ht with ht | ht
    · exact h _ (hlabels t ht) r hr hne
        (labelsCondition_holds.mpr (.inr (db.labelled ht hr hinfo)))
    · obtain ⟨⟨t, column⟩, he, rfl⟩ := List.mem_map.mp ht
      have hfound := db.found he hr hinfo
      rcases List.mem_cons.mp he with he' | he'
      · cases he'
        exact h errorStatement (hrest _ (by decide)) r hr hne (.inl hfound)
      · exact h _ (hresources _ he') r hr hne (.inl hfound)
  · exact not_or.mp (h _ (hresources _ ht) r hr (ne_debug_of_real hinfo))
  · rw [← not_or, ← labelsCondition_holds]
    exact h _ (hlabels t ht) r hr (ne_debug_of_real hinfo)
  · exact not_or.mp (h errorStatement (hrest _ (by decide)) r hr (ne_debug_of_real hinfo))
  · exact h summaryStatement (hrest _ (by decide)) r hr hinfo
      ⟨span, hspan, .inl (db.found hspans hspan hown), heq⟩
  · have hnot := not_or.mp (h dependencyStatement (hrest _ (by decide)) r hr hinfo)
    exact ⟨hnot.1, not_or.mp hnot.2⟩
  · exact h operationStatement (hrest _ (by decide)) r hr hinfo
  · exact h _ (hsamples t ht) r hr hinfo
      ⟨series, hs, .inl (db.found hseries hs hown), heq⟩
  · exact h ⟨"signoz_metrics.time_series_v2", metricV2Condition⟩ (hrest _ (by decide)) r hr hinfo
  · exact h samplesV2Statement (hrest _ (by decide)) r hr hinfo ⟨series, hs, hlooks, heq⟩
  · exact h metadataStatement (hrest _ (by decide)) r hr hinfo

/-- What carries the attributes of the generator is a row of the organisation. -/
theorem Harmless.own {orgID : String} {tables : Tables Origin}
    (h : Harmless jsonExtractString orgID tables) {t column : String}
    (ht : (t, column) ∈ resourceColumns) {r : Row Origin} (hr : r ∈ tables t)
    (hholds : (resourceCondition column).Holds jsonExtractString tables r) :
    r.info = .debug orgID := by
  cases hinfo : r.info with
  | real =>
    obtain ⟨hdebug, hnamespace⟩ := h.resources t column ht r hr hinfo
    exact (hholds.elim hdebug hnamespace).elim
  | debug other =>
    have hmem : t ∈ labelTables ++ (errorIndex :: resourceColumns).map Prod.fst :=
      List.mem_append_right _ (List.mem_map.mpr ⟨_, List.mem_cons_of_mem _ ht, rfl⟩)
    rw [h.alone t hmem r hr other hinfo]

theorem spared_of_harmless {tables : Tables Origin} {orgID : String}
    (h : Harmless jsonExtractString orgID tables) :
    ∀ s ∈ cleanupStatements, ∀ r ∈ tables s.table, r.info ≠ .debug orgID →
      ¬ s.condition.Holds jsonExtractString tables r := by
  intro s hs r hr hinfo hholds
  rcases cleanupStatements_cases s hs with ⟨e, he, rfl⟩ | ⟨t, ht, rfl⟩ | ⟨t, ht, rfl⟩ | hs
  · exact hinfo (h.own he hr hholds)
  · rcases foreign_cases hinfo with hreal | ⟨other, hother, hne⟩
    · have hlabels := h.labels t ht r hr hreal
      exact (labelsCondition_holds.mp hholds).elim hlabels.1 hlabels.2
    · exact hne (h.alone t (List.mem_append_left _ ht) r hr other hother)
  · obtain ⟨series, hseries, hmarked, heq⟩ := hholds
    exact h.samples t ht r hr hinfo series hseries (h.own (by decide) hseries hmarked) heq
  · simp only [List.mem_cons, List.not_mem_nil, or_false] at hs
    rcases hs with rfl | rfl | rfl | rfl | rfl | rfl | rfl
    · obtain ⟨span, hspan, hmarked, heq⟩ := hholds
      exact h.summaries r hr hinfo span hspan (h.own (by decide) hspan hmarked) heq
    · rcases foreign_cases hinfo with hreal | ⟨other, hother, hne⟩
      · have herrors := h.errors r hr hreal
        exact hholds.elim herrors.1 herrors.2
      · exact hne (h.alone errorIndex.1 (by decide) r hr other hother)
    · obtain ⟨henv, hsrc, hdest⟩ := h.dependencies r hr hinfo
      exact hholds.elim henv fun hname => hname.elim hsrc hdest
    · exact h.operations r hr hinfo hholds
    · obtain ⟨series, hseries, hlooks, heq⟩ := hholds
      refine h.samplesV2 r hr hinfo series hseries ?_ hlooks heq
      by_contra hforeign
      exact h.seriesV2 series hseries hforeign hlooks
    · exact h.seriesV2 r hr hinfo hholds
    · exact h.metadata r hr hinfo hholds

theorem onlyOwn_iff_spared {tables : Tables Origin} {orgID : String} :
    OnlyOwn jsonExtractString orgID tables ↔ ∀ s ∈ cleanupStatements, ∀ r ∈ tables s.table,
      r.info ≠ .debug orgID → ¬ s.condition.Holds jsonExtractString tables r :=
  spares_iff selects_before

/-- **Nothing but the debug data of the organisation is deleted exactly if the contents of the tables are
harmless.** -/
theorem onlyOwn_iff (jsonExtractString : String → String → String) (db : Database) (orgID : String) :
    OnlyOwn jsonExtractString orgID db.tables ↔ Harmless jsonExtractString orgID db.tables := by
  constructor
  · intro h
    exact harmless_of_spared db (onlyOwn_iff_spared.mp h)
  · intro h
    exact onlyOwn_iff_spared.mpr (spared_of_harmless h)

/-- The dependency of two services of a user, in an environment that is called debug. -/
def userDependency : Row Origin where
  info := .real
  text column := if column = "deployment_environment" then "debug" else "checkout"
  map _ _ := ""

def userDatabase : Database where
  tables t := if t = "signoz_traces.dependency_graph_minutes_v2" then [userDependency] else []
  attributes t column _ r hr orgID hinfo := by
    split at hr
    · rw [List.mem_singleton.mp hr] at hinfo
      cases hinfo
    · cases hr
  labels t _ r hr orgID hinfo := by
    split at hr
    · rw [List.mem_singleton.mp hr] at hinfo
      cases hinfo
    · cases hr

/-- The dependency is deleted, although no organisation has debug data. -/
theorem not_onlyOwn_user : ¬ OnlyOwn (fun _ _ => "") "org" userDatabase.tables := by
  intro h
  have hspared := onlyOwn_iff_spared.mp h dependencyStatement (by decide) userDependency
    (List.mem_singleton_self _) nofun
  exact hspared (.inl rfl)

end QueryService.DebugMode
