import BoringPanel.QueryService.LogParsingPipeline.CollectorConfig

/-!
# What the update of a config reads and writes

The update of a collector's config depends on the parts of it that it reads: its processors, the
sections on the way to the logs pipeline, and the logs pipeline (`View`). On these it is a function
that does not fail (`View.next`), and the config that it writes is read as that
(`View.next_of`).
-/

namespace QueryService.LogParsingPipeline

open Yaml

/-! ### Lists of strings -/

theorem decodeStrings_stringsValue (l : List String) : decodeStrings (stringsValue l) = .ok l := by
  rw [stringsValue, decodeStrings]
  induction l with
  | nil => rfl
  | cons s l ih => rw [List.map_cons, List.mapM_cons, ih]; rfl

/-- The entries of the struct. -/
def LogsPipeline.entries (p : LogsPipeline) : Entries :=
  [("exporters", stringsValue p.exporters), ("processors", stringsValue p.processors),
    ("receivers", stringsValue p.receivers)]

theorem LogsPipeline.decodeLogs_toValue (p : LogsPipeline) : decodeLogs p.toValue = .ok (some p) := by
  have hexporters : decodeField "exporters" p.entries = .ok p.exporters :=
    decodeStrings_stringsValue p.exporters
  have hprocessors : decodeField "processors" p.entries = .ok p.processors :=
    decodeStrings_stringsValue p.processors
  have hreceivers : decodeField "receivers" p.entries = .ok p.receivers :=
    decodeStrings_stringsValue p.receivers
  change decodeLogs (.map p.entries) = _
  rw [decodeLogs, hexporters, hprocessors, hreceivers]
  rfl

theorem LogsPipeline.canonical_toValue (p : LogsPipeline) : p.toValue.Canonical := by
  refine .map ?_ fun e he => ?_
  · refine List.pairwise_cons.mpr ⟨fun e he => ?_, List.pairwise_pair.mpr ?_⟩
    · simp only [List.mem_cons, List.not_mem_nil, or_false] at he
      rcases he with rfl | rfl
      · exact show "exporters" < "processors" by decide
      · exact show "exporters" < "receivers" by decide
    · exact show "processors" < "receivers" by decide
  · simp only [List.mem_cons, List.not_mem_nil, or_false] at he
    rcases he with rfl | rfl | rfl <;> exact canonical_stringsValue _

theorem itemsJson_strings (l : List String) : itemsJson (l.map .str) = true := by
  induction l with
  | nil => rfl
  | cons s l ih => rw [List.map_cons, itemsJson, ih]; rfl

theorem LogsPipeline.json_toValue (p : LogsPipeline) : p.toValue.json = true := by
  simp [LogsPipeline.toValue, Value.json, entriesJson, stringsValue, itemsJson_strings]

/-! ### Views -/

/-- What the update reads of a config. -/
structure View where
  agent : Entries
  service : Entries
  pipelines : Entries
  logs : LogsPipeline

/-- The config has the parts of the view. -/
structure View.Of (v : View) (conf : Entries) : Prop where
  agent : agentProcessors conf = some v.agent
  service : OrderedEntries.get "service" conf = some (.map v.service)
  pipelines : OrderedEntries.get "pipelines" v.service = some (.map v.pipelines)
  logs : getOtelPipelineFromConfig conf = .ok (some v.logs)

section Next

variable (procs : Entries) (names : List String)

/-- The logs pipeline with the processors of the pipelines. -/
def nextLogs (logs : LogsPipeline) : LogsPipeline :=
  { logs with processors := (buildCollectorPipelineProcessorsList logs.processors names).1 }

/-- The parts of the updated config. -/
def View.next (v : View) : View :=
  let logs := nextLogs names v.logs
  let pipelines := OrderedEntries.insert "logs" logs.toValue v.pipelines
  { agent := updateProcessors v.agent procs
    service := OrderedEntries.insert "pipelines" (.map pipelines) v.service
    pipelines := pipelines
    logs := logs }

/-- The config with the parts of a view. -/
def View.write (v : View) (conf : Entries) : Entries :=
  OrderedEntries.insert "service" (.map v.service)
    (OrderedEntries.insert "processors" (.map v.agent) conf)

theorem getOtelPipelineFromConfig_insert_processors (conf : Entries) (processors : Value) :
    getOtelPipelineFromConfig (OrderedEntries.insert "processors" processors conf) =
      getOtelPipelineFromConfig conf := by
  rw [getOtelPipelineFromConfig, OrderedEntries.get_insert_of_ne (by decide),
    getOtelPipelineFromConfig]

/-- The update of a config that has these parts. -/
theorem View.Of.updateCollectorConf {v : View} {conf : Entries} (h : v.Of conf) :
    updateCollectorConf conf procs names = .ok ((v.next procs names).write conf) := by
  have hservice : OrderedEntries.get "service"
      (OrderedEntries.insert "processors" (.map (updateProcessors v.agent procs)) conf) =
        some (.map v.service) := by
    rw [OrderedEntries.get_insert_of_ne (by decide), h.service]
  rw [LogParsingPipeline.updateCollectorConf, updateProcessorConfigsInCollectorConf, h.agent]
  simp only [getOtelPipelineFromConfig_insert_processors, h.logs, setLogs, hservice, h.pipelines]
  rfl

/-- A config without these parts cannot be updated. -/
theorem exists_view_of_ok {conf updated : Entries}
    (h : updateCollectorConf conf procs names = .ok updated) : ∃ v : View, v.Of conf := by
  rw [LogParsingPipeline.updateCollectorConf, updateProcessorConfigsInCollectorConf] at h
  cases hagent : agentProcessors conf with
  | none => simp [hagent] at h
  | some agent =>
    simp only [hagent, getOtelPipelineFromConfig_insert_processors] at h
    cases hlogs : getOtelPipelineFromConfig conf with
    | error text => simp [hlogs] at h
    | ok read =>
      cases read with
      | none => simp [hlogs] at h
      | some logs =>
        simp only [hlogs, setLogs,
          OrderedEntries.get_insert_of_ne (show "processors" ≠ "service" by decide)] at h
        split at h
        · rename_i service hservice
          split at h
          · rename_i pipelines hpipelines
            exact ⟨⟨agent, service, pipelines, logs⟩, hagent, hservice, hpipelines, hlogs⟩
          · cases h
        · cases h

/-- What is written is read again. -/
theorem View.next_of {v : View} {conf : Entries} (h : v.Of conf) :
    (v.next procs names).Of ((v.next procs names).write conf) where
  agent := by
    rw [View.write, agentProcessors, OrderedEntries.get_insert_of_ne (by decide),
      OrderedEntries.get_insert_self]
  service := OrderedEntries.get_insert_self _ _ _
  pipelines := OrderedEntries.get_insert_self _ _ _
  logs := by
    have hjson : (Value.map v.service).json := by
      have := h.logs
      rw [getOtelPipelineFromConfig, h.service] at this
      by_contra hno
      simp [hno] at this
    have hpipelines := json_get hjson h.pipelines
    have hnext : (Value.map (v.next procs names).service).json :=
      json_insert hjson (json_insert hpipelines (LogsPipeline.json_toValue _))
    rw [View.write, getOtelPipelineFromConfig, OrderedEntries.get_insert_self]
    simp only [hnext, if_true, decodeService]
    rw [View.next, OrderedEntries.get_insert_self]
    simp only [decodePipelines]
    rw [OrderedEntries.get_insert_self]
    exact LogsPipeline.decodeLogs_toValue _

end Next

end QueryService.LogParsingPipeline
