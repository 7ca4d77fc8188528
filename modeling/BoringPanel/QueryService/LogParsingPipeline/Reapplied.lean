import BoringPanel.Lib.YamlFlow
import BoringPanel.QueryService.LogParsingPipeline.ConfigView

/-!
# Log pipelines put into a config again

The server sends a collector its own config with the current pipelines put in, whenever the pipelines
change and whenever the collector reports its config. Where the names of the processors are all
different that is idempotent and forgets the pipelines of before, and the list of processors agrees
with the definitions; the rest of the config stays as it is if the logs section has the fields of the
struct and no others (`consistent_iff`). Two processors of one name are one definition and none in the
list (`not_consistent_of_duplicate`).
-/

namespace QueryService.LogParsingPipeline

open Yaml

/-- The processor is none of the log pipelines'. -/
def isForeign (procName : String) : Bool := !hasSignozPipelineProcessorPrefix procName

/-! ### The list of processors -/

section List

variable {current names : List String} (hprefixed : ∀ n ∈ names, hasSignozPipelineProcessorPrefix n)

include hprefixed

/-- The foreign processors keep their order, whatever the names. -/
theorem filter_isForeign_list (hcurrent : current.Nodup) :
    (buildCollectorPipelineProcessorsList current names).1.filter isForeign =
      current.filter isForeign := by
  by_cases hnames : names.Nodup
  · rw [buildCollectorPipelineProcessorsList_eq_merge hprefixed hcurrent hnames]
    exact (PlannedOrder.filter_foreign_merge hprefixed _).trans (withoutOldProcessors_foreign _ _)
  · rw [buildCollectorPipelineProcessorsList_of_duplicate hprefixed hnames]
    exact withoutOldProcessors_foreign _ _

/-- The managed processors are the names, in their order. -/
theorem filter_managed_list (hcurrent : current.Nodup) (hnames : names.Nodup) :
    (buildCollectorPipelineProcessorsList current names).1.filter hasSignozPipelineProcessorPrefix =
      names := by
  rw [buildCollectorPipelineProcessorsList_eq_merge hprefixed hcurrent hnames]
  exact (merged_merge hprefixed hcurrent hnames).planned

theorem nodup_list (hcurrent : current.Nodup) :
    (buildCollectorPipelineProcessorsList current names).1.Nodup := by
  by_cases hnames : names.Nodup
  · rw [buildCollectorPipelineProcessorsList_eq_merge hprefixed hcurrent hnames]
    exact (merged_merge hprefixed hcurrent hnames).nodup
  · rw [buildCollectorPipelineProcessorsList_of_duplicate hprefixed hnames]
    exact hcurrent.filter _

/-- A list with the names in their order stays as it is. -/
theorem list_eq_self (hcurrent : current.Nodup) (hnames : names.Nodup)
    (hmanaged : current.filter hasSignozPipelineProcessorPrefix = names) :
    (buildCollectorPipelineProcessorsList current names).1 = current := by
  rw [buildCollectorPipelineProcessorsList_of_merged hprefixed hnames ⟨hcurrent, rfl, hmanaged⟩]

end List

/-! ### The processors -/

/-- The escaped processors of the pipelines with these names. -/
structure Defines (names : List String) (procs : Entries) : Prop where
  sorted : OrderedEntries.Sorted procs
  canonical : ∀ e ∈ procs, e.2.Canonical
  mem_names_iff : ∀ n, n ∈ names ↔ (OrderedEntries.get n procs).isSome
  hasPrefix : ∀ n ∈ names, hasSignozPipelineProcessorPrefix n

section Defines

variable {names : List String} {procs : Entries} (h : Defines names procs)

include h

theorem Defines.get_updateProcessors (agent : Entries) (n : String) :
    OrderedEntries.get n (updateProcessors agent procs) =
      if hasSignozPipelineProcessorPrefix n then OrderedEntries.get n procs
      else OrderedEntries.get n agent := by
  rw [updateProcessors, OrderedEntries.get_filterKeys,
    OrderedEntries.get_insertAll h.sorted.nodup]
  cases hget : OrderedEntries.get n procs with
  | some v =>
    have hn := h.hasPrefix n ((h.mem_names_iff n).mpr (by rw [hget]; rfl))
    simp [hn]
  | none =>
    by_cases hn : hasSignozPipelineProcessorPrefix n
    · simp [hn]
    · simp [hn]

theorem Defines.updateProcessors_twice {agent : Entries} (hagent : OrderedEntries.Sorted agent) :
    updateProcessors (updateProcessors agent procs) procs = updateProcessors agent procs := by
  have hsorted : ∀ l, OrderedEntries.Sorted l → OrderedEntries.Sorted (updateProcessors l procs) :=
    fun l hl => (hl.insertAll procs).filterKeys _
  refine OrderedEntries.ext_get (hsorted _ (hsorted _ hagent)) (hsorted _ hagent) fun n => ?_
  rw [h.get_updateProcessors, h.get_updateProcessors]
  split <;> rfl

end Defines

section Escape

variable {F : Type} {E : Expressions F} {Y : Library}

/-- Processors as maps, which can be escaped. -/
structure Escapable (names : List String) (procs : Entries) : Prop extends Defines names procs where
  isMap : ∀ n v, OrderedEntries.get n procs = some v → ∃ es, v = .map es

/-- One turn of the loop escapes the strings of one processor. -/
theorem Escapable.escapeProcessor_eq (hY : Y.Lawful) {names : List String} {procs : Entries}
    (h : Escapable names procs) {n : String} {v : Value} (hv : OrderedEntries.get n procs = some v) :
    escapeProcessor Y procs n =
      .ok (OrderedEntries.insert n (v.mapStrings escapeDollars) procs) := by
  obtain ⟨es, rfl⟩ := h.isMap n v hv
  have hread := hY.unmarshal_escapeDollars _ (h.canonical _ (OrderedEntries.mem_of_get hv))
  rw [escapeDollars] at hread
  rw [escapeProcessor, hv]
  simp only [Option.getD_some, hread]
  rfl

theorem Escapable.insert (hY : Y.Lawful) {names : List String} {procs : Entries}
    (h : Escapable names procs) {n : String} {v : Value} (hv : OrderedEntries.get n procs = some v) :
    Escapable names (OrderedEntries.insert n (v.mapStrings escapeDollars) procs) := by
  have hcanonical := h.canonical _ (OrderedEntries.mem_of_get hv)
  have hescaped := hY.canonical _ _ (hY.unmarshal_escapeDollars _ hcanonical)
  refine ⟨⟨h.sorted.insert _ _, fun e he => ?_, fun j => ?_, h.hasPrefix⟩, fun j w hj => ?_⟩
  · rcases OrderedEntries.mem_insert he with rfl | he
    · exact hescaped
    · exact h.canonical e he
  · rw [h.mem_names_iff, OrderedEntries.get_insert]
    split
    · rename_i hj
      simp [← hj, hv]
    · rfl
  · rw [OrderedEntries.get_insert] at hj
    split at hj
    · obtain ⟨es, rfl⟩ := h.isMap n v hv
      exact ⟨_, (Option.some.inj hj).symm⟩
    · exact h.isMap j w hj

theorem Escapable.step (hY : Y.Lawful) {names : List String} {procs : Entries}
    (h : Escapable names procs) {n : String} (hn : n ∈ names) :
    ∃ procs', escapeProcessor Y procs n = .ok procs' ∧ Escapable names procs' := by
  obtain ⟨v, hv⟩ := Option.isSome_iff_exists.mp ((h.mem_names_iff n).mp hn)
  exact ⟨_, h.escapeProcessor_eq hY hv, h.insert hY hv⟩

/-- Over different names each processor is escaped once. -/
theorem Escapable.get_foldlM (hY : Y.Lawful) {names : List String} {procs procs' : Entries}
    (h : Escapable names procs) {rest : List String} (hrest : rest.Nodup)
    (hsub : ∀ n ∈ rest, n ∈ names) (hloop : rest.foldlM (escapeProcessor Y) procs = .ok procs')
    (n : String) :
    OrderedEntries.get n procs' =
      if n ∈ rest then (OrderedEntries.get n procs).map (Value.mapStrings escapeDollars)
      else OrderedEntries.get n procs := by
  induction rest generalizing procs with
  | nil =>
    obtain rfl := Except.ok.inj hloop
    rw [if_neg List.not_mem_nil]
  | cons m rest ih =>
    rw [List.nodup_cons] at hrest
    obtain ⟨v, hv⟩ := Option.isSome_iff_exists.mp
      ((h.mem_names_iff m).mp (hsub m List.mem_cons_self))
    rw [List.foldlM_cons, h.escapeProcessor_eq hY hv] at hloop
    rw [ih (h.insert hY hv) hrest.2 (fun n hn => hsub n (List.mem_cons_of_mem _ hn)) hloop,
      OrderedEntries.get_insert]
    by_cases hn : m = n
    · subst hn
      rw [if_neg hrest.1, if_pos rfl, if_pos List.mem_cons_self, hv, Option.map_some]
    · simp [hn, Ne.symm hn]

/-- The processors by name, before their dollar signs are escaped. -/
theorem escapable_prepared {pipelines : List (Pipeline F)} {prepared : PipelineProcessors}
    (hp : preparePipelineProcessor E pipelines = .ok prepared) :
    Escapable prepared.names (prepared.processors.map fun e => (e.1, e.2.toValue)) := by
  have hnamed := named_preparePipelineProcessor E hp
  refine ⟨⟨?_, fun e he => ?_, fun n => ?_, hnamed.hasPrefix⟩, fun n v hv => ?_⟩
  · exact List.pairwise_map.mpr hnamed.sorted
  · obtain ⟨e, -, rfl⟩ := List.mem_map.mp he
    exact e.2.canonical_toValue
  · rw [hnamed.mem_names_iff, OrderedEntries.get_map, Option.isSome_map]
  · rw [OrderedEntries.get_map] at hv
    obtain ⟨processor, -, rfl⟩ := Option.map_eq_some_iff.mp hv
    exact ⟨_, rfl⟩

/-- The escaped processors have the names that they were prepared with; over different names each is
the one prepared, with its dollar signs escaped. -/
theorem defines_escaped (hY : Y.Lawful) {pipelines : List (Pipeline F)}
    {prepared : PipelineProcessors} (hp : preparePipelineProcessor E pipelines = .ok prepared) :
    ∃ procs, escapedPipelineProcessors E Y pipelines = .ok (procs, prepared.names) ∧
      Defines prepared.names procs ∧
      (prepared.names.Nodup → ∀ n, OrderedEntries.get n procs =
        (OrderedEntries.get n prepared.processors).map
          fun p => p.toValue.mapStrings escapeDollars) := by
  have hinit := escapable_prepared hp
  obtain ⟨procs, hloop, hprocs⟩ := foldlM_ok (fun _ _ hn hinv => hinv.step hY hn) hinit
  refine ⟨procs, ?_, hprocs.toDefines, fun hnames n => ?_⟩
  · rw [escapedPipelineProcessors, hp]
    simp only [hloop]
    rfl
  · rw [hinit.get_foldlM hY hnames (fun n hn => hn) hloop, OrderedEntries.get_map, Option.map_map]
    split
    · rfl
    · rename_i hn
      rw [(named_preparePipelineProcessor E hp).mem_names_iff, Bool.not_eq_true,
        Option.isSome_eq_false_iff, Option.isNone_iff_eq_none] at hn
      rw [hn, Option.map_none, Option.map_none]

end Escape

/-! ### The parts of a config -/

/-- The value under some keys, one after the other. -/
def valueAt : List String → Value → Option Value
  | [], v => some v
  | k :: ks, .map entries => (OrderedEntries.get k entries).bind (valueAt ks)
  | _ :: _, _ => none

/-- The definition of a processor. -/
def definition (conf : Entries) (n : String) : Option Value := valueAt ["processors", n] (.map conf)

/-- The path of a field of the logs pipeline. -/
def logsPath (k : String) : List String := ["service", "pipelines", "logs", k]

/-- The processors of the logs pipeline. -/
def listed (conf : Entries) : List String :=
  match valueAt (logsPath "processors") (.map conf) with
  | some v => (decodeStrings v).toOption.getD []
  | none => []

/-- What each field of the struct is read from. -/
theorem decodeField_of_decodeLogs {entries : Entries} {logs : LogsPipeline}
    (h : decodeLogs (.map entries) = .ok (some logs)) :
    decodeField "exporters" entries = .ok logs.exporters ∧
      decodeField "processors" entries = .ok logs.processors ∧
      decodeField "receivers" entries = .ok logs.receivers := by
  rw [decodeLogs] at h
  cases hexporters : decodeField "exporters" entries with
  | error text => simp [hexporters, bind, Except.bind] at h
  | ok exporters =>
    cases hprocessors : decodeField "processors" entries with
    | error text => simp [hexporters, hprocessors, bind, Except.bind] at h
    | ok processors =>
      cases hreceivers : decodeField "receivers" entries with
      | error text => simp [hexporters, hprocessors, hreceivers, bind, Except.bind] at h
      | ok receivers =>
        rw [hexporters, hprocessors, hreceivers] at h
        obtain rfl := Option.some.inj (Except.ok.inj h)
        exact ⟨rfl, rfl, rfl⟩

section Parts

variable {v : View} {conf : Entries} (h : v.Of conf)

include h

theorem View.Of.definition (n : String) :
    definition conf n = OrderedEntries.get n v.agent := by
  have hagent := h.agent
  rw [LogParsingPipeline.definition, valueAt]
  unfold agentProcessors at hagent
  split at hagent
  · rename_i hnone
    rw [hnone, ← Option.some.inj hagent]
    rfl
  · rename_i hnull
    rw [hnull, ← Option.some.inj hagent]
    rfl
  · rename_i entries hmap
    rw [hmap, ← Option.some.inj hagent, Option.bind_some, valueAt]
    cases OrderedEntries.get n entries <;> rfl
  · cases hagent

/-- The logs section, and what is read of it. -/
theorem View.Of.logsSection : ∃ logsEntries, OrderedEntries.get "logs" v.pipelines =
      some (.map logsEntries) ∧ decodeLogs (.map logsEntries) = .ok (some v.logs) := by
  have hlogs := h.logs
  rw [getOtelPipelineFromConfig, h.service] at hlogs
  simp only [decodeService, h.pipelines, decodePipelines] at hlogs
  split at hlogs
  · cases hget : OrderedEntries.get "logs" v.pipelines with
    | none => simp [hget] at hlogs
    | some value =>
      simp only [hget] at hlogs
      cases value with
      | map logsEntries => exact ⟨logsEntries, rfl, hlogs⟩
      | _ => simp [decodeLogs, unmarshalTypeError] at hlogs
  · cases hlogs

theorem View.Of.valueAt_logs (k : String) {logsEntries : Entries}
    (hget : OrderedEntries.get "logs" v.pipelines = some (.map logsEntries)) :
    valueAt (logsPath k) (.map conf) = OrderedEntries.get k logsEntries := by
  rw [logsPath, valueAt, h.service, Option.bind_some, valueAt, h.pipelines, Option.bind_some, valueAt,
    hget, Option.bind_some, valueAt]
  cases OrderedEntries.get k logsEntries <;> rfl

theorem View.Of.listed : listed conf = v.logs.processors := by
  obtain ⟨logsEntries, hget, hread⟩ := h.logsSection
  obtain ⟨-, hprocessors, -⟩ := decodeField_of_decodeLogs hread
  rw [LogParsingPipeline.listed, h.valueAt_logs _ hget]
  rw [decodeField] at hprocessors
  split at hprocessors
  · rename_i hnone
    simp only [hnone]
    exact Except.ok.inj hprocessors
  · rename_i value hsome
    simp only [hsome, hprocessors]
    rfl

end Parts

/-! ### The update of a canonical config -/

section Canonical

variable {v : View} {conf : Entries}

/-- The parts of a canonical config are canonical. -/
theorem View.Of.canonical_agent (h : v.Of conf) (hconf : (Value.map conf).Canonical) :
    (Value.map v.agent).Canonical := by
  have hagent := h.agent
  unfold agentProcessors at hagent
  split at hagent
  · rw [← Option.some.inj hagent]
    exact canonical_empty
  · rw [← Option.some.inj hagent]
    exact canonical_empty
  · rename_i entries hmap
    rw [← Option.some.inj hagent]
    exact hconf.get hmap
  · cases hagent

theorem View.Of.canonical_service (h : v.Of conf) (hconf : (Value.map conf).Canonical) :
    (Value.map v.service).Canonical := hconf.get h.service

theorem View.Of.canonical_pipelines (h : v.Of conf) (hconf : (Value.map conf).Canonical) :
    (Value.map v.pipelines).Canonical := (h.canonical_service hconf).get h.pipelines

variable {names : List String} {procs : Entries} (hprocs : Defines names procs)

include hprocs

theorem View.Of.canonical_write (h : v.Of conf) (hconf : (Value.map conf).Canonical) :
    (Value.map ((v.next procs names).write conf)).Canonical := by
  have hagent : (Value.map (updateProcessors v.agent procs)).Canonical :=
    ((h.canonical_agent hconf).insertAll hprocs.canonical).filterKeys _
  have hpipelines := (h.canonical_pipelines hconf).insert "logs"
    (nextLogs names v.logs).canonical_toValue
  exact (hconf.insert "processors" hagent).insert "service"
    ((h.canonical_service hconf).insert "pipelines" hpipelines)

/-- The parts of an updated config are left by another update. -/
theorem View.Of.next_next (h : v.Of conf) (hconf : (Value.map conf).Canonical)
    (hlogs : v.logs.processors.Nodup) (hnames : names.Nodup) :
    (v.next procs names).next procs names = v.next procs names := by
  have hlist : nextLogs names (nextLogs names v.logs) = nextLogs names v.logs := by
    have := list_eq_self hprocs.hasPrefix (nodup_list hprocs.hasPrefix hlogs) hnames
      (filter_managed_list hprocs.hasPrefix hlogs hnames)
    rw [nextLogs, nextLogs]
    exact congrArg (fun l => { v.logs with processors := l }) this
  have hpipelines : OrderedEntries.insert "logs" (nextLogs names v.logs).toValue
      (v.next procs names).pipelines = (v.next procs names).pipelines :=
    OrderedEntries.insert_eq_self ((h.canonical_pipelines hconf).sorted.insert _ _)
      (OrderedEntries.get_insert_self _ _ _)
  have hservice : OrderedEntries.insert "pipelines" (.map (v.next procs names).pipelines)
      (v.next procs names).service = (v.next procs names).service :=
    OrderedEntries.insert_eq_self ((h.canonical_service hconf).sorted.insert _ _)
      (OrderedEntries.get_insert_self _ _ _)
  have hagent : updateProcessors (v.next procs names).agent procs = (v.next procs names).agent :=
    hprocs.updateProcessors_twice (h.canonical_agent hconf).sorted
  change View.mk _ _ _ _ = _
  simp only [View.next] at hpipelines hservice hagent ⊢
  rw [hlist, hpipelines, hservice, hagent]

omit hprocs in
/-- Writing the parts that are there changes nothing. -/
theorem View.write_write (w : View) (hconf : OrderedEntries.Sorted conf) :
    w.write (w.write conf) = w.write conf := by
  have hsorted : OrderedEntries.Sorted (w.write conf) := (hconf.insert _ _).insert _ _
  have hprocessors : OrderedEntries.get "processors" (w.write conf) = some (.map w.agent) := by
    rw [View.write, OrderedEntries.get_insert_of_ne (by decide), OrderedEntries.get_insert_self]
  have hservice : OrderedEntries.get "service" (w.write conf) = some (.map w.service) :=
    OrderedEntries.get_insert_self _ _ _
  calc w.write (w.write conf)
      = OrderedEntries.insert "service" (.map w.service)
          (OrderedEntries.insert "processors" (.map w.agent) (w.write conf)) := rfl
    _ = OrderedEntries.insert "service" (.map w.service) (w.write conf) := by
        rw [OrderedEntries.insert_eq_self hsorted hprocessors]
    _ = w.write conf := OrderedEntries.insert_eq_self hsorted hservice

end Canonical

/-! ### Configs as texts -/

section Texts

variable {F : Type} {E : Expressions F} {Y : Library}

/-- What is generated for a config with these parts. -/
theorem View.Of.generate (hY : Y.Lawful) {config : String} {conf : Entries} {v : View}
    (h : v.Of conf) (hconf : Y.unmarshal config = .ok (.map conf)) {pipelines : List (Pipeline F)}
    {procs : Entries} {names : List String}
    (hp : escapedPipelineProcessors E Y pipelines = .ok (procs, names))
    (hprocs : Defines names procs) :
    generateCollectorConfigWithPipelines E Y config pipelines =
        .ok (Y.marshal (.map ((v.next procs names).write conf))) ∧
      Y.unmarshal (Y.marshal (.map ((v.next procs names).write conf))) =
        .ok (.map ((v.next procs names).write conf)) := by
  constructor
  · rw [generateCollectorConfigWithPipelines, unmarshalConf, hconf, hp]
    simp only [bind, Except.bind, h.updateCollectorConf]
    rfl
  · exact hY.unmarshal_marshal _ (h.canonical_write hprocs (hY.canonical _ _ hconf))

/-- Nothing is generated for a config that lacks a part. -/
theorem exists_view_of_generate {config out : String} {pipelines : List (Pipeline F)}
    (h : generateCollectorConfigWithPipelines E Y config pipelines = .ok out) :
    ∃ conf, Y.unmarshal config = .ok (.map conf) ∧ ∃ v : View, v.Of conf := by
  rw [generateCollectorConfigWithPipelines] at h
  cases hconf : unmarshalConf Y config with
  | error err => simp [hconf, bind, Except.bind] at h
  | ok read =>
    cases hp : escapedPipelineProcessors E Y pipelines with
    | error err => simp [hconf, hp, bind, Except.bind] at h
    | ok procs =>
      cases read with
      | none => simp [hconf, hp, bind, Except.bind] at h
      | some conf =>
        refine ⟨conf, ?_, ?_⟩
        · unfold unmarshalConf at hconf
          split at hconf
          · rename_i entries hread
            rw [hread, Option.some.inj (Except.ok.inj hconf)]
          · cases hconf
          · cases hconf
          · cases hconf
        · cases hupdate : updateCollectorConf conf procs.1 procs.2 with
          | error err => simp [hconf, hp, hupdate, bind, Except.bind] at h
          | ok updated => exact exists_view_of_ok _ _ hupdate

theorem exists_prepared_of_generate {config out : String} {pipelines : List (Pipeline F)}
    (h : generateCollectorConfigWithPipelines E Y config pipelines = .ok out) :
    ∃ prepared, preparePipelineProcessor E pipelines = .ok prepared := by
  cases hp : preparePipelineProcessor E pipelines with
  | ok prepared => exact ⟨prepared, rfl⟩
  | error err =>
    rw [generateCollectorConfigWithPipelines, escapedPipelineProcessors, hp] at h
    cases hconf : unmarshalConf Y config with
    | error err => simp [hconf, bind, Except.bind] at h
    | ok read => cases err <;> simp [hconf, bind, Except.bind] at h

end Texts

/-! ### Consistency -/

/-- The config that is written, against the one that was read: the list agrees with the definitions,
and the rest is as it was. -/
structure Kept (names : List String) (conf updated : Entries) : Prop where
  mem_listed_iff : ∀ n, hasSignozPipelineProcessorPrefix n →
    (n ∈ listed updated ↔ (definition updated n).isSome)
  nodup : ((listed updated).filter hasSignozPipelineProcessorPrefix).Nodup
  /-- The order of the pipelines. -/
  sublist : ((listed updated).filter hasSignozPipelineProcessorPrefix).Sublist names
  definition : ∀ n, isForeign n → definition updated n = definition conf n
  listed : (listed updated).filter isForeign = (listed conf).filter isForeign
  config : ∀ k, k ≠ "processors" → k ≠ "service" →
    valueAt [k] (.map updated) = valueAt [k] (.map conf)
  service : ∀ k, k ≠ "pipelines" →
    valueAt ["service", k] (.map updated) = valueAt ["service", k] (.map conf)
  pipelines : ∀ k, k ≠ "logs" →
    valueAt ["service", "pipelines", k] (.map updated) =
      valueAt ["service", "pipelines", k] (.map conf)
  logs : ∀ k, k ≠ "processors" →
    valueAt (logsPath k) (.map updated) = valueAt (logsPath k) (.map conf)

section Consistent

variable {F : Type} (E : Expressions F) (Y : Library)

/-- What is generated for a config is left by generating again, is the same after other pipelines,
keeps what it should, and defines the processors that were prepared, with every dollar sign in their
strings escaped. -/
structure Consistent (config : String) (pipelines : List (Pipeline F))
    (prepared : PipelineProcessors) (out : String) (conf updated : Entries) : Prop where
  read : Y.unmarshal config = .ok (.map conf)
  generate : generateCollectorConfigWithPipelines E Y config pipelines = .ok out
  written : Y.unmarshal out = .ok (.map updated)
  idempotent : generateCollectorConfigWithPipelines E Y out pipelines = .ok out
  history : ∀ (earlier : List (Pipeline F)) (between : String),
    generateCollectorConfigWithPipelines E Y config earlier = .ok between →
      ∃ again conf', generateCollectorConfigWithPipelines E Y between pipelines = .ok again ∧
        Y.unmarshal again = .ok (.map conf') ∧
        (∀ n, LogParsingPipeline.definition conf' n = LogParsingPipeline.definition updated n) ∧
        (listed conf').filter hasSignozPipelineProcessorPrefix =
          (listed updated).filter hasSignozPipelineProcessorPrefix
  kept : Kept prepared.names conf updated
  defined : ∀ n processor, OrderedEntries.get n prepared.processors = some processor →
    LogParsingPipeline.definition updated n = some (processor.toValue.mapStrings escapeDollars)

end Consistent

/-- The logs section has the fields of the struct, as lists of strings, and no others. -/
def OnlyStructFields (conf : Entries) : Prop :=
  ∃ exporters receivers : List String,
    valueAt (logsPath "exporters") (.map conf) = some (stringsValue exporters) ∧
    valueAt (logsPath "receivers") (.map conf) = some (stringsValue receivers) ∧
    ∀ k, k ∉ ["exporters", "processors", "receivers"] → valueAt (logsPath k) (.map conf) = none

section Kept

variable {v : View} {conf : Entries} {names : List String} {procs : Entries}
  (h : v.Of conf) (hprocs : Defines names procs)

include h

/-- A field of the struct is read as it stands. -/
theorem View.Of.onlyStructFields_iff : OnlyStructFields conf ↔
    ∀ k, k ≠ "processors" →
      OrderedEntries.get k v.logs.entries = valueAt (logsPath k) (.map conf) := by
  obtain ⟨logsEntries, hget, hread⟩ := h.logsSection
  obtain ⟨hexporters, -, hreceivers⟩ := decodeField_of_decodeLogs hread
  have hfield : ∀ name l l', decodeField name logsEntries = .ok l →
      OrderedEntries.get name logsEntries = some (stringsValue l') → l = l' := by
    intro name l l' hdecode hvalue
    rw [decodeField, hvalue] at hdecode
    exact Except.ok.inj (hdecode.symm.trans (decodeStrings_stringsValue l'))
  simp only [OnlyStructFields, h.valueAt_logs _ hget]
  constructor
  · rintro ⟨exporters, receivers, he, hr, hrest⟩ k hk
    obtain rfl := hfield _ _ _ hexporters he
    obtain rfl := hfield _ _ _ hreceivers hr
    by_cases hke : k = "exporters"
    · rw [hke, he]
      rfl
    by_cases hkr : k = "receivers"
    · rw [hkr, hr]
      rfl
    rw [hrest k (by simp [hke, hk, hkr])]
    simp [LogsPipeline.entries, OrderedEntries.get_cons, Ne.symm hke, Ne.symm hk, Ne.symm hkr]
  · intro hall
    refine ⟨v.logs.exporters, v.logs.receivers, ?_, ?_, fun k hk => ?_⟩
    · exact (hall "exporters" (by decide)).symm
    · exact (hall "receivers" (by decide)).symm
    · simp only [List.mem_cons, List.not_mem_nil, or_false, not_or] at hk
      rw [← hall k hk.2.1]
      simp [LogsPipeline.entries, OrderedEntries.get_cons, Ne.symm hk.1, Ne.symm hk.2.1,
        Ne.symm hk.2.2]

include hprocs

theorem View.Of.definition_next (n : String) :
    LogParsingPipeline.definition ((v.next procs names).write conf) n =
      if hasSignozPipelineProcessorPrefix n then OrderedEntries.get n procs
      else LogParsingPipeline.definition conf n := by
  rw [(View.next_of procs names h).definition, h.definition]
  exact hprocs.get_updateProcessors v.agent n

omit hprocs in
variable (names procs) in
theorem View.Of.listed_next : LogParsingPipeline.listed ((v.next procs names).write conf) =
    (buildCollectorPipelineProcessorsList (LogParsingPipeline.listed conf) names).1 := by
  rw [(View.next_of procs names h).listed, h.listed]
  rfl

omit hprocs in
variable (names procs) in
/-- What the update leaves, whatever the processors: all but the logs section. -/
theorem View.Of.valueAt_write (k : String) :
    (k ≠ "processors" → k ≠ "service" →
      valueAt [k] (.map ((v.next procs names).write conf)) = valueAt [k] (.map conf)) ∧
    (k ≠ "pipelines" → valueAt ["service", k] (.map ((v.next procs names).write conf)) =
      valueAt ["service", k] (.map conf)) ∧
    (k ≠ "logs" → valueAt ["service", "pipelines", k] (.map ((v.next procs names).write conf)) =
      valueAt ["service", "pipelines", k] (.map conf)) := by
  have hnext := View.next_of procs names h
  refine ⟨fun hk hk' => ?_, fun hk => ?_, fun hk => ?_⟩
  · rw [valueAt, valueAt, View.write, OrderedEntries.get_insert_of_ne (Ne.symm hk'),
      OrderedEntries.get_insert_of_ne (Ne.symm hk)]
  · have hget : OrderedEntries.get k (v.next procs names).service =
        OrderedEntries.get k v.service := OrderedEntries.get_insert_of_ne (Ne.symm hk) _ _
    rw [valueAt, hnext.service, valueAt, h.service, Option.bind_some, Option.bind_some, valueAt,
      valueAt, hget]
  · have hget : OrderedEntries.get k (v.next procs names).pipelines =
        OrderedEntries.get k v.pipelines := OrderedEntries.get_insert_of_ne (Ne.symm hk) _ _
    rw [valueAt, hnext.service, valueAt, h.service, Option.bind_some, Option.bind_some, valueAt,
      hnext.pipelines, valueAt, h.pipelines, Option.bind_some, Option.bind_some, valueAt, valueAt,
      hget]

omit hprocs in
theorem View.Of.valueAt_logs_write {k : String} (hk : k ≠ "processors") :
    valueAt (logsPath k) (.map ((v.next procs names).write conf)) =
      OrderedEntries.get k v.logs.entries := by
  have hnext := View.next_of procs names h
  have hget : OrderedEntries.get "logs" (v.next procs names).pipelines =
      some (.map (nextLogs names v.logs).entries) := OrderedEntries.get_insert_self _ _ _
  rw [hnext.valueAt_logs k hget]
  simp [LogsPipeline.entries, OrderedEntries.get_cons, Ne.symm hk, nextLogs]

/-- Over different names everything is kept but fields of the logs section that the struct lacks. -/
theorem View.Of.kept (hlisted : (LogParsingPipeline.listed conf).Nodup) (hnames : names.Nodup)
    (honly : OnlyStructFields conf) : Kept names conf ((v.next procs names).write conf) := by
  have hmanaged := filter_managed_list hprocs.hasPrefix hlisted hnames
  rw [← h.listed_next names procs] at hmanaged
  have hrest := h.valueAt_write names procs
  refine ⟨fun n hn => ?_, by rw [hmanaged]; exact hnames, by rw [hmanaged], fun n hn => ?_, ?_,
    fun k => (hrest k).1, fun k => (hrest k).2.1, fun k => (hrest k).2.2, fun k hk => ?_⟩
  · rw [h.definition_next hprocs, if_pos hn, ← hprocs.mem_names_iff]
    constructor
    · intro hmem
      rw [← hmanaged]
      exact List.mem_filter.mpr ⟨hmem, hn⟩
    · intro hmem
      rw [← hmanaged] at hmem
      exact List.mem_of_mem_filter hmem
  · rw [h.definition_next hprocs, if_neg]
    simpa [isForeign] using hn
  · rw [h.listed_next names procs]
    exact filter_isForeign_list hprocs.hasPrefix hlisted
  · rw [h.valueAt_logs_write hk]
    exact h.onlyStructFields_iff.mp honly k hk

end Kept

section Main

variable {F : Type} {E : Expressions F} {Y : Library} (hY : Y.Lawful)

include hY

/-- Over different names the config is consistent if it can be read and its logs section has the
fields of the struct only. -/
theorem consistent_of_nodup {config : String} {conf : Entries} {v : View}
    (hconf : Y.unmarshal config = .ok (.map conf)) (h : v.Of conf) {pipelines : List (Pipeline F)}
    {prepared : PipelineProcessors} (hp : preparePipelineProcessor E pipelines = .ok prepared)
    (hlisted : (listed conf).Nodup) (hnames : prepared.names.Nodup) (honly : OnlyStructFields conf) :
    ∃ out updated, Consistent E Y config pipelines prepared out conf updated := by
  obtain ⟨procs, hescaped, hprocs, hget⟩ := defines_escaped hY hp
  have hcanonical := hY.canonical _ _ hconf
  have hlogs : v.logs.processors.Nodup := h.listed ▸ hlisted
  obtain ⟨hout, hwritten⟩ := h.generate hY hconf hescaped hprocs
  refine ⟨_, _, hconf, hout, hwritten, ?_, ?_, h.kept hprocs hlisted hnames honly,
    fun n processor hprocessor => ?_⟩
  · -- The parts that would be written are there already.
    obtain ⟨hagain, -⟩ := (View.next_of procs prepared.names h).generate hY hwritten hescaped hprocs
    rwa [h.next_next hprocs hcanonical hlogs hnames, View.write_write _ hcanonical.sorted] at hagain
  · intro earlier between hbetween
    obtain ⟨preparedEarlier, hpe⟩ := exists_prepared_of_generate hbetween
    obtain ⟨procsEarlier, hescapedEarlier, hprocsEarlier, -⟩ := defines_escaped hY hpe
    obtain ⟨hbetween', hwritten'⟩ := h.generate hY hconf hescapedEarlier hprocsEarlier
    obtain rfl := Except.ok.inj (hbetween.symm.trans hbetween')
    have hearlier := View.next_of procsEarlier preparedEarlier.names h
    obtain ⟨hagain, hread⟩ := hearlier.generate hY hwritten' hescaped hprocs
    refine ⟨_, _, hagain, hread, fun n => ?_, ?_⟩
    · rw [hearlier.definition_next hprocs, h.definition_next hprocs, h.definition_next hprocsEarlier]
      split <;> rfl
    · have hnodup : (listed ((v.next procsEarlier preparedEarlier.names).write conf)).Nodup := by
        rw [h.listed_next]
        exact nodup_list hprocsEarlier.hasPrefix hlisted
      rw [hearlier.listed_next, h.listed_next prepared.names procs,
        filter_managed_list hprocs.hasPrefix hnodup hnames,
        filter_managed_list hprocs.hasPrefix hlisted hnames]
  · have hn : n ∈ prepared.names := by
      rw [(named_preparePipelineProcessor E hp).mem_names_iff, hprocessor]
      rfl
    rw [h.definition_next hprocs, if_pos (hprocs.hasPrefix n hn), hget hnames, hprocessor,
      Option.map_some]

/-- Two processors of one name are defined and are not listed after a config without pipelines. -/
theorem not_consistent_of_duplicate {config out : String} {conf updated : Entries}
    {pipelines : List (Pipeline F)} {prepared : PipelineProcessors}
    (hp : preparePipelineProcessor E pipelines = .ok prepared) (hlisted : (listed conf).Nodup)
    (hnames : ¬ prepared.names.Nodup) :
    ¬ Consistent E Y config pipelines prepared out conf updated := by
  intro hcons
  have hconf := hcons.read
  obtain ⟨conf', hconf', v, h⟩ := exists_view_of_generate hcons.generate
  obtain rfl : conf' = conf := by
    rw [hconf'] at hconf
    exact Value.map.inj (Except.ok.inj hconf)
  obtain ⟨procs, hescaped, hprocs, -⟩ := defines_escaped hY hp
  -- A config to which no pipeline was applied lists no managed processor, then or afterwards.
  have hempty : preparePipelineProcessor E [] = .ok ⟨[], []⟩ := rfl
  obtain ⟨procsNone, hescapedNone, hprocsNone, -⟩ := defines_escaped hY hempty
  obtain ⟨hbetween, hwritten⟩ := h.generate hY hconf hescapedNone hprocsNone
  have hnone := View.next_of procsNone [] h
  obtain ⟨again, conf'', hagain, hread, -, hsame⟩ := hcons.history _ _ hbetween
  obtain ⟨hagain', hread'⟩ := hnone.generate hY hwritten hescaped hprocs
  obtain rfl := Except.ok.inj (hagain.symm.trans hagain')
  obtain rfl := Value.map.inj (Except.ok.inj (hread.symm.trans hread'))
  have hempty : (listed updated).filter hasSignozPipelineProcessorPrefix = [] := by
    have hfilter := filter_managed_list hprocsNone.hasPrefix hlisted List.nodup_nil
    rw [← hsame, hnone.listed_next, buildCollectorPipelineProcessorsList_of_duplicate
      hprocs.hasPrefix hnames, h.listed_next, List.filter_eq_nil_iff]
    intro n hn hmanaged
    have hmem := List.mem_filter.mpr ⟨List.mem_of_mem_filter hn, hmanaged⟩
    rw [hfilter] at hmem
    cases hmem
  -- But a name is defined, and so listed.
  obtain ⟨n, hn⟩ : ∃ n, n ∈ prepared.names := by
    refine List.exists_mem_of_ne_nil _ fun hnil => hnames ?_
    rw [hnil]
    exact List.nodup_nil
  have hmanaged := hprocs.hasPrefix n hn
  have hupdated : updated = (v.next procs prepared.names).write conf' := by
    obtain ⟨hout, hwritten⟩ := h.generate hY hconf hescaped hprocs
    obtain rfl := Except.ok.inj (hcons.generate.symm.trans hout)
    exact Value.map.inj (Except.ok.inj (hcons.written.symm.trans hwritten))
  have hdefined : (definition updated n).isSome := by
    rw [hupdated, h.definition_next hprocs, if_pos hmanaged, ← hprocs.mem_names_iff]
    exact hn
  have hmem := List.mem_filter.mpr ⟨(hcons.kept.mem_listed_iff n hmanaged).mpr hdefined, hmanaged⟩
  rw [hempty] at hmem
  cases hmem

/-- A consistent config has the fields of the struct only. -/
theorem Consistent.onlyStructFields {config out : String} {conf updated : Entries}
    {pipelines : List (Pipeline F)} {prepared : PipelineProcessors}
    (hp : preparePipelineProcessor E pipelines = .ok prepared)
    (hcons : Consistent E Y config pipelines prepared out conf updated) :
    (∃ v : View, v.Of conf) ∧ OnlyStructFields conf := by
  have hconf := hcons.read
  obtain ⟨conf', hconf', v, h⟩ := exists_view_of_generate hcons.generate
  obtain rfl := Value.map.inj (Except.ok.inj (hconf'.symm.trans hconf))
  obtain ⟨procs, hescaped, hprocs, -⟩ := defines_escaped hY hp
  obtain ⟨hout, hwritten⟩ := h.generate hY hconf hescaped hprocs
  obtain rfl := Except.ok.inj (hcons.generate.symm.trans hout)
  obtain rfl := Value.map.inj (Except.ok.inj (hcons.written.symm.trans hwritten))
  refine ⟨⟨v, h⟩, h.onlyStructFields_iff.mpr fun k hk => ?_⟩
  rw [← hcons.kept.logs k hk, h.valueAt_logs_write hk]

/-- **When the update is consistent.** The names of the processors are all different, the config can
be read, and its logs section has the fields of the struct and no others. -/
theorem consistent_iff {config : String} {conf : Entries}
    (hconf : Y.unmarshal config = .ok (.map conf)) (hlisted : (listed conf).Nodup)
    {pipelines : List (Pipeline F)} {prepared : PipelineProcessors}
    (hp : preparePipelineProcessor E pipelines = .ok prepared) :
    (∃ out updated, Consistent E Y config pipelines prepared out conf updated) ↔
      prepared.names.Nodup ∧ (∃ v : View, v.Of conf) ∧ OnlyStructFields conf := by
  constructor
  · rintro ⟨out, updated, hcons⟩
    refine ⟨?_, hcons.onlyStructFields hY hp⟩
    by_contra hnames
    exact not_consistent_of_duplicate hY hp hlisted hnames hcons
  · rintro ⟨hnames, ⟨v, h⟩, honly⟩
    exact consistent_of_nodup hY hconf h hp hlisted hnames honly

end Main

/-! ### A config with one receiver and one exporter -/

/-- The conditions for the field and the filter below. -/
def methodExpressions : Expressions Int where
  fieldNotNilCheck _ := .ok "attributes?.test != nil"
  fieldsReferencedInExprNotNilCheck _ := .ok ""
  regexForStrptimeLayout _ := .error "unsupported"
  parse _ := .ok "attributes[\"method\"] == \"GET\""

/-- A pipeline that removes a field of the logs with one method. -/
def removePipeline (alias_ : String) : Pipeline Int where
  alias_ := alias_
  enabled := true
  filter := some ⟨"AND", [⟨⟨"method", .string, .tag, false, false⟩, .string "GET", .equal⟩]⟩
  config := [{ type := "remove", id := "remove", enabled := true, field := "attributes.test" }]

/-- The logs pipeline without processors. -/
def memoryLogs : LogsPipeline := ⟨["memory"], [], ["memory"]⟩

def memoryConf : Entries :=
  [("receivers", .map [("memory", .map [("id", .str "in-memory-receiver")])]),
    ("service", .map [("pipelines", .map [("logs", memoryLogs.toValue)])])]

def memoryView : View where
  agent := []
  service := [("pipelines", .map [("logs", memoryLogs.toValue)])]
  pipelines := [("logs", memoryLogs.toValue)]
  logs := memoryLogs

theorem memoryView_of : memoryView.Of memoryConf := ⟨rfl, rfl, rfl, rfl⟩

theorem canonical_memoryConf : (Value.map memoryConf).Canonical := by
  refine .map (List.pairwise_pair.mpr (show "receivers" < "service" by decide)) fun e he => ?_
  simp only [memoryConf, List.mem_cons, List.not_mem_nil, or_false] at he
  rcases he with rfl | rfl
  · exact canonical_single (canonical_single (.str _))
  · exact canonical_single (canonical_single memoryLogs.canonical_toValue)

theorem listed_memoryConf : (listed memoryConf).Nodup := by
  rw [memoryView_of.listed]
  exact List.nodup_nil

theorem onlyStructFields_memoryConf : OnlyStructFields memoryConf :=
  have hlogs : OrderedEntries.get "logs" memoryView.pipelines = some (.map memoryLogs.entries) := rfl
  memoryView_of.onlyStructFields_iff.mpr fun k _ => (memoryView_of.valueAt_logs k hlogs).symm

set_option maxRecDepth 8000 in
/-- Two pipelines with one alias: the second name has a suffix. -/
theorem consistent_iff_same_alias : ∃ prepared out updated,
    preparePipelineProcessor methodExpressions [removePipeline "a", removePipeline "a"] =
      .ok prepared ∧
    Consistent methodExpressions flow (flow.marshal (.map memoryConf))
      [removePipeline "a", removePipeline "a"] prepared out memoryConf updated := by
  obtain ⟨prepared, hp, hnames⟩ : ∃ prepared,
      preparePipelineProcessor methodExpressions [removePipeline "a", removePipeline "a"] =
        .ok prepared ∧ prepared.names.Nodup := ⟨_, rfl, by decide⟩
  have hconf := flow_lawful.unmarshal_marshal _ canonical_memoryConf
  obtain ⟨out, updated, hcons⟩ := (consistent_iff flow_lawful hconf listed_memoryConf hp).mpr
    ⟨hnames, ⟨memoryView, memoryView_of⟩, onlyStructFields_memoryConf⟩
  exact ⟨prepared, out, updated, hp, hcons⟩

set_option maxRecDepth 8000 in
/-- The suffix makes the name of the third pipeline the name of the second one. -/
theorem not_consistent_suffix : ∃ prepared,
    preparePipelineProcessor methodExpressions
      [removePipeline "a", removePipeline "a-2", removePipeline "a"] = .ok prepared ∧
    ¬ ∃ out updated, Consistent methodExpressions flow (flow.marshal (.map memoryConf))
      [removePipeline "a", removePipeline "a-2", removePipeline "a"] prepared out memoryConf
      updated := by
  obtain ⟨prepared, hp, hnames⟩ : ∃ prepared,
      preparePipelineProcessor methodExpressions
        [removePipeline "a", removePipeline "a-2", removePipeline "a"] = .ok prepared ∧
        ¬ prepared.names.Nodup := ⟨_, rfl, by decide⟩
  refine ⟨prepared, hp, ?_⟩
  rintro ⟨out, updated, hcons⟩
  exact not_consistent_of_duplicate flow_lawful hp listed_memoryConf hnames hcons

end QueryService.LogParsingPipeline
