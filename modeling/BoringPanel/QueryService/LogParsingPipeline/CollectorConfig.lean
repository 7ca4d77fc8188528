import BoringPanel.QueryService.LogParsingPipeline.PipelineBuilder

/-!
# The collector's config with log pipelines

`GenerateCollectorConfigWithPipelines` reads the config of a collector, sets the processors of the
log pipelines among its processors, puts them into the list of its logs pipeline, and writes the
config again. Dollar signs are escaped in the text of each processor. The section of the logs pipeline
is read into a struct with three fields, and the struct is what is written.

Of the config only its values are changed, between `yaml.Unmarshal` and `yaml.Marshal`
(`updateCollectorConf`).
-/

namespace QueryService.LogParsingPipeline

open Yaml

/-- A `coreModel.ApiError`, or a panic. -/
inductive ApiError where
  | badRequest (message : String)
  | internalError (message : String)
  | panic
deriving DecidableEq

/-! ### The processors section -/

/-- The processors section of a config; `none` where it is no map, on which the code panics. -/
def agentProcessors (collectorConf : Entries) : Option Entries :=
  match OrderedEntries.get "processors" collectorConf with
  | none => some []
  | some .null => some []
  | some (.map entries) => some entries
  | some _ => none

/-- The processors with those of the pipelines set and the old ones removed. -/
def updateProcessors (agent signozPipelineProcessors : Entries) : Entries :=
  OrderedEntries.filterKeys
    (fun k => !hasSignozPipelineProcessorPrefix k ||
      (OrderedEntries.get k signozPipelineProcessors).isSome)
    (OrderedEntries.insertAll signozPipelineProcessors agent)

def updateProcessorConfigsInCollectorConf (collectorConf signozPipelineProcessors : Entries) :
    Except ApiError Entries :=
  match agentProcessors collectorConf with
  | none => .error .panic
  | some agent =>
    .ok (OrderedEntries.insert "processors" (.map (updateProcessors agent signozPipelineProcessors))
      collectorConf)

/-! ### The logs pipeline -/

/-- The `logs` section of `otelPipeline`. -/
structure LogsPipeline where
  exporters : List String
  processors : List String
  receivers : List String
deriving DecidableEq

/-- What `encoding/json` says of a value of the wrong type, without the place. -/
def unmarshalTypeError {α : Type} : Except String α := .error "json: cannot unmarshal"

/-- A `[]string`; `null` leaves an element as it is. -/
def decodeStrings : Value → Except String (List String)
  | .null => .ok []
  | .seq items => items.mapM fun
    | .str s => .ok s
    | .null => .ok ""
    | _ => unmarshalTypeError
  | _ => unmarshalTypeError

/-- A field of type `[]string`. -/
def decodeField (name : String) (entries : Entries) : Except String (List String) :=
  match OrderedEntries.get name entries with
  | none => .ok []
  | some v => decodeStrings v

def decodeLogs : Value → Except String (Option LogsPipeline)
  | .null => .ok none
  | .map entries => do
    let exporters ← decodeField "exporters" entries
    let processors ← decodeField "processors" entries
    let receivers ← decodeField "receivers" entries
    return some ⟨exporters, processors, receivers⟩
  | _ => unmarshalTypeError

def decodePipelines : Value → Except String (Option LogsPipeline)
  | .null => .ok none
  | .map entries =>
    match OrderedEntries.get "logs" entries with
    | none => .ok none
    | some v => decodeLogs v
  | _ => unmarshalTypeError

def decodeService : Value → Except String (Option LogsPipeline)
  | .null => .ok none
  | .map entries =>
    match OrderedEntries.get "pipelines" entries with
    | none => .ok none
    | some v => decodePipelines v
  | _ => unmarshalTypeError

def getOtelPipelineFromConfig (config : Entries) : Except String (Option LogsPipeline) :=
  match OrderedEntries.get "service" config with
  | none => .error "service not found in OTEL config"
  | some service =>
    if service.json then decodeService service else .error "json: unsupported value"

def LogsPipeline.toValue (p : LogsPipeline) : Value :=
  .map [("exporters", stringsValue p.exporters), ("processors", stringsValue p.processors),
    ("receivers", stringsValue p.receivers)]

/-- `collectorConf["service"]["pipelines"]["logs"] = logs`. -/
def setLogs (collectorConf : Entries) (logs : LogsPipeline) : Except ApiError Entries :=
  match OrderedEntries.get "service" collectorConf with
  | some (.map service) =>
    match OrderedEntries.get "pipelines" service with
    | some (.map pipelines) =>
      .ok (OrderedEntries.insert "service"
        (.map (OrderedEntries.insert "pipelines"
          (.map (OrderedEntries.insert "logs" logs.toValue pipelines)) service)) collectorConf)
    | _ => .error .panic
  | _ => .error .panic

/-! ### The config -/

/-- What is done to the values of a config. -/
def updateCollectorConf (collectorConf signozPipelineProcessors : Entries)
    (signozPipelineProcNames : List String) : Except ApiError Entries :=
  match updateProcessorConfigsInCollectorConf collectorConf signozPipelineProcessors with
  | .error err => .error err
  | .ok collectorConf =>
    match getOtelPipelineFromConfig collectorConf with
    | .error text => .error (.badRequest text)
    | .ok none => .error (.internalError "logs pipeline doesn't exist")
    | .ok (some logs) =>
      let updatedProcessorList :=
        (buildCollectorPipelineProcessorsList logs.processors signozPipelineProcNames).1
      setLogs collectorConf { logs with processors := updatedProcessorList }

section Generate

variable {F : Type} (E : Expressions F) (Y : Library)

/-- One turn of the loop that escapes dollar signs. -/
def escapeProcessor (signozPipelineProcessors : Entries) (procName : String) :
    Except ApiError Entries :=
  let procConf := (OrderedEntries.get procName signozPipelineProcessors).getD .null
  let serializedProcConf := Y.marshal procConf
  let escapedSerializedConf := Go.replaceAll serializedProcConf "$" "$$$"
  match Y.unmarshal escapedSerializedConf with
  | .ok (.map escapedConf) =>
    .ok (OrderedEntries.insert procName (.map escapedConf) signozPipelineProcessors)
  | .ok .null => .ok (OrderedEntries.insert procName (.map []) signozPipelineProcessors)
  | .ok _ => .error (.internalError ("could not unmarshal dollar escaped processor config for " ++
      procName ++ ": yaml: cannot unmarshal into map"))
  | .error text => .error (.internalError
      ("could not unmarshal dollar escaped processor config for " ++ procName ++ ": " ++ text))

/-- The processors of the pipelines, escaped, and their names in the order of the pipelines. -/
def escapedPipelineProcessors (pipelines : List (Pipeline F)) :
    Except ApiError (Entries × List String) :=
  match preparePipelineProcessor E pipelines with
  | .error .panic => .error .panic
  | .error (.error text) => .error (.badRequest
      ("could not prepare otel collector processors for log pipelines: " ++ text))
  | .ok prepared => do
    let signozPipelineProcessors ← prepared.names.foldlM (escapeProcessor Y)
      (prepared.processors.map fun e => (e.1, e.2.toValue))
    return (signozPipelineProcessors, prepared.names)

/-- `yaml.Unmarshal` into a map; `none` for a map that stays `nil`. -/
def unmarshalConf (config : String) : Except ApiError (Option Entries) :=
  match Y.unmarshal config with
  | .ok (.map entries) => .ok (some entries)
  | .ok .null => .ok none
  | .ok _ => .error (.badRequest "yaml: cannot unmarshal into map")
  | .error text => .error (.badRequest text)

def generateCollectorConfigWithPipelines (config : String) (pipelines : List (Pipeline F)) :
    Except ApiError String := do
  let collectorConf ← unmarshalConf Y config
  let signozPipelineProcessors ← escapedPipelineProcessors E Y pipelines
  match collectorConf with
  -- An assignment to a nil map.
  | none => .error .panic
  | some collectorConf =>
    let updated ← updateCollectorConf collectorConf signozPipelineProcessors.1
      signozPipelineProcessors.2
    return Y.marshal (.map updated)

end Generate

end QueryService.LogParsingPipeline
