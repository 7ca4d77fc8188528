import BoringPanel.Lib.HexText
import BoringPanel.QueryService.LogParsingPipeline.EffectivePipelines

/-!
# The preview of pipelines

A preview sends logs through a collector: `SignozLogsToPLogs` writes each as a record of the collector, and
`PLogsToSignozLogs` reads the records that come out. The records are those of the package `pdata`, whose maps
are a parameter (`PData`).

Not all of a log comes back. The text of a trace id is copied into the sixteen bytes of an id, and read as the
digits of these; attributes that are true or false are not written; and the id of the log takes the place of an
attribute with the name that is used for it. `roundTrip_iff` says which logs do come back.
-/

namespace QueryService.LogParsingPipeline

/-! ### Logs -/

/-- A `model.SignozLog`. A map that is nil is one without entries. -/
structure SignozLog (F : Type) where
  timestamp : UInt64
  id : String
  traceID : String
  spanID : String
  traceFlags : UInt32
  severityText : String
  severityNumber : UInt8
  body : String
  resources_string : Go.Map String
  attributes_string : Go.Map String
  attributes_int64 : Go.Map Int
  attributes_float64 : Go.Map F
  attributes_bool : Go.Map Bool

/-- The orders in which the maps of a log are visited. -/
structure LogOrders (F : Type) where
  strings : Go.MapOrder String
  ints : Go.MapOrder Int
  floats : Go.MapOrder F

/-- A `pcommon.Value`; of the other types only the text is read. -/
inductive PValue (F : Type) where
  | str (v : String)
  | int (v : Int)
  | double (v : F)
  | other (text : String)

/-- The maps of `pdata`, and the texts of its values and ids. -/
class PData (M : Type) (F : outParam Type) where
  newMap : M
  get : M → String → Option (PValue F)
  /-- `PutStr`, `PutInt` and `PutDouble`. -/
  put : M → String → PValue F → M
  remove : M → String → M
  /-- What `Range` visits. -/
  range : M → List (String × PValue F)
  asString : PValue F → String
  /-- `TraceID.String` and `SpanID.String`. -/
  idString : List UInt8 → String
  get_newMap : ∀ k, get newMap k = none
  get_put : ∀ m k v k', get (put m k v) k' = if k' = k then some v else get m k'
  get_remove : ∀ m k k', get (remove m k) k' = if k' = k then none else get m k'
  nodup_range : ∀ m, ((range m).map Prod.fst).Nodup
  mem_range : ∀ m k v, (k, v) ∈ range m ↔ get m k = some v
  asString_str : ∀ v, asString (.str v) = v
  /-- An id of zeros is none. -/
  idString_zeros : ∀ n, idString (List.replicate n 0) = ""
  idString_of_ne : ∀ bs, (∃ b ∈ bs, b ≠ 0) → idString bs = HexText.encodeToString bs

/-- A `plog.LogRecord`. -/
structure LogRecord (M F : Type) where
  timestamp : UInt64
  traceID : List UInt8
  spanID : List UInt8
  flags : UInt32
  severityText : String
  severityNumber : Int32
  body : PValue F
  attributes : M

structure ScopeLogs (M F : Type) where
  logRecords : List (LogRecord M F)

structure ResourceLogs (M F : Type) where
  attributes : M
  scopeLogs : List (ScopeLogs M F)

/-- A `plog.Logs`. -/
structure PLogs (M F : Type) where
  resourceLogs : List (ResourceLogs M F)

/-- `SignozLogIdAttr`. -/
def signozLogIdAttr : String := "__signoz_log_id__"

section Preview

variable {M F : Type} [PData M F] (O : LogOrders F)

open PData

/-- The entries of a map of a log, as those of a record. -/
def putAll {V : Type} (value : V → PValue F) (entries : List (String × V)) (m : M) : M :=
  entries.foldl (fun m e => put m e.1 (value e.2)) m

/-- `copy(buf[:], []byte(text))` for an array of `n` bytes. -/
def copyBytes (n : Nat) (text : String) : List UInt8 :=
  let bytes := (HexText.utf8Bytes text).take n
  bytes ++ List.replicate (n - bytes.length) 0

/-- `pcommon.NewTimestampFromTime(time.Unix(0, int64(timestamp)))`. -/
def newTimestamp (timestamp : UInt64) : UInt64 :=
  let unixNano : Int := timestamp.toInt64.toInt
  (Int64.ofInt unixNano).toUInt64

/-- The attributes of a record. -/
def logAttributes (log : SignozLog F) : M :=
  let slAttribs : M := putAll PValue.int (O.ints.order log.attributes_int64) newMap
  let slAttribs := putAll PValue.double (O.floats.order log.attributes_float64) slAttribs
  let slAttribs := putAll PValue.str (O.strings.order log.attributes_string) slAttribs
  put slAttribs signozLogIdAttr (.str log.id)

def signozLogToPLogs (log : SignozLog F) : PLogs M F :=
  { resourceLogs := [{
      attributes := putAll PValue.str (O.strings.order log.resources_string) newMap
      scopeLogs := [{
        logRecords := [{
          timestamp := newTimestamp log.timestamp
          traceID := copyBytes 16 log.traceID
          spanID := copyBytes 8 log.spanID
          flags := log.traceFlags
          severityText := log.severityText
          severityNumber := log.severityNumber.toUInt32.toInt32
          body := .str log.body
          attributes := logAttributes O log }] }] }] }

def signozLogsToPLogs (logs : List (SignozLog F)) : List (PLogs M F) := logs.map (signozLogToPLogs O)

def pMapToStrMap (pMap : M) : Go.Map String :=
  (range pMap).foldl (fun result e => result.set e.1 (asString M e.2)) Go.Map.empty

/-- One turn of the loop over the attributes. -/
def addAttribute (signozLog : SignozLog F) (e : String × PValue F) : SignozLog F :=
  match e.2 with
  | .double v => { signozLog with attributes_float64 := signozLog.attributes_float64.set e.1 v }
  | .int v => { signozLog with attributes_int64 := signozLog.attributes_int64.set e.1 v }
  | v => { signozLog with attributes_string := signozLog.attributes_string.set e.1 (asString M v) }

/-- A log of a record, with the attributes of its resource. -/
def logRecordToSignozLog (resource : M) (lr : LogRecord M F) : SignozLog F :=
  let signozLogId := match get lr.attributes signozLogIdAttr with
    | some (.str v) => v
    | _ => ""
  let attributes := remove lr.attributes signozLogIdAttr
  let signozLog : SignozLog F :=
    { timestamp := lr.timestamp
      id := signozLogId
      traceID := idString M lr.traceID
      spanID := idString M lr.spanID
      traceFlags := lr.flags
      severityText := lr.severityText
      severityNumber := lr.severityNumber.toUInt32.toUInt8
      body := asString M lr.body
      resources_string := pMapToStrMap resource
      attributes_string := Go.Map.empty
      attributes_int64 := Go.Map.empty
      attributes_float64 := Go.Map.empty
      attributes_bool := Go.Map.empty }
  (range attributes).foldl (addAttribute (M := M)) signozLog

def pLogsToSignozLogs (plogs : List (PLogs M F)) : List (SignozLog F) :=
  plogs.flatMap fun pl => pl.resourceLogs.flatMap fun rl => rl.scopeLogs.flatMap fun sl =>
    sl.logRecords.map (logRecordToSignozLog rl.attributes)

/-! ### The simulation -/

def inputOrderAttribute : String := "__signoz_input_idx__"

/-- What the simulation of a collector returns where it fails: whether for its configuration, and the text. -/
structure SimulationError where
  invalidConfig : Bool
  text : String

/-- The logs with their positions as an attribute. -/
def markOrder (logs : List (SignozLog F)) : List (SignozLog F) :=
  logs.mapIdx fun i log => { log with attributes_int64 := log.attributes_int64.set inputOrderAttribute i }

/-- The position that a log has as an attribute. -/
def inputOrder (log : SignozLog F) : Int := (log.attributes_int64.lookup inputOrderAttribute).getD 0

/-- The logs after the pipelines, with what the collector has logged. The collector is a parameter. -/
def simulatePipelinesProcessing {G : Type}
    (simulateLogsProcessing : List (Pipeline G) → List (PLogs M F) →
      Except SimulationError (List (PLogs M F)) × List String)
    (pipelines : List (Pipeline G)) (logs : List (SignozLog F)) :
    Except (ApiError × List String) (List (SignozLog F) × List String) :=
  if pipelines.length < 1 then .ok (logs, [])
  else
    match simulateLogsProcessing pipelines (signozLogsToPLogs O (markOrder logs)) with
    | (.error simulationErr, collectorErrs) =>
      let apiErr := if simulationErr.invalidConfig then .badRequest simulationErr.text
        else .internalError simulationErr.text
      .error (wrapApiError "could not simulate log pipelines processing.\nCollector errors" apiErr,
        collectorErrs)
    | (.ok outputPLogs, collectorErrs) =>
      let outputSignozLogs := (pLogsToSignozLogs outputPLogs).mergeSort fun a b => inputOrder a ≤ inputOrder b
      .ok (outputSignozLogs.map fun sigLog =>
          { sigLog with attributes_int64 := sigLog.attributes_int64.erase inputOrderAttribute },
        collectorErrs.filter fun log => ¬(log = "" ∨ Go.contains log "featuregate.go"))

/-! ### Maps -/

theorem get_putAll_of_not_mem {V : Type} (value : V → PValue F) {entries : List (String × V)} {k : String}
    (h : k ∉ entries.map Prod.fst) (m : M) : get (putAll value entries m) k = get m k := by
  induction entries generalizing m with
  | nil => rfl
  | cons e entries ih =>
    rw [List.map_cons, List.mem_cons, not_or] at h
    show get (putAll value entries (put m e.1 (value e.2))) k = _
    rw [ih h.2, get_put, if_neg h.1]

theorem get_putAll_of_mem {V : Type} (value : V → PValue F) {entries : List (String × V)}
    (hnodup : (entries.map Prod.fst).Nodup) {k : String} {v : V} (h : (k, v) ∈ entries) (m : M) :
    get (putAll value entries m) k = some (value v) := by
  induction entries generalizing m with
  | nil => cases h
  | cons e entries ih =>
    obtain ⟨he, hnodup⟩ := List.nodup_cons.mp hnodup
    show get (putAll value entries (put m e.1 (value e.2))) k = _
    rcases List.mem_cons.mp h with rfl | h
    · rw [get_putAll_of_not_mem value he, get_put, if_pos rfl]
    · exact ih hnodup h _

/-- The entries of a map come before what was there. -/
theorem get_putAll {V : Type} (value : V → PValue F) (order : Go.MapOrder V) (entries : Go.Map V) (m : M)
    (k : String) : get (putAll value (order.order entries) m) k =
      ((entries.lookup k).map value).or (get m k) := by
  have hperm := order.perm entries
  cases hk : entries.lookup k with
  | some v =>
    have hnodup := (hperm.map Prod.fst).nodup_iff.mpr entries.nodup
    exact get_putAll_of_mem value hnodup (hperm.mem_iff.mpr (Go.Map.mem_of_lookup hk)) m
  | none =>
    refine get_putAll_of_not_mem value (fun hmem => ?_) m
    have hsome := Go.Map.mem_keys_iff.mp ((hperm.map Prod.fst).mem_iff.mp hmem)
    rw [hk] at hsome
    cases hsome

/-- The entries whose values are of one kind. -/
def select {V : Type} (kind : PValue F → Option V) (entries : List (String × PValue F)) : List (String × V) :=
  entries.filterMap fun e => (kind e.2).map fun v => (e.1, v)

theorem map_fst_select_sublist {V : Type} (kind : PValue F → Option V) (entries : List (String × PValue F)) :
    ((select kind entries).map Prod.fst).Sublist (entries.map Prod.fst) := by
  induction entries with
  | nil => exact .slnil
  | cons e entries ih =>
    rw [select, List.filterMap_cons]
    cases kind e.2 with
    | none => exact ih.cons _
    | some v => exact ih.cons_cons _

theorem mem_select {V : Type} {kind : PValue F → Option V} {m : M} {k : String} {v : V} :
    (k, v) ∈ select kind (range m) ↔ (get m k).bind kind = some v := by
  rw [select, List.mem_filterMap, Option.bind_eq_some_iff]
  constructor
  · rintro ⟨⟨k', x⟩, hmem, heq⟩
    obtain ⟨w, hw, heq⟩ := Option.map_eq_some_iff.mp heq
    obtain ⟨rfl, rfl⟩ := Prod.mk.inj heq
    exact ⟨x, (mem_range m _ _).mp hmem, hw⟩
  · rintro ⟨x, hx, hv⟩
    refine ⟨(k, x), (mem_range m _ _).mpr hx, ?_⟩
    rw [hv]
    rfl

theorem lookup_select {V : Type} (kind : PValue F → Option V) (m : M) (k : String) :
    (Go.Map.empty.setAll (select kind (range m))).lookup k = (get m k).bind kind := by
  have hnodup := (map_fst_select_sublist kind (range m)).nodup (nodup_range m)
  cases hk : (get m k).bind kind with
  | some v => exact Go.Map.lookup_setAll_of_mem hnodup (mem_select.mpr hk) _
  | none =>
    refine (Go.Map.lookup_setAll_of_not_mem (fun hmem => ?_) _).trans rfl
    obtain ⟨⟨k', v⟩, he, rfl⟩ := List.mem_map.mp hmem
    rw [mem_select.mp he] at hk
    cases hk

/-! ### Attributes -/

def PValue.asInt : PValue F → Option Int
  | .int v => some v
  | _ => none

def PValue.asDouble : PValue F → Option F
  | .double v => some v
  | _ => none

variable (M) in
/-- The text of a value that is no number. -/
def PValue.asText : PValue F → Option String
  | .int _ => none
  | .double _ => none
  | v => some (asString M v)

theorem foldl_addAttribute (entries : List (String × PValue F)) (log : SignozLog F) :
    entries.foldl (addAttribute (M := M)) log = { log with
      attributes_string := log.attributes_string.setAll (select (PValue.asText M) entries)
      attributes_int64 := log.attributes_int64.setAll (select PValue.asInt entries)
      attributes_float64 := log.attributes_float64.setAll (select PValue.asDouble entries) } := by
  induction entries generalizing log with
  | nil => rfl
  | cons e entries ih =>
    obtain ⟨k, v⟩ := e
    rw [List.foldl_cons, ih]
    cases v with
    | str v => rfl
    | int v => rfl
    | double v => rfl
    | other text => rfl

/-- What is read of a resource that was written. -/
theorem lookup_pMapToStrMap (resources : Go.Map String) (k : String) :
    (pMapToStrMap (putAll PValue.str (O.strings.order resources) newMap : M)).lookup k =
      resources.lookup k := by
  have hselect : ∀ m : M, pMapToStrMap m =
      Go.Map.empty.setAll (select (fun v => some (asString M v)) (range m)) := by
    intro m
    rw [select, pMapToStrMap, Go.Map.setAll, List.foldl_filterMap]
    rfl
  rw [hselect, lookup_select, get_putAll, get_newMap, Option.or_none]
  cases resources.lookup k with
  | none => rfl
  | some v => exact congrArg some (asString_str v)

/-- Two maps with the same entries. -/
def SameMap {V : Type} (m m' : Go.Map V) : Prop := ∀ k, m.lookup k = m'.lookup k

/-- No name is that of two attributes of different types. -/
structure DisjointAttributes (log : SignozLog F) : Prop where
  int_float : ∀ k, (log.attributes_int64.lookup k).isSome → log.attributes_float64.lookup k = none
  int_string : ∀ k, (log.attributes_int64.lookup k).isSome → log.attributes_string.lookup k = none
  float_string : ∀ k, (log.attributes_float64.lookup k).isSome → log.attributes_string.lookup k = none

/-- The log that comes back. -/
def returned (log : SignozLog F) : SignozLog F :=
  logRecordToSignozLog (putAll PValue.str (O.strings.order log.resources_string) newMap : M)
    { timestamp := newTimestamp log.timestamp
      traceID := copyBytes 16 log.traceID
      spanID := copyBytes 8 log.spanID
      flags := log.traceFlags
      severityText := log.severityText
      severityNumber := log.severityNumber.toUInt32.toInt32
      body := .str log.body
      attributes := logAttributes O log }

theorem roundTrip_eq (logs : List (SignozLog F)) :
    pLogsToSignozLogs (signozLogsToPLogs (M := M) O logs) = logs.map (returned (M := M) O) := by
  rw [pLogsToSignozLogs, signozLogsToPLogs, List.flatMap_map]
  exact List.map_eq_flatMap.symm

/-- The attributes of the record that are read, by their names. -/
theorem get_remove_logAttributes (log : SignozLog F) (k : String) :
    get (remove (logAttributes O log : M) signozLogIdAttr) k = if k = signozLogIdAttr then none else
      ((log.attributes_string.lookup k).map PValue.str).or
        (((log.attributes_float64.lookup k).map PValue.double).or
          ((log.attributes_int64.lookup k).map PValue.int)) := by
  rw [get_remove]
  split
  · rfl
  · rename_i hk
    rw [logAttributes, get_put, if_neg hk, get_putAll, get_putAll, get_putAll, get_newMap, Option.or_none]

theorem returned_eq (log : SignozLog F) :
    let attributes : List (String × PValue F) := range (remove (logAttributes O log : M) signozLogIdAttr)
    returned (M := M) O log =
      { timestamp := newTimestamp log.timestamp
        id := log.id
        traceID := idString M (copyBytes 16 log.traceID)
        spanID := idString M (copyBytes 8 log.spanID)
        traceFlags := log.traceFlags
        severityText := log.severityText
        severityNumber := log.severityNumber.toUInt32.toInt32.toUInt32.toUInt8
        body := asString M (.str log.body)
        resources_string := pMapToStrMap (putAll PValue.str (O.strings.order log.resources_string) newMap : M)
        attributes_string := Go.Map.empty.setAll (select (PValue.asText M) attributes)
        attributes_int64 := Go.Map.empty.setAll (select PValue.asInt attributes)
        attributes_float64 := Go.Map.empty.setAll (select PValue.asDouble attributes)
        attributes_bool := Go.Map.empty } := by
  have hid : get (logAttributes O log : M) signozLogIdAttr = some (.str log.id) := by
    rw [logAttributes, get_put, if_pos rfl]
  intro attributes
  rw [returned, logRecordToSignozLog, foldl_addAttribute, hid]

/-! ### Ids -/

theorem length_copyBytes (n : Nat) (text : String) : (copyBytes n text).length = n := by
  rw [copyBytes, List.length_append, List.length_replicate, List.length_take]
  omega

theorem copyBytes_of_le {n : Nat} {text : String} (h : n ≤ (HexText.utf8Bytes text).length) :
    copyBytes n text = (HexText.utf8Bytes text).take n := by
  rw [copyBytes, List.length_take, Nat.min_eq_left h, Nat.sub_self, List.replicate_zero, List.append_nil]

theorem copyBytes_encodeToString {bs : List UInt8} {n : Nat} (h : bs.length = n) :
    copyBytes n (HexText.encodeToString bs) = (HexText.utf8Bytes (HexText.encodeToString bs)).take n := by
  refine copyBytes_of_le ?_
  rw [HexText.length_utf8Bytes_encodeToString]
  omega

theorem copyBytes_replicate (n : Nat) :
    copyBytes n (HexText.encodeToString (List.replicate n 0x33)) = List.replicate n 0x33 := by
  rw [copyBytes_encodeToString List.length_replicate, HexText.utf8Bytes_replicate, List.take_replicate]
  congr 1
  omega

theorem copyBytes_empty (n : Nat) : copyBytes n "" = List.replicate n 0 := by
  have hbytes : HexText.utf8Bytes "" = [] := rfl
  rw [copyBytes, hbytes, List.take_nil, List.nil_append, List.length_nil, Nat.sub_zero]

/-- The digits of an id are the text that it was copied from only for the digit `3`, whose byte they are. -/
theorem idString_copyBytes_iff {n : Nat} (hn : 0 < n) (text : String) :
    idString M (copyBytes n text) = text ↔
      text = "" ∨ text = HexText.encodeToString (List.replicate n 0x33) := by
  constructor
  · intro h
    by_cases hzeros : ∃ b ∈ copyBytes n text, b ≠ 0
    · rw [idString_of_ne _ hzeros] at h
      have hlength := length_copyBytes n text
      have htake := copyBytes_encodeToString hlength
      rw [h] at htake
      have hbytes := @HexText.eq_replicate_of_take (copyBytes n text) (by rw [h, hlength, htake])
      rw [hbytes, hlength] at h
      exact .inr h.symm
    · have hreplicate : copyBytes n text = List.replicate n 0 := by
        refine List.eq_replicate_iff.mpr ⟨length_copyBytes n text, fun b hb => ?_⟩
        by_contra hne
        exact hzeros ⟨b, hb, hne⟩
      rw [hreplicate, idString_zeros] at h
      exact .inl h.symm
  · rintro (rfl | rfl)
    · rw [copyBytes_empty, idString_zeros]
    · rw [copyBytes_replicate]
      exact idString_of_ne _ ⟨0x33, List.mem_replicate.mpr ⟨hn.ne', rfl⟩, by decide⟩

/-! ### What comes back -/

/-- Two logs are equal in every field. -/
structure SameLog (log log' : SignozLog F) : Prop where
  timestamp : log.timestamp = log'.timestamp
  id : log.id = log'.id
  traceID : log.traceID = log'.traceID
  spanID : log.spanID = log'.spanID
  traceFlags : log.traceFlags = log'.traceFlags
  severityText : log.severityText = log'.severityText
  severityNumber : log.severityNumber = log'.severityNumber
  body : log.body = log'.body
  resources_string : SameMap log.resources_string log'.resources_string
  attributes_string : SameMap log.attributes_string log'.attributes_string
  attributes_int64 : SameMap log.attributes_int64 log'.attributes_int64
  attributes_float64 : SameMap log.attributes_float64 log'.attributes_float64
  attributes_bool : SameMap log.attributes_bool log'.attributes_bool

/-- A log that comes back: its ids are empty, or made of the digit `3` only; no attribute has the name that
is used for the id of the log, and none is true or false. -/
structure Preserved (log : SignozLog F) : Prop where
  traceID : log.traceID = "" ∨ log.traceID = HexText.encodeToString (List.replicate 16 0x33)
  spanID : log.spanID = "" ∨ log.spanID = HexText.encodeToString (List.replicate 8 0x33)
  string : log.attributes_string.lookup signozLogIdAttr = none
  int : log.attributes_int64.lookup signozLogIdAttr = none
  float : log.attributes_float64.lookup signozLogIdAttr = none
  bool : ∀ k, log.attributes_bool.lookup k = none

theorem eq_none_of_isSome {α β : Type} {a : Option α} {b : Option β} (h : a.isSome → b = none) {v : β}
    (hb : b = some v) : a = none := by
  cases a with
  | none => rfl
  | some x => cases (h rfl).symm.trans hb

/-- The maps of attributes come back without the attribute that is used for the id. -/
theorem lookup_returned {log : SignozLog F} (hdisjoint : DisjointAttributes log) (k : String) :
    (returned (M := M) O log).attributes_string.lookup k =
        (if k = signozLogIdAttr then none else log.attributes_string.lookup k) ∧
    (returned (M := M) O log).attributes_int64.lookup k =
        (if k = signozLogIdAttr then none else log.attributes_int64.lookup k) ∧
    (returned (M := M) O log).attributes_float64.lookup k =
        (if k = signozLogIdAttr then none else log.attributes_float64.lookup k) := by
  rw [returned_eq]
  simp only [lookup_select, get_remove_logAttributes]
  by_cases hk : k = signozLogIdAttr
  · rw [if_pos hk, if_pos hk, if_pos hk, if_pos hk]
    exact ⟨rfl, rfl, rfl⟩
  · rw [if_neg hk, if_neg hk, if_neg hk, if_neg hk]
    have hstring := hdisjoint.int_string k
    have hfloat := hdisjoint.int_float k
    have hfloat' := hdisjoint.float_string k
    -- At most one of the maps has the name.
    cases hs : log.attributes_string.lookup k with
    | some v =>
      rw [eq_none_of_isSome hstring hs, eq_none_of_isSome hfloat' hs]
      exact ⟨congrArg some (asString_str v), rfl, rfl⟩
    | none =>
      cases hf : log.attributes_float64.lookup k with
      | some v =>
        rw [eq_none_of_isSome hfloat hf]
        exact ⟨rfl, rfl, rfl⟩
      | none =>
        cases log.attributes_int64.lookup k with
        | some v => exact ⟨rfl, rfl, rfl⟩
        | none => exact ⟨rfl, rfl, rfl⟩

theorem newTimestamp_eq (timestamp : UInt64) : newTimestamp timestamp = timestamp := by
  rw [newTimestamp, Int64.ofInt_toInt, UInt64.toUInt64_toInt64]

theorem sameLog_returned_iff {log : SignozLog F} (hdisjoint : DisjointAttributes log) :
    SameLog (returned (M := M) O log) log ↔ Preserved log := by
  have hlookup := lookup_returned (M := M) O hdisjoint
  constructor
  · intro h
    have hnone : ∀ {V : Type} {m m' : Go.Map V}, SameMap m m' →
        m.lookup signozLogIdAttr = (if signozLogIdAttr = signozLogIdAttr then none else
          m'.lookup signozLogIdAttr) → m'.lookup signozLogIdAttr = none := by
      intro V m m' hsame hm
      rw [← hsame, hm, if_pos rfl]
    obtain ⟨hstring, hint, hfloat⟩ := hlookup signozLogIdAttr
    have htrace := h.traceID
    have hspan := h.spanID
    have hbool := h.attributes_bool
    rw [returned_eq] at htrace hspan hbool
    exact {
      traceID := (idString_copyBytes_iff (by decide) _).mp htrace
      spanID := (idString_copyBytes_iff (by decide) _).mp hspan
      string := hnone h.attributes_string hstring
      int := hnone h.attributes_int64 hint
      float := hnone h.attributes_float64 hfloat
      bool := fun k => (hbool k).symm }
  · intro h
    have hrest : ∀ {V : Type} {m m' : Go.Map V}, m'.lookup signozLogIdAttr = none →
        (∀ k, m.lookup k = if k = signozLogIdAttr then none else m'.lookup k) → SameMap m m' := by
      intro V m m' hnone hm k
      rw [hm k]
      split
      · rename_i hk
        rw [hk, hnone]
      · rfl
    have hfields := returned_eq (M := M) O log
    exact {
      timestamp := by rw [hfields]; exact newTimestamp_eq _
      id := by rw [hfields]
      traceID := by rw [hfields]; exact (idString_copyBytes_iff (by decide) _).mpr h.traceID
      spanID := by rw [hfields]; exact (idString_copyBytes_iff (by decide) _).mpr h.spanID
      traceFlags := by rw [hfields]
      severityText := by rw [hfields]
      severityNumber := by rw [hfields]; simp
      body := by rw [hfields]; exact asString_str _
      resources_string := by rw [hfields]; exact lookup_pMapToStrMap O _
      attributes_string := hrest h.string fun k => (hlookup k).1
      attributes_int64 := hrest h.int fun k => (hlookup k).2.1
      attributes_float64 := hrest h.float fun k => (hlookup k).2.2
      attributes_bool := by rw [hfields]; exact fun k => (h.bool k).symm }

theorem forall₂_returned_iff {logs : List (SignozLog F)} (hdisjoint : ∀ log ∈ logs, DisjointAttributes log) :
    List.Forall₂ SameLog (logs.map (returned (M := M) O)) logs ↔ ∀ log ∈ logs, Preserved log := by
  rw [List.forall₂_map_left_iff, List.forall₂_same]
  exact forall₂_congr fun log hlog => sameLog_returned_iff O (hdisjoint log hlog)

/-! ### A simulation in which no operator fires -/

/-- No attribute has the name that is used for the position of a log. -/
structure Unmarked (log : SignozLog F) : Prop where
  string : log.attributes_string.lookup inputOrderAttribute = none
  int : log.attributes_int64.lookup inputOrderAttribute = none
  float : log.attributes_float64.lookup inputOrderAttribute = none

/-- A log with its position as an attribute. -/
def marked (i : Nat) (log : SignozLog F) : SignozLog F :=
  { log with attributes_int64 := log.attributes_int64.set inputOrderAttribute i }

theorem lookup_marked (i : Nat) (log : SignozLog F) (k : String) :
    (marked i log).attributes_int64.lookup k =
      if k = inputOrderAttribute then some (i : Int) else log.attributes_int64.lookup k :=
  Go.Map.lookup_set _ _ _ _

theorem disjointAttributes_marked {log : SignozLog F} (hdisjoint : DisjointAttributes log)
    (h : Unmarked log) (i : Nat) : DisjointAttributes (marked i log) where
  int_float k hk := by
    rw [lookup_marked] at hk
    split at hk
    · rename_i heq
      exact heq ▸ h.float
    · exact hdisjoint.int_float k hk
  int_string k hk := by
    rw [lookup_marked] at hk
    split at hk
    · rename_i heq
      exact heq ▸ h.string
    · exact hdisjoint.int_string k hk
  float_string := hdisjoint.float_string

theorem preserved_marked {log : SignozLog F} (h : Preserved log) (i : Nat) : Preserved (marked i log) :=
  { h with
    int := by
      rw [lookup_marked, if_neg (by decide)]
      exact h.int }

/-- The log that is shown: it came back with its position, which is deleted. -/
theorem sameLog_erase {log log' : SignozLog F} {i : Nat} (hunmarked : Unmarked log)
    (h : SameLog log' (marked i log)) :
    SameLog { log' with attributes_int64 := log'.attributes_int64.erase inputOrderAttribute } log :=
  { h with
    attributes_int64 := by
      intro k
      show (log'.attributes_int64.erase inputOrderAttribute).lookup k = _
      rw [Go.Map.lookup_erase]
      split
      · rename_i hk
        rw [hk, hunmarked.int]
      · rename_i hk
        rw [h.attributes_int64 k, lookup_marked, if_neg hk] }

theorem inputOrder_of_sameLog {log log' : SignozLog F} {i : Nat} (h : SameLog log' (marked i log)) :
    inputOrder log' = i := by
  rw [inputOrder, h.attributes_int64, lookup_marked, if_pos rfl]
  rfl

/-- Logs in any order, sorted by their positions. -/
theorem mergeSort_eq {sorted logs : List (SignozLog F)}
    (hsorted : sorted.Pairwise fun a b => inputOrder a < inputOrder b) (hperm : logs.Perm sorted) :
    logs.mergeSort (fun a b => inputOrder a ≤ inputOrder b) = sorted := by
  have hpairwise : (logs.mergeSort fun a b => inputOrder a ≤ inputOrder b).Pairwise
      fun a b => decide (inputOrder a ≤ inputOrder b) = true :=
    List.pairwise_mergeSort (fun a b c hab hbc => by simp at *; omega) (fun a b => by simp; omega) logs
  have hnodup : (sorted.map inputOrder).Nodup :=
    List.pairwise_map.mpr (hsorted.imp fun {a b} hlt => hlt.ne)
  have hresult := (List.mergeSort_perm logs fun a b => inputOrder a ≤ inputOrder b).trans hperm
  refine @List.Perm.eq_of_pairwise _ (fun a b => inputOrder a ≤ inputOrder b) _ _ ?_ ?_ ?_ hresult
  · intro a b ha hb hab hba
    exact List.inj_on_of_nodup_map hnodup (hresult.mem_iff.mp ha) hb (le_antisymm hab hba)
  · exact hpairwise.imp fun {a b} h => by simpa using h
  · exact hsorted.imp fun {a b} hlt => hlt.le

theorem SameLog.refl (log : SignozLog F) : SameLog log log :=
  ⟨rfl, rfl, rfl, rfl, rfl, rfl, rfl, rfl, fun _ => rfl, fun _ => rfl, fun _ => rfl, fun _ => rfl, fun _ => rfl⟩

theorem pLogsToSignozLogs_perm {plogs plogs' : List (PLogs M F)} (h : plogs.Perm plogs') :
    (pLogsToSignozLogs plogs).Perm (pLogsToSignozLogs plogs') := h.flatMap_right _

/-- Logs that come back are shown as they are, where no operator fires. -/
theorem preview_same {logs : List (SignozLog F)}
    (hlogs : ∀ log ∈ logs, DisjointAttributes log ∧ Preserved log ∧ Unmarked log) {G : Type}
    {simulateLogsProcessing : List (Pipeline G) → List (PLogs M F) →
      Except SimulationError (List (PLogs M F)) × List String} {pipelines : List (Pipeline G)}
    (hsimulation : ∀ plogs, ∃ output collectorErrs, simulateLogsProcessing pipelines plogs =
      (.ok output, collectorErrs) ∧ output.Perm plogs) :
    ∃ result collectorErrs, simulatePipelinesProcessing O simulateLogsProcessing pipelines logs =
      .ok (result, collectorErrs) ∧ List.Forall₂ SameLog result logs := by
  rw [simulatePipelinesProcessing]
  split
  · exact ⟨logs, [], rfl, List.forall₂_same.mpr fun log _ => SameLog.refl log⟩
  obtain ⟨output, collectorErrs, hsim, hperm⟩ := hsimulation (signozLogsToPLogs O (markOrder logs))
  rw [hsim]
  refine ⟨_, _, rfl, ?_⟩
  -- The logs that come back, in the order of those that were given.
  let back := (markOrder logs).map (returned (M := M) O)
  have hlength : back.length = logs.length := by rw [List.length_map, markOrder, List.length_mapIdx]
  have hback : ∀ (i : Nat) (hi : i < logs.length) (hi' : i < back.length),
      SameLog back[i] (marked i logs[i]) := by
    intro i hi hi'
    obtain ⟨hdisjoint, hpreserved, hunmarked⟩ := hlogs logs[i] (List.getElem_mem hi)
    have hget : back[i] = returned (M := M) O (marked i logs[i]) := by
      simp only [back, markOrder, List.getElem_map, List.getElem_mapIdx]
      rfl
    rw [hget]
    exact (sameLog_returned_iff O (disjointAttributes_marked hdisjoint hunmarked i)).mpr
      (preserved_marked hpreserved i)
  have hsorted : back.Pairwise fun a b => inputOrder a < inputOrder b := by
    refine List.pairwise_iff_getElem.mpr fun i j hi hj hij => ?_
    rw [inputOrder_of_sameLog (hback i (hlength ▸ hi) hi), inputOrder_of_sameLog (hback j (hlength ▸ hj) hj)]
    exact Int.ofNat_lt.mpr hij
  have houtput : (pLogsToSignozLogs output).Perm back :=
    (pLogsToSignozLogs_perm hperm).trans (.of_eq (roundTrip_eq O _))
  rw [mergeSort_eq hsorted houtput, List.forall₂_map_left_iff, List.forall₂_iff_get]
  refine ⟨hlength, fun i hi hi' => ?_⟩
  exact sameLog_erase (hlogs logs[i] (List.getElem_mem hi')).2.2 (hback i hi' hi)

/-- Logs are written and read back, each equal in every field, if and only if each of them is one that comes
back; a preview in which no operator fires then shows them as they are. -/
theorem roundTrip_iff {logs : List (SignozLog F)} (hdisjoint : ∀ log ∈ logs, DisjointAttributes log) :
    (List.Forall₂ SameLog (pLogsToSignozLogs (signozLogsToPLogs (M := M) O logs)) logs ↔
      ∀ log ∈ logs, Preserved log) ∧
    ((∀ log ∈ logs, Preserved log ∧ Unmarked log) → ∀ {G : Type}
      (simulateLogsProcessing : List (Pipeline G) → List (PLogs M F) →
        Except SimulationError (List (PLogs M F)) × List String) (pipelines : List (Pipeline G)),
      (∀ plogs, ∃ output collectorErrs, simulateLogsProcessing pipelines plogs =
        (.ok output, collectorErrs) ∧ output.Perm plogs) →
      ∃ result collectorErrs, simulatePipelinesProcessing O simulateLogsProcessing pipelines logs =
        .ok (result, collectorErrs) ∧ List.Forall₂ SameLog result logs) := by
  rw [roundTrip_eq]
  exact ⟨forall₂_returned_iff O hdisjoint, fun h _ _ _ hsimulation =>
    preview_same O (fun log hlog => ⟨hdisjoint log hlog, h log hlog⟩) hsimulation⟩

/-! ### Examples -/

/-- The maps of the language as those of records. -/
@[reducible] def mapRecords : PData (Go.Map (PValue Rat)) Rat where
  newMap := Go.Map.empty
  get := Go.Map.lookup
  put := Go.Map.set
  remove := Go.Map.erase
  range := Go.Map.entries
  asString
    | .str v => v
    | .int v => toString v
    | .double v => toString v
    | .other text => text
  idString bs := if ∃ b ∈ bs, b ≠ 0 then HexText.encodeToString bs else ""
  get_newMap _ := rfl
  get_put m k v k' := Go.Map.lookup_set m k k' v
  get_remove m k k' := Go.Map.lookup_erase m k k'
  nodup_range m := m.nodup
  mem_range _ _ _ := ⟨Go.Map.lookup_of_mem, Go.Map.mem_of_lookup⟩
  asString_str _ := rfl
  idString_zeros _ := if_neg fun ⟨_, hb, hne⟩ => hne (List.eq_of_mem_replicate hb)
  idString_of_ne _ h := if_pos h

/-- The orders in which the entries are listed. -/
def listedOrders : LogOrders Rat := ⟨⟨_, fun _ => .rfl⟩, ⟨_, fun _ => .rfl⟩, ⟨_, fun _ => .rfl⟩⟩

/-- A log with one attribute. -/
def textLog (traceID : String) : SignozLog Rat where
  timestamp := 1700000000000000000
  id := "2ZXk"
  traceID := traceID
  spanID := ""
  traceFlags := 1
  severityText := "INFO"
  severityNumber := 9
  body := "text"
  resources_string := Go.Map.empty
  attributes_string := Go.Map.empty.set "method" "GET"
  attributes_int64 := Go.Map.empty
  attributes_float64 := Go.Map.empty
  attributes_bool := Go.Map.empty

theorem disjointAttributes_textLog (traceID : String) : DisjointAttributes (textLog traceID) where
  int_float _ _ := rfl
  int_string _ h := by cases h
  float_string _ h := by cases h

theorem roundTrip_iff_text : letI := mapRecords
    List.Forall₂ SameLog (pLogsToSignozLogs (signozLogsToPLogs (M := Go.Map (PValue Rat)) listedOrders
      [textLog ""])) [textLog ""] ∧
    ∃ result collectorErrs, simulatePipelinesProcessing (M := Go.Map (PValue Rat)) (G := Unit) listedOrders
      (fun _ plogs => (.ok plogs.reverse, [])) [⟨"a", true, none, []⟩] [textLog "", textLog ""] =
        .ok (result, collectorErrs) ∧ List.Forall₂ SameLog result [textLog "", textLog ""] := by
  let _ := mapRecords
  have hdisjoint : ∀ n, ∀ log ∈ List.replicate n (textLog ""), DisjointAttributes log := fun n log hlog =>
    List.eq_of_mem_replicate hlog ▸ disjointAttributes_textLog ""
  have hpreserved : Preserved (textLog "") := ⟨.inl rfl, .inl rfl, rfl, rfl, rfl, fun _ => rfl⟩
  refine ⟨(roundTrip_iff (M := Go.Map (PValue Rat)) listedOrders (hdisjoint 1)).1.mpr ?_,
    (roundTrip_iff (M := Go.Map (PValue Rat)) listedOrders (hdisjoint 2)).2 ?_ _ _ ?_⟩
  · exact List.forall_mem_singleton.mpr hpreserved
  · exact fun log hlog => List.eq_of_mem_replicate (n := 2) hlog ▸ ⟨hpreserved, rfl, rfl, rfl⟩
  · exact fun plogs => ⟨_, _, rfl, List.reverse_perm plogs⟩

/-- The digits of a trace id come back as the digits of their bytes. -/
theorem not_roundTrip_traceID : letI := mapRecords
    ¬ List.Forall₂ SameLog (pLogsToSignozLogs (signozLogsToPLogs (M := Go.Map (PValue Rat)) listedOrders
      [textLog "0af7651916cd43dd8448eb211c80319c"])) [textLog "0af7651916cd43dd8448eb211c80319c"] := by
  let _ := mapRecords
  rw [roundTrip_eq, forall₂_returned_iff listedOrders
    (List.forall_mem_singleton.mpr (disjointAttributes_textLog _)), List.forall_mem_singleton]
  intro h
  rcases h.traceID with heq | heq
  · exact absurd heq (by decide)
  · exact absurd heq (by decide)

end Preview

end QueryService.LogParsingPipeline
