import BoringPanel.Lib.Forest
import BoringPanel.QueryService.DebugMode.Manager
import Mathlib.Algebra.Order.Field.Basic
import Mathlib.Tactic.Linarith
import Mathlib.Tactic.Ring

/-!
# The telemetry that the debug mode generates

`app/debugmode/generator.go`: the trace of a request through the services of a scenario (`sendTraces`), and
the metrics of a batch (`sendMetrics`) as far as they come from the metrics of the scenario. Times are
nanoseconds since 1970, and random ids are a parameter; attributes of spans and logs are left out.

The spans of the services are nested, since the durations are widened from the last service to the first
(`isNestedTree_serviceSpans`); the messaging spans that may be attached are not (`sendTraces_nested_iff`).
A counter is the line of its healthy rate at one point of a batch and is off it at the other, so it never
decreases only if the rates hardly differ (`counters_neverDecrease_iff`).
-/

namespace QueryService.DebugMode

/-! ### Scenarios -/

structure ScenarioService where
  name : String
  operation : String
  protocol : String
  baselineLatencyMS : Int
  faultLatencyMS : Int

/-- A value in the attributes of a metric, encoded by `attribute`. -/
inductive MetricAttribute where
  | string (s : String)
  | bool (b : Bool)
  | int (n : Int)
deriving DecidableEq

/-- The attributes of a map in the order of their keys, `attributesFromMap`. -/
abbrev Attributes := List (String × MetricAttribute)

structure ScenarioMetric (K : Type) where
  signal : String
  name : String
  unit : String
  healthyValue : K
  faultValue : K
  jitter : K
  monotonic : Bool
  attributes : Attributes

structure ScenarioDefinition (K : Type) where
  services : List ScenarioService
  rootIndex : Int
  metrics : List (ScenarioMetric K)

/-- `time.Millisecond`. -/
def millisecond : Int := 10 ^ 6

/-- `time.Second`. -/
def second : Int := 10 ^ 9

/-- `value.UnixNano()`, whose text is `nanoString(value)`. -/
def unixNano (value : Int) : Int := Go.int64 value

/-! ### Traces -/

structure Span where
  /-- The service of the resource. -/
  service : String
  traceId : String
  spanId : String
  parentSpanId : Option String
  name : String
  kind : String
  startTimeUnixNano : Int
  endTimeUnixNano : Int
  statusCode : String

def spanKind (protocol : String) : String :=
  if protocol ∈ ["db", "redis", "dns", "tls", "filesystem", "network", "process"] then "SPAN_KIND_CLIENT"
  else if protocol = "messaging" then "SPAN_KIND_CONSUMER"
  else "SPAN_KIND_SERVER"

section Traces

variable {K : Type} (scenario : ScenarioDefinition K) (time : Int) (sequence : Int) (fault : Bool)
  (traceID : String) (randomHex : Nat → String)

def topologyContainsMessaging : Bool := scenario.services.any fun service => service.protocol = "messaging"

/-- The duration of a service's own work. -/
def ownDuration (index : Nat) (service : ScenarioService) : Int :=
  let latencyMS :=
    if fault ∧ service.faultLatencyMS > 0 ∧ (scenario.rootIndex < 0 ∨ (index : Int) ≤ scenario.rootIndex) then
      service.faultLatencyMS
    else service.baselineLatencyMS
  let latencyMS := Go.int64 (latencyMS + sequence.tmod 3)
  Go.int64 (latencyMS * millisecond)

def ownDurations : List Int := scenario.services.mapIdx (ownDuration scenario sequence fault)

/-- The loop from the last service but one to the first, over the durations from an index on. -/
def includeDownstream : Nat → List Int → List Int
  | _, [] => []
  | index, duration :: durations =>
    match includeDownstream (index + 1) durations with
    | [] => [duration]
    | child :: rest =>
      let childEnd := Go.int64 (((index : Int) + 1) * 5 * millisecond + child)
      let minimum := Go.int64 (childEnd - index * 5 * millisecond + 3 * millisecond)
      (if duration < minimum then minimum else duration) :: child :: rest

/-- The span of a service. -/
def serviceSpan (index : Nat) (parentID : String) (service : ScenarioService) (duration : Int) : Span :=
  let start := time + index * 5 * millisecond
  let isRootError := fault ∧ (index : Int) = scenario.rootIndex
  let isUpstreamError := fault ∧ scenario.rootIndex ≥ 0 ∧ (index : Int) < scenario.rootIndex
  { service := service.name
    traceId := traceID
    spanId := randomHex index
    parentSpanId := if parentID ≠ "" then some parentID else none
    name := service.operation
    kind := spanKind service.protocol
    startTimeUnixNano := unixNano start
    endTimeUnixNano := unixNano (start + duration)
    statusCode := if isRootError ∨ isUpstreamError then "STATUS_CODE_ERROR" else "STATUS_CODE_OK" }

/-- The loop over the services, from an index on. -/
def serviceSpans : Nat → String → List (ScenarioService × Int) → List Span
  | _, _, [] => []
  | index, parentID, (service, duration) :: rest =>
    serviceSpan scenario time fault traceID randomHex index parentID service duration ::
      serviceSpans (index + 1) (randomHex index) rest

/-- The spans of `makeHealthyMessagingSpans`; `count` ids have been made before. -/
def makeHealthyMessagingSpans (parentID : String) (count : Nat) : List Span :=
  let producerID := randomHex count
  let consumerID := randomHex (count + 1)
  [{ service := "调试-订单服务"
     traceId := traceID
     spanId := producerID
     parentSpanId := some parentID
     name := "audit.events publish"
     kind := "SPAN_KIND_PRODUCER"
     startTimeUnixNano := unixNano (time + 80 * millisecond)
     endTimeUnixNano := unixNano (time + 88 * millisecond)
     statusCode := "STATUS_CODE_OK" },
   { service := "调试-审计消费者"
     traceId := traceID
     spanId := consumerID
     parentSpanId := some producerID
     name := "audit.events process"
     kind := "SPAN_KIND_CONSUMER"
     startTimeUnixNano := unixNano (time + 94 * millisecond)
     endTimeUnixNano := unixNano (time + 128 * millisecond)
     statusCode := "STATUS_CODE_OK" }]

/-- The spans of the services. -/
def chain : List Span :=
  serviceSpans scenario time fault traceID randomHex 0 ""
    (scenario.services.zip (includeDownstream 0 (ownDurations scenario sequence fault)))

/-- The id of the last span, which `parentID` is after the loop. -/
def lastID : String :=
  match scenario.services.length with
  | 0 => ""
  | n + 1 => randomHex n

/-- The spans that `sendTraces` posts. -/
def sendTraces (signals : Signals) : List Span :=
  chain scenario time sequence fault traceID randomHex ++
    if signals.messaging ∧ ¬ topologyContainsMessaging scenario then
      makeHealthyMessagingSpans time traceID randomHex (lastID scenario randomHex) scenario.services.length
    else []

end Traces

/-! ### Nested traces -/

/-- The parent of a span, by ids. -/
def parentOf (trace : List Span) (spanId : String) : Option String :=
  (trace.find? fun span => span.spanId = spanId).bind Span.parentSpanId

/-- The spans of a trace are a tree from the first one, and each is within its parent. -/
structure IsNestedTree (trace : List Span) : Prop where
  distinct : (trace.map Span.spanId).Nodup
  parent : ∀ span ∈ trace.tail, ∃ parent ∈ trace, span.parentSpanId = some parent.spanId
  tree : ∀ root ∈ trace.head?, parentOf trace root.spanId = none ∧
    ∀ span ∈ trace, Forest.Below (parentOf trace) root.spanId span.spanId
  nested : ∀ span ∈ trace, ∀ parent ∈ trace, span.parentSpanId = some parent.spanId →
    parent.startTimeUnixNano ≤ span.startTimeUnixNano ∧ span.endTimeUnixNano ≤ parent.endTimeUnixNano

/-- Latencies, numbers of services and times for which no count of nanoseconds overflows: latencies of 31 years
at most, and times between 1823 and 2116. -/
structure InRange {K : Type} (scenario : ScenarioDefinition K) (time : Int) : Prop where
  time_le : -2 ^ 62 ≤ time ∧ time ≤ 2 ^ 62
  length_le : scenario.services.length ≤ 10 ^ 10
  latency_le : ∀ service ∈ scenario.services,
    (-10 ^ 12 ≤ service.baselineLatencyMS ∧ service.baselineLatencyMS ≤ 10 ^ 12) ∧
      -10 ^ 12 ≤ service.faultLatencyMS ∧ service.faultLatencyMS ≤ 10 ^ 12

section Durations

/-- The loop makes room in each duration for the span that starts five milliseconds later. -/
theorem includeDownstream_spec {bound : Int} {index : Nat} {durations : List Int}
    (hbound : ∀ d ∈ durations, -bound ≤ d ∧ d ≤ bound)
    (hrange : bound + 8 * millisecond * (index + durations.length + 1) < 2 ^ 63) :
    (includeDownstream index durations).length = durations.length ∧
      (includeDownstream index durations).IsChain (fun parent child => child + 8 * millisecond ≤ parent) ∧
      ∀ d ∈ includeDownstream index durations,
        -bound ≤ d ∧ d ≤ bound + 8 * millisecond * durations.length := by
  induction durations generalizing index with
  | nil => exact ⟨rfl, .nil, fun d hd => absurd hd List.not_mem_nil⟩
  | cons duration durations ih =>
    obtain ⟨hduration, hdurations⟩ := List.forall_mem_cons.mp hbound
    rw [List.length_cons] at hrange
    push_cast at hrange
    have hms : millisecond = 1000000 := rfl
    have hrest : bound + 8 * millisecond * ((index + 1 : Nat) + durations.length + 1) < 2 ^ 63 := by
      push_cast
      rw [hms] at hrange ⊢
      omega
    obtain ⟨hlength, hchain, hmem⟩ := ih hdurations hrest
    rw [includeDownstream]
    cases hds : includeDownstream (index + 1) durations with
    | nil =>
      rw [hds] at hlength
      refine ⟨by simp [← hlength], List.isChain_singleton _, fun d hd => ?_⟩
      rw [List.mem_singleton.mp hd, List.length_cons]
      push_cast
      rw [hms]
      omega
    | cons child rest =>
      rw [hds] at hlength hchain hmem
      have hchild := hmem child List.mem_cons_self
      have hend : Go.int64 (((index : Int) + 1) * 5 * millisecond + child) =
          ((index : Int) + 1) * 5 * millisecond + child := by
        apply Go.int64_eq <;> rw [hms] at * <;> omega
      have hminimum : Go.int64 (((index : Int) + 1) * 5 * millisecond + child - index * 5 * millisecond +
          3 * millisecond) = child + 8 * millisecond := by
        rw [Go.int64_eq] <;> rw [hms] at * <;> omega
      simp only [hend, hminimum]
      refine ⟨by simpa using hlength, ?_, fun d hd => ?_⟩
      · refine List.isChain_cons_cons.mpr ⟨?_, hchain⟩
        split <;> omega
      · rcases List.mem_cons.mp hd with rfl | hd
        · rw [List.length_cons]
          push_cast
          rw [hms] at *
          split <;> omega
        · have := hmem d hd
          rw [List.length_cons]
          push_cast
          rw [hms] at *
          omega

end Durations

section Nesting

variable {K : Type} {scenario : ScenarioDefinition K} {time sequence : Int} {fault : Bool} {traceID : String}
  {randomHex : Nat → String} {k : Nat} {span : Span}

/-- The durations that the spans of the services get. -/
abbrev durations (scenario : ScenarioDefinition K) (sequence : Int) (fault : Bool) : List Int :=
  includeDownstream 0 (ownDurations scenario sequence fault)

theorem duration_eq {latencyMS extra : Int} (hlatency : -10 ^ 12 ≤ latencyMS ∧ latencyMS ≤ 10 ^ 12)
    (hextra : -3 < extra ∧ extra < 3) :
    Go.int64 (Go.int64 (latencyMS + extra) * millisecond) = (latencyMS + extra) * millisecond := by
  have hms : millisecond = 1000000 := rfl
  have hlatencyMS : Go.int64 (latencyMS + extra) = latencyMS + extra := Go.int64_eq (by omega) (by omega)
  rw [hlatencyMS, hms]
  exact Go.int64_eq (by omega) (by omega)

theorem ownDuration_bounds (h : InRange scenario time) {service : ScenarioService}
    (hservice : service ∈ scenario.services) (index : Nat) :
    -(2 * 10 ^ 18) ≤ ownDuration scenario sequence fault index service ∧
      ownDuration scenario sequence fault index service ≤ 2 * 10 ^ 18 := by
  obtain ⟨hbaseline, hfault⟩ := h.latency_le service hservice
  have hms : millisecond = 1000000 := rfl
  have hsequence : -3 < sequence.tmod 3 ∧ sequence.tmod 3 < 3 :=
    ⟨Int.lt_tmod_of_pos sequence (by decide), Int.tmod_lt_of_pos sequence (by decide)⟩
  simp only [ownDuration]
  split
  · rw [duration_eq hfault hsequence, hms]
    omega
  · rw [duration_eq hbaseline hsequence, hms]
    omega

/-- The durations of the spans: each makes room for the next. -/
theorem durations_spec (h : InRange scenario time) (sequence : Int) (fault : Bool) :
    (durations scenario sequence fault).length = scenario.services.length ∧
      (durations scenario sequence fault).IsChain (fun parent child => child + 8 * millisecond ≤ parent) ∧
      ∀ d ∈ durations scenario sequence fault, -(3 * 10 ^ 18) ≤ d ∧ d ≤ 3 * 10 ^ 18 := by
  have hms : millisecond = 1000000 := rfl
  have hlength : (ownDurations scenario sequence fault).length = scenario.services.length := List.length_mapIdx
  have hbound : ∀ d ∈ ownDurations scenario sequence fault, -(2 * 10 ^ 18) ≤ d ∧ d ≤ 2 * 10 ^ 18 := by
    intro d hd
    obtain ⟨i, hi, rfl⟩ := List.mem_mapIdx.mp hd
    exact ownDuration_bounds h (List.getElem_mem hi) i
  have hle := h.length_le
  obtain ⟨hlen, hchain, hmem⟩ := @includeDownstream_spec (2 * 10 ^ 18) 0 _ hbound (by
    rw [hlength, hms]
    omega)
  refine ⟨hlen.trans hlength, hchain, fun d hd => ?_⟩
  have := hmem d hd
  rw [hlength, hms] at this
  omega

theorem getElem?_serviceSpans (index : Nat) (parentID : String) (items : List (ScenarioService × Int))
    (k : Nat) :
    (serviceSpans scenario time fault traceID randomHex index parentID items)[k]? =
      items[k]?.map fun item => serviceSpan scenario time fault traceID randomHex (index + k)
        (if k = 0 then parentID else randomHex (index + k - 1)) item.1 item.2 := by
  induction items generalizing index parentID k with
  | nil => rfl
  | cons item items ih =>
    cases k with
    | zero => rfl
    | succ k =>
      rw [serviceSpans, List.getElem?_cons_succ, List.getElem?_cons_succ, ih]
      have hindex : index + 1 + k = index + (k + 1) := by omega
      have hparent : (if k = 0 then randomHex index else randomHex (index + 1 + k - 1)) =
          if k + 1 = 0 then parentID else randomHex (index + (k + 1) - 1) := by
        rw [if_neg (Nat.succ_ne_zero k)]
        split
        · rename_i hk
          rw [hk]
          rfl
        · exact congrArg randomHex (by omega)
      rw [hparent, hindex]

/-- The span of the service with an index. -/
theorem getElem?_chain : (chain scenario time sequence fault traceID randomHex)[k]? = some span ↔
    ∃ service d, scenario.services[k]? = some service ∧ (durations scenario sequence fault)[k]? = some d ∧
      span = serviceSpan scenario time fault traceID randomHex k (if k = 0 then "" else randomHex (k - 1))
        service d := by
  rw [chain, getElem?_serviceSpans, Nat.zero_add, Option.map_eq_some_iff]
  constructor
  · rintro ⟨⟨service, d⟩, hitem, rfl⟩
    obtain ⟨hservice, hd⟩ := List.getElem?_zip_eq_some.mp hitem
    exact ⟨service, d, hservice, hd, rfl⟩
  · rintro ⟨service, d, hservice, hd, rfl⟩
    exact ⟨(service, d), List.getElem?_zip_eq_some.mpr ⟨hservice, hd⟩, rfl⟩

theorem length_chain (h : InRange scenario time) :
    (chain scenario time sequence fault traceID randomHex).length = scenario.services.length := by
  have hlength : ∀ (index : Nat) (parentID : String) (items : List (ScenarioService × Int)),
      (serviceSpans scenario time fault traceID randomHex index parentID items).length = items.length := by
    intro index parentID items
    induction items generalizing index parentID with
    | nil => rfl
    | cons item items ih => exact congrArg Nat.succ (ih _ _)
  rw [chain, hlength, List.length_zip, ← durations, (durations_spec h sequence fault).1, Nat.min_self]

/-- The random ids of a trace are distinct, and none of them is empty. -/
structure DistinctIDs (randomHex : Nat → String) (count : Nat) : Prop where
  ne_empty : ∀ i, randomHex i ≠ ""
  injective : ∀ i < count, ∀ j < count, randomHex i = randomHex j → i = j

theorem spanIds_chain (h : InRange scenario time) :
    (chain scenario time sequence fault traceID randomHex).map Span.spanId =
      (List.range scenario.services.length).map randomHex := by
  refine List.ext_getElem? fun k => ?_
  rw [List.getElem?_map, List.getElem?_map]
  by_cases hk : k < scenario.services.length
  · have hlt : k < (chain scenario time sequence fault traceID randomHex).length := (length_chain h).symm ▸ hk
    obtain ⟨service, d, -, -, hspan⟩ := getElem?_chain.mp (List.getElem?_eq_getElem hlt)
    rw [List.getElem?_eq_getElem hlt, hspan, List.getElem?_range hk]
    rfl
  · rw [List.getElem?_eq_none (by rw [length_chain h]; omega), List.getElem?_eq_none (by simpa using hk)]
    rfl

/-- The parent of a service's span is that of the service before. -/
theorem parentSpanId_chain (hids : DistinctIDs randomHex (scenario.services.length + 2))
    (hspan : (chain scenario time sequence fault traceID randomHex)[k]? = some span) :
    span.parentSpanId = if k = 0 then none else some (randomHex (k - 1)) := by
  obtain ⟨service, d, -, -, rfl⟩ := getElem?_chain.mp hspan
  show (if (if k = 0 then "" else randomHex (k - 1)) ≠ "" then _ else _) = _
  by_cases hk : k = 0
  · simp [hk]
  · rw [if_neg hk, if_pos (hids.ne_empty _), if_neg hk]

/-- A span ends before the one that calls it, in milliseconds that are whole. -/
theorem nested_chain (h : InRange scenario time) {parent : Span}
    (hparent : (chain scenario time sequence fault traceID randomHex)[k]? = some parent)
    (hspan : (chain scenario time sequence fault traceID randomHex)[k + 1]? = some span) :
    parent.startTimeUnixNano ≤ span.startTimeUnixNano ∧ span.endTimeUnixNano ≤ parent.endTimeUnixNano := by
  obtain ⟨hlength, hchain, hbound⟩ := durations_spec h sequence fault
  obtain ⟨service, d, hservice, hd, rfl⟩ := getElem?_chain.mp hparent
  obtain ⟨service', d', hservice', hd', rfl⟩ := getElem?_chain.mp hspan
  obtain ⟨hk, rfl⟩ := List.getElem?_eq_some_iff.mp hd
  obtain ⟨hk', rfl⟩ := List.getElem?_eq_some_iff.mp hd'
  have hroom := List.isChain_iff_getElem.mp hchain k hk'
  have hd := hbound _ (List.getElem_mem hk)
  have hd' := hbound _ (List.getElem_mem hk')
  have htime := h.time_le
  have hcount := h.length_le
  have hms : millisecond = 1000000 := rfl
  have hindex : k + 1 < scenario.services.length := hlength ▸ hk'
  have hexact : ∀ t : Int, -2 ^ 62 - 4 * 10 ^ 18 ≤ t → t ≤ 2 ^ 62 + 4 * 10 ^ 18 → unixNano t = t := fun t hl hu =>
    Go.int64_eq (by omega) (by omega)
  rw [hms] at hroom
  simp only [serviceSpan]
  push_cast
  rw [hms, hexact, hexact, hexact, hexact] <;> omega

/-- The span with an id. -/
theorem parentOf_eq {trace : List Span} (hnd : (trace.map Span.spanId).Nodup) (hspan : span ∈ trace) :
    parentOf trace span.spanId = span.parentSpanId := by
  rw [parentOf]
  cases hfind : trace.find? fun s => s.spanId = span.spanId with
  | none =>
    have := List.find?_eq_none.mp hfind span hspan
    simp at this
  | some s =>
    have hid : s.spanId = span.spanId := by simpa using List.find?_some hfind
    rw [List.inj_on_of_nodup_map hnd (List.mem_of_find?_eq_some hfind) hspan hid]
    rfl

/-- **The spans of the services** are a nested tree: a chain. -/
theorem isNestedTree_chain (h : InRange scenario time)
    (hids : DistinctIDs randomHex (scenario.services.length + 2)) :
    IsNestedTree (chain scenario time sequence fault traceID randomHex) := by
  have hnd : ((chain scenario time sequence fault traceID randomHex).map Span.spanId).Nodup := by
    rw [spanIds_chain h]
    refine List.Nodup.map_on (fun i hi j hj heq => ?_) List.nodup_range
    rw [List.mem_range] at hi hj
    exact hids.injective i (by omega) j (by omega) heq
  have hid : ∀ {k span}, (chain scenario time sequence fault traceID randomHex)[k]? = some span →
      span.spanId = randomHex k := by
    intro k span hspan
    obtain ⟨service, d, -, -, rfl⟩ := getElem?_chain.mp hspan
    rfl
  have hlt : ∀ {k span}, (chain scenario time sequence fault traceID randomHex)[k]? = some span →
      k < scenario.services.length := by
    intro k span hspan
    obtain ⟨service, d, hservice, -⟩ := getElem?_chain.mp hspan
    exact (List.getElem?_eq_some_iff.mp hservice).1
  have hprevious : ∀ {k span}, (chain scenario time sequence fault traceID randomHex)[k + 1]? = some span →
      ∃ parent, (chain scenario time sequence fault traceID randomHex)[k]? = some parent ∧
        span.parentSpanId = some parent.spanId := by
    intro k span hspan
    have hk : k < (chain scenario time sequence fault traceID randomHex).length := by
      rw [length_chain h]
      have := hlt hspan
      omega
    refine ⟨_, List.getElem?_eq_getElem hk, ?_⟩
    rw [hid (List.getElem?_eq_getElem hk), parentSpanId_chain hids hspan, if_neg (Nat.succ_ne_zero k)]
    rfl
  refine ⟨hnd, fun span hspan => ?_, fun root hroot => ⟨?_, fun span hspan => ?_⟩,
    fun span hspan parent hparent hlink => ?_⟩
  · obtain ⟨k, hk⟩ := List.mem_iff_getElem?.mp hspan
    rw [List.getElem?_tail] at hk
    obtain ⟨parent, hparent, hlink⟩ := hprevious hk
    exact ⟨parent, List.mem_of_getElem? hparent, hlink⟩
  · rw [Option.mem_def, List.head?_eq_getElem?] at hroot
    rw [parentOf_eq hnd (List.mem_of_getElem? hroot), parentSpanId_chain hids hroot]
    rfl
  · rw [Option.mem_def, List.head?_eq_getElem?] at hroot
    obtain ⟨k, hk⟩ := List.mem_iff_getElem?.mp hspan
    induction k generalizing span with
    | zero =>
      obtain rfl := Option.some.inj (hroot.symm.trans hk)
      exact .refl
    | succ k ih =>
      obtain ⟨parent, hparent, hlink⟩ := hprevious hk
      refine .child (ih parent (List.mem_of_getElem? hparent) hparent) ?_
      rw [parentOf_eq hnd hspan, hlink]
  · obtain ⟨k, hk⟩ := List.mem_iff_getElem?.mp hspan
    obtain ⟨j, hj⟩ := List.mem_iff_getElem?.mp hparent
    have hlinkIndex := parentSpanId_chain hids hk
    rw [hlink, hid hj] at hlinkIndex
    cases k with
    | zero => cases hlinkIndex
    | succ k =>
      rw [if_neg (Nat.succ_ne_zero k), Option.some.injEq] at hlinkIndex
      have hkj : j = k := by
        have hjlt := hlt hj
        have hklt := hlt hk
        exact hids.injective j (by omega) k (by omega) hlinkIndex
      subst hkj
      exact nested_chain h hj hk

/-- Messaging spans that are attached are not nested: the consumer ends after the producer that it is in. -/
theorem not_isNestedTree_of_attached {signals : Signals} (htime : -2 ^ 62 ≤ time ∧ time ≤ 2 ^ 62)
    (hattached : signals.messaging = true ∧ ¬ topologyContainsMessaging scenario = true) :
    ¬ IsNestedTree (sendTraces scenario time sequence fault traceID randomHex signals) := by
  intro htree
  have hmem : ∀ s ∈ makeHealthyMessagingSpans time traceID randomHex (lastID scenario randomHex)
      scenario.services.length, s ∈ sendTraces scenario time sequence fault traceID randomHex signals := by
    intro s hs
    rw [sendTraces, if_pos hattached]
    exact List.mem_append_right _ hs
  have hnested := htree.nested _ (hmem _ (List.mem_cons_of_mem _ List.mem_cons_self)) _
    (hmem _ List.mem_cons_self) rfl
  have hms : millisecond = 1000000 := rfl
  have hend : unixNano (time + 128 * millisecond) ≤ unixNano (time + 88 * millisecond) := hnested.2
  rw [hms, unixNano, unixNano, Go.int64_eq (by omega) (by omega), Go.int64_eq (by omega) (by omega)] at hend
  omega

/-- **When a trace is nested**: no messaging spans are attached, whatever the latencies are. -/
theorem sendTraces_nested_iff (h : InRange scenario time)
    (hids : DistinctIDs randomHex (scenario.services.length + 2)) (sequence : Int) (fault : Bool)
    (traceID : String) (signals : Signals) :
    IsNestedTree (sendTraces scenario time sequence fault traceID randomHex signals) ↔
      signals.messaging = false ∨ topologyContainsMessaging scenario = true := by
  by_cases hattached : signals.messaging = true ∧ ¬ topologyContainsMessaging scenario = true
  · exact iff_of_false (not_isNestedTree_of_attached h.time_le hattached) (by simpa using hattached)
  · have hchain : sendTraces scenario time sequence fault traceID randomHex signals =
        chain scenario time sequence fault traceID randomHex := by
      rw [sendTraces, if_neg hattached, List.append_nil]
    rw [hchain]
    refine iff_of_true (isNestedTree_chain h hids) ?_
    by_cases hmessaging : signals.messaging = true
    · exact .inr (not_not.mp fun hnot => hattached ⟨hmessaging, hnot⟩)
    · exact .inl (by simpa using hmessaging)

/-- The first two services of the healthy baseline. -/
def orderRequest : ScenarioDefinition ℚ where
  services :=
    [⟨"调试-边缘网关", "POST /api/orders", "http", 24, 24⟩, ⟨"调试-订单服务", "POST /orders", "http", 42, 42⟩]
  rootIndex := -1
  metrics := []

/-- Four ids of eight bytes. -/
def fourIDs (i : Nat) : String :=
  match i with
  | 0 => "5f0c6a1be2d94703"
  | 1 => "91c4d0a77b3e582f"
  | 2 => "0be81f36ac5d9472"
  | _ => "d7a2953e604bc81f"

theorem distinctIDs_fourIDs : DistinctIDs fourIDs 4 where
  ne_empty i := by
    unfold fourIDs
    split <;> decide
  injective := by decide

theorem inRange_orderRequest : InRange orderRequest 1784419200000000000 where
  time_le := by decide
  length_le := by decide
  latency_le := by decide

theorem sendTraces_orderRequest :
    IsNestedTree
        (sendTraces orderRequest 1784419200000000000 0 false "t" fourIDs ⟨true, true, true, true, false⟩) ↔
      false = false ∨ topologyContainsMessaging orderRequest = true :=
  sendTraces_nested_iff inRange_orderRequest distinctIDs_fourIDs 0 false "t" ⟨true, true, true, true, false⟩

/-- With all signals of the default configuration. -/
theorem sendTraces_orderRequest_messaging : DistinctIDs fourIDs 4 ∧ InRange orderRequest 1784419200000000000 ∧
    ¬ IsNestedTree (sendTraces orderRequest 1784419200000000000 0 false "t" fourIDs defaultConfig.signals) :=
  ⟨distinctIDs_fourIDs, inRange_orderRequest,
    not_isNestedTree_of_attached inRange_orderRequest.time_le ⟨rfl, by decide⟩⟩

end Nesting

/-! ### Metrics -/

section Metrics

variable {K : Type} [Field K] [LinearOrder K]

structure DataPoint (K : Type) where
  startTimeUnixNano : Option Int
  timeUnixNano : Int
  asDouble : K
  attributes : Attributes

inductive MetricKind where
  | gauge
  /-- A cumulative sum that is monotonic. -/
  | sum
deriving DecidableEq

structure Metric (K : Type) where
  name : String
  unit : String
  kind : MetricKind
  dataPoints : List (DataPoint K)

/-- `value.Unix()`. -/
def unix (value : Int) : Int := value / second

def tenMinutes : Int := 600 * second

def gaugeSeries (name unit : String) (time : Int) (baseline current : K) (attributes : Attributes) : Metric K where
  name := name
  unit := unit
  kind := .gauge
  dataPoints :=
    [{ startTimeUnixNano := none, timeUnixNano := unixNano (time - tenMinutes), asDouble := baseline
       attributes },
     { startTimeUnixNano := none, timeUnixNano := unixNano time, asDouble := current, attributes }]

def cumulativeSeries (name unit : String) (time : Int) (healthyRate faultRate : K) (attributes : Attributes) :
    Metric K :=
  let baselineAt := time - tenMinutes
  let baselineValue := max 0 healthyRate * unix baselineAt / 60
  let currentValue := baselineValue + max 0 faultRate * 10
  let start := unixNano (baselineAt - 86400 * second)
  { name
    unit
    kind := .sum
    dataPoints :=
      [{ startTimeUnixNano := some start, timeUnixNano := unixNano baselineAt, asDouble := baselineValue
         attributes },
       { startTimeUnixNano := some start, timeUnixNano := unixNano time, asDouble := currentValue
         attributes }] }

def signalEnabled (signals : Signals) (signal : String) : Bool :=
  if signal = "metrics" then signals.metrics
  else if signal = "infrastructure" then signals.infrastructure
  else if signal = "messaging" then signals.messaging
  else false

variable (sin : K → K) (scenario : ScenarioDefinition K) (signals : Signals)

/-- `wave` of `sendMetrics`. -/
def wave (time : Int) : K := (sin (unix time / 23) + 1) / 2

/-- The value of a metric of the scenario in a batch. -/
def metricValue (item : ScenarioMetric K) (time : Int) : K :=
  item.faultValue + (wave sin time - 1 / 2) * 2 * item.jitter

/-- What `sendMetrics` emits for a metric of the scenario. -/
def metricOf (item : ScenarioMetric K) (time : Int) : Metric K :=
  let value := metricValue sin item time
  if item.monotonic then
    cumulativeSeries item.name item.unit time item.healthyValue (max 0 value) item.attributes
  else gaugeSeries item.name item.unit time item.healthyValue value item.attributes

/-- The metrics of the scenario in a batch. -/
def scenarioMetrics (time : Int) : List (Metric K) :=
  (scenario.metrics.filter fun item => signalEnabled signals item.signal).map fun item => metricOf sin item time

/-- A series is told by its name and attributes. -/
abbrev SeriesKey := String × Attributes

/-- The points of the monotonic sums of a batch, with their series. -/
def counterPoints (time : Int) : List (SeriesKey × DataPoint K) :=
  ((scenarioMetrics sin scenario signals time).filter fun metric => metric.kind = .sum).flatMap fun metric =>
    metric.dataPoints.map fun point => ((metric.name, point.attributes), point)

/-- The points of the batches of a run. -/
def runPoints (times : List Int) : List (SeriesKey × DataPoint K) :=
  times.flatMap (counterPoints sin scenario signals)

/-- Later points of a series are not lower. -/
def NeverDecreases (points : List (SeriesKey × DataPoint K)) : Prop :=
  ∀ p ∈ points, ∀ q ∈ points, p.1 = q.1 → p.2.timeUnixNano < q.2.timeUnixNano → p.2.asDouble ≤ q.2.asDouble

/-! ### Counters -/

/-- The metrics of the scenario that are emitted as counters. -/
def counters : List (ScenarioMetric K) :=
  (scenario.metrics.filter fun item => signalEnabled signals item.signal).filter fun item => item.monotonic

def ScenarioMetric.series (item : ScenarioMetric K) : SeriesKey := (item.name, item.attributes)

/-- The line of the healthy rate of a metric. -/
def line (item : ScenarioMetric K) (time : Int) : K := max 0 item.healthyValue * unix time / 60

/-- What the fault rate of a batch adds in ten minutes besides the healthy rate. -/
def surplus (item : ScenarioMetric K) (time : Int) : K :=
  10 * (max 0 (metricValue sin item time) - max 0 item.healthyValue)

/-- What the healthy rates add from one instant to another. -/
def gain (a b : ScenarioMetric K) (t u : Int) : K := line b u - line a t

/-- The rates of two metrics of a series agree in the batches at `t` and at `u`: what the healthy rates add makes
up for the surplus. -/
structure Agree (a b : ScenarioMetric K) (t u : Int) : Prop where
  currents : t < u → surplus sin a t - surplus sin b u ≤ gain a b t u
  current_baseline : t < u - tenMinutes → surplus sin a t ≤ gain a b t (u - tenMinutes)
  baseline_current : t - tenMinutes < u → -surplus sin b u ≤ gain a b (t - tenMinutes) u
  baselines : t < u → 0 ≤ gain a b (t - tenMinutes) (u - tenMinutes)

variable {sin scenario signals} {item a b : ScenarioMetric K} {t u : Int} {times : List Int}

theorem unix_sub_tenMinutes (t : Int) : unix (t - tenMinutes) = unix t - 600 := by
  have hs : second = 1000000000 := rfl
  simp only [unix, tenMinutes, hs]
  omega

theorem unix_mono (h : t ≤ u) : unix t ≤ unix u := Int.ediv_le_ediv (by decide) h

variable [IsStrictOrderedRing K]

/-- The points of a batch: one on the line, and one that is off it by the surplus. -/
theorem dataPoints_metricOf (sin : K → K) (hmonotonic : item.monotonic = true) (t : Int) :
    (metricOf sin item t).dataPoints.map (fun point => (point.timeUnixNano, point.asDouble)) =
      [(unixNano (t - tenMinutes), line item (t - tenMinutes)),
        (unixNano t, line item t + surplus sin item t)] := by
  have hcurrent : line item (t - tenMinutes) + max 0 (max 0 (metricValue sin item t)) * 10 =
      line item t + surplus sin item t := by
    rw [line, line, unix_sub_tenMinutes, surplus, max_eq_right (le_max_left 0 (metricValue sin item t))]
    push_cast
    ring
  simp only [metricOf, hmonotonic, if_true, cumulativeSeries, List.map_cons, List.map_nil]
  rw [← hcurrent]
  rfl

variable (sin) in
/-- The points of a counter in a batch. -/
def samples (item : ScenarioMetric K) (t : Int) : List (SeriesKey × Int × K) :=
  [(item.series, unixNano (t - tenMinutes), line item (t - tenMinutes)),
    (item.series, unixNano t, line item t + surplus sin item t)]

/-- What the property says of a point. -/
def DataPoint.sample (p : SeriesKey × DataPoint K) : SeriesKey × Int × K :=
  (p.1, p.2.timeUnixNano, p.2.asDouble)

theorem sample_points (hmonotonic : item.monotonic = true) (t : Int) :
    ((metricOf sin item t).dataPoints.map fun point =>
      DataPoint.sample (((metricOf sin item t).name, point.attributes), point)) = samples sin item t := by
  have hpoints := dataPoints_metricOf sin hmonotonic t
  have hseries : ∀ point ∈ (metricOf sin item t).dataPoints,
      ((metricOf sin item t).name, point.attributes) = item.series := by
    intro point hpoint
    simp only [metricOf, hmonotonic, if_true, cumulativeSeries, List.mem_cons, List.not_mem_nil, or_false]
      at hpoint ⊢
    rcases hpoint with rfl | rfl <;> rfl
  have hmap : ((metricOf sin item t).dataPoints.map fun point =>
      DataPoint.sample (((metricOf sin item t).name, point.attributes), point)) =
      ((metricOf sin item t).dataPoints.map fun point => (point.timeUnixNano, point.asDouble)).map
        fun pair => (item.series, pair) := by
    rw [List.map_map]
    exact List.map_congr_left fun point hpoint => congrArg (·, point.timeUnixNano, point.asDouble)
      (hseries point hpoint)
  rw [hmap, hpoints]
  rfl

theorem sample_counterPoints (t : Int) : (counterPoints sin scenario signals t).map DataPoint.sample =
    (counters scenario signals).flatMap fun item => samples sin item t := by
  have hkind : ∀ item : ScenarioMetric K, decide ((metricOf sin item t).kind = .sum) = item.monotonic := by
    intro item
    rw [metricOf]
    cases item.monotonic <;> rfl
  rw [counterPoints, scenarioMetrics, List.filter_map, List.flatMap_map, List.map_flatMap, counters]
  simp only [Function.comp_def, hkind]
  refine List.flatMap_congr fun item hitem => ?_
  rw [List.map_map]
  exact sample_points (List.mem_filter.mp hitem).2 t

theorem mem_sample_runPoints {s : SeriesKey × Int × K} :
    s ∈ (runPoints sin scenario signals times).map DataPoint.sample ↔
      ∃ t ∈ times, ∃ item ∈ counters scenario signals, s ∈ samples sin item t := by
  rw [runPoints, List.map_flatMap]
  simp only [sample_counterPoints, List.mem_flatMap]

/-- Times whose nanoseconds are those of an `int64`: from 1823 to 2116. -/
def TimesInRange (times : List Int) : Prop := ∀ t ∈ times, -2 ^ 62 ≤ t ∧ t ≤ 2 ^ 62

theorem unixNano_eq (h : -2 ^ 62 ≤ t ∧ t ≤ 2 ^ 62) :
    unixNano t = t ∧ unixNano (t - tenMinutes) = t - tenMinutes := by
  have hten : tenMinutes = 600000000000 := rfl
  rw [hten]
  exact ⟨Go.int64_eq (by omega) (by omega), Go.int64_eq (by omega) (by omega)⟩

/-- The points of every two batches are in order if the rates agree in them. -/
theorem neverDecreases_iff (hrange : TimesInRange times) :
    NeverDecreases (runPoints sin scenario signals times) ↔
      ∀ a ∈ counters scenario signals, ∀ b ∈ counters scenario signals, a.series = b.series →
        ∀ t ∈ times, ∀ u ∈ times, Agree sin a b t u := by
  have hsample : NeverDecreases (runPoints sin scenario signals times) ↔
      ∀ p ∈ (runPoints sin scenario signals times).map DataPoint.sample,
        ∀ q ∈ (runPoints sin scenario signals times).map DataPoint.sample,
          p.1 = q.1 → p.2.1 < q.2.1 → p.2.2 ≤ q.2.2 := by
    simp only [List.forall_mem_map]
    rfl
  rw [hsample]
  constructor
  · intro h a ha b hb hseries t ht u hu
    obtain ⟨htime, htimeBaseline⟩ := unixNano_eq (hrange t ht)
    obtain ⟨hutime, hutimeBaseline⟩ := unixNano_eq (hrange u hu)
    have hmem : ∀ {item t s}, item ∈ counters scenario signals → t ∈ times → s ∈ samples sin item t →
        s ∈ (runPoints sin scenario signals times).map DataPoint.sample := fun hitem ht hs =>
      mem_sample_runPoints.mpr ⟨_, ht, _, hitem, hs⟩
    have hbaseline : ∀ {item t}, (item.series, unixNano (t - tenMinutes), line item (t - tenMinutes)) ∈
        samples sin item t := List.mem_cons_self
    have hcurrent : ∀ {item t}, (item.series, unixNano t, line item t + surplus sin item t) ∈
        samples sin item t := List.mem_cons_of_mem _ (List.mem_singleton_self _)
    refine ⟨fun hlt => ?_, fun hlt => ?_, fun hlt => ?_, fun hlt => ?_⟩
    · have := h _ (hmem ha ht hcurrent) _ (hmem hb hu hcurrent) hseries (by simpa [htime, hutime] using hlt)
      simp only [gain] at this ⊢
      linarith
    · have := h _ (hmem ha ht hcurrent) _ (hmem hb hu hbaseline) hseries
        (by simpa [htime, hutimeBaseline] using hlt)
      simp only [gain] at this ⊢
      linarith
    · have := h _ (hmem ha ht hbaseline) _ (hmem hb hu hcurrent) hseries
        (by simpa [htimeBaseline, hutime] using hlt)
      simp only [gain] at this ⊢
      linarith
    · have := h _ (hmem ha ht hbaseline) _ (hmem hb hu hbaseline) hseries
        (by simpa [htimeBaseline, hutimeBaseline] using hlt)
      simp only [gain] at this ⊢
      linarith
  · intro h p hp q hq hseries hlt
    obtain ⟨t, ht, a, ha, hp⟩ := mem_sample_runPoints.mp hp
    obtain ⟨u, hu, b, hb, hq⟩ := mem_sample_runPoints.mp hq
    obtain ⟨htime, htimeBaseline⟩ := unixNano_eq (hrange t ht)
    obtain ⟨hutime, hutimeBaseline⟩ := unixNano_eq (hrange u hu)
    simp only [samples, List.mem_cons, List.not_mem_nil, or_false] at hp hq
    have hab : a.series = b.series := by
      rcases hp with rfl | rfl <;> rcases hq with rfl | rfl <;> exact hseries
    have hagree := h a ha b hb hab t ht u hu
    rcases hp with rfl | rfl <;> rcases hq with rfl | rfl
    · have := hagree.baselines (by simpa [htimeBaseline, hutimeBaseline] using hlt)
      simp only [gain] at this ⊢
      linarith
    · have := hagree.baseline_current (by simpa [htimeBaseline, hutime] using hlt)
      simp only [gain] at this ⊢
      linarith
    · have := hagree.current_baseline (by simpa [htime, hutimeBaseline] using hlt)
      simp only [gain] at this ⊢
      linarith
    · have := hagree.currents (by simpa [htime, hutime] using hlt)
      simp only [gain] at this ⊢
      linarith

/-- Equal rates agree: both points of a batch are on the line of the healthy rate. -/
theorem agree_of_rates_eq (hhealthy : max 0 a.healthyValue = max 0 b.healthyValue)
    (ht : max 0 (metricValue sin a t) = max 0 a.healthyValue)
    (hu : max 0 (metricValue sin b u) = max 0 b.healthyValue) : Agree sin a b t u := by
  have hsurplus : surplus sin a t = 0 ∧ surplus sin b u = 0 := by
    rw [surplus, surplus, ht, hu, sub_self, sub_self, mul_zero]
    exact ⟨rfl, rfl⟩
  have hgain : ∀ {x y : Int}, x ≤ y → 0 ≤ gain a b x y := by
    intro x y hle
    have hcast : (unix x : K) ≤ unix y := Int.cast_le.mpr (unix_mono hle)
    have hnonneg : (0 : K) ≤ max 0 b.healthyValue := le_max_left _ _
    rw [gain, line, line, hhealthy, sub_nonneg]
    exact div_le_div_of_nonneg_right (mul_le_mul_of_nonneg_left hcast hnonneg) (by norm_num)
  refine ⟨fun hlt => ?_, fun hlt => ?_, fun hlt => ?_, fun hlt => ?_⟩
  · rw [hsurplus.1, hsurplus.2, sub_zero]
    exact hgain hlt.le
  · rw [hsurplus.1]
    exact hgain hlt.le
  · rw [hsurplus.2, neg_zero]
    exact hgain hlt.le
  · exact hgain (Int.sub_le_sub_right hlt.le _)

/-- **When counters never decrease** over all batches of a run: exactly if the rates of a series agree in every
two of them. They do if the rate of each batch is the healthy rate of the metric, and the one of the series. -/
theorem counters_neverDecrease_iff (hrange : TimesInRange times) :
    (NeverDecreases (runPoints sin scenario signals times) ↔
      ∀ a ∈ counters scenario signals, ∀ b ∈ counters scenario signals, a.series = b.series →
        ∀ t ∈ times, ∀ u ∈ times, Agree sin a b t u) ∧
    ((∀ a ∈ counters scenario signals, ∀ b ∈ counters scenario signals, a.series = b.series →
        max 0 a.healthyValue = max 0 b.healthyValue) →
      (∀ a ∈ counters scenario signals, ∀ t ∈ times, max 0 (metricValue sin a t) = max 0 a.healthyValue) →
      NeverDecreases (runPoints sin scenario signals times)) := by
  refine ⟨neverDecreases_iff hrange, fun hhealthy hrates => ?_⟩
  refine (neverDecreases_iff hrange).mpr fun a ha b hb hseries t ht u hu => ?_
  exact agree_of_rates_eq (hhealthy a ha b hb hseries) (hrates a ha t ht) (hrates b hb u hu)

/-- A counter of the scenario `case-011`. -/
def oomEvents : ScenarioMetric ℚ where
  signal := "infrastructure"
  name := "system.oom.events"
  unit := "\x7bevent\x7d"
  healthyValue := 0
  faultValue := 6
  jitter := 0
  monotonic := true
  attributes := [("container.name", .string "search-api")]

def memoryLeak : ScenarioDefinition ℚ := { orderRequest with metrics := [oomEvents] }

/-- Batches with three minutes between them. -/
def fiveBatches : List Int := [0, 180, 360, 540, 720].map fun seconds => (1784419200 + seconds) * 10 ^ 9

theorem timesInRange_fiveBatches : TimesInRange fiveBatches := by
  unfold TimesInRange fiveBatches
  decide

theorem counters_neverDecrease_fiveBatches :
    (NeverDecreases (runPoints (fun _ => (0 : ℚ)) memoryLeak defaultConfig.signals fiveBatches) ↔
      ∀ a ∈ counters memoryLeak defaultConfig.signals, ∀ b ∈ counters memoryLeak defaultConfig.signals,
        a.series = b.series → ∀ t ∈ fiveBatches, ∀ u ∈ fiveBatches, Agree (fun _ => 0) a b t u) ∧
    ((∀ a ∈ counters memoryLeak defaultConfig.signals, ∀ b ∈ counters memoryLeak defaultConfig.signals,
        a.series = b.series → max 0 a.healthyValue = max 0 b.healthyValue) →
      (∀ a ∈ counters memoryLeak defaultConfig.signals, ∀ t ∈ fiveBatches,
        max 0 (metricValue (fun _ => 0) a t) = max 0 a.healthyValue) →
      NeverDecreases (runPoints (fun _ => (0 : ℚ)) memoryLeak defaultConfig.signals fiveBatches)) :=
  counters_neverDecrease_iff timesInRange_fiveBatches

/-- The counter is 60 at the first batch, and 0 two minutes later, where the last batch has its baseline. -/
theorem oomEvents_decrease :
    ¬ ∃ sin : ℚ → ℚ, NeverDecreases (runPoints sin memoryLeak defaultConfig.signals fiveBatches) := by
  rintro ⟨sin, h⟩
  have hmem : oomEvents ∈ counters memoryLeak defaultConfig.signals := List.mem_singleton_self _
  have hagree := (neverDecreases_iff timesInRange_fiveBatches).mp h oomEvents hmem oomEvents hmem rfl
    (1784419200 * 10 ^ 9) (by decide) ((1784419200 + 720) * 10 ^ 9) (by decide)
  have hle := hagree.current_baseline (by decide)
  have hgain : gain oomEvents oomEvents (1784419200 * 10 ^ 9) ((1784419200 + 720) * 10 ^ 9 - tenMinutes) = 0 := by
    simp [gain, line, oomEvents]
  have hsurplus : surplus sin oomEvents (1784419200 * 10 ^ 9) = 60 := by
    have hvalue : metricValue sin oomEvents (1784419200 * 10 ^ 9) = 6 := by
      simp [metricValue, oomEvents]
    rw [surplus, hvalue]
    simp only [oomEvents]
    norm_num
  rw [hgain, hsurplus] at hle
  exact absurd hle (by norm_num)

end Metrics

end QueryService.DebugMode
