import BoringPanel.AgentService.Memory.Texts
import BoringPanel.Lib.JsObject
import BoringPanel.Lib.MapState
import BoringPanel.Lib.WeightedMeans

/-!
# Edges of a trace

`extractTraceEdges` finds the calls between services in any value: from parent and child spans, and from
records that name both services. What is found for two services is added up. The text that stands for the
two names in the map of edges has a NUL between them, which a name may contain as well, and a field of a
number may be an object that cannot be converted; otherwise the edges are what they should be
(`edgesRight_iff`).

Numbers are exact.
-/

namespace AgentService

/-- Numbers, with the values of the finite ones. -/
class JsRational (N : Type) extends JsNumeric N where
  toRat : N → ℚ

/-- `SERVICE_KEYS` -/
def spanServiceKeys : List (List JsText) := serviceKeys.take 6

/-- `FROM_SERVICE_KEYS` -/
def fromServiceKeys : List (List JsText) := (serviceKeys.drop 6).take 8

/-- `TO_SERVICE_KEYS` -/
def toServiceKeys : List (List JsText) := serviceKeys.drop 14

def spanIdKeys : List (List JsText) := ["spanId", "span_id", "id"].map fun key => [JsText.of key]

def statusKeys : List (List JsText) :=
  ["status", "statusCode", "status_code", "error"].map fun key => [JsText.of key]

def parentIdKeys : List (List JsText) :=
  ["parentSpanId", "parent_span_id", "parentId", "parent_id"].map fun key => [JsText.of key]

def errorRateKeys : List JsText := ["errorRate", "error_rate", "errorRatio", "error_ratio"].map JsText.of

def spanCallsKeys : List JsText := ["calls", "callCount", "count"].map JsText.of

def errorsKeys : List JsText := ["errors", "errorCount", "error_count"].map JsText.of

def callsKeys : List JsText := ["calls", "callCount", "call_count", "count"].map JsText.of

/-- `/error|fail|exception|timeout|5\d\d/i` -/
def failureStatus : Regex UInt16 :=
  let text (s : String) := Regex.text JsText.sameLetter (JsText.of s)
  Regex.oneOf [text "error", text "fail", text "exception", text "timeout",
    .seq (text "5") (.seq (.one JsNumeric.isDigit) (.one JsNumeric.isDigit))]

/-- `Math.max(0, Math.min(1, rate))` -/
def clampRate (rate : ℚ) : ℚ := max 0 (min 1 rate)

theorem clampRate_bounds (rate : ℚ) : 0 ≤ clampRate rate ∧ clampRate rate ≤ 1 :=
  ⟨le_max_left _ _, max_le zero_le_one (min_le_left _ _)⟩

/-! ### Records -/

section Records

variable {N : Type}

mutual

/-- The records that `walkObjects` visits, in its order. -/
def walkObjects (depth : Nat) : JsValue N → List (List (JsText × JsValue N))
  | .array items => if 9 < depth then [] else ((walkItems (depth + 1) items).take 1000).flatten
  | .object members =>
    if 9 < depth then [] else members :: ((walkMembers (depth + 1) members).take 300).flatten
  | _ => []

def walkItems (depth : Nat) : List (JsValue N) → List (List (List (JsText × JsValue N)))
  | [] => []
  | item :: items => walkObjects depth item :: walkItems depth items

def walkMembers (depth : Nat) : List (JsText × JsValue N) → List (List (List (JsText × JsValue N)))
  | [] => []
  | (_, child) :: members => walkObjects depth child :: walkMembers depth members

end

/-- `objectString`: the first text that is not blank. -/
def firstString (record : List (JsText × JsValue N)) (paths : List (List JsText)) : JsText :=
  (paths.findSome? (objectString record)).getD []

variable [JsRational N]

/-- The first finite number; `none` where an object cannot be converted. -/
def numericValue (record : List (JsText × JsValue N)) : List JsText → Option ℚ
  | [] => some 0
  | key :: keys =>
    match (((JsValue.get record key).elim .undefined .value : JsValue.Reading N)).number with
    | none => none
    | some n => if JsNumeric.isFinite n then some (JsRational.toRat n) else numericValue record keys

end Records

/-! ### Spans and edges -/

structure Span where
  service : JsText
  parentId : JsText
  errorRate : ℚ
  calls : ℚ

structure TraceEdge where
  fromService : JsText
  toService : JsText
  errorRate : ℚ
  calls : ℚ
deriving DecidableEq

namespace TraceEdge

def ends (edge : TraceEdge) : JsText × JsText := (edge.fromService, edge.toService)

/-- The key of the map of edges. -/
def keyOf (ends : JsText × JsText) : JsText := ends.1 ++ 0 :: ends.2

def key (edge : TraceEdge) : JsText := keyOf edge.ends

/-- `add` takes it. -/
def isAdmitted (edge : TraceEdge) : Bool :=
  edge.fromService ≠ [] ∧ edge.toService ≠ [] ∧ edge.fromService ≠ edge.toService ∧
    edge.fromService.length ≤ 160 ∧ edge.toService.length ≤ 160

/-- A new edge of the map. -/
def fresh (edge : TraceEdge) : TraceEdge :=
  { edge with errorRate := clampRate edge.errorRate, calls := max 1 edge.calls }

/-- An edge of the map, with what is added to it. -/
def merged (current edge : TraceEdge) : TraceEdge :=
  let total := current.calls + max 1 edge.calls
  { current with
    errorRate := (current.errorRate * current.calls + clampRate edge.errorRate * edge.calls) / total
    calls := total }

end TraceEdge

/-- `add`: the values of the map are in the order of their first addition. -/
def add (edges : List TraceEdge) (edge : TraceEdge) : List TraceEdge :=
  if edge.isAdmitted then
    if edges.any (fun current => current.key = edge.key) then
      edges.map fun current => if current.key = edge.key then current.merged edge else current
    else edges ++ [edge.fresh]
  else edges

section Extract

variable {N : Type} [JsRational N]

/-- The span of a record, with its id. -/
def spanOf (record : List (JsText × JsValue N)) : Option (Option (JsText × Span)) :=
  let spanId := firstString record spanIdKeys
  let service := firstString record spanServiceKeys
  if spanId = [] ∨ service = [] then some none
  else do
    let rate ← numericValue record errorRateKeys
    let calls ← numericValue record spanCallsKeys
    let failed := Regex.test failureStatus (firstString record statusKeys)
    let errorRate := if rate ≠ 0 then rate else if failed then 1 else 0
    some (some (spanId, ⟨service, firstString record parentIdKeys, clampRate errorRate, max 1 calls⟩))

/-- The edge that a record names. -/
def explicitEdge (record : List (JsText × JsValue N)) : Option (Option TraceEdge) :=
  let fromService := firstString record fromServiceKeys
  let toService := firstString record (toServiceKeys ++ spanServiceKeys)
  if fromService = [] ∨ toService = [] then some none
  else do
    let errors ← numericValue record errorsKeys
    let counted ← numericValue record callsKeys
    let given ← numericValue record errorRateKeys
    let calls := max 1 counted
    some (some ⟨fromService, toService, if given ≠ 0 then given else errors / calls, calls⟩)

/-- The edges from parent spans to their children. -/
def spanEdges (spans : List (JsText × Span)) : List TraceEdge :=
  spans.filterMap fun entry => (spans.lookup entry.2.parentId).map fun parent =>
    ⟨parent.service, entry.2.service, entry.2.errorRate, entry.2.calls⟩

/-- What is added, in its order: of spans with the same id, the last one counts. -/
def additions (value : JsValue N) : Option (List TraceEdge) := do
  let records := walkObjects 0 value
  let entries ← records.mapM spanOf
  let named ← records.mapM explicitEdge
  some (spanEdges (JsValue.keyed (entries.filterMap id)) ++ named.filterMap id)

/-- `none` where it throws. -/
def extractTraceEdges (value : JsValue N) : Option (List TraceEdge) :=
  (additions value).map fun added => added.foldl add []

end Extract

/-! ### What the edges should be -/

/-- What was added for two services. -/
def addedFor (added : List TraceEdge) (ends : JsText × JsText) : List TraceEdge :=
  added.filter fun edge => edge.ends = ends

/-- The edges add up what was added: one for each two services, with the sum of the calls and the mean
of the error rates. -/
structure Aggregates (added edges : List TraceEdge) : Prop where
  distinct : edges.Pairwise fun edge edge' => edge.ends ≠ edge'.ends
  apart : ∀ edge ∈ edges, edge.fromService ≠ edge.toService
  calls : ∀ edge ∈ edges, 1 ≤ edge.calls
  errorRate : ∀ edge ∈ edges, 0 ≤ edge.errorRate ∧ edge.errorRate ≤ 1
  sum : ∀ edge ∈ edges, edge.calls = ((addedFor added edge.ends).map TraceEdge.calls).sum
  mean : ∀ edge ∈ edges, edge.errorRate * edge.calls =
    ((addedFor added edge.ends).map fun other => clampRate other.errorRate * other.calls).sum
  complete : ∀ edge ∈ added, edge.isAdmitted = true → ∃ edge' ∈ edges, edge'.ends = edge.ends

/-- Different services that are added have different keys. -/
def SeparateKeys (added : List TraceEdge) : Prop :=
  ∀ edge ∈ added, ∀ edge' ∈ added, edge.isAdmitted = true → edge'.isAdmitted = true →
    edge.key = edge'.key → edge.ends = edge'.ends

section Sums

open WeightedMeans

def TraceEdge.entry (edge : TraceEdge) : Entry (JsText × JsText) ℚ :=
  ⟨edge.ends, edge.errorRate, edge.calls⟩

theorem TraceEdge.entry_injective : Function.Injective TraceEdge.entry := by
  rintro ⟨fromService, toService, errorRate, calls⟩ ⟨fromService', toService', errorRate', calls'⟩ h
  cases h
  rfl

/-- What is added to the weighted means. -/
def admittedEntries (added : List TraceEdge) : List (Entry (JsText × JsText) ℚ) :=
  (added.filter TraceEdge.isAdmitted).map fun edge => edge.fresh.entry

variable {added edges : List TraceEdge} {edge : TraceEdge}

theorem fresh_calls (h : 1 ≤ edge.calls) : edge.fresh.calls = edge.calls := max_eq_right h

theorem mem_admittedEntries {entry : Entry (JsText × JsText) ℚ} : entry ∈ admittedEntries added ↔
    ∃ edge ∈ added, edge.isAdmitted = true ∧ edge.fresh.entry = entry := by
  simp only [admittedEntries, List.mem_map, List.mem_filter, and_assoc]

theorem admittedEntries_pos {entry : Entry (JsText × JsText) ℚ} (hentry : entry ∈ admittedEntries added) :
    1 ≤ entry.weight ∧ 0 ≤ entry.rate ∧ entry.rate ≤ 1 := by
  obtain ⟨edge, -, -, rfl⟩ := mem_admittedEntries.mp hentry
  exact ⟨le_max_left _ _, clampRate_bounds _⟩

/-- The map of edges holds weighted means. -/
theorem map_entry_add (hcalls : 1 ≤ edge.calls) (hadmitted : edge.isAdmitted = true) :
    (add edges edge).map TraceEdge.entry =
      addTo TraceEdge.keyOf (edges.map TraceEdge.entry) edge.fresh.entry := by
  have hany : (edges.map TraceEdge.entry).any (fun mean =>
      TraceEdge.keyOf mean.label = TraceEdge.keyOf edge.fresh.entry.label) =
        edges.any fun current => current.key = edge.key := by
    rw [List.any_map]
    rfl
  rw [add, if_pos hadmitted, addTo, hany]
  split
  · rw [List.map_map, List.map_map]
    refine List.map_congr_left fun current _ => ?_
    show TraceEdge.entry (if current.key = edge.key then current.merged edge else current) =
      if current.key = edge.key then current.entry.merge edge.fresh.entry else current.entry
    split
    · have hmax : max 1 edge.calls = edge.calls := max_eq_right hcalls
      simp [TraceEdge.entry, TraceEdge.merged, Entry.merge, TraceEdge.fresh, TraceEdge.ends, hmax]
    · rfl
  · rw [List.map_append]
    rfl

theorem map_entry_foldl (hcalls : ∀ edge ∈ added, 1 ≤ edge.calls) :
    (added.foldl add edges).map TraceEdge.entry =
      (admittedEntries added).foldl (addTo TraceEdge.keyOf) (edges.map TraceEdge.entry) := by
  induction added generalizing edges with
  | nil => rfl
  | cons edge added ih =>
    rw [List.forall_mem_cons] at hcalls
    rw [List.foldl_cons, ih hcalls.2]
    cases hadmitted : edge.isAdmitted with
    | true =>
      rw [map_entry_add hcalls.1 hadmitted, admittedEntries, admittedEntries,
        List.filter_cons_of_pos hadmitted]
      rfl
    | false =>
      have hsame : add edges edge = edges := by
        rw [add, hadmitted]
        rfl
      rw [hsame, admittedEntries, admittedEntries, List.filter_cons_of_neg (by simp [hadmitted])]

theorem means_foldl (hcalls : ∀ edge ∈ added, 1 ≤ edge.calls) :
    Means TraceEdge.keyOf (admittedEntries added) ((added.foldl add []).map TraceEdge.entry) := by
  rw [map_entry_foldl hcalls]
  exact Means.foldl fun entry hentry => zero_lt_one.trans_le (admittedEntries_pos hentry).1

theorem isAdmitted_congr {edge' : TraceEdge} (h : edge.ends = edge'.ends) :
    edge.isAdmitted = edge'.isAdmitted := by
  obtain ⟨hfrom, hto⟩ := Prod.mk.inj h
  rw [TraceEdge.isAdmitted, TraceEdge.isAdmitted, hfrom, hto]

/-- The entries of two services that are admitted are those that were added. -/
theorem withLabel_admittedEntries (hadmitted : edge.isAdmitted = true) :
    withLabel (admittedEntries added) edge.ends =
      (addedFor added edge.ends).map fun other => other.fresh.entry := by
  rw [withLabel, admittedEntries, Grouping.members_map]
  congr 1
  rw [Grouping.members, List.filter_filter, addedFor]
  refine List.filter_congr fun other _ => ?_
  show (decide (other.ends = edge.ends) && other.isAdmitted) = decide (other.ends = edge.ends)
  by_cases hends : other.ends = edge.ends
  · rw [isAdmitted_congr hends, hadmitted, Bool.and_true]
  · rw [decide_eq_false hends, Bool.false_and]

theorem totalWeight_withLabel (hcalls : ∀ edge ∈ added, 1 ≤ edge.calls) (hadmitted : edge.isAdmitted = true) :
    totalWeight (withLabel (admittedEntries added) edge.ends) =
      ((addedFor added edge.ends).map TraceEdge.calls).sum := by
  rw [withLabel_admittedEntries hadmitted, totalWeight, List.map_map]
  refine congrArg List.sum (List.map_congr_left fun other hother => ?_)
  exact fresh_calls (hcalls other (List.mem_of_mem_filter hother))

theorem totalRate_withLabel (hcalls : ∀ edge ∈ added, 1 ≤ edge.calls) (hadmitted : edge.isAdmitted = true) :
    totalRate (withLabel (admittedEntries added) edge.ends) =
      ((addedFor added edge.ends).map fun other => clampRate other.errorRate * other.calls).sum := by
  rw [withLabel_admittedEntries hadmitted, totalRate, List.map_map]
  refine congrArg List.sum (List.map_congr_left fun other hother => ?_)
  show clampRate other.errorRate * other.fresh.calls = _
  rw [fresh_calls (hcalls other (List.mem_of_mem_filter hother))]

theorem separate_admittedEntries :
    Separate TraceEdge.keyOf (admittedEntries added) ↔ SeparateKeys added := by
  constructor
  · intro h edge hedge edge' hedge' hadmitted hadmitted' hkey
    exact h _ (mem_admittedEntries.mpr ⟨edge, hedge, hadmitted, rfl⟩)
      _ (mem_admittedEntries.mpr ⟨edge', hedge', hadmitted', rfl⟩) hkey
  · intro h entry hentry entry' hentry' hkey
    obtain ⟨edge, hedge, hadmitted, rfl⟩ := mem_admittedEntries.mp hentry
    obtain ⟨edge', hedge', hadmitted', rfl⟩ := mem_admittedEntries.mp hentry'
    exact h edge hedge edge' hedge' hadmitted hadmitted' hkey

theorem isAdmitted_of_mem (hcalls : ∀ edge ∈ added, 1 ≤ edge.calls) (hedge : edge ∈ added.foldl add []) :
    edge.isAdmitted = true := by
  obtain ⟨entry, hentry, hlabel⟩ := (means_foldl hcalls).exists_of_mem (List.mem_map_of_mem hedge)
  obtain ⟨other, -, hadmitted, rfl⟩ := mem_admittedEntries.mp (mem_withKey.mp hentry).1
  exact (isAdmitted_congr hlabel).symm.trans hadmitted

/-- The edges are between different services. -/
theorem pairwise_foldl (hcalls : ∀ edge ∈ added, 1 ≤ edge.calls) :
    (added.foldl add []).Pairwise fun edge edge' => edge.ends ≠ edge'.ends := by
  refine (List.pairwise_map.mp (means_foldl hcalls).pairwise).imp fun hne heq => hne ?_
  exact congrArg TraceEdge.keyOf heq

theorem aggregates_of_separateKeys (hcalls : ∀ edge ∈ added, 1 ≤ edge.calls) (h : SeparateKeys added) :
    Aggregates added (added.foldl add []) := by
  have hmeans := means_foldl hcalls
  have hseparate := separate_admittedEntries.mpr h
  have hpos : ∀ entry ∈ admittedEntries added, 0 < entry.weight := fun entry hentry =>
    zero_lt_one.trans_le (admittedEntries_pos hentry).1
  have hgroup : ∀ edge ∈ added.foldl add [], withKey TraceEdge.keyOf (admittedEntries added) edge.key =
      withLabel (admittedEntries added) edge.ends := by
    intro edge hedge
    obtain ⟨entry, hentry, hlabel⟩ := hmeans.exists_of_mem (List.mem_map_of_mem hedge)
    have hends : entry.label = edge.ends := hlabel
    show withKey _ _ (TraceEdge.keyOf edge.ends) = _
    rw [← hends]
    exact withKey_eq_withLabel hseparate (mem_withKey.mp hentry).1
  refine ⟨pairwise_foldl hcalls, fun edge hedge => ?_, fun edge hedge => ?_, fun edge hedge => ?_,
    fun edge hedge => ?_, fun edge hedge => ?_, fun edge hedge hadmitted => ?_⟩
  · have := isAdmitted_of_mem hcalls hedge
    rw [TraceEdge.isAdmitted, decide_eq_true_eq] at this
    exact this.2.2.1
  · obtain ⟨entry, hentry, -⟩ := hmeans.exists_of_mem (List.mem_map_of_mem hedge)
    have hmem := (mem_withKey.mp hentry).1
    calc (1 : ℚ) ≤ entry.weight := (admittedEntries_pos hmem).1
      _ ≤ totalWeight (withKey TraceEdge.keyOf (admittedEntries added) edge.key) :=
        le_totalWeight (fun entry hentry => hpos entry (mem_withKey.mp hentry).1) hentry
      _ = edge.calls := (hmeans.weight edge.entry (List.mem_map_of_mem hedge)).symm
  · exact hmeans.rate_bounds hpos (fun entry hentry => (admittedEntries_pos hentry).2)
      (List.mem_map_of_mem hedge)
  · rw [← totalWeight_withLabel hcalls (isAdmitted_of_mem hcalls hedge), ← hgroup edge hedge]
    exact hmeans.weight edge.entry (List.mem_map_of_mem hedge)
  · rw [← totalRate_withLabel hcalls (isAdmitted_of_mem hcalls hedge), ← hgroup edge hedge]
    exact hmeans.rate edge.entry (List.mem_map_of_mem hedge)
  · have hentry : edge.fresh.entry ∈ admittedEntries added :=
      mem_admittedEntries.mpr ⟨edge, hedge, hadmitted, rfl⟩
    obtain ⟨mean, hmean, hkey⟩ := hmeans.exists_mean hentry
    obtain ⟨edge', hedge', rfl⟩ := List.mem_map.mp hmean
    obtain ⟨entry', hentry', hlabel'⟩ := hmeans.exists_of_mem hmean
    refine ⟨edge', hedge', ?_⟩
    calc edge'.ends = entry'.label := hlabel'.symm
      _ = edge.ends := hseparate _ (mem_withKey.mp hentry').1 _ hentry
        ((mem_withKey.mp hentry').2.trans hkey)

/-- **When the edges add up what was added, in any order.** -/
theorem aggregates_iff (hcalls : ∀ edge ∈ added, 1 ≤ edge.calls) :
    (Aggregates added (added.foldl add []) ∧
      ∀ added' : List TraceEdge, added'.Perm added → (added'.foldl add []).Perm (added.foldl add [])) ↔
      SeparateKeys added := by
  have hpos : ∀ entry ∈ admittedEntries added, 0 < entry.weight := fun entry hentry =>
    zero_lt_one.trans_le (admittedEntries_pos hentry).1
  constructor
  · rintro ⟨haggregates, -⟩
    refine separate_admittedEntries.mp ((eachApart_iff (means_foldl hcalls) hpos).mp fun mean hmean => ?_)
    obtain ⟨edge, hedge, rfl⟩ := List.mem_map.mp hmean
    exact (haggregates.sum edge hedge).trans
      (totalWeight_withLabel hcalls (isAdmitted_of_mem hcalls hedge)).symm
  · intro h
    refine ⟨aggregates_of_separateKeys hcalls h, fun added' hperm => ?_⟩
    have hcalls' : ∀ edge ∈ added', 1 ≤ edge.calls := fun edge hedge =>
      hcalls edge (hperm.mem_iff.mp hedge)
    refine (List.map_perm_map_iff TraceEdge.entry_injective).mp ?_
    rw [map_entry_foldl hcalls, map_entry_foldl hcalls']
    exact perm_foldl hpos (separate_admittedEntries.mpr h) ((hperm.filter _).map _)

end Sums

/-! ### What is read -/

section Readable

variable {N : Type} [JsRational N]

/-- The numbers of a span can be converted. -/
def ReadableSpan (record : List (JsText × JsValue N)) : Prop :=
  firstString record spanIdKeys ≠ [] → firstString record spanServiceKeys ≠ [] →
    numericValue record errorRateKeys ≠ none ∧ numericValue record spanCallsKeys ≠ none

/-- The numbers of a record that names two services can be converted. -/
def ReadableEdge (record : List (JsText × JsValue N)) : Prop :=
  firstString record fromServiceKeys ≠ [] → firstString record (toServiceKeys ++ spanServiceKeys) ≠ [] →
    numericValue record errorsKeys ≠ none ∧ numericValue record callsKeys ≠ none ∧
      numericValue record errorRateKeys ≠ none

def Readable (value : JsValue N) : Prop :=
  ∀ record ∈ walkObjects 0 value, ReadableSpan record ∧ ReadableEdge record

/-- The edges are what the spans and the records of the value add up to, in any order. -/
def EdgesRight (value : JsValue N) : Prop :=
  ∃ added edges, additions value = some added ∧ extractTraceEdges value = some edges ∧
    Aggregates added edges ∧
      ∀ added' : List TraceEdge, added'.Perm added → (added'.foldl add []).Perm edges

variable {record : List (JsText × JsValue N)} {value : JsValue N}

theorem spanOf_ne_none : spanOf record ≠ none ↔ ReadableSpan record := by
  unfold spanOf ReadableSpan
  by_cases hnone : firstString record spanIdKeys = [] ∨ firstString record spanServiceKeys = []
  · rw [if_pos hnone]
    refine iff_of_true (Option.some_ne_none _) fun hid hservice => ?_
    exact absurd hnone (not_or.mpr ⟨hid, hservice⟩)
  · rw [if_neg hnone]
    obtain ⟨hid, hservice⟩ := not_or.mp hnone
    cases numericValue record errorRateKeys with
    | none => simp [hid, hservice]
    | some rate =>
      cases numericValue record spanCallsKeys with
      | none => simp [hid, hservice]
      | some calls => simp

theorem explicitEdge_ne_none : explicitEdge record ≠ none ↔ ReadableEdge record := by
  unfold explicitEdge ReadableEdge
  by_cases hnone : firstString record fromServiceKeys = [] ∨
      firstString record (toServiceKeys ++ spanServiceKeys) = []
  · rw [if_pos hnone]
    refine iff_of_true (Option.some_ne_none _) fun hfrom hto => ?_
    exact absurd hnone (not_or.mpr ⟨hfrom, hto⟩)
  · rw [if_neg hnone]
    obtain ⟨hfrom, hto⟩ := not_or.mp hnone
    cases numericValue record errorsKeys with
    | none => simp [hfrom, hto]
    | some errors =>
      cases numericValue record callsKeys with
      | none => simp [hfrom, hto]
      | some calls =>
        cases numericValue record errorRateKeys with
        | none => simp [hfrom, hto]
        | some rate => simp

theorem additions_ne_none : additions value ≠ none ↔ Readable value := by
  have hspans : (walkObjects 0 value).mapM spanOf ≠ none ↔
      ∀ record ∈ walkObjects 0 value, ReadableSpan record :=
    mapM_ne_none_iff.trans (forall₂_congr fun _ _ => spanOf_ne_none)
  have hedges : (walkObjects 0 value).mapM explicitEdge ≠ none ↔
      ∀ record ∈ walkObjects 0 value, ReadableEdge record :=
    mapM_ne_none_iff.trans (forall₂_congr fun _ _ => explicitEdge_ne_none)
  have hboth : additions value ≠ none ↔
      (walkObjects 0 value).mapM spanOf ≠ none ∧ (walkObjects 0 value).mapM explicitEdge ≠ none := by
    unfold additions
    cases hspan : (walkObjects 0 value).mapM spanOf with
    | none => simp [hspan]
    | some entries =>
      cases hedge : (walkObjects 0 value).mapM explicitEdge with
      | none => simp [hspan, hedge]
      | some named => simp [hspan, hedge]
  rw [hboth, hspans, hedges, ← forall₂_and]
  rfl

theorem calls_of_spanOf {entry : JsText × Span} (h : spanOf record = some (some entry)) :
    1 ≤ entry.2.calls := by
  rw [spanOf] at h
  by_cases hnone : firstString record spanIdKeys = [] ∨ firstString record spanServiceKeys = []
  · rw [if_pos hnone] at h
    cases h
  · rw [if_neg hnone] at h
    obtain ⟨rate, -, h⟩ := Option.bind_eq_some_iff.mp h
    obtain ⟨calls, -, h⟩ := Option.bind_eq_some_iff.mp h
    obtain rfl := Option.some.inj (Option.some.inj h)
    exact le_max_left _ _

theorem calls_of_explicitEdge {edge : TraceEdge} (h : explicitEdge record = some (some edge)) :
    1 ≤ edge.calls := by
  rw [explicitEdge] at h
  by_cases hnone : firstString record fromServiceKeys = [] ∨
      firstString record (toServiceKeys ++ spanServiceKeys) = []
  · rw [if_pos hnone] at h
    cases h
  · rw [if_neg hnone] at h
    obtain ⟨errors, -, h⟩ := Option.bind_eq_some_iff.mp h
    obtain ⟨counted, -, h⟩ := Option.bind_eq_some_iff.mp h
    obtain ⟨given, -, h⟩ := Option.bind_eq_some_iff.mp h
    obtain rfl := Option.some.inj (Option.some.inj h)
    exact le_max_left _ _

theorem calls_of_additions {added : List TraceEdge} (h : additions value = some added) :
    ∀ edge ∈ added, 1 ≤ edge.calls := by
  obtain ⟨entries, hentries, h⟩ := Option.bind_eq_some_iff.mp h
  obtain ⟨named, hnamed, h⟩ := Option.bind_eq_some_iff.mp h
  obtain rfl := Option.some.inj h
  have hfrom : ∀ {β : Type} {f : List (JsText × JsValue N) → Option (Option β)} {found : List (Option β)},
      (walkObjects 0 value).mapM f = some found → ∀ b ∈ found.filterMap id, ∃ record, f record = some (some b) := by
    intro β f found hfound b hb
    obtain ⟨_, hmem, rfl⟩ := List.mem_filterMap.mp hb
    obtain ⟨record, -, hrecord⟩ := exists_of_mem_result hfound hmem
    exact ⟨record, hrecord⟩
  intro edge hedge
  rcases List.mem_append.mp hedge with hedge | hedge
  · obtain ⟨entry, hentry, hedge⟩ := List.mem_filterMap.mp hedge
    obtain ⟨parent, -, rfl⟩ := Option.map_eq_some_iff.mp hedge
    obtain ⟨record, hrecord⟩ := hfrom hentries entry (JsValue.mem_keyed hentry)
    exact calls_of_spanOf hrecord
  · obtain ⟨record, hrecord⟩ := hfrom hnamed edge hedge
    exact calls_of_explicitEdge hrecord

/-- **When the edges of a value are what they should be.** -/
theorem edgesRight_iff (value : JsValue N) :
    EdgesRight value ↔ Readable value ∧ ∀ added ∈ additions value, SeparateKeys added := by
  rw [← additions_ne_none]
  cases hadded : additions value with
  | none =>
    refine iff_of_false ?_ fun h => h.1 rfl
    rintro ⟨added, edges, hsome, -⟩
    rw [hadded] at hsome
    cases hsome
  | some added =>
    have hedges : extractTraceEdges value = some (added.foldl add []) := by
      rw [extractTraceEdges, hadded]
      rfl
    have hright : EdgesRight value ↔ Aggregates added (added.foldl add []) ∧
        ∀ added' : List TraceEdge, added'.Perm added → (added'.foldl add []).Perm (added.foldl add []) := by
      simp only [EdgesRight, hadded, hedges, Option.some.injEq, exists_eq_left', exists_and_left]
    rw [hright, aggregates_iff (calls_of_additions hadded)]
    simp

end Readable

/-! ### Two pairs of services with one key -/

section Examples

instance : JsRational (Option Int) where
  toRat n := n.getD 0

/-- A record that names two services. -/
def callRecord (fromService toService : JsText) : JsValue (Option Int) :=
  .object [(JsText.of "fromService", .string fromService), (JsText.of "toService", .string toService)]

/-- The calls of the second record are counted for the services of the first one. -/
theorem not_edgesRight_nul : ¬ ∀ value : JsValue (Option Int), EdgesRight value := by
  intro h
  obtain ⟨added, edges, hadded, hedges, haggregates, -⟩ :=
    h (.array [callRecord [0x61, 0, 0x62] [0x63], callRecord [0x61] [0x62, 0, 0x63]])
  have hadditions : additions (.array
      [callRecord [0x61, 0, 0x62] [0x63], callRecord [0x61] [0x62, 0, 0x63]]) =
        some [⟨[0x61, 0, 0x62], [0x63], 0, 1⟩, ⟨[0x61], [0x62, 0, 0x63], 0, 1⟩] := by
    decide +kernel
  obtain rfl := Option.some.inj (hadditions.symm.trans hadded)
  rw [extractTraceEdges, hadditions] at hedges
  obtain rfl := Option.some.inj hedges
  have hsum := haggregates.sum ⟨[0x61, 0, 0x62], [0x63], 0, 2⟩ (by decide +kernel)
  revert hsum
  decide +kernel

end Examples

end AgentService
