import BoringPanel.AgentService.Evidence.Items
import BoringPanel.AgentService.Memory.TraceEdges
import BoringPanel.Lib.BoundedWalks

/-!
# Anomalous paths

`retrieveMemories` follows the edges of all evidence with a high error rate from one service, and ranks
memories by at most three paths. The paths are simple, start at the service, have two to six services and
go on as long as they can. Edges that several items of evidence contain are parallel, and give a path
several times: the paths are different if and only if no two of the heaviest walks differ only in parallel
edges (`pathsRight_iff`).

`Math.log1p` is a parameter, and what the memories say of the last service of a path.
-/

namespace AgentService

open Evidence (EvidenceItem)

/-! ### The paths -/

section Enumerate

variable (log1p : ℚ → ℚ)

def TraceEdge.weight (edge : TraceEdge) : ℚ := edge.errorRate * log1p edge.calls

/-- The order of the outgoing edges of a service. -/
def heavierFirst (left right : TraceEdge) : Bool := right.weight log1p ≤ left.weight log1p

def isAnomalous (edge : TraceEdge) : Bool := 1 / 10 ≤ edge.errorRate

/-- `adjacency.set(edge.from, outgoing)` -/
def pushOutgoing (adjacency : JsText → List TraceEdge) (edge : TraceEdge) : JsText → List TraceEdge :=
  Function.update adjacency edge.fromService
    ((adjacency edge.fromService ++ [edge]).mergeSort (heavierFirst log1p))

def adjacencyOf (edges : List TraceEdge) : JsText → List TraceEdge :=
  (edges.filter isAnomalous).foldl (pushOutgoing log1p) fun _ => []

/-- `walk`; `room` is how many services the path can still get. -/
def walk (adjacency : JsText → List TraceEdge) :
    Nat → JsText → List JsText → ℚ → List (List JsText × ℚ)
  | 0, _, path, weight => [(path, weight)]
  | room + 1, service, path, weight =>
    let outgoing := (adjacency service).filter fun edge => edge.toService ∉ path
    if outgoing.isEmpty then (if 1 < path.length then [(path, weight)] else [])
    else (outgoing.take 3).flatMap fun edge =>
      walk adjacency room edge.toService (path ++ [edge.toService]) (weight + edge.weight log1p)

def enumeratePaths (edges : List TraceEdge) (symptomService : JsText) : List (List JsText) :=
  let paths :=
    if symptomService = [] then []
    else walk log1p (adjacencyOf log1p edges) 5 symptomService [symptomService] 0
  ((paths.mergeSort fun left right => right.2 ≤ left.2).take 3).map Prod.fst

/-! ### The heaviest walks -/

/-- The walks from a service, with their edges. -/
def traceWalks (edges : List TraceEdge) (symptomService : JsText) : List (List TraceEdge) :=
  if symptomService = [] then []
  else (BoundedWalks.walks TraceEdge.toService (adjacencyOf log1p edges) 3 5 symptomService
    [symptomService]).filter fun walk => 0 < walk.length

def walkWeight (walk : List TraceEdge) : ℚ := (walk.map (TraceEdge.weight log1p)).sum

/-- The three walks that are followed. -/
def heaviestWalks (edges : List TraceEdge) (symptomService : JsText) : List (List TraceEdge) :=
  ((traceWalks log1p edges symptomService).mergeSort fun left right =>
    walkWeight log1p right ≤ walkWeight log1p left).take 3

/-- No two of them differ only in parallel edges. -/
def HeaviestApart (edges : List TraceEdge) (symptomService : JsText) : Prop :=
  (heaviestWalks log1p edges symptomService).Pairwise fun walk walk' =>
    walk.map TraceEdge.ends ≠ walk'.map TraceEdge.ends

/-- A path of services that is what it should be. -/
structure AnomalousPath (edges : List TraceEdge) (symptomService : JsText) (path : List JsText) : Prop where
  start : path.head? = some symptomService
  simple : path.Nodup
  length : 2 ≤ path.length ∧ path.length ≤ 6
  follows : path.IsChain fun service next =>
    ∃ edge ∈ edges, edge.ends = (service, next) ∧ 1 / 10 ≤ edge.errorRate
  ends : path.length = 6 ∨ ∀ edge ∈ edges, 1 / 10 ≤ edge.errorRate →
    path.getLast? = some edge.fromService → edge.toService ∈ path

variable {log1p} {edges : List TraceEdge} {service : JsText} {edge : TraceEdge}

/-- The edges of a service are those of the list that start there, in another order. -/
theorem adjacencyOf_perm (edges : List TraceEdge) (service : JsText) : (adjacencyOf log1p edges service).Perm
    ((edges.filter isAnomalous).filter fun edge => edge.fromService = service) := by
  rw [adjacencyOf]
  induction edges.filter isAnomalous using List.reverseRecOn with
  | nil => exact List.Perm.refl _
  | append_singleton edges edge ih =>
    rw [List.foldl_append, List.filter_append]
    by_cases hservice : service = edge.fromService
    · subst hservice
      have hlast : [edge].filter (fun other => other.fromService = edge.fromService) = [edge] := by simp
      rw [hlast, List.foldl_cons, List.foldl_nil, pushOutgoing, Function.update_self]
      exact (List.mergeSort_perm _ _).trans (ih.append_right _)
    · have hlast : [edge].filter (fun other => other.fromService = service) = [] := by
        simpa using fun h => hservice h.symm
      rw [hlast, List.append_nil, List.foldl_cons, List.foldl_nil, pushOutgoing,
        Function.update_of_ne hservice]
      exact ih

theorem mem_adjacencyOf : edge ∈ adjacencyOf log1p edges service ↔
    edge ∈ edges ∧ 1 / 10 ≤ edge.errorRate ∧ edge.fromService = service := by
  rw [(adjacencyOf_perm edges service).mem_iff]
  simp only [isAnomalous, List.mem_filter, decide_eq_true_eq, and_assoc]

/-- The walk of the services is that of the edges. -/
theorem walk_eq {adjacency : JsText → List TraceEdge} {room : Nat} {path : List JsText} {weight : ℚ}
    (hroom : 2 ≤ path.length + room) : walk log1p adjacency room service path weight =
      ((BoundedWalks.walks TraceEdge.toService adjacency 3 room service path).filter fun walk =>
        1 < path.length + walk.length).map fun walk =>
          (path ++ walk.map TraceEdge.toService, weight + walkWeight log1p walk) := by
  induction room generalizing service path weight with
  | zero =>
    have hpath : 1 < path.length := hroom
    simp [walk, BoundedWalks.walks, walkWeight, hpath]
  | succ room ih =>
    have hfresh : (adjacency service).filter (fun edge => edge.toService ∉ path) =
        BoundedWalks.fresh TraceEdge.toService adjacency path service :=
      List.filter_congr fun edge _ => decide_eq_decide.mpr Iff.rfl
    rw [walk, BoundedWalks.walks, hfresh]
    by_cases hnone : (BoundedWalks.fresh TraceEdge.toService adjacency path service).isEmpty = true
    · rw [if_pos hnone, if_pos hnone]
      by_cases hpath : 1 < path.length
      · simp [walkWeight, hpath]
      · simp [hpath]
    · rw [if_neg hnone, if_neg hnone, List.filter_flatMap, List.map_flatMap]
      refine List.flatMap_congr fun edge _ => ?_
      have hlength : (path ++ [edge.toService]).length = path.length + 1 := List.length_append
      have hkeep : (BoundedWalks.walks TraceEdge.toService adjacency 3 room edge.toService
          (path ++ [edge.toService])).filter (fun walk => 1 < (path ++ [edge.toService]).length + walk.length) =
          (BoundedWalks.walks TraceEdge.toService adjacency 3 room edge.toService
            (path ++ [edge.toService])).filter
              ((fun walk : List TraceEdge => decide (1 < path.length + walk.length)) ∘ (edge :: ·)) := by
        refine List.filter_congr fun walk _ => decide_eq_decide.mpr ?_
        rw [hlength, List.length_cons]
        omega
      rw [ih (by rw [hlength]; omega), hkeep, List.filter_map, List.map_map]
      refine List.map_congr_left fun walk _ => ?_
      simp [walkWeight, add_assoc]

/-- The paths are those of the heaviest walks. -/
theorem enumeratePaths_eq (edges : List TraceEdge) (symptomService : JsText) :
    enumeratePaths log1p edges symptomService =
      (heaviestWalks log1p edges symptomService).map fun walk =>
        symptomService :: walk.map TraceEdge.toService := by
  rw [enumeratePaths, heaviestWalks, traceWalks]
  by_cases hnone : symptomService = []
  · simp [hnone]
  · have hkeep : ∀ walks : List (List TraceEdge),
        walks.filter (fun walk => 1 < [symptomService].length + walk.length) =
          walks.filter fun walk => 0 < walk.length := fun walks =>
      List.filter_congr fun walk _ => decide_eq_decide.mpr Nat.lt_add_right_iff_pos
    rw [if_neg hnone, if_neg hnone, walk_eq (by simp), hkeep]
    have hsort : ∀ walks : List (List TraceEdge),
        (walks.map fun walk => ([symptomService] ++ walk.map TraceEdge.toService,
          0 + walkWeight log1p walk)).mergeSort (fun left right => right.2 ≤ left.2) =
        (walks.mergeSort fun left right => walkWeight log1p right ≤ walkWeight log1p left).map fun walk =>
          ([symptomService] ++ walk.map TraceEdge.toService, 0 + walkWeight log1p walk) := by
      intro walks
      refine (List.map_mergeSort fun left _ right _ => ?_).symm
      rw [zero_add, zero_add]
    rw [hsort, ← List.map_take, List.map_map]
    rfl

theorem follows_adjacencyOf {walk : List TraceEdge}
    (h : BoundedWalks.Follows TraceEdge.toService (adjacencyOf log1p edges) service walk) :
    (service :: walk.map TraceEdge.toService).IsChain fun service next =>
      ∃ edge ∈ edges, edge.ends = (service, next) ∧ 1 / 10 ≤ edge.errorRate := by
  induction walk generalizing service with
  | nil => exact List.isChain_singleton _
  | cons edge walk ih =>
    obtain ⟨hmem, hrate, hfrom⟩ := mem_adjacencyOf.mp h.1
    refine List.isChain_cons_cons.mpr ⟨⟨edge, hmem, ?_, hrate⟩, ih h.2⟩
    rw [TraceEdge.ends, hfrom]

theorem getLast?_walk {V E : Type} (target : E → V) (v : V) (walk : List E) :
    (v :: walk.map target).getLast? = some (BoundedWalks.endOf target v walk) := by
  induction walk generalizing v with
  | nil => rfl
  | cons e walk ih =>
    rw [List.map_cons, List.getLast?_cons_cons, ih]
    rfl

/-- The walks of services that are followed. -/
theorem mem_heaviestWalks {symptomService : JsText} {walk : List TraceEdge}
    (h : walk ∈ heaviestWalks log1p edges symptomService) : 0 < walk.length ∧
      BoundedWalks.Walk TraceEdge.toService (adjacencyOf log1p edges) 5 symptomService [symptomService] walk := by
  have hmem : walk ∈ traceWalks log1p edges symptomService := List.mem_mergeSort.mp (List.mem_of_mem_take h)
  rw [traceWalks] at hmem
  split at hmem
  · exact absurd hmem List.not_mem_nil
  · obtain ⟨hwalk, hpos⟩ := List.mem_filter.mp hmem
    exact ⟨of_decide_eq_true hpos, BoundedWalks.walk_of_mem hwalk⟩

/-- **The paths are simple, start at the service and go on as long as they can.** -/
theorem anomalousPath_of_mem {symptomService : JsText} {path : List JsText}
    (h : path ∈ enumeratePaths log1p edges symptomService) : AnomalousPath edges symptomService path := by
  rw [enumeratePaths_eq] at h
  obtain ⟨walk, hwalk, rfl⟩ := List.mem_map.mp h
  obtain ⟨hpos, hwalk⟩ := mem_heaviestWalks hwalk
  have hlength : (symptomService :: walk.map TraceEdge.toService).length = walk.length + 1 := by
    rw [List.length_cons, List.length_map]
  have hle := hwalk.length_le
  refine ⟨rfl, hwalk.simple (List.nodup_singleton _), by rw [hlength]; omega,
    follows_adjacencyOf hwalk.follows, ?_⟩
  rw [hlength, getLast?_walk]
  refine hwalk.ends.imp (congrArg Nat.succ) fun hends edge hedge hrate hlast => ?_
  exact hends edge (mem_adjacencyOf.mpr ⟨hedge, hrate, (Option.some.inj hlast).symm⟩)

/-- **The paths are different exactly if no two of the heaviest walks differ only in parallel edges.** -/
theorem nodup_enumeratePaths_iff {symptomService : JsText} :
    (enumeratePaths log1p edges symptomService).Nodup ↔ HeaviestApart log1p edges symptomService := by
  rw [enumeratePaths_eq, List.Nodup, List.pairwise_map, HeaviestApart]
  refine List.Pairwise.iff_of_mem fun {walk walk'} hwalk hwalk' => not_congr ?_
  rw [List.cons_inj_right]
  exact BoundedWalks.map_target_eq_iff (fun v e he => (mem_adjacencyOf.mp he).2.2)
    (mem_heaviestWalks hwalk).2.follows (mem_heaviestWalks hwalk').2.follows

end Enumerate

/-! ### The strategy -/

section Strategy

/-- `MemoryRetrievalPacket['strategy']` -/
inductive Strategy where
  | topomemMp
  | topomem
  | lexicalFallback
deriving DecidableEq

/-- What the candidates say of the last service of a path: whether there are memories of it, the best of
their scores for the signature or the query, and the best one for the signature. -/
structure TerminalSupport where
  hasMemories : Bool
  support : Int
  value : Int

variable (hasSignature : Bool) (supportOf : JsText → TerminalSupport)

def terminalSupport (path : List JsText) : TerminalSupport := supportOf (path.getLast?.getD [])

/-- The strategy of `retrieveMemories`. -/
def chooseStrategy : List (List JsText) → Strategy
  | [] => .lexicalFallback
  | [path] =>
    let terminal := terminalSupport supportOf path
    if !terminal.hasMemories then .lexicalFallback
    else if hasSignature ∧ terminal.support < 5 then .lexicalFallback
    else .topomem
  | paths =>
    let support := (paths.map fun path => (terminalSupport supportOf path).value).mergeSort fun left right =>
      right ≤ left
    if support.head? = some 0 then .lexicalFallback else .topomemMp

variable {hasSignature supportOf}

/-- Several paths are followed only if there are several. -/
theorem one_lt_length_of_topomemMp {paths : List (List JsText)}
    (h : chooseStrategy hasSignature supportOf paths = .topomemMp) : 1 < paths.length := by
  rcases paths with _ | ⟨path, _ | ⟨path', rest⟩⟩
  · cases h
  · rw [chooseStrategy] at h
    split at h
    · cases h
    · split at h
      · cases h
      · cases h
  · simp

end Strategy

/-! ### The topology of a query -/

section Topology

variable {N : Type} [JsRational N] (texts : Texts) (log1p : ℚ → ℚ)

def chooseSymptomService (query : JsText) (evidence : List (EvidenceItem N)) (edges : List TraceEdge) : JsText :=
  let services := (edges.flatMap fun edge => [edge.fromService, edge.toService]).eraseDups
  let named := services.find? fun service => texts.toLowerCase service <:+: texts.toLowerCase query
  let found := evidence.findSome? fun item =>
    if item.sourceType = .alert ∨ item.sourceType = .service then (extractServiceNames item.content).head?
    else none
  (named.or found).getD ((edges.head?.map TraceEdge.fromService).getD [])

structure Topology where
  edges : List TraceEdge
  symptomService : JsText
  allPaths : List (List JsText)
deriving DecidableEq

/-- What `retrieveMemories` makes of the evidence; `none` where it throws. -/
def topologyOf (query : JsText) (evidence : List (EvidenceItem N)) : Option Topology :=
  let evidence := evidence.filter fun item => !item.status.deselects
  (evidence.mapM fun item => extractTraceEdges item.content).map fun found =>
    let edges := found.flatten
    let symptomService := chooseSymptomService texts ((JsText.trim query).take 20000) evidence edges
    ⟨edges, symptomService, enumeratePaths log1p edges symptomService⟩

/-- The paths are different and what they should be, and several paths are followed only if there are
at least two. -/
def PathsRight (query : JsText) (evidence : List (EvidenceItem N)) : Prop :=
  ∀ topology ∈ topologyOf texts log1p query evidence,
    topology.allPaths.Nodup ∧
      (∀ path ∈ topology.allPaths, AnomalousPath topology.edges topology.symptomService path) ∧
      ∀ hasSignature supportOf, chooseStrategy hasSignature supportOf topology.allPaths = .topomemMp →
        ∃ path ∈ topology.allPaths, ∃ path' ∈ topology.allPaths, path ≠ path'

variable {texts log1p}

variable {query : JsText} {evidence : List (EvidenceItem N)} {topology : Topology}

theorem allPaths_eq (h : topology ∈ topologyOf texts log1p query evidence) :
    topology.allPaths = enumeratePaths log1p topology.edges topology.symptomService := by
  obtain ⟨found, -, rfl⟩ := Option.map_eq_some_iff.mp h
  rfl

theorem exists_ne_of_nodup {α : Type} {l : List α} (h : l.Nodup) (hlength : 1 < l.length) :
    ∃ a ∈ l, ∃ b ∈ l, a ≠ b := by
  rcases l with _ | ⟨a, _ | ⟨b, l⟩⟩
  · cases hlength
  · cases hlength with
    | step hle => cases hle
  · have hne : a ≠ b := fun heq => (List.nodup_cons.mp h).1 (heq ▸ List.mem_cons_self)
    exact ⟨a, List.mem_cons_self, b, List.mem_cons_of_mem _ List.mem_cons_self, hne⟩

theorem pathsRight_of_heaviestApart (h : ∀ topology ∈ topologyOf texts log1p query evidence,
    HeaviestApart log1p topology.edges topology.symptomService) : PathsRight texts log1p query evidence := by
  intro topology htopology
  have hnodup := nodup_enumeratePaths_iff.mpr (h topology htopology)
  rw [allPaths_eq htopology]
  refine ⟨hnodup, fun path hpath => anomalousPath_of_mem hpath, ?_⟩
  intro hasSignature supportOf hstrategy
  exact exists_ne_of_nodup hnodup (one_lt_length_of_topomemMp hstrategy)

/-- **When the paths of a query are what they should be.** -/
theorem pathsRight_iff (texts : Texts) (log1p : ℚ → ℚ) (query : JsText) (evidence : List (EvidenceItem N)) :
    PathsRight texts log1p query evidence ↔ ∀ topology ∈ topologyOf texts log1p query evidence,
      HeaviestApart log1p topology.edges topology.symptomService := by
  refine ⟨fun h topology htopology => ?_, pathsRight_of_heaviestApart⟩
  have hnodup := (h topology htopology).1
  rw [allPaths_eq htopology] at hnodup
  exact nodup_enumeratePaths_iff.mp hnodup

end Topology

/-! ### The same edge in two items -/

section Examples

/-- An item of evidence in which the calls from `a` to `b` fail. -/
def failingCalls : EvidenceItem (Option Int) where
  status := .active
  selected := true
  note := []
  updatedAt := 0
  id := []
  threadId := []
  orgId := []
  userId := []
  traceId := []
  messageId := []
  sourceType := .telemetry
  sourceName := []
  title := []
  summary := []
  content := .object [(JsText.of "fromService", .string [0x61]), (JsText.of "toService", .string [0x62]),
    (JsText.of "errorRate", .number (some 1))]
  contentHash := []
  confidence := 0
  relevance := 0
  scoreFactors := ⟨0, 0, 0, 0, 0, 0⟩
  capturedAt := 0

def failingEdge : TraceEdge := ⟨[0x61], [0x62], 1, 1⟩

theorem mergeSort_twice {α : Type} (a : α) (le : α → α → Bool) : [a, a].mergeSort le = [a, a] :=
  List.perm_replicate.mp (List.mergeSort_perm (List.replicate 2 a) le)

theorem adjacencyOf_twice : adjacencyOf id [failingEdge, failingEdge] =
    fun service => if service = [0x61] then [failingEdge, failingEdge] else [] := by
  ext1 service
  have hperm : (adjacencyOf id [failingEdge, failingEdge] service).Perm _ :=
    adjacencyOf_perm [failingEdge, failingEdge] service
  by_cases hservice : service = [0x61]
  · subst hservice
    have hfilter : ([failingEdge, failingEdge].filter isAnomalous).filter
        (fun edge => edge.fromService = [0x61]) = List.replicate 2 failingEdge := by decide +kernel
    rw [hfilter] at hperm
    exact List.perm_replicate.mp hperm
  · rw [if_neg hservice]
    refine List.Perm.eq_nil (hperm.trans (List.Perm.of_eq ?_))
    refine List.filter_eq_nil_iff.mpr fun edge hedge => ?_
    have hedge : edge = failingEdge := by simpa using List.mem_of_mem_filter hedge
    rw [hedge]
    simpa using fun h => hservice h.symm

theorem enumeratePaths_twice : enumeratePaths id [failingEdge, failingEdge] [0x61] =
    [[[0x61], [0x62]], [[0x61], [0x62]]] := by
  have hwalks : traceWalks id [failingEdge, failingEdge] [0x61] = [[failingEdge], [failingEdge]] := by
    rw [traceWalks, adjacencyOf_twice]
    decide +kernel
  rw [enumeratePaths_eq, heaviestWalks, hwalks, mergeSort_twice]
  rfl

/-- Two captures of the same calls give the same path twice. -/
theorem not_pathsRight_twice : ¬ ∀ (query : JsText) (evidence : List (EvidenceItem (Option Int))),
    PathsRight asciiTexts id query evidence := by
  intro h
  have hedges : extractTraceEdges failingCalls.content = some [failingEdge] := by decide +kernel
  have htopology : topologyOf asciiTexts id [] [failingCalls, failingCalls] =
      some ⟨[failingEdge, failingEdge], [0x61], enumeratePaths id [failingEdge, failingEdge] [0x61]⟩ := by
    have hactive : [failingCalls, failingCalls].filter (fun item => !item.status.deselects) =
        [failingCalls, failingCalls] := rfl
    have hfound : [failingCalls, failingCalls].mapM (fun item => extractTraceEdges item.content) =
        some [[failingEdge], [failingEdge]] := mapM_eq_some_iff.mpr (.cons hedges (.cons hedges .nil))
    have hsymptom : chooseSymptomService asciiTexts ((JsText.trim []).take 20000)
        [failingCalls, failingCalls] [[failingEdge], [failingEdge]].flatten = [0x61] := by
      decide +kernel
    rw [topologyOf, hactive]
    dsimp only
    rw [hfound, Option.map_some, hsymptom]
    rfl
  have hnodup := (h [] [failingCalls, failingCalls] _ htopology).1
  rw [enumeratePaths_twice] at hnodup
  exact absurd hnodup (by decide)

end Examples

end AgentService
