import BoringPanel.Lib.Table
import BoringPanel.Lib.Go
import BoringPanel.Lib.Forest

/-!
# The spans around a span of a large trace

`app/db/trace.go`, in `ee/query-service`. `SmartTraceAlgorithm` links the spans of a trace to trees, searches
them for a span and keeps its ancestors with their children, and its descendants, as far up and down as is
asked for and as the limit on the number of spans allows. A pointer is the position of its span in the payload;
`&model.SpanForTraceDetails{}`, of which there is one, comes after these.

The children are appended to a span as a list (`buildSpanTrees_eq`), and the spans that a search from a root
finds are those below it (`breadthFirstSearch_eq`).
-/

namespace QueryService.SmartTrace

/-! ### The payload -/

structure OtelSpanRef where
  traceId : String
  spanId : String
  refType : String

def OtelSpanRef.toString (ref : OtelSpanRef) : String :=
  "\x7bTraceId=" ++ ref.traceId ++ ", SpanId=" ++ ref.spanId ++ ", RefType=" ++ ref.refType ++ "\x7d"

structure SearchSpanResponseItem where
  timeUnixNano : Nat := 0
  durationNano : Int := 0
  spanID : String
  traceID : String := ""
  hasError : Bool := false
  kind : Int := 0
  serviceName : String := ""
  name : String := ""
  references : List OtelSpanRef := []
  tagMap : Go.Table String String := Go.Table.empty
  /-- `none` is nil. -/
  events : Option (List String) := none

/-- A `*SpanForTraceDetails`. -/
abbrev Ptr := Nat

structure SpanForTraceDetails where
  timeUnixNano : Nat := 0
  spanID : String := ""
  traceID : String := ""
  parentID : String := ""
  parentSpan : Option Ptr := none
  serviceName : String := ""
  name : String := ""
  kind : Int := 0
  durationNano : Int := 0
  tagMap : Go.Table String String := Go.Table.empty
  events : Option (List String) := none
  hasError : Bool := false
  children : List Ptr := []

/-- What the pointers point to. -/
abbrev Heap := Ptr → SpanForTraceDetails

def SearchSpanResponseItem.parentID (spanItem : SearchSpanResponseItem) : String :=
  match spanItem.references with
  | [] => ""
  | ref :: _ => if ref.refType = "CHILD_OF" then ref.spanId else ""

def SearchSpanResponseItem.span (spanItem : SearchSpanResponseItem) : SpanForTraceDetails where
  timeUnixNano := spanItem.timeUnixNano
  spanID := spanItem.spanID
  traceID := spanItem.traceID
  serviceName := spanItem.serviceName
  name := spanItem.name
  kind := spanItem.kind
  durationNano := spanItem.durationNano
  tagMap := spanItem.tagMap
  parentID := spanItem.parentID
  events := spanItem.events
  hasError := spanItem.hasError

/-- The slice of spans that is built from the payload. -/
def spans (payload : List SearchSpanResponseItem) : Heap :=
  fun p => (payload[p]?.map SearchSpanResponseItem.span).getD {}

/-! ### Trees -/

structure Trees where
  spans : Heap
  roots : List Ptr

/-- The first loop of `buildSpanTrees`: the spans without parent, and the spans by their ids. -/
def index (spans : Heap) (len : Nat) : List Ptr × Go.Table String Ptr :=
  (List.range len).foldl (fun st span =>
    (if (spans span).parentID = "" then st.1 ++ [span] else st.1, st.2.set (spans span).spanID span))
    ([], Go.Table.empty)

/-- `span.ParentSpan = parent`. -/
def setParentSpan (spans : Heap) (span parent : Ptr) : Heap :=
  Function.update spans span { spans span with parentSpan := some parent }

/-- `parent.Children = append(parent.Children, span)`. -/
def appendChild (spans : Heap) (parent span : Ptr) : Heap :=
  Function.update spans parent { spans parent with children := (spans parent).children ++ [span] }

/-- `span.ParentID = ""`. -/
def clearParentID (spans : Heap) (span : Ptr) : Heap :=
  Function.update spans span { spans span with parentID := "" }

/-- The second loop, at a span. -/
def link (mapOfSpans : Go.Table String Ptr) (trees : Trees) (span : Ptr) : Trees :=
  if (trees.spans span).parentID = "" then trees
  else
    match mapOfSpans.lookup (trees.spans span).parentID with
    | none => { spans := clearParentID trees.spans span, roots := trees.roots ++ [span] }
    | some parent => { trees with spans := appendChild (setParentSpan trees.spans span parent) parent span }

def buildSpanTrees (spans : Heap) (len : Nat) : Trees :=
  (List.range len).foldl (link (index spans len).2) { spans, roots := (index spans len).1 }

/-! ### The search -/

/-- The loop of `breadthFirstSearch`; `none` if it has not come to an end after that many rounds. -/
def breadthFirstSearch (spans : Heap) (targetId : String) :
    Nat → List Ptr → List String → Option (Option Ptr)
  | _, [], _ => some none
  | 0, _ :: _, _ => none
  | rounds + 1, current :: queue, visited =>
    let visited := (spans current).spanID :: visited
    if (spans current).spanID = targetId then some (some current)
    else
      let fresh := (spans current).children.filter fun child => (spans child).spanID ∉ visited
      breadthFirstSearch spans targetId rounds (queue ++ fresh) visited

/-- The loop over the roots, with the target span so far. -/
def searchRoots (spans : Heap) (targetId : String) (rounds : Nat) :
    List Ptr → Option Ptr → Option (Option Ptr)
  | [], targetSpan => some targetSpan
  | root :: roots, _ =>
    match breadthFirstSearch spans targetId rounds [root] [] with
    | none => none
    | some (some targetSpan) => some (some targetSpan)
    | some none => searchRoots spans targetId rounds roots none

/-! ### The selection -/

inductive Failure where
  /-- The error `span not found`. -/
  | spanNotFound
  /-- The panic `slice bounds out of range`. -/
  | sliceBounds
deriving DecidableEq

/-- `xs[:n]`, of a slice whose capacity is its length. -/
def sliceTo (xs : List Ptr) (n : Int) : Except Failure (List Ptr) :=
  if 0 ≤ n ∧ n ≤ xs.length then .ok (xs.take n.toNat) else .error .sliceBounds

/-- The state of the loop over the ancestors. -/
structure Ascent where
  spans : Heap
  parents : List Ptr
  spanLimit : Int

/-- `for i := 0; i < levelUp+1; i++`, with the rounds that are left. -/
def ascend (levelUp : Int) : Nat → Int → Ptr → Ascent → Except Failure Ascent
  | 0, _, _, st => .ok st
  | rounds + 1, i, preParent, st =>
    let spans := if i = levelUp then clearParentID st.spans preParent else st.spans
    let children := (spans preParent).children
    if st.spanLimit - children.length ≤ 0 then do
      let kept ← sliceTo children st.spanLimit
      .ok { spans := clearParentID spans preParent
            parents := st.parents ++ [preParent] ++ kept
            spanLimit := st.spanLimit - (kept.length + 1) }
    else
      let st := { spans, parents := st.parents ++ [preParent] ++ children
                  spanLimit := st.spanLimit - (children.length + 1) }
      match (spans preParent).parentSpan with
      | none => .ok st
      | some parentSpan => ascend levelUp rounds (i + 1) parentSpan st

/-- The state of the loop over the spans of a level. -/
structure Level where
  children : List Ptr
  parents : List Ptr
  spanLimit : Int

/-- `for _, parent := range preParents`. -/
def lowerLevel (spans : Heap) : List Ptr → Level → Except Failure Level
  | [], st => .ok st
  | parent :: preParents, st =>
    let children := (spans parent).children
    if st.spanLimit - children.length ≤ 0 then do
      let kept ← sliceTo children st.spanLimit
      .ok { st with children := st.children ++ kept, spanLimit := st.spanLimit - kept.length }
    else
      lowerLevel spans preParents
        { st with children := st.children ++ children, parents := st.parents ++ children }

/-- `for i := 0; i < levelDown && len(preParents) != 0 && spanLimit > 0; i++`. -/
def descend (spans : Heap) : Nat → List Ptr → List Ptr → Int → Except Failure (List Ptr)
  | 0, _, children, _ => .ok children
  | rounds + 1, preParents, children, spanLimit =>
    if preParents ≠ [] ∧ spanLimit > 0 then do
      let level ← lowerLevel spans preParents { children, parents := [], spanLimit }
      descend spans rounds level.parents level.children level.spanLimit
    else .ok children

/-- The spans that are kept. -/
structure Selection where
  spans : Heap
  resultSpansSet : Go.Table Ptr Unit

/-- `resultSpansSet`, from the target span, the parents and the children. -/
def setOf (ps : List Ptr) : Go.Table Ptr Unit := ps.foldl (fun set p => set.set p ()) Go.Table.empty

/-- The selection around a span of the trees. -/
def around (spans : Heap) (targetSpan : Ptr) (levelUp levelDown spanLimit : Int) :
    Except Failure Selection := do
  let up ← ascend levelUp (Go.int64 (levelUp + 1)).toNat 0 targetSpan { spans, parents := [], spanLimit }
  let children ← descend up.spans levelDown.toNat [targetSpan] [] up.spanLimit
  .ok { spans := up.spans, resultSpansSet := setOf (targetSpan :: (up.parents ++ children)) }

/-- The id that is searched for. -/
def targetOf (payload : List SearchSpanResponseItem) (targetSpanId : String) : String :=
  match payload with
  | [] => targetSpanId
  | spanItem :: _ => if targetSpanId = "" ∨ targetSpanId = "null" then spanItem.spanID else targetSpanId

/-- `SmartTraceAlgorithm` up to the spans that are kept; `none` if a search has not come to an end. -/
def select (rounds : Nat) (payload : List SearchSpanResponseItem) (targetSpanId : String)
    (levelUp levelDown spanLimit : Int) : Option (Except Failure Selection) :=
  let trees := buildSpanTrees (spans payload) payload.length
  -- the target span is `&model.SpanForTraceDetails{}` before the first search
  match searchRoots trees.spans (targetOf payload targetSpanId) rounds trees.roots (some payload.length) with
  | none => none
  | some none => some (.error .spanNotFound)
  | some (some targetSpan) => some (around trees.spans targetSpan levelUp levelDown spanLimit)

/-! ### The result -/

/-- A row of `Events`. -/
structure SpanEvent where
  time : Nat
  spanId : String
  traceId : String
  serviceName : String
  name : String
  kind : String
  durationNano : String
  tagsKeys : List String
  tagsValues : List String
  references : List String
  events : List String
  hasError : Bool

structure SearchSpansResult where
  columns : List String
  events : List SpanEvent
  isSubTree : Bool

variable (range : Go.Table.RangeOrder String String) (visit : Go.Table.RangeOrder Ptr Unit)

/-- The row of a span. -/
def row (item : SpanForTraceDetails) : SpanEvent where
  time := item.timeUnixNano
  spanId := item.spanID
  traceId := item.traceID
  serviceName := item.serviceName
  name := item.name
  kind := toString item.kind
  durationNano := toString item.durationNano
  tagsKeys := (range.order item.tagMap).map Prod.fst
  tagsValues := (range.order item.tagMap).map Prod.snd
  references := [OtelSpanRef.toString
    { traceId := item.traceID, spanId := item.parentID, refType := "CHILD_OF" }]
  events := item.events.getD []
  hasError := item.hasError

def searchSpansResult (selection : Selection) : List SearchSpansResult :=
  [{ columns := ["__time", "SpanId", "TraceId", "ServiceName", "Name", "Kind", "DurationNano", "TagsKeys",
        "TagsValues", "References", "Events", "HasError"]
     events := (visit.order selection.resultSpansSet).map fun e => row range (selection.spans e.1)
     isSubTree := true }]

def smartTraceAlgorithm (rounds : Nat) (payload : List SearchSpanResponseItem) (targetSpanId : String)
    (levelUp levelDown spanLimit : Int) : Option (Except Failure (List SearchSpansResult)) :=
  (select rounds payload targetSpanId levelUp levelDown spanLimit).map fun result =>
    result.map (searchSpansResult range visit)

/-! ### What the trees are -/

section Linking

variable (payload : List SearchSpanResponseItem)

/-- The last span of the payload, of the first `k`, with an id. -/
def lastWith (k : Nat) (id : String) : Option Ptr :=
  (List.range k).reverse.find? fun q => (spans payload q).spanID = id

/-- The span of the payload that is the parent of a span. -/
def parentOf (p : Ptr) : Option Ptr :=
  if (spans payload p).parentID = "" then none
  else lastWith payload payload.length (spans payload p).parentID

def childrenOf (k : Nat) (p : Ptr) : List Ptr :=
  (List.range k).filter fun c => parentOf payload c = some p

/-- The spans when the first `k` have been linked. -/
def linked (k : Nat) : Heap := fun p =>
  { spans payload p with
    parentID := if p < k ∧ parentOf payload p = none then "" else (spans payload p).parentID
    parentSpan := if p < k then parentOf payload p else none
    children := childrenOf payload k p }

def isRoot (p : Ptr) : Bool := (spans payload p).parentID = ""

def isOrphan (p : Ptr) : Bool := (spans payload p).parentID ≠ "" ∧ parentOf payload p = none

variable {payload} {p q : Ptr} {id : String} {k : Nat}

theorem spans_of_le (h : payload.length ≤ p) : spans payload p = {} := by
  rw [spans, List.getElem?_eq_none h]
  rfl

/-- No span has links at first. -/
theorem spans_fresh (p : Ptr) :
    { spans payload p with parentSpan := none, children := [] } = spans payload p := by
  rw [spans]
  cases payload[p]? with
  | none => rfl
  | some spanItem => rfl

theorem lastWith_succ (k : Nat) (id : String) :
    lastWith payload (k + 1) id =
      if (spans payload k).spanID = id then some k else lastWith payload k id := by
  rw [lastWith, List.range_succ, List.reverse_append, List.reverse_singleton, List.singleton_append,
    List.find?_cons]
  by_cases h : (spans payload k).spanID = id <;> simp [h, lastWith]

/-- What the first loop finds. -/
theorem index_eq (payload : List SearchSpanResponseItem) (k : Nat) :
    (index (spans payload) k).1 = (List.range k).filter (isRoot payload) ∧
      ∀ id, (index (spans payload) k).2.lookup id = lastWith payload k id := by
  induction k with
  | zero => exact ⟨rfl, fun _ => rfl⟩
  | succ k ih =>
    rw [index, List.range_succ, List.foldl_append, ← index]
    obtain ⟨hroots, hmap⟩ := ih
    constructor
    · show (if (spans payload k).parentID = "" then _ ++ [k] else _) = _
      rw [hroots, List.filter_append]
      by_cases h : (spans payload k).parentID = "" <;> simp [h, isRoot]
    · intro id
      show (Go.Table.set _ (spans payload k).spanID k).lookup id = _
      rw [Go.Table.lookup_set, hmap, lastWith_succ]
      exact if_congr eq_comm rfl rfl

theorem childrenOf_succ (k : Nat) (p : Ptr) :
    childrenOf payload (k + 1) p =
      childrenOf payload k p ++ if parentOf payload k = some p then [k] else [] := by
  rw [childrenOf, List.range_succ, List.filter_append]
  by_cases h : parentOf payload k = some p <;> simp [h, childrenOf]

theorem lt_succ_iff_of_ne (h : p ≠ k) : p < k + 1 ↔ p < k :=
  ⟨fun hlt => Nat.lt_of_le_of_ne (Nat.lt_succ_iff.mp hlt) h, Nat.lt_succ_of_lt⟩

/-- A span that is linked to none. -/
theorem linked_succ_of_none (h : parentOf payload k = none) :
    linked payload (k + 1) = clearParentID (linked payload k) k := by
  funext p
  have hchildren : childrenOf payload (k + 1) p = childrenOf payload k p := by
    rw [childrenOf_succ, h, if_neg (by simp), List.append_nil]
  by_cases hp : p = k
  · subst hp
    simp [linked, clearParentID, hchildren, h]
  · simp [linked, clearParentID, hchildren, hp, lt_succ_iff_of_ne hp]

/-- A span that is linked to its parent, which may be the span itself. -/
theorem linked_succ_of_some (h : parentOf payload k = some q) :
    linked payload (k + 1) = appendChild (setParentSpan (linked payload k) k q) q k := by
  funext p
  by_cases hq : p = q
  · subst hq
    by_cases hp : p = k
    · subst hp
      simp [linked, appendChild, setParentSpan, childrenOf_succ, h]
    · simp [linked, appendChild, setParentSpan, childrenOf_succ, h, hp, lt_succ_iff_of_ne hp]
  · by_cases hp : p = k
    · subst hp
      simp [linked, appendChild, setParentSpan, childrenOf_succ, h, hq, Ne.symm hq]
    · simp [linked, appendChild, setParentSpan, childrenOf_succ, h, hq, hp, lt_succ_iff_of_ne hp, Ne.symm hq]

/-- A step of the second loop. -/
theorem link_eq {mapOfSpans : Go.Table String Ptr}
    (hmap : ∀ id, mapOfSpans.lookup id = lastWith payload payload.length id) (k : Nat) (roots : List Ptr) :
    link mapOfSpans { spans := linked payload k, roots } k =
      { spans := linked payload (k + 1), roots := roots ++ if isOrphan payload k then [k] else [] } := by
  have hparentID : (linked payload k k).parentID = (spans payload k).parentID :=
    if_neg fun h => Nat.lt_irrefl k h.1
  simp only [link, hparentID, hmap]
  by_cases hempty : (spans payload k).parentID = ""
  · have hnone : parentOf payload k = none := if_pos hempty
    have hsame : clearParentID (linked payload k) k = linked payload k := by
      rw [clearParentID, ← hempty, ← hparentID]
      exact Function.update_eq_self k _
    rw [if_pos hempty, linked_succ_of_none hnone, hsame]
    simp [isOrphan, hempty]
  · have hparent : parentOf payload k = lastWith payload payload.length (spans payload k).parentID :=
      if_neg hempty
    rw [if_neg hempty, ← hparent]
    cases h : parentOf payload k with
    | none =>
      rw [linked_succ_of_none h]
      simp [isOrphan, hempty, h]
    | some q =>
      rw [linked_succ_of_some h]
      simp [isOrphan, h]

/-- **The trees**: each span is in the list of children of the last span of the payload with the id that it
names as its parent, and is a root if there is none. -/
theorem buildSpanTrees_eq (payload : List SearchSpanResponseItem) :
    buildSpanTrees (spans payload) payload.length =
      { spans := linked payload payload.length
        roots := (List.range payload.length).filter (isRoot payload) ++
          (List.range payload.length).filter (isOrphan payload) } := by
  obtain ⟨hroots, hmap⟩ := index_eq payload payload.length
  have hinit : spans payload = linked payload 0 := by
    funext p
    simp [linked, childrenOf, spans_fresh]
  -- after `k` spans
  have hloop : ∀ k, (List.range k).foldl (link (index (spans payload) payload.length).2)
        { spans := spans payload, roots := (index (spans payload) payload.length).1 } =
      { spans := linked payload k
        roots := (List.range payload.length).filter (isRoot payload) ++
          (List.range k).filter (isOrphan payload) } := by
    intro k
    induction k with
    | zero => rw [hroots, List.range_zero, List.filter_nil, List.append_nil, List.foldl_nil, ← hinit]
    | succ k ih =>
      rw [List.range_succ, List.foldl_append, ih, List.foldl_cons, List.foldl_nil, link_eq hmap,
        List.filter_append, List.append_assoc]
      by_cases h : isOrphan payload k <;> simp [h]
  exact hloop payload.length

/-! ### What the search finds -/

variable (payload) in
/-- The links of the trees. -/
abbrev tree : Heap := linked payload payload.length

variable (payload) in
/-- The children of a span. -/
abbrev children : Ptr → List Ptr := childrenOf payload payload.length

variable {root targetSpan : Ptr} {targetId : String} {rounds : Nat} {done queue : List Ptr}

theorem mem_of_lastWith (h : lastWith payload k id = some q) : q < k ∧ (spans payload q).spanID = id := by
  rw [lastWith] at h
  refine ⟨?_, by simpa using List.find?_some h⟩
  simpa using List.mem_of_find?_eq_some h

theorem parentOf_eq_some (h : parentOf payload p = some q) :
    (spans payload p).parentID ≠ "" ∧ q < payload.length ∧
      (spans payload q).spanID = (spans payload p).parentID := by
  rw [parentOf] at h
  split at h
  · cases h
  · rename_i hne
    exact ⟨hne, mem_of_lastWith h⟩

theorem lt_of_parentOf (h : parentOf payload p = some q) : p < payload.length := by
  by_contra hle
  refine (parentOf_eq_some h).1 ?_
  rw [spans_of_le (Nat.le_of_not_lt hle)]

theorem tree_parentSpan (p : Ptr) : (tree payload p).parentSpan = parentOf payload p := by
  show (if p < payload.length then parentOf payload p else none) = _
  split
  · rfl
  · rename_i hle
    rw [parentOf, spans_of_le (Nat.le_of_not_lt hle)]
    rfl

theorem isChildren (payload : List SearchSpanResponseItem) :
    Forest.IsChildren (parentOf payload) (children payload) where
  mem_iff {p v} := by
    rw [children, childrenOf, List.mem_filter, decide_eq_true_eq, List.mem_range]
    exact and_iff_right_of_imp lt_of_parentOf
  nodup p := List.nodup_range.filter _

theorem below_lt (hroot : root < payload.length) (h : Forest.Below (parentOf payload) root p) :
    p < payload.length := by
  cases h with
  | refl => exact hroot
  | child _ h => exact lt_of_parentOf h

theorem below_root_lt (hp : p < payload.length) (h : Forest.Below (parentOf payload) root p) :
    root < payload.length := by
  induction h with
  | refl => exact hp
  | child _ h ih => exact ih (parentOf_eq_some h).2.1

/-- No two spans of the payload have the same id. -/
def DistinctIDs (payload : List SearchSpanResponseItem) : Prop :=
  (payload.map SearchSpanResponseItem.spanID).Nodup

theorem getElem?_spanID (h : p < payload.length) :
    (payload.map SearchSpanResponseItem.spanID)[p]? = some (spans payload p).spanID := by
  simp [spans, h, SearchSpanResponseItem.span]

theorem DistinctIDs.eq (hids : DistinctIDs payload) (hp : p < payload.length) (hq : q < payload.length)
    (h : (spans payload p).spanID = (spans payload q).spanID) : p = q := by
  have hids : (payload.map SearchSpanResponseItem.spanID).Nodup := hids
  refine (List.getElem?_inj (by simpa using hp) hids).mp ?_
  rw [getElem?_spanID hp, getElem?_spanID hq, h]

theorem exists_of_mem_ids {id : String} (h : id ∈ payload.map SearchSpanResponseItem.spanID) :
    ∃ p < payload.length, (spans payload p).spanID = id := by
  obtain ⟨p, hp, heq⟩ := List.getElem_of_mem h
  rw [List.length_map] at hp
  refine ⟨p, hp, ?_⟩
  have := getElem?_spanID hp
  rw [List.getElem?_eq_getElem (by simpa using hp), heq] at this
  exact (Option.some.inj this).symm

/-- The invariant of the search: none of the spans that are done is the target, and these are the visited. -/
structure Searching (payload : List SearchSpanResponseItem) (targetId : String) (root : Ptr)
    (done queue : List Ptr) (visited : List String) : Prop where
  traversal : Forest.Traversal (parentOf payload) root done queue
  visited_eq : ∀ id, id ∈ visited ↔ ∃ p ∈ done, (spans payload p).spanID = id
  missed : ∀ p ∈ done, (spans payload p).spanID ≠ targetId

theorem Searching.lt {visited : List String} (h : Searching payload targetId root done queue visited)
    (hroot : root < payload.length) (hp : p ∈ done ++ queue) : p < payload.length :=
  below_lt hroot (h.traversal.below p hp)

/-- A round of the search at a span that is not the target. Its children are all new. -/
theorem Searching.step {visited : List String} (hids : DistinctIDs payload) (hroot : root < payload.length)
    (h : Searching payload targetId root done (p :: queue) visited)
    (hne : (spans payload p).spanID ≠ targetId) :
    (children payload p).filter (fun child =>
        (spans payload child).spanID ∉ (spans payload p).spanID :: visited) =
      children payload p ∧
    Searching payload targetId root (done ++ [p]) (queue ++ children payload p)
      ((spans payload p).spanID :: visited) := by
  have hp : p ∈ done ++ p :: queue := List.mem_append_right _ List.mem_cons_self
  have hvisited : ∀ id, id ∈ (spans payload p).spanID :: visited ↔
      ∃ q ∈ done ++ [p], (spans payload q).spanID = id := by
    intro id
    rw [List.mem_cons, h.visited_eq]
    constructor
    · rintro (rfl | ⟨q, hq, hid⟩)
      · exact ⟨p, List.mem_append_right _ (List.mem_singleton_self p), rfl⟩
      · exact ⟨q, List.mem_append_left _ hq, hid⟩
    · rintro ⟨q, hq, rfl⟩
      rcases List.mem_append.mp hq with hq | hq
      · exact .inr ⟨q, hq, rfl⟩
      · exact .inl (congrArg (fun q => (spans payload q).spanID) (List.mem_singleton.mp hq))
  constructor
  · refine List.filter_eq_self.mpr fun c hc => decide_eq_true fun hmem => ?_
    have hparent : parentOf payload c = some p := (isChildren payload).mem_iff.mp hc
    obtain ⟨q, hq, hid⟩ := (hvisited _).mp hmem
    have hq' : q ∈ done ++ p :: queue := by
      rw [List.append_cons]
      exact List.mem_append_left _ hq
    obtain rfl := hids.eq (h.lt hroot hq') (lt_of_parentOf hparent) hid
    exact h.traversal.child_not_mem hparent hq'
  · refine ⟨h.traversal.step (isChildren payload), hvisited, fun q hq => ?_⟩
    rcases List.mem_append.mp hq with hq | hq
    · exact h.missed q hq
    · exact List.mem_singleton.mp hq ▸ hne

/-- A search goes on for as many rounds as there are spans left, at most. -/
theorem Searching.rounds_pos {visited : List String}
    (h : Searching payload targetId root done (p :: queue) visited) (hroot : root < payload.length) :
    done.length < payload.length := by
  have hsub : done ++ p :: queue ⊆ List.range payload.length := fun q hq => List.mem_range.mpr (h.lt hroot hq)
  have hle := (h.traversal.nodup.subperm hsub).length_le
  rw [List.length_range, List.length_append, List.length_cons] at hle
  omega

/-- What a search returns: a span below the root with the id, if there is one. -/
def Found (payload : List SearchSpanResponseItem) (targetId : String) (root : Ptr) : Option Ptr → Prop
  | some p => (spans payload p).spanID = targetId ∧ Forest.Below (parentOf payload) root p
  | none => ∀ p, Forest.Below (parentOf payload) root p → (spans payload p).spanID ≠ targetId

theorem Searching.found {visited : List String} (hids : DistinctIDs payload) (hroot : root < payload.length)
    (h : Searching payload targetId root done queue visited) (hrounds : payload.length ≤ done.length + rounds) :
    ∃ found, breadthFirstSearch (tree payload) targetId rounds queue visited = some found ∧
      Found payload targetId root found := by
  induction rounds generalizing done queue visited with
  | zero =>
    cases queue with
    | nil => exact ⟨none, rfl, fun p hp => h.missed p (h.traversal.mem_of_below hp)⟩
    | cons p queue =>
      have := h.rounds_pos hroot
      omega
  | succ rounds ih =>
    cases queue with
    | nil => exact ⟨none, rfl, fun p hp => h.missed p (h.traversal.mem_of_below hp)⟩
    | cons p queue =>
      by_cases htarget : (spans payload p).spanID = targetId
      · refine ⟨some p, if_pos htarget, htarget, h.traversal.below p ?_⟩
        exact List.mem_append_right _ List.mem_cons_self
      · obtain ⟨hfresh, hstep⟩ := h.step hids hroot htarget
        have hrec : breadthFirstSearch (tree payload) targetId (rounds + 1) (p :: queue) visited =
            breadthFirstSearch (tree payload) targetId rounds (queue ++ children payload p)
              ((spans payload p).spanID :: visited) := by
          rw [← hfresh]
          exact if_neg htarget
        rw [hrec]
        refine ih hstep ?_
        rw [List.length_append, List.length_singleton]
        omega

/-- **The search from a root finds the span of its tree with the id**, and comes to an end. -/
theorem breadthFirstSearch_eq (hids : DistinctIDs payload) (hroot : root < payload.length)
    (hnone : parentOf payload root = none) (hrounds : payload.length ≤ rounds) (targetId : String) :
    ∃ found, breadthFirstSearch (tree payload) targetId rounds [root] [] = some found ∧
      Found payload targetId root found := by
  have hsearch : Searching payload targetId root [] [root] [] :=
    ⟨.start hnone, fun id => by simp, fun p hp => absurd hp List.not_mem_nil⟩
  exact hsearch.found hids hroot (by simpa using hrounds)

/-! ### The target span -/

theorem mem_roots : p ∈ (buildSpanTrees (spans payload) payload.length).roots ↔
    p < payload.length ∧ parentOf payload p = none := by
  rw [buildSpanTrees_eq]
  simp only [List.mem_append, List.mem_filter, List.mem_range, isRoot, isOrphan, decide_eq_true_eq]
  constructor
  · rintro (⟨hlt, hempty⟩ | ⟨hlt, -, hnone⟩)
    · exact ⟨hlt, if_pos hempty⟩
    · exact ⟨hlt, hnone⟩
  · rintro ⟨hlt, hnone⟩
    by_cases hempty : (spans payload p).parentID = ""
    · exact .inl ⟨hlt, hempty⟩
    · exact .inr ⟨hlt, hempty, hnone⟩

/-- The loop over some of the roots finds the span of one of their trees with the id. -/
theorem searchRoots_eq (targetId : String) (hids : DistinctIDs payload) (hrounds : payload.length ≤ rounds)
    {roots : List Ptr}
    (hroots : ∀ root ∈ roots, root < payload.length ∧ parentOf payload root = none) :
    ∃ found, searchRoots (tree payload) targetId rounds roots none = some found ∧
      match found with
      | some p => (spans payload p).spanID = targetId ∧
          ∃ root ∈ roots, Forest.Below (parentOf payload) root p
      | none => ∀ root ∈ roots, ∀ p, Forest.Below (parentOf payload) root p →
          (spans payload p).spanID ≠ targetId := by
  induction roots with
  | nil => exact ⟨none, rfl, fun root hroot => absurd hroot List.not_mem_nil⟩
  | cons root roots ih =>
    obtain ⟨hroot, hrest⟩ := List.forall_mem_cons.mp hroots
    obtain ⟨found, hfound, hspec⟩ := breadthFirstSearch_eq hids hroot.1 hroot.2 hrounds targetId
    rw [searchRoots, hfound]
    cases found with
    | some p => exact ⟨some p, rfl, hspec.1, root, List.mem_cons_self, hspec.2⟩
    | none =>
      obtain ⟨found, hfound, hfoundSpec⟩ := ih hrest
      refine ⟨found, hfound, ?_⟩
      cases found with
      | some p =>
        obtain ⟨hid, root', hroot', hbelow⟩ := hfoundSpec
        exact ⟨hid, root', List.mem_cons_of_mem _ hroot', hbelow⟩
      | none => exact List.forall_mem_cons.mpr ⟨hspec, hfoundSpec⟩

end Linking

end QueryService.SmartTrace
