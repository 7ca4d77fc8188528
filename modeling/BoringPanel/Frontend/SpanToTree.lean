import BoringPanel.Lib.Forest
import BoringPanel.Lib.JsEntries
import BoringPanel.Lib.JsObject
import BoringPanel.Lib.Fallible

/-!
# Trees of the spans of a trace

`spanToTreeUtil` hangs each span below the spans that it references as `CHILD_OF`. A span that is referenced
and was not fetched is added as a missing span. What is not below another span is a root: in `spanTree` if it
has a reference with an empty `SpanId`, else once for each trace that is referenced, in `spanTree` or in
`missingSpanTree`.

A node is known by its id, which is its key in `spanMap`. The trees of the forest are read from its roots and
the children of its nodes, and a node occurs once if it is at one path (`Forest.OccursOnce`).

A run over spans whose ids are no key of a prototype is in a closed form: the nodes of the spans and of the
missing spans, with the links that the references have made (`foldlM_processSpan`).
-/

namespace Frontend

namespace SpanToTree

open JsValue (set prototypeKey methodNames arrayIndex)

/-! ### References -/

/-- `Record<string, string>`; a pair without `=` has no value. -/
abbrev Reference := List (JsText × Option JsText)

def setPair (refObject : Reference) (rawRefKeyPair : JsText) : Reference :=
  match rawRefKeyPair.splitOn 0x3d with
  | [] => refObject
  | key :: rest => if key = prototypeKey then refObject else set refObject key rest.head?

def parseReference (rawRef : JsText) : Reference :=
  let plain := ((rawRef.filter (· ≠ 0x7b)).filter (· ≠ 0x7d)).filter (· ≠ JsText.blank)
  (plain.splitOn 0x2c).foldl setPair []

def getSpanReferences (rawReferences : List JsText) (isChildReference : Bool) : List Reference :=
  (rawReferences.filter fun value => decide (JsText.of "CHILD_OF" <:+: value) == isChildReference).map
    parseReference

/-- A member that is read, which is `undefined` if it has no value or is not there. -/
def Reference.read (ref : Reference) (key : JsText) : Option JsText := (ref.lookup key).join

def Reference.spanId (ref : Reference) : Option JsText := ref.read (JsText.of "SpanId")

def Reference.traceId (ref : Reference) : Option JsText := ref.read (JsText.of "TraceId")

/-- The key of `spanMap` that `parentSpanId` is. -/
def Reference.parentKey (ref : Reference) : JsText := ref.spanId.getD (JsText.of "undefined")

/-! ### Spans and nodes -/

/-- The columns that the links are made of. The others are read through `spanMap` only if the object that is
made of them is its prototype: `truthy` are the names under which it has a truthy value. -/
structure Span where
  id : JsText
  references : List JsText
  truthy : List JsText
deriving DecidableEq, Repr

/-- A node; its `children` are known by their ids. -/
structure TraceTree where
  children : List JsText
  childReferences : Option (List Reference)
  nonChildReferences : Option (List Reference)
  isMissing : Bool
  isProcessed : Bool
deriving DecidableEq, Repr

def Span.childReferences (span : Span) : List Reference := getSpanReferences span.references true

def spanObject (span : Span) : TraceTree where
  children := []
  childReferences := some span.childReferences
  nonChildReferences := some (getSpanReferences span.references false)
  isMissing := false
  isProcessed := false

def missingSpan : TraceTree where
  children := []
  childReferences := none
  nonChildReferences := none
  isMissing := true
  isProcessed := false

/-! ### The map -/

/-- An object with its own members, and the span whose object has become its prototype. -/
structure SpanMap where
  members : List (JsText × TraceTree)
  proto : Option Span
deriving DecidableEq, Repr

/-- What a key of the map is read as. -/
inductive Found where
  | falsy
  | node
  /-- The object of the span that is the prototype. -/
  | proto
  /-- A value without `children`. -/
  | other
deriving DecidableEq, Repr

namespace SpanMap

def keys (spanMap : SpanMap) : List JsText := spanMap.members.map Prod.fst

def read (spanMap : SpanMap) (key : JsText) : Found :=
  if key ∈ spanMap.keys then .node
  else if key = prototypeKey then if spanMap.proto.isSome then .proto else .other
  else if key ∈ methodNames ∨ spanMap.proto.any (fun span => key ∈ span.truthy) then .other else .falsy

def assign (spanMap : SpanMap) (span : Span) : SpanMap :=
  if span.id = prototypeKey then { spanMap with proto := some span }
  else { spanMap with members := set spanMap.members span.id (spanObject span) }

def addMissing (spanMap : SpanMap) (spanId : JsText) : SpanMap :=
  { spanMap with members := set spanMap.members spanId missingSpan }

/-- A change of the node with an id. -/
def update (spanMap : SpanMap) (id : JsText) (f : TraceTree → TraceTree) : SpanMap :=
  { spanMap with members := spanMap.members.map fun e => if e.1 = id then (e.1, f e.2) else e }

end SpanMap

/-- Members in the order of `Object.entries`: array indices first, by their numbers. -/
def objectOrder {β : Type} (key : β → JsText) (members : List β) : List β :=
  (members.filter fun m => (arrayIndex (key m)).isSome).mergeSort
      (fun m m' => (arrayIndex (key m)).getD 0 ≤ (arrayIndex (key m')).getD 0) ++
    members.filter fun m => (arrayIndex (key m)).isNone

/-! ### The forest -/

/-- A property of `undefined` is read. -/
inductive TypeError where
  | push
  | includes
deriving DecidableEq, Repr

/-- `spanMap`, and `traceIdSet` in the order in which its elements have been added. -/
structure State where
  spanMap : SpanMap
  traceIdSet : List (Option JsText)
deriving DecidableEq, Repr

/-- `traceIdSet.add(TraceId)` -/
def addTraceId (traceIds : List (Option JsText)) (ref : Reference) : List (Option JsText) :=
  if ref.traceId ∈ traceIds then traceIds else traceIds ++ [ref.traceId]

/-- A missing span, unless the id is empty or leads to something. -/
def SpanMap.createMissing (spanMap : SpanMap) (ref : Reference) : SpanMap :=
  match ref.spanId with
  | some spanId => if spanId ≠ [] ∧ spanMap.read spanId = .falsy then spanMap.addMissing spanId else spanMap
  | none => spanMap

def createTraceRootSpan (st : State) (spanReferences : List Reference) : State :=
  spanReferences.foldl (fun st ref => ⟨st.spanMap.createMissing ref, addTraceId st.traceIdSet ref⟩) st

/-- A span is added to the children of the node that a reference leads to. -/
def addToParent (spanId : JsText) (spanMap : SpanMap) (ref : Reference) : Except TypeError SpanMap :=
  let processed := spanMap.update spanId fun spanData => { spanData with isProcessed := true }
  match spanMap.read ref.parentKey with
  | .falsy => .ok spanMap
  | .node => .ok (processed.update ref.parentKey fun p => { p with children := p.children ++ [spanId] })
  -- the prototype is not a member, so that nothing reads its children
  | .proto => .ok processed
  | .other => .error .push

def processSpan (st : State) (entry : JsText × TraceTree) : Except TypeError State :=
  match entry.2.childReferences with
  | none => .ok st
  | some childReferences => do
    let st := createTraceRootSpan st childReferences
    let spanMap ← childReferences.foldlM (addToParent entry.1) st.spanMap
    pure { st with spanMap := spanMap }

/-- `ITraceForest`, with the nodes that its trees are made of. -/
structure TraceForest where
  nodes : List (JsText × TraceTree)
  spanTree : List JsText
  missingSpanTree : List JsText
deriving DecidableEq, Repr

def pushRoot (spanId : JsText) (forest : TraceForest) (traceId : Option JsText) : Except TypeError TraceForest :=
  match traceId with
  | none => .error .includes
  | some traceId =>
    if spanId <:+: traceId then .ok { forest with spanTree := forest.spanTree ++ [spanId] }
    else .ok { forest with missingSpanTree := forest.missingSpanTree ++ [spanId] }

/-- There is a reference to no span. -/
def TraceTree.isRoot (spanData : TraceTree) : Bool :=
  (spanData.childReferences.getD []).any fun refs => refs.spanId = some []

def addRoot (referencedTraceIds : List (Option JsText)) (forest : TraceForest) (entry : JsText × TraceTree) :
    Except TypeError TraceForest :=
  if entry.2.isRoot then .ok { forest with spanTree := forest.spanTree ++ [entry.1] }
  else referencedTraceIds.foldlM (pushRoot entry.1) forest

def spanToTreeUtil (inputSpanList : List Span) : Except TypeError TraceForest := do
  let spanMap := inputSpanList.foldl SpanMap.assign ⟨[], none⟩
  let st ← (objectOrder Prod.fst spanMap.members).foldlM processSpan ⟨spanMap, []⟩
  let rest := (objectOrder Prod.fst st.spanMap.members).filter fun e => !e.2.isProcessed
  rest.foldlM (addRoot st.traceIdSet) ⟨st.spanMap.members, [], []⟩

/-! ### What is conserved -/

namespace TraceForest

def roots (forest : TraceForest) : List JsText := forest.spanTree ++ forest.missingSpanTree

def children (forest : TraceForest) (id : JsText) : List JsText :=
  (forest.nodes.lookup id).elim [] TraceTree.children

/-- Each span occurs once, and so does each other node, which is marked; a span is a child of nodes that it
references. -/
structure Conserves (spans : List Span) (forest : TraceForest) : Prop where
  spans_once : ∀ span ∈ spans, Forest.OccursOnce forest.roots forest.children span.id
  missing : ∀ id ∉ spans.map Span.id, Forest.Occurs forest.roots forest.children id →
    (forest.nodes.lookup id).any TraceTree.isMissing = true ∧
      Forest.OccursOnce forest.roots forest.children id
  references : ∀ parent id, id ∈ forest.children parent →
    ∃ span ∈ spans, span.id = id ∧ ∃ ref ∈ span.childReferences, ref.spanId = some parent

end TraceForest

/-! ### The order of the members -/

section Order

variable {β γ : Type}

theorem objectOrder_perm (key : β → JsText) (members : List β) : (objectOrder key members).Perm members := by
  have hnone : (members.filter fun m => (arrayIndex (key m)).isNone) =
      members.filter fun m => !(arrayIndex (key m)).isSome :=
    List.filter_congr fun m _ => by rw [Option.not_isSome]
  rw [objectOrder, hnone]
  exact ((List.mergeSort_perm _ _).append_right _).trans (List.filter_append_perm _ _)

theorem objectOrder_map (key : γ → JsText) (f : β → γ) (members : List β) :
    objectOrder key (members.map f) = (objectOrder (fun m => key (f m)) members).map f := by
  rw [objectOrder, objectOrder, List.map_append, List.filter_map, List.filter_map]
  exact congrArg (· ++ _) (List.map_mergeSort (f := f) fun _ _ _ _ => rfl).symm

end Order

/-! ### The nodes of a run -/

section Nodes

open Forest (childrenOf childrenOf_append childrenOf_eq_nil)

variable {spans : List Span} {created : List JsText} {links : List (JsText × JsText)} {id p : JsText}

/-- A node with its links. -/
def linked (links : List (JsText × JsText)) (e : JsText × TraceTree) : JsText × TraceTree :=
  (e.1, { e.2 with children := childrenOf links e.1, isProcessed := decide (e.1 ∈ links.map Prod.fst) })

/-- The nodes of the spans and of the missing spans that have been created. -/
def nodesOf (spans : List Span) (created : List JsText) (links : List (JsText × JsText)) :
    List (JsText × TraceTree) :=
  (spans.map (fun span => (span.id, spanObject span)) ++ created.map fun id => (id, missingSpan)).map
    (linked links)

def namesOf (spans : List Span) (created : List JsText) : List JsText := spans.map Span.id ++ created

/-- The map of a run. -/
def mapOf (spans : List Span) (created : List JsText) (links : List (JsText × JsText)) : SpanMap :=
  ⟨nodesOf spans created links, none⟩

@[simp] theorem keys_mapOf : (mapOf spans created links).keys = namesOf spans created := by
  simp [SpanMap.keys, mapOf, nodesOf, namesOf, linked, Function.comp_def]

/-- The names of `Object.prototype`. -/
def inheritedNames : List JsText := prototypeKey :: methodNames

theorem read_mapOf (key : JsText) : (mapOf spans created links).read key =
    if key ∈ namesOf spans created then .node else if key ∈ inheritedNames then .other else .falsy := by
  rw [SpanMap.read, keys_mapOf]
  by_cases hnames : key ∈ namesOf spans created
  · rw [if_pos hnames, if_pos hnames]
  · rw [if_neg hnames, if_neg hnames]
    by_cases hproto : key = prototypeKey
    · have hinherited : key ∈ inheritedNames := by rw [hproto, inheritedNames]; exact List.mem_cons_self
      rw [if_pos hproto, if_pos hinherited]
      rfl
    · rw [if_neg hproto]
      simp [mapOf, inheritedNames, hproto]

theorem set_of_not_mem {members : List (JsText × TraceTree)} {key : JsText} {value : TraceTree}
    (h : key ∉ members.map Prod.fst) : set members key value = members ++ [(key, value)] := by
  induction members with
  | nil => rfl
  | cons member rest ih =>
    rw [List.map_cons, List.mem_cons, not_or] at h
    rw [JsValue.set, if_neg (Ne.symm h.1), ih h.2, List.cons_append]

/-- The links are between nodes. -/
def LinksAmong (names : List JsText) (links : List (JsText × JsText)) : Prop :=
  ∀ link ∈ links, link.1 ∈ names ∧ link.2 ∈ names

theorem addMissing_mapOf (hlinks : LinksAmong (namesOf spans created) links) (h : id ∉ namesOf spans created) :
    (mapOf spans created links).addMissing id = mapOf spans (created ++ [id]) links := by
  have hkey : id ∉ (nodesOf spans created links).map Prod.fst := by
    rw [show (nodesOf spans created links).map Prod.fst = namesOf spans created from keys_mapOf]
    exact h
  have hchild : id ∉ links.map Prod.fst := by
    rintro hmem
    obtain ⟨link, hlink, rfl⟩ := List.mem_map.mp hmem
    exact h (hlinks link hlink).1
  have hparent : id ∉ links.map Prod.snd := by
    rintro hmem
    obtain ⟨link, hlink, rfl⟩ := List.mem_map.mp hmem
    exact h (hlinks link hlink).2
  have hnode : linked links (id, missingSpan) = (id, missingSpan) := by
    rw [linked, childrenOf_eq_nil hparent, decide_eq_false hchild]
    rfl
  have hnodes : nodesOf spans (created ++ [id]) links = nodesOf spans created links ++ [(id, missingSpan)] := by
    simp only [nodesOf, List.map_append, List.map_cons, List.map_nil, hnode, List.append_assoc]
  rw [SpanMap.addMissing, mapOf, mapOf, set_of_not_mem hkey, hnodes]

/-- A span is linked to a node. -/
theorem update_mapOf (spanId parent : JsText) :
    ((mapOf spans created links).update spanId fun spanData => { spanData with isProcessed := true }).update parent
        (fun p => { p with children := p.children ++ [spanId] }) =
      mapOf spans created (links ++ [(spanId, parent)]) := by
  simp only [SpanMap.update, mapOf, nodesOf, List.map_map]
  refine congrArg (SpanMap.mk · none) (List.map_congr_left fun e _ => ?_)
  have hchildren : childrenOf (links ++ [(spanId, parent)]) e.1 =
      childrenOf links e.1 ++ if e.1 = parent then [spanId] else [] := by
    rw [childrenOf_append]
    refine congrArg (childrenOf links e.1 ++ ·) ?_
    by_cases h : e.1 = parent
    · simp [childrenOf, h]
    · simp [childrenOf, h, Ne.symm h]
  simp only [Function.comp_apply, linked, hchildren, List.map_append, List.mem_append, List.map_cons, List.map_nil,
    List.mem_singleton]
  obtain ⟨key, node⟩ := e
  by_cases hspan : key = spanId
  · subst hspan
    by_cases hparent : key = parent
    · simp [hparent]
    · simp [hparent]
  · by_cases hparent : key = parent
    · subst hparent
      simp [hspan]
    · simp [hspan, hparent]

end Nodes

/-! ### A run -/

section Run

variable {spans rest : List Span} {created : List JsText} {links : List (JsText × JsText)} {span : Span}
  {traceIds : List (Option JsText)} {ids : List JsText} {ref : Reference} {id : JsText}

/-- A span that a reference creates, as long as no node has its id. -/
def create (ids created : List JsText) (ref : Reference) : List JsText :=
  match ref.spanId with
  | some spanId =>
    if spanId ≠ [] ∧ spanId ∉ ids ++ created ∧ spanId ∉ inheritedNames then created ++ [spanId] else created
  | none => created

def createAll (ids created : List JsText) (span : Span) : List JsText :=
  span.childReferences.foldl (create ids) created

/-- A reference that does not lead to a name of `Object.prototype`. -/
def Reference.Leads (ids : List JsText) (ref : Reference) : Prop :=
  ref.parentKey ∈ ids ∨ ref.parentKey ∉ inheritedNames

instance (ids : List JsText) (ref : Reference) : Decidable (ref.Leads ids) := by
  unfold Reference.Leads; infer_instance

/-- The nodes that the references of a span lead to. -/
def parentsAmong (names : List JsText) (refs : List Reference) : List JsText :=
  (refs.map Reference.parentKey).filter fun key => key ∈ names

def linksTo (names : List JsText) (span : Span) : List (JsText × JsText) :=
  (parentsAmong names span.childReferences).map fun parent => (span.id, parent)

/-- The links of some spans, one after the other. -/
def linksOf (ids : List JsText) : List JsText → List Span → List (JsText × JsText)
  | _, [] => []
  | created, span :: rest =>
    linksTo (ids ++ createAll ids created span) span ++ linksOf ids (createAll ids created span) rest

theorem mem_create : id ∈ create ids created ref ↔
    id ∈ created ∨ ref.spanId = some id ∧ id ≠ [] ∧ id ∉ ids ∧ id ∉ inheritedNames := by
  unfold create
  cases hspanId : ref.spanId with
  | none => simp
  | some spanId =>
    by_cases h : spanId ≠ [] ∧ spanId ∉ ids ++ created ∧ spanId ∉ inheritedNames
    · have hids : spanId ∉ ids := fun hmem => h.2.1 (List.mem_append_left _ hmem)
      dsimp only
      rw [if_pos h, List.mem_append, List.mem_singleton]
      refine or_congr_right ⟨?_, fun hnew => (Option.some.inj hnew.1).symm⟩
      rintro rfl
      exact ⟨rfl, h.1, hids, h.2.2⟩
    · dsimp only
      rw [if_neg h, Option.some_inj]
      refine ⟨.inl, ?_⟩
      rintro (hmem | ⟨rfl, hne, hids, hinherited⟩)
      · exact hmem
      · by_contra hcreated
        exact h ⟨hne, fun hmem => (List.mem_append.mp hmem).elim hids hcreated, hinherited⟩

theorem mem_foldl_create {refs : List Reference} : id ∈ refs.foldl (create ids) created ↔
    id ∈ created ∨ (∃ ref ∈ refs, ref.spanId = some id) ∧ id ≠ [] ∧ id ∉ ids ∧ id ∉ inheritedNames := by
  induction refs generalizing created with
  | nil => simp
  | cons ref refs ih =>
    rw [List.foldl_cons, ih, mem_create, List.exists_mem_cons_iff, or_assoc, ← or_and_right]

theorem mem_foldl_createAll : id ∈ rest.foldl (createAll ids) created ↔ id ∈ created ∨
    (∃ span ∈ rest, ∃ ref ∈ span.childReferences, ref.spanId = some id) ∧
      id ≠ [] ∧ id ∉ ids ∧ id ∉ inheritedNames := by
  induction rest generalizing created with
  | nil => simp
  | cons span rest ih =>
    rw [List.foldl_cons, ih, createAll, mem_foldl_create, List.exists_mem_cons_iff, or_assoc, ← or_and_right]

theorem nodup_create (h : created.Nodup) : (create ids created ref).Nodup := by
  unfold create
  split
  · split
    · rename_i hnew
      refine List.nodup_append.mpr ⟨h, List.nodup_singleton _, ?_⟩
      rintro v hv w hw rfl
      rw [List.mem_singleton.mp hw] at hv
      exact hnew.2.1 (List.mem_append_right _ hv)
    · exact h
  · exact h

theorem nodup_foldl_createAll (h : created.Nodup) : (rest.foldl (createAll ids) created).Nodup := by
  have hrefs : ∀ (refs : List Reference) {created : List JsText}, created.Nodup →
      (refs.foldl (create ids) created).Nodup := by
    intro refs
    induction refs with
    | nil => exact id
    | cons ref refs ih => exact fun h => ih (nodup_create h)
  induction rest generalizing created with
  | nil => exact h
  | cons span rest ih => exact ih (hrefs _ h)

theorem createMissing_mapOf (ref : Reference) (hlinks : LinksAmong (namesOf spans created) links) :
    (mapOf spans created links).createMissing ref =
      mapOf spans (create (spans.map Span.id) created ref) links := by
  unfold SpanMap.createMissing create
  cases ref.spanId with
  | none => rfl
  | some spanId =>
    have hfalsy : (mapOf spans created links).read spanId = .falsy ↔
        spanId ∉ namesOf spans created ∧ spanId ∉ inheritedNames := by
      rw [read_mapOf]
      split
      · simp [*]
      · split
        · simp [*]
        · simp [*]
    by_cases h : spanId ≠ [] ∧ spanId ∉ namesOf spans created ∧ spanId ∉ inheritedNames
    · have hread : spanId ≠ [] ∧ (mapOf spans created links).read spanId = .falsy := ⟨h.1, hfalsy.mpr h.2⟩
      have hadd := addMissing_mapOf hlinks h.2.1
      exact (if_pos hread).trans (hadd.trans (congrArg (mapOf spans · links) (if_pos h).symm))
    · have hread : ¬ (spanId ≠ [] ∧ (mapOf spans created links).read spanId = .falsy) := fun hc =>
        h ⟨hc.1, hfalsy.mp hc.2⟩
      exact (if_neg hread).trans (congrArg (mapOf spans · links) (if_neg h).symm)

theorem createTraceRootSpan_mapOf (refs : List Reference) (hlinks : LinksAmong (namesOf spans created) links) :
    createTraceRootSpan ⟨mapOf spans created links, traceIds⟩ refs =
      ⟨mapOf spans (refs.foldl (create (spans.map Span.id)) created) links, refs.foldl addTraceId traceIds⟩ := by
  unfold createTraceRootSpan
  induction refs generalizing created traceIds with
  | nil => rfl
  | cons ref refs ih =>
    have hgrow : ∀ name, name ∈ namesOf spans created →
        name ∈ namesOf spans (create (spans.map Span.id) created ref) := fun name hname =>
      (List.mem_append.mp hname).elim (List.mem_append_left _) fun hname =>
        List.mem_append_right _ (mem_create.mpr (.inl hname))
    rw [List.foldl_cons, List.foldl_cons, List.foldl_cons, createMissing_mapOf ref hlinks]
    exact ih fun link hlink => ⟨hgrow _ (hlinks link hlink).1, hgrow _ (hlinks link hlink).2⟩

/-- A reference of a span leads to a node, to nothing, or to a name of `Object.prototype`. -/
theorem addToParent_mapOf (spanId : JsText) (ref : Reference) :
    addToParent spanId (mapOf spans created links) ref =
      if ref.parentKey ∈ namesOf spans created then
        .ok (mapOf spans created (links ++ [(spanId, ref.parentKey)]))
      else if ref.parentKey ∈ inheritedNames then .error .push else .ok (mapOf spans created links) := by
  rw [addToParent, read_mapOf]
  by_cases hnames : ref.parentKey ∈ namesOf spans created
  · rw [if_pos hnames, if_pos hnames]
    exact congrArg Except.ok (update_mapOf spanId ref.parentKey)
  · rw [if_neg hnames, if_neg hnames]
    by_cases hinherited : ref.parentKey ∈ inheritedNames
    · rw [if_pos hinherited, if_pos hinherited]
    · rw [if_neg hinherited, if_neg hinherited]

/-- A missing span is no name of `Object.prototype`, so that the spans decide what an inherited name leads to. -/
theorem leads_iff (hcreated : ∀ id ∈ created, id ∉ inheritedNames) :
    ref.Leads ids ↔ ref.Leads (ids ++ created) := by
  unfold Reference.Leads
  rw [List.mem_append]
  constructor
  · exact fun h => h.imp_left .inl
  · rintro ((h | h) | h)
    · exact .inl h
    · exact .inr (hcreated _ h)
    · exact .inr h

theorem foldlM_addToParent_mapOf (refs : List Reference) (spanId : JsText) :
    refs.foldlM (addToParent spanId) (mapOf spans created links) =
      if ∀ ref ∈ refs, ref.Leads (namesOf spans created) then
        .ok (mapOf spans created (links ++
          (parentsAmong (namesOf spans created) refs).map fun parent => (spanId, parent)))
      else .error .push := by
  induction refs generalizing links with
  | nil => simp [parentsAmong, pure, Except.pure]
  | cons ref refs ih =>
    rw [List.foldlM_cons, addToParent_mapOf]
    simp only [List.forall_mem_cons, parentsAmong, List.map_cons, List.filter_cons, decide_eq_true_eq]
    by_cases hnames : ref.parentKey ∈ namesOf spans created
    · have hleads : ref.Leads (namesOf spans created) := .inl hnames
      rw [if_pos hnames, if_pos hnames]
      refine ih.trans ?_
      simp only [hleads, true_and, List.append_assoc, List.map_cons]
      rfl
    · rw [if_neg hnames, if_neg hnames]
      by_cases hinherited : ref.parentKey ∈ inheritedNames
      · have hleads : ¬ ref.Leads (namesOf spans created) := not_or_intro hnames (not_not_intro hinherited)
        rw [if_pos hinherited, if_neg fun h => hleads h.1]
        rfl
      · have hleads : ref.Leads (namesOf spans created) := .inr hinherited
        rw [if_neg hinherited]
        refine ih.trans ?_
        simp only [hleads, true_and]
        rfl

theorem linksAmong_linksTo {names : List JsText} (h : span.id ∈ names) :
    LinksAmong names (linksTo names span) := by
  intro link hlink
  obtain ⟨parent, hparent, rfl⟩ := List.mem_map.mp hlink
  exact ⟨h, of_decide_eq_true (List.mem_filter.mp hparent).2⟩

theorem LinksAmong.mono {names names' : List JsText} (h : LinksAmong names links) (hsubset : names ⊆ names') :
    LinksAmong names' links := fun link hlink => ⟨hsubset (h link hlink).1, hsubset (h link hlink).2⟩

theorem subset_createAll : created ⊆ createAll ids created span := fun _ hmem => mem_foldl_create.mpr (.inl hmem)

theorem processSpan_mapOf (hlinks : LinksAmong (namesOf spans created) links)
    (hcreated : ∀ id ∈ created, id ∉ inheritedNames) :
    processSpan ⟨mapOf spans created links, traceIds⟩ (span.id, spanObject span) =
      if ∀ ref ∈ span.childReferences, ref.Leads (spans.map Span.id) then
        .ok ⟨mapOf spans (createAll (spans.map Span.id) created span)
            (links ++ linksTo (namesOf spans (createAll (spans.map Span.id) created span)) span),
          span.childReferences.foldl addTraceId traceIds⟩
      else .error .push := by
  have hcreated' : ∀ id ∈ createAll (spans.map Span.id) created span, id ∉ inheritedNames := fun id hid =>
    (mem_foldl_create.mp hid).elim (hcreated id) fun h => h.2.2.2
  change (do
    let st := createTraceRootSpan ⟨mapOf spans created links, traceIds⟩ span.childReferences
    let spanMap ← span.childReferences.foldlM (addToParent span.id) st.spanMap
    pure { st with spanMap := spanMap } : Except TypeError State) = _
  rw [createTraceRootSpan_mapOf _ hlinks]
  change (span.childReferences.foldlM (addToParent span.id)
      (mapOf spans (createAll (spans.map Span.id) created span) links) >>= fun spanMap =>
    pure ⟨spanMap, span.childReferences.foldl addTraceId traceIds⟩ : Except TypeError State) = _
  rw [foldlM_addToParent_mapOf]
  have hleads : (∀ ref ∈ span.childReferences, ref.Leads (spans.map Span.id)) ↔
      ∀ ref ∈ span.childReferences, ref.Leads (namesOf spans (createAll (spans.map Span.id) created span)) :=
    forall₂_congr fun ref _ => leads_iff hcreated'
  by_cases h : ∀ ref ∈ span.childReferences, ref.Leads (spans.map Span.id)
  · rw [if_pos h, if_pos (hleads.mp h)]
    rfl
  · rw [if_neg h, if_neg (mt hleads.mpr h)]
    rfl

/-- **What the references of some spans make**, where none of them leads to a name of `Object.prototype`. -/
theorem foldlM_processSpan (hrest : ∀ span ∈ rest, span ∈ spans)
    (hlinks : LinksAmong (namesOf spans created) links) (hcreated : ∀ id ∈ created, id ∉ inheritedNames) :
    (rest.map fun span => (span.id, spanObject span)).foldlM processSpan ⟨mapOf spans created links, traceIds⟩ =
      if ∀ span ∈ rest, ∀ ref ∈ span.childReferences, ref.Leads (spans.map Span.id) then
        .ok ⟨mapOf spans (rest.foldl (createAll (spans.map Span.id)) created)
            (links ++ linksOf (spans.map Span.id) created rest),
          (rest.flatMap Span.childReferences).foldl addTraceId traceIds⟩
      else .error .push := by
  induction rest generalizing created links traceIds with
  | nil => simp [linksOf, pure, Except.pure]
  | cons span rest ih =>
    obtain ⟨hspan, hrest⟩ := List.forall_mem_cons.mp hrest
    rw [List.map_cons, List.foldlM_cons, processSpan_mapOf hlinks hcreated]
    simp only [List.forall_mem_cons]
    by_cases h : ∀ ref ∈ span.childReferences, ref.Leads (spans.map Span.id)
    · rw [if_pos h]
      have hsubset : namesOf spans created ⊆ namesOf spans (createAll (spans.map Span.id) created span) := by
        intro name hname
        exact (List.mem_append.mp hname).elim (List.mem_append_left _) fun hname =>
          List.mem_append_right _ (subset_createAll hname)
      have hself : span.id ∈ namesOf spans (createAll (spans.map Span.id) created span) :=
        List.mem_append_left _ (List.mem_map_of_mem hspan)
      refine (ih hrest (fun link hlink => ?_) fun id hid => ?_).trans ?_
      · rcases List.mem_append.mp hlink with hlink | hlink
        · exact hlinks.mono hsubset link hlink
        · exact linksAmong_linksTo hself link hlink
      · exact (mem_foldl_create.mp hid).elim (hcreated id) fun h => h.2.2.2
      · by_cases hall : ∀ span ∈ rest, ∀ ref ∈ span.childReferences, ref.Leads (spans.map Span.id)
        · rw [if_pos hall, if_pos ⟨h, hall⟩, List.flatMap_cons, List.foldl_append, List.foldl_cons, linksOf,
            List.append_assoc]
          rfl
        · rw [if_neg hall, if_neg fun hc => hall hc.2]
    · rw [if_neg h, if_neg fun hall => h hall.1]
      rfl

theorem assign_mapOf (hnodup : ((spans ++ rest).map Span.id).Nodup)
    (hproto : ∀ span ∈ spans ++ rest, span.id ≠ prototypeKey) :
    rest.foldl SpanMap.assign (mapOf spans [] []) = mapOf (spans ++ rest) [] [] := by
  induction rest generalizing spans with
  | nil => rw [List.append_nil]; rfl
  | cons span rest ih =>
    have hspan : span.id ∉ (nodesOf spans [] []).map Prod.fst := by
      rw [show (nodesOf spans [] []).map Prod.fst = namesOf spans [] from keys_mapOf, namesOf, List.append_nil]
      rw [List.map_append, List.map_cons] at hnodup
      exact fun hmem => (List.nodup_append.mp hnodup).2.2 _ hmem _ List.mem_cons_self rfl
    have hne := hproto span (List.mem_append_right _ List.mem_cons_self)
    have hstep : (mapOf spans [] []).assign span = mapOf (spans ++ [span]) [] [] := by
      rw [SpanMap.assign, if_neg hne, mapOf, mapOf, set_of_not_mem hspan]
      simp [nodesOf, linked, spanObject, Forest.childrenOf]
    rw [List.append_cons] at hnodup hproto ⊢
    rw [List.foldl_cons, hstep, ih hnodup hproto]

end Run

/-! ### The roots -/

section Roots

variable {traceIds : List (Option JsText)} {forest forest' : TraceForest} {e : JsText × TraceTree}
  {es : List (JsText × TraceTree)} {spanId : JsText}

/-- How often a node is added to the roots. -/
def rootCount (traceIds : List (Option JsText)) (e : JsText × TraceTree) : Nat :=
  if e.2.isRoot then 1 else traceIds.length

/-- More roots, in one list or the other. -/
structure Grown (forest forest' : TraceForest) (added : List JsText) : Prop where
  nodes : forest'.nodes = forest.nodes
  roots : forest'.roots.Perm (forest.roots ++ added)

theorem Grown.trans {forest'' : TraceForest} {added added' : List JsText} (h : Grown forest forest' added)
    (h' : Grown forest' forest'' added') : Grown forest forest'' (added ++ added') where
  nodes := h'.nodes.trans h.nodes
  roots := h'.roots.trans ((h.roots.append_right added').trans (List.append_assoc _ _ _ ▸ List.Perm.refl _))

theorem Grown.refl (forest : TraceForest) : Grown forest forest [] :=
  ⟨rfl, (List.append_nil forest.roots).symm ▸ List.Perm.refl _⟩

theorem grown_spanTree : Grown forest { forest with spanTree := forest.spanTree ++ [spanId] } [spanId] where
  nodes := rfl
  roots := by
    simp only [TraceForest.roots, List.append_assoc]
    exact List.perm_append_comm.append_left _

theorem grown_missingSpanTree :
    Grown forest { forest with missingSpanTree := forest.missingSpanTree ++ [spanId] } [spanId] where
  nodes := rfl
  roots := by simp [TraceForest.roots]

theorem pushRoot_iff {traceId : Option JsText} : 
    (∃ forest', pushRoot spanId forest traceId = .ok forest') ↔ traceId ≠ none := by
  cases traceId with
  | none => simp [pushRoot]
  | some traceId =>
    simp only [pushRoot]
    split <;> simp

theorem grown_of_pushRoot {traceId : Option JsText} (h : pushRoot spanId forest traceId = .ok forest') :
    Grown forest forest' [spanId] := by
  cases traceId with
  | none => cases h
  | some traceId =>
    simp only [pushRoot] at h
    split at h
    · exact Except.ok.inj h ▸ grown_spanTree
    · exact Except.ok.inj h ▸ grown_missingSpanTree

theorem grown_of_pushRoots (h : traceIds.foldlM (pushRoot spanId) forest = .ok forest') :
    none ∉ traceIds ∧ Grown forest forest' (List.replicate traceIds.length spanId) := by
  induction traceIds generalizing forest with
  | nil => exact ⟨List.not_mem_nil, Except.ok.inj h ▸ Grown.refl forest⟩
  | cons traceId traceIds ih =>
    rw [List.foldlM_cons] at h
    obtain ⟨next, hnext, hrest⟩ := Fallible.bind_eq_ok h
    obtain ⟨hnone, hgrown⟩ := ih hrest
    exact ⟨List.not_mem_cons_of_ne_of_not_mem (pushRoot_iff.mp ⟨next, hnext⟩).symm hnone,
      (grown_of_pushRoot hnext).trans hgrown⟩

theorem exists_pushRoots (h : none ∉ traceIds) :
    ∃ forest', traceIds.foldlM (pushRoot spanId) forest = .ok forest' := by
  induction traceIds generalizing forest with
  | nil => exact ⟨forest, rfl⟩
  | cons traceId traceIds ih =>
    rw [List.mem_cons, not_or] at h
    obtain ⟨next, hnext⟩ := pushRoot_iff.mpr (Ne.symm h.1)
    obtain ⟨forest', hrest⟩ := ih h.2
    exact ⟨forest', by rw [List.foldlM_cons, hnext]; exact hrest⟩

theorem grown_of_addRoots (h : es.foldlM (addRoot traceIds) forest = .ok forest') :
    (∀ e ∈ es, e.2.isRoot = true ∨ none ∉ traceIds) ∧
      Grown forest forest' (es.flatMap fun e => List.replicate (rootCount traceIds e) e.1) := by
  induction es generalizing forest with
  | nil => exact ⟨fun _ he => absurd he List.not_mem_nil, Except.ok.inj h ▸ Grown.refl forest⟩
  | cons e es ih =>
    rw [List.foldlM_cons] at h
    obtain ⟨next, hnext, hrest⟩ := Fallible.bind_eq_ok h
    obtain ⟨hes, hgrown⟩ := ih hrest
    rw [List.forall_mem_cons, List.flatMap_cons, rootCount]
    unfold addRoot at hnext
    split at hnext
    · rename_i hroot
      rw [if_pos hroot]
      exact ⟨⟨.inl hroot, hes⟩, Grown.trans (Except.ok.inj hnext ▸ grown_spanTree) hgrown⟩
    · rename_i hroot
      rw [if_neg hroot]
      obtain ⟨hnone, hpushed⟩ := grown_of_pushRoots hnext
      exact ⟨⟨.inr hnone, hes⟩, hpushed.trans hgrown⟩

theorem exists_addRoots (forest : TraceForest) (h : ∀ e ∈ es, e.2.isRoot = true ∨ none ∉ traceIds) :
    ∃ forest', es.foldlM (addRoot traceIds) forest = .ok forest' := by
  induction es generalizing forest with
  | nil => exact ⟨forest, rfl⟩
  | cons e es ih =>
    obtain ⟨he, hes⟩ := List.forall_mem_cons.mp h
    have hnext : ∃ next, addRoot traceIds forest e = .ok next := by
      unfold addRoot
      split
      · exact ⟨_, rfl⟩
      · rename_i hroot
        exact exists_pushRoots (he.resolve_left hroot)
    obtain ⟨next, hnext⟩ := hnext
    obtain ⟨forest', hrest⟩ := ih next hes
    exact ⟨forest', by rw [List.foldlM_cons, hnext]; exact hrest⟩

end Roots

end SpanToTree

end Frontend
